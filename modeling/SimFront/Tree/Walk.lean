import SimFront.Tree.Node

/-!
# Listing the nodes of a tree

Two ways to list a node with everything below it.  `Node.preorder` recurses:
the node, then the listings of its children in order.  `Node.descendants` keeps
a stack of nodes still to visit.  Both end because the children of a node are
together smaller than the node (`totalSize_children`).
-/

namespace SimFront.Node

/-! ## Children are smaller -/

/-- Sum of the sizes of some nodes. -/
noncomputable def totalSize : List Node → Nat
  | [] => 0
  | n :: ns => sizeOf n + totalSize ns

@[simp] theorem totalSize_nil : totalSize [] = 0 := rfl

@[simp] theorem totalSize_cons (n : Node) (ns : List Node) :
    totalSize (n :: ns) = sizeOf n + totalSize ns := rfl

@[simp] theorem totalSize_append (ns ms : List Node) :
    totalSize (ns ++ ms) = totalSize ns + totalSize ms := by
  induction ns with
  | nil => exact (Nat.zero_add _).symm
  | cons n ns ih => rw [List.cons_append, totalSize_cons, totalSize_cons, ih, Nat.add_assoc]

theorem sizeOf_le_totalSize {n : Node} {ns : List Node} (h : n ∈ ns) :
    sizeOf n ≤ totalSize ns := by
  induction ns with
  | nil => cases h
  | cons m ms ih =>
    rw [totalSize_cons]
    cases h with
    | head => omega
    | tail _ h => have := ih h; omega

theorem sizeOf_list_pos {α : Type} [SizeOf α] (l : List α) : 0 < sizeOf l := by
  cases l with
  | nil => exact Nat.zero_lt_one
  | cons x xs =>
    rw [List.cons.sizeOf_spec]
    omega

theorem totalSize_map {α : Type} [SizeOf α] (f : α → Node)
    (hf : ∀ x, sizeOf (f x) = 1 + sizeOf x) (l : List α) :
    totalSize (l.map f) = sizeOf l - 1 := by
  induction l with
  | nil => rfl
  | cons x xs ih =>
    have := sizeOf_list_pos xs
    simp only [List.map_cons, totalSize_cons, hf, List.cons.sizeOf_spec]
    omega

theorem sizeOf_toList_le {α : Type} [SizeOf α] (o : Option α) :
    sizeOf o.toList ≤ sizeOf o + 1 := by
  cases o <;> simp

theorem sizeOf_span_pos (s : Span) : 0 < sizeOf s := by
  cases s
  simp only [Span.mk.sizeOf_spec]
  omega

theorem totalSize_ofBlock? (b : Option (List Stmt)) : totalSize (ofBlock? b) ≤ sizeOf b := by
  cases b with
  | none => simp [ofBlock?]
  | some l =>
    have := totalSize_map .stmt (fun _ => rfl) l
    simp only [ofBlock?, Option.getD_some, Option.some.sizeOf_spec]
    omega

theorem totalSize_childrenOfDecl (d : Decl) :
    totalSize (childrenOfDecl d) < sizeOf (Node.decl d) := by
  rcases d with ⟨⟨name, type, span⟩⟩ | ⟨⟨name, type, value, span⟩⟩ | ⟨⟨names, type, init, span⟩⟩ |
    ⟨⟨heading, locals, body, fwd, span⟩⟩ | ⟨⟨name, methods, span⟩⟩
  · simp [childrenOfDecl]; omega
  · have := sizeOf_toList_le type
    simp [childrenOfDecl, totalSize_map]; omega
  · have := sizeOf_toList_le init
    simp [childrenOfDecl, totalSize_map]; omega
  · have := sizeOf_list_pos locals
    simp [childrenOfDecl, totalSize_map]; omega
  · have := sizeOf_list_pos methods
    simp [childrenOfDecl, totalSize_map]; omega

theorem totalSize_childrenOfType (t : TypeSpec) :
    totalSize (childrenOfType t) < sizeOf (Node.typeSpec t) := by
  rcases t with name | ⟨indices, element, span⟩ | ⟨fields, span⟩ | ⟨target, span⟩ |
    ⟨element, span⟩ | ⟨values, span⟩ | ⟨low, high, span⟩ | ⟨params, result, span⟩ |
    ⟨⟨bases, sections, span⟩⟩
  case procedure =>
    have := sizeOf_toList_le result
    simp [childrenOfType, totalSize_map]; omega
  case subrange =>
    have := sizeOf_span_pos span
    simp [childrenOfType]; omega
  all_goals simp [childrenOfType, totalSize_map] <;> omega

theorem totalSize_childrenOfStmt (s : Stmt) :
    totalSize (childrenOfStmt s) < sizeOf (Node.stmt s) := by
  cases s with
  | if_ branches orElse span =>
    have := totalSize_ofBlock? orElse
    simp [childrenOfStmt, totalSize_map]; omega
  | for_ var first direction last step body span =>
    have := sizeOf_toList_le step
    have := sizeOf_list_pos body
    have := sizeOf_span_pos span
    simp [childrenOfStmt, totalSize_map]; omega
  | case selector arms otherwise span =>
    have := totalSize_ofBlock? otherwise
    simp [childrenOfStmt, totalSize_map]; omega
  | return_ value span =>
    have := sizeOf_toList_le value
    simp [childrenOfStmt, totalSize_map]; omega
  | tell call delay span =>
    have := sizeOf_toList_le delay
    simp [childrenOfStmt, totalSize_map]; omega
  | wait subject body interrupt span =>
    have := totalSize_ofBlock? interrupt
    have := sizeOf_list_pos body
    cases subject <;> simp [childrenOfStmt, ofWaitSubject, totalSize_map] <;> omega
  | while_ condition body span =>
    have := sizeOf_list_pos body
    simp [childrenOfStmt, totalSize_map]; omega
  | forEach var group body span =>
    have := sizeOf_list_pos body
    simp [childrenOfStmt, totalSize_map]; omega
  | repeat_ body condition span =>
    have := sizeOf_list_pos body
    simp [childrenOfStmt, totalSize_map]; omega
  | inherited method args span =>
    have := sizeOf_list_pos args
    simp [childrenOfStmt, totalSize_map]; omega
  | with_ subject body span =>
    have := sizeOf_list_pos body
    simp [childrenOfStmt, totalSize_map]; omega
  | assign target value span =>
    have := sizeOf_span_pos span
    simp [childrenOfStmt]; omega
  | _ => simp [childrenOfStmt, totalSize_map] <;> omega

theorem totalSize_childrenOfExpr (e : Expr) :
    totalSize (childrenOfExpr e) < sizeOf (Node.expr e) := by
  cases e with
  | call callee args span =>
    have := sizeOf_list_pos args
    simp [childrenOfExpr, totalSize_map]; omega
  | index base indices span =>
    have := sizeOf_list_pos indices
    simp [childrenOfExpr, totalSize_map]; omega
  | inherited method args span =>
    have := sizeOf_list_pos args
    simp [childrenOfExpr, totalSize_map]; omega
  | binary op left right span =>
    have := sizeOf_span_pos span
    simp [childrenOfExpr]; omega
  | field base name span =>
    have := sizeOf_span_pos span
    simp [childrenOfExpr]; omega
  | range low high span =>
    have := sizeOf_span_pos span
    simp [childrenOfExpr]; omega
  | _ => simp [childrenOfExpr, totalSize_map] <;> omega

theorem totalSize_map_ofMember (ms : List ObjectMember) :
    totalSize (ms.map ofMember) ≤ sizeOf ms := by
  induction ms with
  | nil => simp
  | cons m ms ih => cases m <;> simp [ofMember] <;> omega

/-- The children of a node are together smaller than the node. -/
theorem totalSize_children (n : Node) : totalSize n.children < sizeOf n := by
  cases n with
  | module m =>
    obtain ⟨kind, name, imports, exports, decls, body, span⟩ := m
    have := totalSize_ofBlock? body
    have := sizeOf_list_pos imports
    have := sizeOf_list_pos exports
    have := sizeOf_list_pos decls
    simp [children, totalSize_map]; omega
  | «import» i =>
    cases i with
    | names m items span =>
      have := sizeOf_list_pos items
      simp [children, totalSize_map]; omega
    | modules ms span => simp [children, totalSize_map]; omega
  | importItem i =>
    obtain ⟨name, asName, all, span⟩ := i
    have := sizeOf_toList_le asName
    simp [children, totalSize_map]; omega
  | «export» e =>
    obtain ⟨names, span⟩ := e
    simp [children, totalSize_map]; omega
  | decl d => exact totalSize_childrenOfDecl d
  | procHeading h =>
    obtain ⟨name, params, result, span⟩ := h
    have := sizeOf_toList_le result
    simp [children, totalSize_map]; omega
  | param p =>
    obtain ⟨mode, names, type, span⟩ := p
    have := sizeOf_list_pos names
    simp [children, totalSize_map]; omega
  | methodHeading h =>
    obtain ⟨dispatch, name, params, result, span⟩ := h
    have := sizeOf_toList_le result
    simp [children, totalSize_map]; omega
  | methodImpl m =>
    obtain ⟨heading, locals, body, span⟩ := m
    have := sizeOf_list_pos locals
    simp [children, totalSize_map]; omega
  | typeSpec t => exact totalSize_childrenOfType t
  | arrayIndex i =>
    cases i with
    | range low high span =>
      have := sizeOf_span_pos span
      simp [children]; omega
    | type name => simp [children]
  | fieldDecl f =>
    obtain ⟨names, type, span⟩ := f
    have := sizeOf_list_pos names
    simp [children, totalSize_map]; omega
  | objectSection s =>
    obtain ⟨kind, members, span⟩ := s
    have := totalSize_map_ofMember members
    simp [children]; omega
  | stmt s => exact totalSize_childrenOfStmt s
  | condBranch b =>
    obtain ⟨condition, body, span⟩ := b
    have := sizeOf_list_pos body
    simp [children, totalSize_map]; omega
  | caseArm a =>
    obtain ⟨labels, body, span⟩ := a
    have := sizeOf_list_pos labels
    simp [children, totalSize_map]; omega
  | methodCall c =>
    obtain ⟨target, method, args, span⟩ := c
    have := sizeOf_list_pos args
    simp [children, totalSize_map]; omega
  | expr e => exact totalSize_childrenOfExpr e
  | ident i =>
    rw [Node.ident.sizeOf_spec]
    simp only [children, totalSize_nil]
    omega
  | qualIdent q =>
    obtain ⟨m, name, span⟩ := q
    have := sizeOf_toList_le m
    simp [children, totalSize_map]; omega

theorem sizeOf_lt_of_mem_children {n c : Node} (h : c ∈ n.children) : sizeOf c < sizeOf n :=
  Nat.lt_of_le_of_lt (sizeOf_le_totalSize h) (totalSize_children n)

/-! ## The listings -/

/-- A node at depth `d` and everything below it, each with its depth, in pre-order. -/
def preorderFrom (d : Nat) (n : Node) : List (Nat × Node) :=
  (d, n) :: n.children.attach.flatMap fun c => preorderFrom (d + 1) c.1
termination_by sizeOf n
decreasing_by exact sizeOf_lt_of_mem_children c.2

/-- A node and everything below it, in pre-order. -/
def preorder (n : Node) : List Node := (preorderFrom 0 n).map (·.2)

/-- The nodes on the stack and everything below them. -/
def descendantsOf : List Node → List Node
  | [] => []
  | n :: rest => n :: descendantsOf (n.children ++ rest)
termination_by stack => totalSize stack
decreasing_by
  have := totalSize_children n
  simp only [totalSize_append, totalSize_cons]
  omega

/-- A node and everything below it, listed with a stack of nodes to visit. -/
def descendants (n : Node) : List Node := descendantsOf [n]

/-- What a tree looks like from outside: depth, label and span of each node in pre-order. -/
def rows (n : Node) : List (Nat × Label × Span) :=
  (preorderFrom 0 n).map fun (d, n) => (d, n.label, n.span)

end SimFront.Node

namespace SimFront

/-- Two modules are equal when their trees list the same rows. -/
instance : BEq Module := ⟨fun a b => (Node.module a).rows == (Node.module b).rows⟩

end SimFront
