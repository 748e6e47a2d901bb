import SimFront.Proofs.Symbol.ScopeTree
import SimFront.Proofs.Tree.Nested

/-!
# The scopes of a module as it is written

Types with members, routines and implementations of objects have scopes.  The types in some
declarations open theirs first, also those in headings of routines, and the bodies of the
declarations after all of them (`Decl.blockScopes`).  In a module that is nested and in
sequence they make a tidy tree (`Module.scopeTree_tidy`): a scope of a heading lies within the
one of its routine, which is opened later, and beside everything below that.  All its spans
are those of nodes of the module (`Module.scopeTree_marks`).
-/

namespace SimFront

open ScopeTree (Fits)

namespace Node

/-! ## Types -/

/-- Types with members have a scope of their own. -/
def hasScope : Node → Bool
  | .typeSpec (.record ..) | .typeSpec (.object _) => true
  | _ => false

/-- The scopes of the types in a tree. -/
def scopes (n : Node) : List ScopeTree :=
  let below := n.children.attach.flatMap fun c => scopes c.1
  if n.hasScope then [.node n.span below] else below
termination_by sizeOf n
decreasing_by exact sizeOf_lt_of_mem_children c.2

theorem scopes_eq (n : Node) : n.scopes =
    if n.hasScope then [.node n.span (n.children.flatMap scopes)]
    else n.children.flatMap scopes := by
  have hbelow : n.children.attach.flatMap (fun c => scopes c.1) = n.children.flatMap scopes := by
    conv_rhs => rw [← List.attach_map_subtype_val n.children, List.flatMap_map]
  conv_lhs => rw [scopes]
  rw [hbelow]

/-- Nodes that no types stand in. -/
def isPlain : Node → Bool
  | .expr _ | .ident _ | .qualIdent _ | .methodCall _ | .arrayIndex _ => true
  | _ => false

theorem isPlain_children {n : Node} (h : n.isPlain) : n.children.all isPlain := by
  cases n with
  | expr e => cases e <;> simp [children, childrenOfExpr, isPlain]
  | arrayIndex i => cases i <;> simp [children, isPlain]
  | ident i => rfl
  | qualIdent q => simp [children, isPlain]
  | methodCall c => simp [children, isPlain]
  | _ => cases h

theorem scopes_of_isPlain {n : Node} (h : n.isPlain) : n.scopes = [] := by
  induction hsize : sizeOf n using Nat.strongRecOn generalizing n with
  | ind k ih =>
    subst hsize
    have hscope : n.hasScope = false := by
      cases n <;> first | rfl | cases h
    rw [scopes_eq, hscope, if_neg Bool.false_ne_true]
    refine List.flatMap_eq_nil_iff.2 fun c hc => ih _ (sizeOf_lt_of_mem_children hc) ?_ rfl
    exact List.all_eq_true.1 (isPlain_children h) c hc

theorem flatMap_scopes_of_isPlain {ns : List Node} (h : ∀ n ∈ ns, n.isPlain) :
    ns.flatMap scopes = [] :=
  List.flatMap_eq_nil_iff.2 fun n hn => scopes_of_isPlain (h n hn)

/-- Plain nodes in front of others count for nothing. -/
theorem flatMap_scopes_map {α : Type} {f : α → Node} (h : ∀ a, (f a).isPlain) (as : List α)
    (ns : List Node) : (as.map f ++ ns).flatMap scopes = ns.flatMap scopes := by
  rw [List.flatMap_append, flatMap_scopes_of_isPlain (List.forall_mem_map.2 fun a _ => h a),
    List.nil_append]

variable {n : Node} {ns : List Node}

theorem scopes_through (h : n.hasScope = false) (hchildren : n.children = ns) :
    n.scopes = ns.flatMap scopes := by
  rw [scopes_eq, h, if_neg Bool.false_ne_true, hchildren]

theorem scopes_around (h : n.hasScope = true) (hchildren : n.children = ns) :
    n.scopes = [.node n.span (ns.flatMap scopes)] := by
  rw [scopes_eq, if_pos h, hchildren]

theorem scopes_param (p : Param) : (Node.param p).scopes = (Node.typeSpec p.type).scopes := by
  rw [scopes_through rfl rfl, children, flatMap_scopes_map (fun _ => rfl), List.flatMap_singleton]

theorem scopes_fieldDecl (d : FieldDecl) :
    (Node.fieldDecl d).scopes = (Node.typeSpec d.type).scopes := by
  rw [scopes_through rfl rfl, children, flatMap_scopes_map (fun _ => rfl), List.flatMap_singleton]

/-- The scopes of a signature are those of its parameters and of its result. -/
def signatureScopes (params : List Param) (result : Option TypeSpec) : List ScopeTree :=
  (params.map Node.param).flatMap scopes ++ (result.toList.map Node.typeSpec).flatMap scopes

theorem scopes_methodHeading (h : MethodHeading) :
    (Node.methodHeading h).scopes = signatureScopes h.params h.result := by
  rw [scopes_through rfl rfl, children, List.flatMap_cons,
    scopes_of_isPlain (n := .ident h.name) rfl, List.nil_append, List.flatMap_append]
  rfl

theorem scopes_procHeading (h : ProcHeading) :
    (Node.procHeading h).scopes = signatureScopes h.params h.result := by
  rw [scopes_through rfl rfl, children, List.flatMap_cons,
    scopes_of_isPlain (n := .ident h.name) rfl, List.nil_append, List.flatMap_append]
  rfl

/-- A tree that is nested and in sequence all over. -/
structure Orderly (n : Node) : Prop where
  nested : Nested n
  sequence : ∀ k ∈ n.preorder, InSequence k.children

namespace Orderly

variable {n c : Node}

theorem child (h : n.Orderly) (hc : c ∈ n.children) : c.Orderly :=
  ⟨h.nested.of_preorder c (mem_preorder_of_child hc (mem_preorder_self c)),
    fun k hk => h.sequence k (mem_preorder_of_child hc hk)⟩

theorem covers (h : n.Orderly) (hc : c ∈ n.children) : n.span.containsSpan c.span :=
  h.nested.covers_preorder c (mem_preorder_of_child hc (mem_preorder_self c))

theorem children_sequence (h : n.Orderly) : InSequence n.children :=
  h.sequence n (mem_preorder_self n)

/-- The types in a tree have their scopes one behind the other. -/
theorem fits (h : n.Orderly) : Fits n.span n.scopes := by
  induction hsize : sizeOf n using Nat.strongRecOn generalizing n with
  | ind k ih =>
    subst hsize
    have hbelow : Fits n.span (n.children.flatMap scopes) :=
      Fits.flatMap (fun c hc => h.covers hc) h.children_sequence fun c hc =>
        ih _ (sizeOf_lt_of_mem_children hc) (h.child hc) rfl
    rw [scopes_eq]
    split
    · exact hbelow.single
    · exact hbelow

end Orderly

end Node

/-! ## Declarations and bodies -/

namespace Decl

/-- The scopes that are opened when a declaration brings in its names. -/
def headScopes : Decl → List ScopeTree
  | .procedure d => (Node.procHeading d.heading).scopes
  | .objectImpl _ => []
  | d => (Node.decl d).scopes

mutual

/-- The scopes that are opened when the bodies in a declaration are checked. -/
def bodyScopes : Decl → List ScopeTree
  | .procedure ⟨_, locals, _, isForward, span⟩ =>
    if isForward then [] else [.node span (locals.flatMap headScopes ++ allBodyScopes locals)]
  | .objectImpl ⟨_, methods, span⟩ => [.node span (allMethodScopes methods)]
  | .type _ | .const _ | .var _ => []

def allBodyScopes : List Decl → List ScopeTree
  | [] => []
  | d :: ds => bodyScopes d ++ allBodyScopes ds

def methodScopes : MethodImpl → List ScopeTree
  | ⟨heading, locals, _, span⟩ =>
    (Node.methodHeading heading).scopes ++
      [.node span (locals.flatMap headScopes ++ allBodyScopes locals)]

def allMethodScopes : List MethodImpl → List ScopeTree
  | [] => []
  | m :: ms => methodScopes m ++ allMethodScopes ms

end

/-- The scopes of some declarations. -/
def blockScopes (ds : List Decl) : List ScopeTree := ds.flatMap headScopes ++ allBodyScopes ds

theorem allBodyScopes_eq (ds : List Decl) : allBodyScopes ds = ds.flatMap bodyScopes := by
  induction ds with
  | nil => rw [allBodyScopes, List.flatMap_nil]
  | cons d ds ih => rw [allBodyScopes, ih, List.flatMap_cons]

theorem allMethodScopes_eq (ms : List MethodImpl) :
    allMethodScopes ms = ms.flatMap methodScopes := by
  induction ms with
  | nil => rw [allMethodScopes, List.flatMap_nil]
  | cons m ms ih => rw [allMethodScopes, ih, List.flatMap_cons]

variable {n c : Node} {locals : List Decl} {rest : List Node} {span : Span}

theorem block_fits {ds : List Decl} (hplace : ∀ d ∈ ds, span.containsSpan d.span)
    (horder : ds.Pairwise fun a b => a.span.stop ≤ b.span.start)
    (hfits : ∀ d ∈ ds, Fits d.span (d.headScopes ++ d.bodyScopes)) :
    Fits span (blockScopes ds) := by
  unfold blockScopes
  rw [allBodyScopes_eq]
  exact Fits.twice hplace horder hfits

/-- The scopes of a heading, and behind them the one of its routine, which lies around them. -/
theorem routine_fits (h : n.Orderly) (hchildren : n.children = c :: (locals.map .decl ++ rest))
    (hfits : ∀ d ∈ locals, Fits d.span (d.headScopes ++ d.bodyScopes)) :
    Fits n.span (c.scopes ++ [.node n.span (blockScopes locals)]) := by
  have hc : c ∈ n.children := by
    rw [hchildren]
    exact List.mem_cons_self
  have hlocal {d : Decl} (hd : d ∈ locals) : .decl d ∈ n.children := by
    rw [hchildren]
    exact List.mem_cons_of_mem c (List.mem_append_left rest (List.mem_map_of_mem hd))
  have hsequence := h.children_sequence
  rw [hchildren] at hsequence
  obtain ⟨hfirst, hothers⟩ := List.pairwise_cons.1 hsequence
  have hcover := Span.containsSpan_iff.1 (h.covers hc)
  have hheading : Fits c.span c.scopes := (h.child hc).fits
  -- what the routine declares stands behind its heading
  have hinside : Fits ⟨c.span.stop, n.span.stop⟩ (blockScopes locals) := by
    refine block_fits (fun d hd => Span.containsSpan_iff.2 ⟨?_, ?_⟩)
      (List.pairwise_map.1 (List.pairwise_append.1 hothers).1) hfits
    · exact hfirst _ (List.mem_append_left rest (List.mem_map_of_mem hd))
    · exact (Span.containsSpan_iff.1 (h.covers (hlocal hd))).2
  have hwide : Fits n.span (blockScopes locals) := hinside.widen (Span.containsSpan_iff.2
    ⟨le_trans hcover.1 (h.child hc).nested.ordered, le_refl n.span.stop⟩)
  have hbody : Fits n.span [.node n.span (blockScopes locals)] := hwide.single
  have hwhole := hheading.widen (h.covers hc)
  refine ⟨fun s hs => ?_, List.pairwise_append.2 ⟨hwhole.passes, hbody.passes, ?_⟩,
    fun tree htree => (List.mem_append.1 htree).elim (hwhole.tidy tree) (hbody.tidy tree)⟩
  · rw [ScopeTree.allSpans_append] at hs
    exact (List.mem_append.1 hs).elim (hwhole.covers s) (hbody.covers s)
  · intro a ha b hb s hs
    rw [List.mem_singleton.1 hb] at hs
    have hstop := (Span.containsSpan_iff.1 (hheading.mem_covers ha a.span_mem_spans)).2
    rcases List.mem_cons.1 hs with rfl | hs
    · exact .inr (.inr (hwhole.mem_covers ha a.span_mem_spans))
    · exact .inl (le_trans hstop (Span.containsSpan_iff.1 (hinside.covers s hs)).1)

mutual

theorem decl_fits : ∀ d : Decl, (Node.decl d).Orderly → Fits d.span (d.headScopes ++ d.bodyScopes)
  | .procedure ⟨heading, locals, body, isForward, span⟩, h => by
    have hlocals := decls_fit locals fun d hd => h.child (c := .decl d)
      (List.mem_cons_of_mem _ (List.mem_append_left _ (List.mem_map_of_mem hd)))
    have hheading : (Node.procHeading heading).Orderly := h.child List.mem_cons_self
    rw [bodyScopes]
    split
    · rw [List.append_nil]
      exact hheading.fits.widen (h.covers List.mem_cons_self)
    · exact routine_fits h rfl hlocals
  | .objectImpl ⟨name, methods, span⟩, h => by
    have hchild {m : MethodImpl} (hm : m ∈ methods) : .methodImpl m ∈
        (Node.decl (.objectImpl ⟨name, methods, span⟩)).children :=
      List.mem_cons_of_mem _ (List.mem_map_of_mem hm)
    have hmethods := methods_fit methods fun m hm => h.child (hchild hm)
    rw [bodyScopes, allMethodScopes_eq]
    refine (Fits.flatMap (fun m hm => h.covers (hchild hm)) ?_ hmethods).single
    exact List.pairwise_map.1 (List.pairwise_cons.1 h.children_sequence).2
  | .type _, h | .const _, h | .var _, h => by
    rw [bodyScopes, List.append_nil]
    exact h.fits

theorem decls_fit : ∀ ds : List Decl, (∀ d ∈ ds, (Node.decl d).Orderly) →
    ∀ d ∈ ds, Fits d.span (d.headScopes ++ d.bodyScopes)
  | [], _ => List.forall_mem_nil _
  | d :: ds, h => List.forall_mem_cons.2
    ⟨decl_fits d (h d List.mem_cons_self),
      decls_fit ds fun e he => h e (List.mem_cons_of_mem d he)⟩

theorem method_fits : ∀ m : MethodImpl, (Node.methodImpl m).Orderly →
    Fits m.span (methodScopes m)
  | ⟨heading, locals, body, span⟩, h => by
    have hlocals := decls_fit locals fun d hd => h.child (c := .decl d)
      (List.mem_cons_of_mem _ (List.mem_append_left _ (List.mem_map_of_mem hd)))
    rw [methodScopes]
    exact routine_fits h rfl hlocals

theorem methods_fit : ∀ ms : List MethodImpl, (∀ m ∈ ms, (Node.methodImpl m).Orderly) →
    ∀ m ∈ ms, Fits m.span (methodScopes m)
  | [], _ => List.forall_mem_nil _
  | m :: ms, h => List.forall_mem_cons.2
    ⟨method_fits m (h m List.mem_cons_self),
      methods_fit ms fun e he => h e (List.mem_cons_of_mem m he)⟩

end

end Decl

/-! ## The nodes that have scopes -/

namespace Node

open ScopeTree (allSpans)

/-- These trees are made of spans of nodes. -/
def Marks (n : Node) (F : List ScopeTree) : Prop :=
  ∀ s ∈ allSpans F, ∃ k ∈ n.preorder, k.span = s

namespace Marks

variable {n c : Node} {F G : List ScopeTree}

theorem nil (n : Node) : n.Marks [] := List.forall_mem_nil _

theorem of_child (hc : c ∈ n.children) (h : c.Marks F) : n.Marks F := fun s hs =>
  let ⟨k, hk, hspan⟩ := h s hs
  ⟨k, mem_preorder_of_child hc hk, hspan⟩

theorem append_iff : n.Marks (F ++ G) ↔ n.Marks F ∧ n.Marks G := by
  unfold Marks
  rw [ScopeTree.allSpans_append, List.forall_mem_append]

theorem single (h : n.Marks F) : n.Marks [.node n.span F] := by
  intro s hs
  rw [allSpans, allSpans, List.append_nil, ScopeTree.spans] at hs
  rcases List.mem_cons.1 hs with rfl | hs
  · exact ⟨n, mem_preorder_self n, rfl⟩
  · exact h s hs

theorem flatMap {α : Type} {as : List α} {view : α → List ScopeTree}
    (h : ∀ a ∈ as, n.Marks (view a)) : n.Marks (as.flatMap view) := by
  induction as with
  | nil => exact nil n
  | cons a as ih =>
    obtain ⟨ha, has⟩ := List.forall_mem_cons.1 h
    rw [List.flatMap_cons]
    exact append_iff.2 ⟨ha, ih has⟩

theorem scopes (n : Node) : n.Marks n.scopes := by
  induction hsize : sizeOf n using Nat.strongRecOn generalizing n with
  | ind k ih =>
    subst hsize
    have hbelow : n.Marks (n.children.flatMap Node.scopes) :=
      flatMap fun c hc => (ih _ (sizeOf_lt_of_mem_children hc) c rfl).of_child hc
    rw [scopes_eq]
    split
    · exact hbelow.single
    · exact hbelow

theorem block {ds : List Decl} (h : ∀ d ∈ ds, n.Marks (d.headScopes ++ d.bodyScopes)) :
    n.Marks (Decl.blockScopes ds) := by
  unfold Decl.blockScopes
  rw [Decl.allBodyScopes_eq]
  exact append_iff.2 ⟨flatMap fun d hd => (append_iff.1 (h d hd)).1,
    flatMap fun d hd => (append_iff.1 (h d hd)).2⟩

end Marks

mutual

theorem decl_marks : ∀ d : Decl, (Node.decl d).Marks (d.headScopes ++ d.bodyScopes)
  | .procedure ⟨heading, locals, body, isForward, span⟩ => by
    have hheading := (Marks.scopes (.procHeading heading)).of_child
      (n := .decl (.procedure ⟨heading, locals, body, isForward, span⟩)) List.mem_cons_self
    refine Marks.append_iff.2 ⟨hheading, ?_⟩
    rw [Decl.bodyScopes]
    split
    · exact .nil _
    · refine Marks.single (.block fun d hd => (decls_mark locals d hd).of_child ?_)
      exact List.mem_cons_of_mem _ (List.mem_append_left _ (List.mem_map_of_mem hd))
  | .objectImpl ⟨name, methods, span⟩ => by
    rw [Decl.bodyScopes, Decl.allMethodScopes_eq]
    refine Marks.single (.flatMap fun m hm => (methods_mark methods m hm).of_child ?_)
    exact List.mem_cons_of_mem _ (List.mem_map_of_mem hm)
  | .type d => by
    rw [Decl.bodyScopes, List.append_nil]
    exact Marks.scopes (.decl (.type d))
  | .const d => by
    rw [Decl.bodyScopes, List.append_nil]
    exact Marks.scopes (.decl (.const d))
  | .var d => by
    rw [Decl.bodyScopes, List.append_nil]
    exact Marks.scopes (.decl (.var d))

theorem decls_mark : ∀ ds : List Decl, ∀ d ∈ ds, (Node.decl d).Marks (d.headScopes ++ d.bodyScopes)
  | [] => List.forall_mem_nil _
  | d :: ds => List.forall_mem_cons.2 ⟨decl_marks d, decls_mark ds⟩

theorem method_marks : ∀ m : MethodImpl, (Node.methodImpl m).Marks (Decl.methodScopes m)
  | ⟨heading, locals, body, span⟩ => by
    have hheading := (Marks.scopes (.methodHeading heading)).of_child
      (n := .methodImpl ⟨heading, locals, body, span⟩) List.mem_cons_self
    rw [Decl.methodScopes]
    refine Marks.append_iff.2 ⟨hheading, Marks.single (.block fun d hd =>
      (decls_mark locals d hd).of_child ?_)⟩
    exact List.mem_cons_of_mem _ (List.mem_append_left _ (List.mem_map_of_mem hd))

theorem methods_mark : ∀ ms : List MethodImpl, ∀ m ∈ ms,
    (Node.methodImpl m).Marks (Decl.methodScopes m)
  | [] => List.forall_mem_nil _
  | m :: ms => List.forall_mem_cons.2 ⟨method_marks m, methods_mark ms⟩

end

end Node

/-! ## Modules -/

/-- The scope of a module, and those of its declarations. -/
def Module.scopeTree (m : Module) : ScopeTree := .node m.span (Decl.blockScopes m.decls)

theorem Module.scopeTree_marks (m : Module) : (Node.module m).Marks [m.scopeTree] := by
  refine Node.Marks.single (.block fun d hd => (Node.decl_marks d).of_child ?_)
  exact List.mem_cons_of_mem _
    (List.mem_append_left _ (List.mem_append_right _ (List.mem_map_of_mem hd)))

theorem Module.scopeTree_tidy {m : Module} (hnested : Nested (.module m))
    (hsequenced : Sequenced (.module m)) : m.scopeTree.Tidy := by
  have hchild {d : Decl} (hd : d ∈ m.decls) : .decl d ∈ (Node.module m).children :=
    List.mem_cons_of_mem _ <|
      List.mem_append_left _ (List.mem_append_right _ (List.mem_map_of_mem hd))
  obtain ⟨items, hitems, hsequence⟩ := hsequenced.items
  have horder : (m.decls.map Node.decl).Pairwise fun a b => a.span.stop ≤ b.span.start :=
    (List.pairwise_append.1 (List.pairwise_cons.1 hsequence).2).1.sublist hitems.decls
  refine (Decl.block_fits (fun d hd => ?_) (List.pairwise_map.1 horder) ?_).node
  · exact hnested.covers_preorder _
      (Node.mem_preorder_of_child (hchild hd) (Node.mem_preorder_self _))
  · refine Decl.decls_fit m.decls fun d hd => ⟨?_, fun k hk => ?_⟩
    · exact hnested.of_preorder _
        (Node.mem_preorder_of_child (hchild hd) (Node.mem_preorder_self _))
    · exact hsequenced.inSequence_below _ (hchild hd) k hk

end SimFront
