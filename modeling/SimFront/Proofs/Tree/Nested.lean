import Mathlib.Data.List.Flatten
import Mathlib.Data.Multiset.Filter
import SimFront.Proofs.Text.Position
import SimFront.Tree.Walk

/-!
# What holds all over a tree

`Nested` says of a node that it covers its children and that so does every node below it;
`Node.all` and `Node.names` collect the nodes and the identifiers of some trees, each as
often as it stands there.  All follow `Node.children`, so a node is judged from its
children (`all_singleton`, `names_singleton`, `Nested.mk`), and the listing of the tree
sees the same nodes (`Nested.of_preorder`).  A module and its imports stand at the top of
a tree only (`Node.layer_preorder`).

`Node.InSequence` says of some nodes that each ends before the next one begins.  `Sequenced` says
of a node that its children are in sequence, and so are those of every node below it, except that a
module sorts what stands in the text (`Module.Items`) into three lists: its own children are in
sequence exactly if the text is sorted like that (`Module.Items.inSequence_iff`).  Where all children
are in sequence, a tree is listed by the starts of its nodes (`Nested.preorder_sorted`), by
recursion or with a stack (`Node.descendants_eq`).
-/

namespace SimFront

namespace Node

/-! ## The listing of a tree -/

theorem preorderFrom_snd (n : Node) (d d' : Nat) :
    (preorderFrom d n).map (·.2) = (preorderFrom d' n).map (·.2) := by
  induction h : sizeOf n using Nat.strongRecOn generalizing n d d' with
  | ind k ih =>
    subst h
    rw [preorderFrom, preorderFrom, List.map_cons, List.map_cons, List.map_flatMap,
      List.map_flatMap]
    exact congrArg (n :: ·) (List.flatMap_congr fun c _ =>
      ih _ (sizeOf_lt_of_mem_children c.2) c.1 (d + 1) (d' + 1) rfl)

/-- A tree is listed from its root, then child by child. -/
theorem preorder_eq (n : Node) : n.preorder = n :: n.children.flatMap preorder := by
  have hchild (c : Node) : (preorderFrom (0 + 1) c).map (·.2) = preorder c :=
    preorderFrom_snd c _ _
  conv_lhs => unfold preorder
  rw [preorderFrom, List.map_cons, List.map_flatMap]
  simp only [hchild]
  conv_rhs => rw [← List.attach_map_subtype_val n.children, List.flatMap_map]

theorem mem_preorder_self (n : Node) : n ∈ n.preorder := by
  rw [preorder_eq]
  exact List.mem_cons_self

theorem mem_preorder_of_child {n c m : Node} (hc : c ∈ n.children) (hm : m ∈ c.preorder) :
    m ∈ n.preorder := by
  rw [preorder_eq]
  exact List.mem_cons_of_mem n (List.mem_flatMap.2 ⟨c, hc, hm⟩)

/-! ## Modules and imports -/

/-- How far inside a module a node is found at least: the module itself, an import, an item of
one, or anything else. -/
def layer : Node → Nat
  | .module _ => 0
  | .import _ => 1
  | .importItem _ => 2
  | _ => 3

theorem layer_children (n : Node) : n.children.all (min 3 (n.layer + 1) ≤ ·.layer) := by
  cases n with
  | «import» i => cases i <;> simp [children, layer]
  | decl d => cases d <;> simp [children, childrenOfDecl, layer]
  | typeSpec t => cases t <;> simp [children, childrenOfType, layer]
  | arrayIndex i => cases i <;> simp [children, layer]
  | objectSection s =>
    rw [List.all_eq_true]
    intro c hc
    obtain ⟨member, -, rfl⟩ := List.mem_map.1 hc
    cases member <;> rfl
  | stmt s =>
    cases s with
    | wait subject body interrupt span =>
      cases subject <;> simp [children, childrenOfStmt, ofWaitSubject, ofBlock?, layer]
    | _ => simp [children, childrenOfStmt, ofBlock?, layer]
  | expr e => cases e <;> simp [children, childrenOfExpr, layer]
  | _ => simp [children, ofBlock?, layer]

theorem layer_le_of_child {n c : Node} (h : c ∈ n.children) : min 3 (n.layer + 1) ≤ c.layer :=
  of_decide_eq_true (List.all_eq_true.1 n.layer_children c h)

/-- Modules do not stand in other nodes. -/
theorem ne_module_of_child {n c : Node} (h : c ∈ n.children) (m : Module) : c ≠ .module m := by
  rintro rfl
  have hlayer : min 3 (n.layer + 1) ≤ 0 := layer_le_of_child h
  omega

/-- Below a node that is neither a module nor a part of its imports there are none. -/
theorem layer_preorder {n : Node} (h : 3 ≤ n.layer) : ∀ c ∈ n.preorder, 3 ≤ c.layer := by
  induction hsize : sizeOf n using Nat.strongRecOn generalizing n with
  | ind k ih =>
    subst hsize
    intro c hc
    rw [preorder_eq] at hc
    rcases List.mem_cons.1 hc with rfl | hc
    · exact h
    · obtain ⟨child, hchild, hbelow⟩ := List.mem_flatMap.1 hc
      have hlayer := layer_le_of_child hchild
      exact ih _ (sizeOf_lt_of_mem_children hchild) (by omega) rfl c hbelow

/-! ## Nodes and identifiers -/

/-- The nodes of some trees, each as often as it stands in them. -/
def all (ns : List Node) : Multiset Node := ↑(ns.flatMap preorder)

@[simp] theorem all_nil : all [] = 0 := rfl

@[simp] theorem all_append (ns ms : List Node) : all (ns ++ ms) = all ns + all ms := by
  unfold all
  rw [List.flatMap_append, Multiset.coe_add]

theorem all_cons (n : Node) (ns : List Node) : all (n :: ns) = all [n] + all ns :=
  all_append [n] ns

theorem all_perm {ns ms : List Node} (h : ns.Perm ms) : all ns = all ms :=
  Multiset.coe_eq_coe.2 (h.flatMap_right preorder)

theorem all_le {ns ms : List Node} (h : ns.Subperm ms) : all ns ≤ all ms := by
  obtain ⟨ls, hperm, hsub⟩ := h
  rw [← all_perm hperm]
  exact Multiset.coe_le.2 (hsub.flatMap preorder).subperm

/-- The nodes of a tree are its root and those below it. -/
theorem all_singleton (n : Node) : all [n] = n ::ₘ all n.children := by
  unfold all
  rw [List.flatMap_singleton, preorder_eq, Multiset.cons_coe]

theorem mem_all_singleton {n m : Node} : m ∈ all [n] ↔ m ∈ n.preorder := by
  unfold all
  rw [List.flatMap_singleton, Multiset.mem_coe]

/-- An identifier is a tree of its own. -/
theorem all_ident (i : Ident) : all [.ident i] = {.ident i} := all_singleton _

def ident? : Node → Option Ident
  | .ident i => some i
  | _ => none

/-- The identifiers of some trees, each as often as it stands in them. -/
def names (ns : List Node) : Multiset Ident := (all ns).filterMap ident?

@[simp] theorem names_nil : names [] = 0 := rfl

@[simp] theorem names_append (ns ms : List Node) : names (ns ++ ms) = names ns + names ms := by
  unfold names
  rw [all_append, Multiset.filterMap_add]

theorem names_cons (n : Node) (ns : List Node) : names (n :: ns) = names [n] + names ns :=
  names_append [n] ns

theorem names_perm {ns ms : List Node} (h : ns.Perm ms) : names ns = names ms := by
  unfold names
  rw [all_perm h]

/-- The identifiers of a tree are those below its root, and the root if it is one. -/
theorem names_singleton (n : Node) : names [n] = ↑n.ident?.toList + names n.children := by
  unfold names
  rw [all_singleton, Multiset.filterMap_cons]
  cases n.ident? <;> rfl

theorem mem_names_of_child {n : Node} {i : Ident} (h : .ident i ∈ n.children) : i ∈ names [n] := by
  refine (Multiset.mem_filterMap _ _).2 ⟨.ident i, mem_all_singleton.2 ?_, rfl⟩
  exact mem_preorder_of_child h (mem_preorder_self _)

end Node

/-! ## Spans -/

/-- A node covers its children, and so does every node below it; none ends before it starts. -/
inductive Nested : Node → Prop where
  | mk {n : Node} (ordered : n.span.start ≤ n.span.stop)
      (covers : ∀ c ∈ n.children, n.span.containsSpan c.span)
      (below : ∀ c ∈ n.children, Nested c) : Nested n

namespace Nested

variable {n : Node}

theorem ordered (h : Nested n) : n.span.start ≤ n.span.stop := by
  cases h
  assumption

/-- What holds at the root holds at every node that is listed. -/
theorem of_preorder (h : Nested n) : ∀ m ∈ n.preorder, Nested m := by
  induction h with
  | @mk n ordered covers below ih =>
    intro m hm
    rw [Node.preorder_eq] at hm
    rcases List.mem_cons.1 hm with rfl | hm
    · exact .mk ordered covers below
    · obtain ⟨c, hc, hm⟩ := List.mem_flatMap.1 hm
      exact ih c hc m hm

/-- A root covers the whole of its tree. -/
theorem covers_preorder (h : Nested n) : ∀ m ∈ n.preorder, n.span.containsSpan m.span := by
  induction h with
  | @mk n ordered covers below ih =>
    intro m hm
    rw [Node.preorder_eq] at hm
    rcases List.mem_cons.1 hm with rfl | hm
    · exact Span.containsSpan_refl _
    · obtain ⟨c, hc, hm⟩ := List.mem_flatMap.1 hm
      exact Span.containsSpan_trans (covers c hc) (ih c hc m hm)

end Nested

namespace Node

/-! ## The two listings -/

theorem descendantsOf_eq (stack : List Node) : descendantsOf stack = stack.flatMap preorder := by
  induction stack using descendantsOf.induct with
  | case1 =>
    rw [descendantsOf]
    rfl
  | case2 n rest ih =>
    rw [descendantsOf, ih, List.flatMap_append, List.flatMap_cons, preorder_eq, List.cons_append]

/-- With a stack the nodes are visited in the order of the recursion. -/
theorem descendants_eq (n : Node) : n.descendants = n.preorder := by
  unfold descendants
  rw [descendantsOf_eq, List.flatMap_singleton]

/-! ## Nodes in sequence -/

/-- Each of the nodes ends before those behind it begin. -/
def InSequence (ns : List Node) : Prop := ns.Pairwise fun a b => a.span.stop ≤ b.span.start

end Node

/-! ## The items of a module -/

namespace Module

variable {m : Module} {items : List Node}

/-- What stands between the name and the body of a module: its imports, exports and declarations,
those of each sort in the order in which the module lists them. -/
structure Items (m : Module) (items : List Node) : Prop where
  perm : (m.imports.map Node.import ++ m.exports.map Node.export ++
    m.decls.map Node.decl).Perm items
  imports : (m.imports.map Node.import).Sublist items
  exports : (m.exports.map Node.export).Sublist items
  decls : (m.decls.map Node.decl).Sublist items

/-- The items may stand in the text as the module lists them. -/
theorem items_listed (m : Module) : m.Items (m.imports.map Node.import ++
    m.exports.map Node.export ++ m.decls.map Node.decl) := by
  have hfront := List.sublist_append_left (m.imports.map Node.import ++ m.exports.map Node.export)
    (m.decls.map Node.decl)
  constructor
  · exact .refl _
  · exact (List.sublist_append_left _ _).trans hfront
  · exact (List.sublist_append_right _ _).trans hfront
  · exact List.sublist_append_right _ _

/-- All imports stand before the exports, and both before the declarations. -/
def Grouped (m : Module) : Prop :=
  (∀ i ∈ m.imports, ∀ e ∈ m.exports, i.span.stop ≤ e.span.start) ∧
    (∀ i ∈ m.imports, ∀ d ∈ m.decls, i.span.stop ≤ d.span.start) ∧
      ∀ e ∈ m.exports, ∀ d ∈ m.decls, e.span.stop ≤ d.span.start

instance (m : Module) : Decidable m.Grouped :=
  inferInstanceAs (Decidable ((∀ i ∈ m.imports, ∀ e ∈ m.exports, i.span.stop ≤ e.span.start) ∧
    (∀ i ∈ m.imports, ∀ d ∈ m.decls, i.span.stop ≤ d.span.start) ∧
      ∀ e ∈ m.exports, ∀ d ∈ m.decls, e.span.stop ≤ d.span.start))

/-- A module whose items follow each other has its children in sequence exactly if the items
are grouped in the text as the module lists them. -/
theorem Items.inSequence_iff (h : m.Items items)
    (order : Node.InSequence (.ident m.name :: (items ++ Node.ofBlock? m.body))) :
    Node.InSequence (Node.module m).children ↔ m.Grouped := by
  unfold Node.InSequence at order ⊢
  obtain ⟨hname, hrest⟩ := List.pairwise_cons.1 order
  obtain ⟨hitems, hbody, hlast⟩ := List.pairwise_append.1 hrest
  have hmem (n : Node) : n ∈ items ↔ n ∈ m.imports.map Node.import ++ m.exports.map Node.export ++
      m.decls.map Node.decl := h.perm.mem_iff.symm
  constructor
  · intro hchildren
    obtain ⟨-, hchildren⟩ := List.pairwise_cons.1 hchildren
    obtain ⟨hchildren, -, -⟩ := List.pairwise_append.1 hchildren
    obtain ⟨hfront, -, hdecls⟩ := List.pairwise_append.1 hchildren
    obtain ⟨-, -, hexports⟩ := List.pairwise_append.1 hfront
    refine ⟨fun i hi e he => ?_, fun i hi d hd => ?_, fun e he d hd => ?_⟩
    · exact hexports _ (List.mem_map_of_mem hi) _ (List.mem_map_of_mem he)
    · exact hdecls _ (List.mem_append_left _ (List.mem_map_of_mem hi)) _ (List.mem_map_of_mem hd)
    · exact hdecls _ (List.mem_append_right _ (List.mem_map_of_mem he)) _ (List.mem_map_of_mem hd)
  · rintro ⟨hexports, hdecls, hdecls'⟩
    have hfront : (m.imports.map Node.import ++ m.exports.map Node.export).Pairwise fun a b =>
        a.span.stop ≤ b.span.start := by
      refine List.pairwise_append.2 ⟨hitems.sublist h.imports, hitems.sublist h.exports, ?_⟩
      simp only [List.forall_mem_map]
      exact hexports
    have hsorted : (m.imports.map Node.import ++ m.exports.map Node.export ++
        m.decls.map Node.decl).Pairwise fun a b => a.span.stop ≤ b.span.start := by
      refine List.pairwise_append.2 ⟨hfront, hitems.sublist h.decls, ?_⟩
      simp only [List.forall_mem_append, List.forall_mem_map]
      exact ⟨hdecls, hdecls'⟩
    refine List.pairwise_cons.2 ⟨fun n hn => hname n ?_, List.pairwise_append.2 ⟨hsorted, hbody, ?_⟩⟩
    · rw [List.mem_append, hmem, ← List.mem_append]
      exact hn
    · exact fun n hn => hlast n ((hmem n).2 hn)

end Module

/-! ## Sequenced trees -/

/-- The children of a node are in sequence, and so are those of every node below it.  Of a module
it is only known how its items stand in the text. -/
inductive Sequenced : Node → Prop where
  | node {n : Node} (order : Node.InSequence n.children) (below : ∀ c ∈ n.children, Sequenced c) :
      Sequenced n
  | module {m : Module} {items : List Node} (laid : m.Items items)
      (order : Node.InSequence (.ident m.name :: (items ++ Node.ofBlock? m.body)))
      (below : ∀ c ∈ (Node.module m).children, Sequenced c) : Sequenced (.module m)

/-- How the items of a sequenced module stand in the text. -/
theorem Sequenced.items {m : Module} (h : Sequenced (.module m)) : ∃ items, m.Items items ∧
    Node.InSequence (.ident m.name :: (items ++ Node.ofBlock? m.body)) := by
  cases h with
  | node order _ => exact ⟨_, Module.items_listed m, order⟩
  | module laid order _ => exact ⟨_, laid, order⟩

/-- Below the root all children are in sequence, since no module stands there. -/
theorem Sequenced.inSequence_below {n : Node} (h : Sequenced n) :
    ∀ c ∈ n.children, ∀ k ∈ c.preorder, Node.InSequence k.children := by
  have hstep {n : Node} (below : ∀ c ∈ n.children, Sequenced c)
      (ih : ∀ c ∈ n.children, ∀ d ∈ c.children, ∀ k ∈ d.preorder, Node.InSequence k.children) :
      ∀ c ∈ n.children, ∀ k ∈ c.preorder, Node.InSequence k.children := by
    intro c hc k hk
    rw [Node.preorder_eq] at hk
    rcases List.mem_cons.1 hk with rfl | hk
    · cases below k hc with
      | node order _ => exact order
      | module => exact absurd rfl (Node.ne_module_of_child hc _)
    · obtain ⟨d, hd, hk⟩ := List.mem_flatMap.1 hk
      exact ih c hc d hd k hk
  induction h with
  | node _ below ih => exact hstep below ih
  | module _ _ below ih => exact hstep below ih

/-- A nested tree whose nodes all have their children in sequence is listed by the starts of its
nodes. -/
theorem Nested.preorder_sorted {n : Node} (h : Nested n)
    (hseq : ∀ k ∈ n.preorder, Node.InSequence k.children) :
    n.preorder.Pairwise fun a b => a.span.start ≤ b.span.start := by
  induction h with
  | @mk n ordered covers below ih =>
    have hroot : Nested n := .mk ordered covers below
    have horder : Node.InSequence n.children := hseq n (Node.mem_preorder_self n)
    have hwithin {a b : Node} (ha : Nested a) (hb : b ∈ a.preorder) :
        a.span.start ≤ b.span.start ∧ b.span.stop ≤ a.span.stop := by
      have hcovers := ha.covers_preorder b hb
      simp only [Span.containsSpan, Bool.and_eq_true, decide_eq_true_eq] at hcovers
      exact hcovers
    rw [Node.preorder_eq, List.pairwise_cons, List.pairwise_flatMap]
    refine ⟨fun k hk => (hwithin hroot ?_).1, fun c hc => ?_, horder.imp_of_mem ?_⟩
    · rw [Node.preorder_eq]
      exact List.mem_cons_of_mem n hk
    · exact ih c hc fun k hk => hseq k (Node.mem_preorder_of_child hc hk)
    · intro a b ha hb hab x hx y hy
      have hstart : x.span.start ≤ x.span.stop := ((below a ha).of_preorder x hx).ordered
      have hstop : x.span.stop ≤ a.span.stop := (hwithin (below a ha) hx).2
      have hnext : b.span.start ≤ y.span.start := (hwithin (below b hb) hy).1
      exact le_trans hstart (le_trans hstop (le_trans hab hnext))

end SimFront
