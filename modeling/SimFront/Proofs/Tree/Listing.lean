import Mathlib.Data.List.FinRange
import SimFront.Proofs.Tree.Nested

/-!
# Every node of a tree, once

A place in a tree is a path of child numbers (`Node.at?`).  `Node.places` has the places of a tree
in lexicographic order (`Node.places_sorted`), all of them (`Node.mem_places`), and reading a tree
at its places in this order gives its listing (`Node.preorder_places`).

`Walk` follows the listing with a stack round by round.  A round changes nothing about the whole of
what has been listed and what is still to come (`Walk.round?_eq`), so a walk ends after one round for
each node (`Walk.rounds?_eq`), and by then it has listed each place of the tree once
(`Node.descendants_places`).
-/

namespace SimFront

namespace Node

/-! ## Places -/

/-- The node at a place: the number of a child, then a place below that child. -/
def at? : Node → List Nat → Option Node
  | n, [] => some n
  | n, i :: place => n.children[i]?.bind (·.at? place)

/-- The places of a tree: its root, then those below each child in turn. -/
def places (n : Node) : List (List Nat) :=
  [] :: (List.finRange n.children.length).flatMap fun i => (places n.children[i]).map (i.val :: ·)
termination_by sizeOf n
decreasing_by exact sizeOf_lt_of_mem_children (List.getElem_mem _)

/-- Places come in lexicographic order, so none is repeated. -/
theorem places_sorted (n : Node) : n.places.Pairwise (· < ·) := by
  induction n using places.induct with
  | case1 n ih =>
    rw [places, List.pairwise_cons, List.pairwise_flatMap]
    refine ⟨fun p hp => ?_, fun i _ => ?_, ?_⟩
    · obtain ⟨i, -, hp⟩ := List.mem_flatMap.1 hp
      obtain ⟨q, -, rfl⟩ := List.mem_map.1 hp
      exact List.nil_lt_cons _ _
    · refine List.pairwise_map.2 ((ih i).imp fun hlt => ?_)
      exact List.cons_lt_cons_iff.2 (.inr ⟨rfl, hlt⟩)
    · refine (List.pairwise_lt_finRange _).imp fun hij p hp q hq => ?_
      obtain ⟨p, -, rfl⟩ := List.mem_map.1 hp
      obtain ⟨q, -, rfl⟩ := List.mem_map.1 hq
      exact List.cons_lt_cons_iff.2 (.inl hij)

/-- The places are those at which a node stands. -/
theorem mem_places {n : Node} {place : List Nat} : place ∈ n.places ↔ (n.at? place).isSome := by
  induction place generalizing n with
  | nil =>
    rw [places]
    exact iff_of_true List.mem_cons_self rfl
  | cons i place ih =>
    rw [places, at?, List.mem_cons, List.mem_flatMap]
    constructor
    · rintro (h | ⟨j, -, h⟩)
      · cases h
      · obtain ⟨p, hp, hcons⟩ := List.mem_map.1 h
        obtain ⟨rfl, rfl⟩ := List.cons.inj hcons
        rw [List.getElem?_eq_getElem j.isLt]
        exact ih.1 hp
    · intro h
      cases hc : n.children[i]? with
      | none =>
        rw [hc] at h
        cases h
      | some c =>
        rw [hc] at h
        obtain ⟨hi, rfl⟩ := List.getElem?_eq_some_iff.1 hc
        exact .inr ⟨⟨i, hi⟩, List.mem_finRange _, List.mem_map_of_mem (ih.2 h)⟩

/-- Reading a tree at its places gives its listing. -/
theorem preorder_places (n : Node) : n.preorder.map some = n.places.map n.at? := by
  induction n using places.induct with
  | case1 n ih =>
    have hchild (i : Fin n.children.length) :
        n.children[i].preorder.map some = (n.children[i].places.map (i.val :: ·)).map n.at? := by
      rw [ih i, List.map_map]
      refine List.map_congr_left fun place _ => ?_
      rw [Function.comp_apply, at?, List.getElem?_eq_getElem i.isLt]
      rfl
    calc n.preorder.map some
      _ = some n :: n.children.flatMap fun c => c.preorder.map some := by
        rw [preorder_eq, List.map_cons, List.map_flatMap]
      _ = some n :: (List.finRange n.children.length).flatMap fun i =>
            n.children[i].preorder.map some := by
        conv_lhs => rw [← List.map_getElem_finRange n.children, List.flatMap_map]
        rfl
      _ = n.places.map n.at? := by
        rw [List.flatMap_congr fun i _ => hchild i, places, List.map_cons, List.map_flatMap, at?]

end Node

/-! ## The walk with a stack -/

/-- A walk on its way: the nodes still to visit, the next one last, and the nodes listed so far. -/
structure Walk where
  stack : List Node
  listed : List Node

namespace Walk

variable {w w' : Walk}

/-- The walk before its first round. -/
def start (n : Node) : Walk := ⟨[n], []⟩

/-- A round takes a node off the stack, puts its children there, the first one last, and lists the
node.  There is none when nothing is left to visit. -/
def round? (w : Walk) : Option Walk :=
  w.stack.getLast?.map fun n => ⟨w.stack.dropLast ++ n.children.reverse, w.listed ++ [n]⟩

/-- The walk after some rounds, if there are so many. -/
def rounds? : Nat → Walk → Option Walk
  | 0, w => some w
  | k + 1, w => w.round?.bind (rounds? k)

/-- What is still to be listed. -/
def ahead (w : Walk) : List Node := Node.descendantsOf w.stack.reverse

/-- A round lists the first node of those ahead. -/
theorem round?_eq (h : w.round? = some w') :
    ∃ n, w.ahead = n :: w'.ahead ∧ w'.listed = w.listed ++ [n] := by
  obtain ⟨n, hlast, rfl⟩ := Option.map_eq_some_iff.1 h
  refine ⟨n, ?_, rfl⟩
  have hstack : w.stack.reverse = n :: w.stack.dropLast.reverse := by
    conv_lhs => rw [← List.dropLast_append_getLast? n hlast]
    rw [List.reverse_append]
    rfl
  unfold ahead
  rw [hstack, Node.descendantsOf, List.reverse_append, List.reverse_reverse]

/-- Without a round to come nothing is ahead. -/
theorem eq_of_round?_eq_none (h : w.round? = none) : w.stack = [] ∧ w.ahead = [] := by
  have hstack : w.stack = [] := List.getLast?_eq_none_iff.1 (Option.map_eq_none_iff.1 h)
  unfold ahead
  rw [hstack, List.reverse_nil, Node.descendantsOf]
  exact ⟨rfl, rfl⟩

/-- A walk ends after as many rounds as there are nodes ahead, and has listed them then. -/
theorem rounds?_eq (w : Walk) : w.rounds? w.ahead.length = some ⟨[], w.listed ++ w.ahead⟩ := by
  induction h : w.ahead generalizing w with
  | nil =>
    cases hround : w.round? with
    | none =>
      obtain ⟨stack, listed⟩ := w
      obtain rfl : stack = [] := (eq_of_round?_eq_none hround).1
      rw [List.append_nil]
      rfl
    | some w' =>
      obtain ⟨n, hahead, -⟩ := round?_eq hround
      rw [h] at hahead
      cases hahead
  | cons n rest ih =>
    cases hround : w.round? with
    | none =>
      rw [(eq_of_round?_eq_none hround).2] at h
      cases h
    | some w' =>
      obtain ⟨n', hahead, hlisted⟩ := round?_eq hround
      rw [h] at hahead
      obtain ⟨rfl, rfl⟩ := List.cons.inj hahead
      rw [List.length_cons, rounds?, hround, Option.bind_some, ih w' rfl, hlisted,
        List.append_assoc, List.singleton_append]

end Walk

namespace Node

/-- **The listing with a stack.**  The walk from a node ends, after one round for each place of the
tree, and what it lists is the node, then what it lists from each child in order.  So reading the
tree at its places, each of them once and in lexicographic order, gives the nodes that it lists. -/
theorem descendants_places (n : Node) :
    (Walk.start n).rounds? n.places.length = some ⟨[], n.descendants⟩ ∧
      n.descendants = n :: n.children.flatMap descendants ∧ n.descendants = n.preorder ∧
      n.descendants.map some = n.places.map n.at? ∧ n.places.Pairwise (· < ·) ∧
      ∀ place, place ∈ n.places ↔ (n.at? place).isSome := by
  have hplaces : n.descendants.map some = n.places.map n.at? := by
    rw [descendants_eq]
    exact preorder_places n
  have hlength : n.descendants.length = n.places.length := by
    rw [← List.length_map some, hplaces, List.length_map]
  have hchildren : n.descendants = n :: n.children.flatMap descendants := by
    rw [descendants_eq, preorder_eq]
    exact congrArg (n :: ·) (List.flatMap_congr fun c _ => (descendants_eq c).symm)
  refine ⟨?_, hchildren, descendants_eq n, hplaces, places_sorted n, fun _ => mem_places⟩
  rw [← hlength]
  exact (Walk.start n).rounds?_eq

/-- The sum of a name and a number has four places. -/
example (a : Ident) (s : Span) :
    let number : Expr := .integer 1 s
    let sum : Expr := .binary .add (.name a) number s
    (Walk.start (.expr sum)).rounds? 4 =
      some ⟨[], [.expr sum, .expr (.name a), .ident a, .expr number]⟩ := rfl

end Node

end SimFront
