import SimFront.Proofs.Workspace.Path
import SimFront.Workspace.Cycles

/-!
# The search for cycles and how paths are written

The search follows from each path the dependencies of its document (`Documents.targets`).
It tells paths apart by their components alone, so that documents which differ in how
their paths are written have the same cycles, but for how those are written
(`findCycles_beq`).
-/

namespace SimFront

/-! ## What the search follows -/

namespace Documents

/-- The dependencies of the document with a path; none when there is no such document. -/
def targets (ds : Documents) (p : Path) : List Path :=
  match ds.find? p with
  | some d => d.dependencies.toList
  | none => []

end Documents

/-- What the search sees of a document. -/
def Document.node (d : Document) : List Component × List (List Component) :=
  (d.id.components, d.dependencies.toList.map Path.components)

namespace Documents

def nodes (ds : Documents) : List (List Component × List (List Component)) :=
  ds.toList.map Document.node

theorem ids_components (ds : Documents) :
    ds.ids.map Path.components = ds.nodes.map Prod.fst := by
  unfold ids nodes
  rw [List.map_map, List.map_map]
  rfl

theorem targets_components (ds : Documents) (p : Path) :
    (ds.targets p).map Path.components =
      ((ds.nodes.find? (·.1 = p.components)).map Prod.snd).getD [] := by
  unfold targets find? nodes
  rw [List.find?_map]
  have same : (fun d : Document => d.id == p) =
      (fun node : List Component × List (List Component) => decide (node.1 = p.components)) ∘
        Document.node := rfl
  rw [same]
  cases ds.toList.find? _ <;> rfl

theorem trailBound_eq_nodes (ds : Documents) :
    ds.trailBound = 1 + ds.nodes.length + (ds.nodes.flatMap Prod.snd).length := by
  have follow : ds.nodes.flatMap Prod.snd
      = (ds.toList.flatMap (·.dependencies.toList)).map Path.components := by
    unfold nodes
    rw [List.flatMap_map, List.map_flatMap]
    rfl
  rw [follow, List.length_map]
  unfold trailBound size nodes
  rw [List.length_map]

end Documents

/-! ## Searches side by side -/

namespace Path

/-- Lists of lists of paths are `==` when the paths have the same components one by one. -/
theorem lists_beq_of_map_components {ps qs : List (List Path)}
    (h : ps.map (List.map components) = qs.map (List.map components)) : ps == qs := by
  induction ps generalizing qs with
  | nil =>
    cases qs with
    | nil => rfl
    | cons q qs => simp at h
  | cons p ps ih =>
    cases qs with
    | nil => simp at h
    | cons q qs =>
      simp only [List.map_cons, List.cons.injEq] at h
      rw [List.cons_beq_cons, list_beq_of_map_components h.1, ih h.2]
      rfl

end Path

namespace CycleSearch

/-- Two searches found the same, but for how the paths are written. -/
structure Same (s t : CycleSearch) : Prop where
  done : ∀ p, s.done.contains p = t.done.contains p
  cycles : s.cycles.map (List.map Path.components) = t.cycles.map (List.map Path.components)

theorem cycleFrom?_components (trail : List Path) (p : Path) :
    (cycleFrom? trail p).map (List.map Path.components) =
      match (trail.map Path.components).dropWhile (fun c => !decide (c = p.components)) with
      | [] => none
      | cycle => some cycle := by
  rw [List.dropWhile_map]
  have same : (fun q : Path => !(q == p)) =
      (fun c : List Component => !decide (c = p.components)) ∘ Path.components := rfl
  unfold cycleFrom?
  rw [same]
  cases trail.dropWhile _ <;> rfl

section Congr

variable {visit visit' : Path → CycleSearch → CycleSearch} {trail trail' : List Path}
  (hvisit : ∀ {p q s t}, p == q → Same s t → Same (visit p s) (visit' q t))
  (htrail : trail.map Path.components = trail'.map Path.components)

include hvisit htrail

theorem Same.step {s t : CycleSearch} (h : Same s t) {p q : Path} (hpq : p == q) :
    Same (step visit trail s p) (step visit' trail' t q) := by
  have found : (cycleFrom? trail p).map (List.map Path.components) =
      (cycleFrom? trail' q).map (List.map Path.components) := by
    rw [cycleFrom?_components, cycleFrom?_components, htrail, Path.beq_iff.1 hpq]
  unfold CycleSearch.step
  cases hp : cycleFrom? trail p with
  | some cycle =>
    rw [hp, Option.map_some, eq_comm, Option.map_eq_some_iff] at found
    obtain ⟨cycle', hq, hcycle⟩ := found
    rw [hq]
    refine ⟨h.done, ?_⟩
    simp only [List.map_append, h.cycles, List.map_cons, hcycle, List.map_nil]
  | none =>
    rw [hp, Option.map_none, eq_comm, Option.map_eq_none_iff] at found
    rw [found]
    dsimp only
    rw [h.done p, PathSet.contains_congr hpq]
    split
    · exact h
    · exact hvisit hpq h

theorem Same.foldl_step {s t : CycleSearch} (h : Same s t) {ps qs : List Path}
    (hps : ps.map Path.components = qs.map Path.components) :
    Same (ps.foldl (CycleSearch.step visit trail) s)
      (qs.foldl (CycleSearch.step visit' trail') t) := by
  induction ps generalizing s t qs with
  | nil =>
    cases qs with
    | nil => exact h
    | cons q qs => simp at hps
  | cons p ps ih =>
    cases qs with
    | nil => simp at hps
    | cons q qs =>
      simp only [List.map_cons, List.cons.injEq] at hps
      exact ih (h.step hvisit htrail (Path.beq_iff.2 hps.1)) hps.2

end Congr

theorem visit_succ (ds : Documents) (depth : Nat) (trail : List Path) (p : Path)
    (s : CycleSearch) :
    visit ds (depth + 1) trail p s =
      let s := (ds.targets p).foldl (step (visit ds depth (trail ++ [p])) (trail ++ [p])) s
      { s with done := s.done.insert p } :=
  rfl

/-- Searches through documents with the same nodes stay side by side. -/
theorem Same.visit {ds es : Documents} (hnodes : ds.nodes = es.nodes) (depth : Nat)
    {trail trail' : List Path} (htrail : trail.map Path.components = trail'.map Path.components)
    {p q : Path} (hpq : p == q) {s t : CycleSearch} (h : Same s t) :
    Same (CycleSearch.visit ds depth trail p s) (CycleSearch.visit es depth trail' q t) := by
  induction depth generalizing trail trail' p q s t with
  | zero => exact h
  | succ depth ih =>
    rw [visit_succ, visit_succ]
    have hextended : (trail ++ [p]).map Path.components =
        (trail' ++ [q]).map Path.components := by
      simp only [List.map_append, htrail, List.map_cons, Path.beq_iff.1 hpq, List.map_nil]
    have htargets : (ds.targets p).map Path.components =
        (es.targets q).map Path.components := by
      rw [Documents.targets_components, Documents.targets_components, hnodes, Path.beq_iff.1 hpq]
    have searched := h.foldl_step (fun hpq h => ih hextended hpq h) hextended htargets
    refine ⟨fun r => ?_, searched.cycles⟩
    rw [PathSet.contains_insert, PathSet.contains_insert, searched.done, BEq.congr_left hpq]

end CycleSearch

/-- Documents with the same nodes have the same cycles. -/
theorem Documents.findCycles_beq {ds es : Documents} (h : ds.nodes = es.nodes) :
    ds.findCycles == es.findCycles := by
  have bound : ds.trailBound = es.trailBound := by
    rw [trailBound_eq_nodes, trailBound_eq_nodes, h]
  have ids : ds.ids.map Path.components = es.ids.map Path.components := by
    rw [ids_components, ids_components, h]
  apply Path.lists_beq_of_map_components
  unfold findCycles searchCycles
  rw [bound]
  have start : CycleSearch.Same {} {} := ⟨fun _ => rfl, rfl⟩
  exact (start.foldl_step (fun hpq hs => CycleSearch.Same.visit h _ rfl hpq hs) rfl ids).cycles

end SimFront
