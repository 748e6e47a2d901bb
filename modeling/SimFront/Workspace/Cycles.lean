import SimFront.Workspace.Document

/-!
# Cycles of imports

A search along the dependencies, depth first and in the order of paths.  Where it
comes back to a document that it is still in, the trail from that document on is a
cycle.
-/

namespace SimFront

/-- What a search for cycles has found so far. -/
structure CycleSearch where
  /-- The documents that the search has left again. -/
  done : PathSet := {}
  cycles : List (List Path) := []

namespace CycleSearch

/-- The part of a trail from a path on, if the path is on it. -/
def cycleFrom? (trail : List Path) (p : Path) : Option (List Path) :=
  match trail.dropWhile fun q => !(q == p) with
  | [] => none
  | cycle => some cycle

/-- Visits what lies at the end of a dependency, unless it was visited before.  `trail`
lists the documents that the search is in, outermost first. -/
def step (visit : Path → CycleSearch → CycleSearch) (trail : List Path) (s : CycleSearch)
    (dependency : Path) : CycleSearch :=
  match cycleFrom? trail dependency with
  | some cycle => { s with cycles := s.cycles ++ [cycle] }
  | none => if s.done.contains dependency then s else visit dependency s

/-- Visits a document and all it depends on. -/
def visit (ds : Documents) : (depth : Nat) → (trail : List Path) → Path → CycleSearch → CycleSearch
  | 0, _, _, s => s
  | depth + 1, trail, id, s =>
    let trail := trail ++ [id]
    let dependencies := match ds.find? id with
      | some d => d.dependencies.toList
      | none => []
    let s := dependencies.foldl (step (visit ds depth trail) trail) s
    { s with done := s.done.insert id }

end CycleSearch

namespace Documents

/-- How long a trail can get: no path is on it twice, and all but the first are those of
documents or of dependencies. -/
def trailBound (ds : Documents) : Nat :=
  1 + ds.size + (ds.toList.flatMap (·.dependencies.toList)).length

/-- Searches from every document that no search before came to. -/
def searchCycles (ds : Documents) : CycleSearch :=
  ds.ids.foldl (CycleSearch.step (CycleSearch.visit ds ds.trailBound []) []) {}

/-- The cycles of dependencies, each from the document at which the search entered it. -/
def findCycles (ds : Documents) : List (List Path) := ds.searchCycles.cycles

end Documents

end SimFront
