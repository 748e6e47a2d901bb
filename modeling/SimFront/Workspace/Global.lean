import SimFront.Workspace.Basic

/-!
# The global table

Merges the top-level declarations of all documents.  Documents with fewer
dependencies come first, and of those with equally many the first in the order of
paths.  The first declaration of a name wins, unless it is a procedure heading that a later
procedure completes; imported copies are left out.
-/

namespace SimFront

namespace GlobalTable

/-- Adds a symbol of a document, unless its name is taken. -/
def add (g : GlobalTable) (id : Path) (module : String) (s : Symbol) : GlobalTable :=
  if s.isImported then g
  else match g.table.define { s with origin? := some module } with
    | .ok (symbol, table) => ⟨table, (symbol, id) :: g.sources⟩
    | .error _ => g

/-- Adds the top-level symbols of a document. -/
def addDocument (g : GlobalTable) (d : Document) : GlobalTable :=
  match d.table? with
  | none => g
  | some t => t.rootSymbols.foldl (fun g s => g.add d.id (d.moduleName?.getD "") s.2) g

/-- The order in which documents are merged. -/
def mergeOrder (ds : Documents) : List Document :=
  ds.toList.mergeSort fun d e => d.dependencies.size ≤ e.dependencies.size

def ofDocuments (ds : Documents) : GlobalTable := (mergeOrder ds).foldl addDocument {}

end GlobalTable

namespace Workspace

def rebuildGlobal (w : Workspace) : Workspace :=
  { w with globals := .ofDocuments w.documents }

end Workspace

end SimFront
