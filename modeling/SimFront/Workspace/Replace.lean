import SimFront.Workspace.Global
import SimFront.Workspace.Graph

/-!
# Replacing and removing documents

A change of one document analyses it alone, and then brings the modules, the edges,
the cycles and the global table up to date.  The documents that import it keep their
tables.
-/

namespace SimFront.Workspace

/-- A new document with what it takes over from the one before it. -/
def inherit (d : Document) : Option Document → Document
  | none => d
  | some previous =>
    { d with
      version := previous.version + 1,
      dependencies := previous.dependencies,
      dependents := previous.dependents }

/-- Whether a new document declares another module, or another kind of module, than the one
before it. -/
def isRenamed (d : Document) : Option Document → Bool
  | none => true
  | some previous =>
    previous.moduleName? ≠ d.moduleName? || previous.moduleKind? ≠ d.moduleKind?

/-- Gives up the name of the module that a document declared before. -/
def unregisterPrevious (w : Workspace) (id : Path) (previousName? : Option String) : Workspace :=
  match previousName? with
  | some name => w.unregister id name
  | none => w

/-- Brings the names of modules up to date after a new document took the place of another. -/
def rename (w : Workspace) (d : Document) (previous? : Option Document) : Workspace :=
  if isRenamed d previous? then
    (w.unregisterPrevious d.id (previous?.bind (·.moduleName?))).register d.id
  else w

/-- The names that other documents may hold once a new document took the place of another. -/
def changedNames (d : Document) (previous? : Option Document) : List String :=
  if isRenamed d previous? then
    (previous?.bind (·.moduleName?)).toList ++ d.moduleName?.toList
  else []

/-- Puts a new document in and brings everything else up to date. -/
def replace (w : Workspace) (d : Document) : Workspace :=
  let previous? := w.document? d.id
  let w := { w with documents := w.documents.insert (inherit d previous?) }
  let w := (w.rename d previous?).link d.id
  (w.relinkImporters (changedNames d previous?) d.id).detectCycles.rebuildGlobal

/-- The document of a text, analysed with the other modules as they are. -/
def analyzeText (w : Workspace) (id : Path) (text : String) : Document :=
  .ofText id text w.config.mode (some w.resolver)

/-- Adds a document, or replaces its text. -/
def openDocument (w : Workspace) (id : Path) (text : String) : Workspace :=
  w.replace (w.analyzeText id text)

/-- Takes a document out, with every edge that touches it. -/
def removeDocument (w : Workspace) (d : Document) : Workspace :=
  let w := ({ w with documents := w.documents.erase d.id }).unlink d
  let w := match d.moduleName? with
    | some name => (w.unregister d.id name).relinkImporters [name] d.id
    | none => w
  w.detectCycles.rebuildGlobal

end SimFront.Workspace
