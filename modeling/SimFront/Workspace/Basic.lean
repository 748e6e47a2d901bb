import SimFront.Workspace.Config
import SimFront.Workspace.Cycles

/-!
# Workspaces

A workspace holds the documents of a project, the modules that they declare, the
graph of imports between them, and one table of all that they declare at top level.
-/

namespace SimFront

inductive Phase where
  | unindexed
  | indexing
  | ready
deriving DecidableEq, Repr, Inhabited

/-- Why an operation on a workspace fails.  A file that does not parse is no reason. -/
inductive WorkspaceError where
  | unreadable (path : Path)
  | rootNotFound (root : Path)
  | unknownDocument (id : Path)
  | unsupportedExtension (path : Path) (expected : String)

namespace WorkspaceError

def message : WorkspaceError → String
  | unreadable p => s!"failed to read {p.text}"
  | rootNotFound p => s!"workspace root {p.text} is not a directory"
  | unknownDocument p => s!"no document {p.text} in the workspace"
  | unsupportedExtension p expected => s!"{p.text} is not a .{expected} source file"

end WorkspaceError

/-- The top-level declarations of a workspace, and the documents that they come from. -/
structure GlobalTable where
  table : SymbolTable := .new "<workspace>" {}
  /-- The documents of the symbols, latest first. -/
  sources : List (Nat × Path) := []

structure Workspace where
  config : Config := {}
  phase : Phase := .unindexed
  documents : Documents := {}
  /-- The documents that declare importable modules, by the names of the modules. -/
  modules : Members Path := []
  /-- The documents that declare implementation modules, by the names of the modules. -/
  implementations : Members Path := []
  cycles : List (List Path) := []
  globals : GlobalTable := {}

namespace Workspace

/-! ## Documents -/

def document? (w : Workspace) (id : Path) : Option Document := w.documents.find? id

/-- The document that declares a module.  A module that can be imported comes before an
implementation module of its name. -/
def documentForModule? (w : Workspace) (name : String) : Option Document :=
  ((Members.find? w.modules name).or (Members.find? w.implementations name)).bind w.document?

/-- The documents that a document imports; none for one that is unknown. -/
def dependencies (w : Workspace) (id : Path) : List Path :=
  match w.document? id with
  | some d => d.dependencies.toList
  | none => []

/-- The documents that import a document; none for one that is unknown. -/
def dependents (w : Workspace) (id : Path) : List Path :=
  match w.document? id with
  | some d => d.dependents.toList
  | none => []

def diagnostics (w : Workspace) (id : Path) : List Diagnostic :=
  match w.document? id with
  | some d => d.diagnostics
  | none => []

def hasCycles (w : Workspace) : Bool := !w.cycles.isEmpty

/-! ## Symbols -/

/-- The symbol table of the module with a name. -/
def moduleTable? (w : Workspace) (name : String) : Option SymbolTable :=
  (w.documentForModule? name).bind (·.table?)

/-- The document that a symbol of the global table comes from. -/
def globalSource? (w : Workspace) (id : Nat) : Option Path := List.lookup id w.globals.sources

/-- A top-level declaration, and the document that it comes from. -/
def lookupGlobal? (w : Workspace) (name : String) : Option (Symbol × Path) := do
  let id ← w.globals.table.lookupId? name
  let path ← w.globalSource? id
  let s ← w.globals.table.symbol? id
  pure (s, path)

/-- The current tables of the modules that can be imported. -/
def resolver (w : Workspace) : Resolver :=
  w.modules.filterMap fun (name, id) =>
    ((w.document? id).bind (·.table?)).map fun t => (name, t)

end Workspace

end SimFront
