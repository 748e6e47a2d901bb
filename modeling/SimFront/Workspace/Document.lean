import SimFront.Check.Module
import SimFront.Source
import SimFront.Workspace.FileTree

/-!
# Documents

A document is a source text of a workspace with all that is derived from it: what
it declares and imports, its symbol table and its reports, and its place in the
graph of imports.  `Documents` holds the documents of a workspace in the order of
their paths.
-/

namespace SimFront

inductive DocumentState where
  | ready
  /-- No longer a part of any workspace. -/
  | removed
deriving DecidableEq, Repr

structure Document where
  id : Path
  /-- How often the text was replaced. -/
  version : Nat := 0
  module? : Option Module := none
  moduleName? : Option String := none
  /-- The modules that the text imports by name. -/
  imports : List String := []
  table? : Option SymbolTable := none
  /-- The documents that this one imports. -/
  dependencies : PathSet := {}
  /-- The documents that import this one. -/
  dependents : PathSet := {}
  syntaxDiagnostics : List Diagnostic := []
  /-- All reports in the order of their places. -/
  diagnostics : List Diagnostic := []
  /-- Why there is no tree. -/
  lastError? : Option String := none
  state : DocumentState := .ready
deriving Inhabited

namespace Document

def moduleKind? (d : Document) : Option ModuleKind := d.module?.map (·.kind)

def isImplementation (d : Document) : Bool := d.moduleKind? = some .implementation

/-- Whether the document declares a module of a name that others can import, or one that
they cannot. -/
def declares (d : Document) (importable : Bool) (name : String) : Bool :=
  d.moduleName? = some name && d.moduleKind?.any (·.isImportable = importable)

def hasErrors (d : Document) : Bool := Diagnostics.hasErrors d.diagnostics

/-! ## Analysis -/

/-- The document with the results of an analysis of its tree, if it has one. -/
def analyzed (d : Document) (resolver? : Option Resolver) : Document :=
  match d.module? with
  | none => d
  | some m =>
    let a := analyze resolver? m
    { d with
      table? := some a.table,
      diagnostics := (d.syntaxDiagnostics ++ a.diagnostics).mergeSort
        fun x y => x.span.start.offset ≤ y.span.start.offset }

/-- The document of a parsed text. -/
def ofSource (id : Path) (source : Source) : Document :=
  let diagnostics := source.errors.map Diagnostic.ofSyntaxError
  { id, module? := source.module?, moduleName? := source.moduleName?, imports := source.imports,
    syntaxDiagnostics := diagnostics, diagnostics,
    lastError? := source.fatalError?.map (·.display) }

/-- The document of a text, analysed with what is known of other modules. -/
def ofText (id : Path) (text : String) (mode : Mode) (resolver? : Option Resolver) : Document :=
  (ofSource id (.ofText text mode)).analyzed resolver?

/-- The document of a file, analysed on its own. -/
def load (files : FileTree) (mode : Mode) (id : Path) : Document :=
  match files.read id with
  | .ok text => ofText id text mode none
  | .error e => { id, lastError? := some s!"failed to read {id.text}: {e.reason}" }

/-- Whether the tables of other modules can change the analysis. -/
def needsResolver (d : Document) : Bool :=
  d.module?.isSome && (!d.imports.isEmpty || d.isImplementation)

/-- The document with the results of an analysis that knows the tables of other modules, if
they can change anything. -/
def reanalyzed (d : Document) (resolver : Resolver) : Document :=
  if d.needsResolver then d.analyzed (some resolver) else d

end Document

/-! ## Collections of documents -/

/-- Documents with different paths, in the order of their paths. -/
structure Documents where
  toList : List Document := []
deriving Inhabited

namespace Documents

def find? (ds : Documents) (id : Path) : Option Document := ds.toList.find? (·.id == id)

def contains (ds : Documents) (id : Path) : Bool := (ds.find? id).isSome

def size (ds : Documents) : Nat := ds.toList.length

def erase (ds : Documents) (id : Path) : Documents :=
  ⟨ds.toList.filter fun d => !(d.id == id)⟩

def insertIn (d : Document) : List Document → List Document
  | [] => [d]
  | e :: rest =>
    match compare d.id e.id with
    | .lt => d :: e :: rest
    | .eq => d :: rest
    | .gt => e :: insertIn d rest

/-- Adds a document, in place of the one with its path if there is one. -/
def insert (ds : Documents) (d : Document) : Documents := ⟨insertIn d ds.toList⟩

def ofList (ds : List Document) : Documents := ds.foldl insert {}

/-- Changes the document with a path, if there is one. -/
def modify (ds : Documents) (id : Path) (f : Document → Document) : Documents :=
  ⟨ds.toList.map fun d => if d.id == id then f d else d⟩

def map (ds : Documents) (f : Document → Document) : Documents := ⟨ds.toList.map f⟩

def ids (ds : Documents) : List Path := ds.toList.map (·.id)

end Documents

end SimFront
