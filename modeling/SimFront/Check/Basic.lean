import SimFront.Report.Diagnostic
import SimFront.Symbol.Lookup
import SimFront.Types.Qualify
import SimFront.Tree.Module

/-!
# The state of an analysis

A `Check` is a step of the analysis of one module.  It sees where in the module
it is (`Env`), and changes what the analysis has found so far (`CheckState`): the
symbol table, the reports, and the answers about other modules.  A step never
stops the analysis.
-/

namespace SimFront

/-- The symbol tables of other modules by their names. -/
abbrev Resolver : Type := Members SymbolTable

/-- An object type that was found by name.  `origin?` is the module it is declared in, none
for the module under analysis. -/
structure ResolvedObject where
  name : String
  info : ObjectInfo
  origin? : Option String

namespace ResolvedObject

/-- The name by which searches tell objects apart. -/
def key (o : ResolvedObject) : String :=
  match o.origin? with
  | some m => s!"{m}.{o.name}"
  | none => o.name

end ResolvedObject

/-- The object whose methods are being analysed, and the scope of its implementation. -/
structure ObjectContext where
  scope : Nat
  object? : Option ResolvedObject
  /-- All base types in the chain of inheritance were found. -/
  chainResolved : Bool

/-- Where in the module the analysis is. -/
structure Env where
  resolver? : Option Resolver
  moduleName : String
  moduleKind : ModuleKind
  /-- The object implementations around, innermost first. -/
  objects : List ObjectContext := []
  /-- The result type of the routine around, if there is one. -/
  routine? : Option (Option Ty) := none
  /-- Inside a WITH statement names may be fields of its subject, which are not tracked. -/
  insideWith : Bool := false

/-- A type name whose check is put off to the end. -/
structure PendingType where
  module? : Option String
  name : String
  span : Span
  scope : Nat
deriving DecidableEq, Repr

/-- An object type declared in the module, and the scope of its members. -/
structure ObjectDecl where
  name : String
  symbol : Nat
  scope : Nat
deriving DecidableEq, Repr

/-- What has happened to an OUT parameter. -/
structure OutState where
  assigned : Bool := false
  warned : Bool := false
deriving DecidableEq, Repr

structure CheckState where
  table : SymbolTable
  /-- The reports so far, latest first. -/
  reports : List Diagnostic := []
  /-- What is known about other modules; each is asked for once. -/
  modules : List (String × Option SymbolTable) := []
  /-- The modules that the resolver was asked for, latest first. -/
  asked : List String := []
  /-- The modules that are imported whole, in order. -/
  wholeImports : List String := []
  /-- The modules that were reported as not found. -/
  unresolved : List String := []
  /-- Imported names whose declaration was not found. -/
  placeholders : List Nat := []
  /-- The type names to check at the end, latest first. -/
  pendingTypes : List PendingType := []
  objectDecls : List ObjectDecl := []
  /-- The signatures of procedures by the offsets of their headings, latest first. -/
  signatures : List (Nat × Signature) := []
  /-- The OUT parameters of the routine under analysis. -/
  outParams : List (Nat × OutState) := []

/-- A step of the analysis. -/
abbrev Check (α : Type) : Type := ReaderT Env (StateM CheckState) α

namespace Check

/-! ## Reports -/

def report (d : Diagnostic) : Check Unit := modify fun s => { s with reports := d :: s.reports }

def error (code : DiagnosticCode) (span : Span) (message : String) : Check Unit :=
  report (.error code span message)

def warning (code : DiagnosticCode) (span : Span) (message : String) : Check Unit :=
  report (.warning code span message)

/-! ## The symbol table -/

def table : Check SymbolTable := do pure (← get).table

def modifyTable (f : SymbolTable → SymbolTable) : Check Unit :=
  modify fun s => { s with table := f s.table }

def currentScope : Check Nat := do pure (← table).current

def symbol? (id : Nat) : Check (Option Symbol) := do pure ((← table).symbol? id)

/-- Declares a symbol in the current scope, or reports that its name is taken. -/
def define (symbol : Symbol) : Check (Option Nat) := do
  match (← table).define symbol with
  | .ok (id, t) =>
    modifyTable fun _ => t
    pure (some id)
  | .error d =>
    report (.duplicate symbol.name symbol.span d.existingSpan)
    pure none

/-- Runs a step in a new scope. -/
def inScope {α : Type} (kind : ScopeKind) (span : Span) (step : Check α) : Check α := do
  modifyTable (·.enter kind span)
  let a ← step
  modifyTable (·.leave)
  pure a

/-- Records a use of a symbol in the current scope. -/
def refer (id : Nat) (span : Span) : Check Unit := modifyTable (·.refer id span)

/-! ## OUT parameters -/

def setOutState (id : Nat) (f : OutState → OutState) : Check Unit :=
  modify fun s => { s with
    outParams := s.outParams.map fun e => if e.1 = id then (e.1, f e.2) else e }

/-- Records that a symbol was read; the first read of an OUT parameter before an
assignment is reported. -/
def noteRead (id : Nat) (span : Span) : Check Unit := do
  refer id span
  match List.lookup id (← get).outParams with
  | none => pure ()
  | some state =>
    unless state.assigned || state.warned do
      setOutState id fun s => { s with warned := true }
      let name := ((← symbol? id).map (·.name)).getD ""
      warning .outReadBeforeAssign span s!"OUT parameter '{name}' is read before it is assigned"

/-- Records that a symbol was assigned. -/
def markAssigned (id : Nat) : Check Unit :=
  setOutState id fun s => { s with assigned := true }

end Check

end SimFront
