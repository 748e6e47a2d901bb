import SimFront.Check.Body
import SimFront.Check.Import
import SimFront.Check.Override

/-!
# The analysis of a module

`analyze` declares the module's name, its imports and its declarations, checks the
bodies, the object types, the module's own statements and its exports, and at last
the names of types.  The reports come in the order of their places.
-/

namespace SimFront

/-- What the analysis of a module gives. -/
structure Analysis where
  table : SymbolTable
  /-- The reports in the order of their places. -/
  diagnostics : List Diagnostic
  /-- The modules that the resolver was asked for, in order. -/
  asked : List String

namespace Check

/-- Records exports as uses of what the module declares. -/
def checkExport (e : Export) : Check Unit :=
  e.names.forM fun n => do
    match (← table).lookupFrom? SymbolTable.root n.name with
    | some id => refer id n.span
    | none =>
      error .undefinedReference n.span s!"exported name '{n.name}' is not declared"

/-- Checks a module from its name to its last statement. -/
def checkModule (m : Module) : Check Unit := do
  let _ ← define { name := m.name.name, kind := .module, span := m.name.span }
  m.imports.forM importClause
  declareAll m.decls
  checkBodies m.decls
  checkObjectTypes
  m.body.forM checkBlock
  m.exports.forM checkExport
  checkPendingTypes

end Check

/-- What the analysis of a module sees at first. -/
def Env.ofModule (resolver? : Option Resolver) (m : Module) : Env :=
  { resolver?, moduleName := m.name.name, moduleKind := m.kind }

/-- What the analysis of a module starts with. -/
def CheckState.ofModule (m : Module) : CheckState := { table := .new m.name.name m.span }

/-- Analyses a module.  Other modules are unknown to it unless there is a resolver. -/
def analyze (resolver? : Option Resolver) (m : Module) : Analysis :=
  let (_, s) := (Check.checkModule m).run (.ofModule resolver? m) (.ofModule m)
  { table := s.table,
    diagnostics := s.reports.reverse.mergeSort
      fun a b => a.span.start.offset ≤ b.span.start.offset,
    asked := s.asked.reverse }

end SimFront
