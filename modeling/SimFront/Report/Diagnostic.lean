import SimFront.Report.SyntaxError

/-!
# Diagnostics

What the analysis of a module reports.  A report never stops the analysis;
`Diagnostics` collects them in the order in which they arise.
-/

namespace SimFront

/-! ## Codes -/

/-- The checks of the analysis, syntax errors carried over, and codes of a client's own. -/
inductive DiagnosticCode where
  | undefinedReference
  | unknownType
  | typeMismatch
  | duplicateDefinition
  | invalidOverride
  | overrideMismatch
  | circularInheritance
  | notAType
  | assignToInParameter
  | nonAssignableArgument
  | undeclaredMethod
  | unknownObject
  | invalidAssignment
  | unusedSymbol
  | outReadBeforeAssign
  | outNeverAssigned
  | hidesBaseMethod
  | unresolvedImport
  | selfImport
  | ofSyntax (code : SyntaxCode)
  | other (text : String)
deriving DecidableEq, Repr

namespace DiagnosticCode

/-- The codes of the checks, errors before warnings. -/
def checks : List DiagnosticCode :=
  [undefinedReference, unknownType, typeMismatch, duplicateDefinition, invalidOverride,
   overrideMismatch, circularInheritance, notAType, assignToInParameter,
   nonAssignableArgument, undeclaredMethod, unknownObject, invalidAssignment, unusedSymbol,
   outReadBeforeAssign, outNeverAssigned, hidesBaseMethod, unresolvedImport, selfImport]

/-- The number under which a code is reported: `E` for errors, `W` for warnings. -/
def text : DiagnosticCode → String
  | undefinedReference => "E0001"
  | unknownType => "E0002"
  | typeMismatch => "E0003"
  | duplicateDefinition => "E0004"
  | invalidOverride => "E0005"
  | overrideMismatch => "E0006"
  | circularInheritance => "E0007"
  | notAType => "E0008"
  | assignToInParameter => "E0009"
  | nonAssignableArgument => "E0010"
  | undeclaredMethod => "E0011"
  | unknownObject => "E0012"
  | invalidAssignment => "E0013"
  | unusedSymbol => "W0001"
  | outReadBeforeAssign => "W0002"
  | outNeverAssigned => "W0003"
  | hidesBaseMethod => "W0004"
  | unresolvedImport => "W0005"
  | selfImport => "W0006"
  | ofSyntax code => code.text
  | other text => text

end DiagnosticCode

/-! ## One diagnostic -/

structure Diagnostic where
  severity : Severity
  code : DiagnosticCode
  message : String
  span : Span
  related : List Related := []
deriving DecidableEq, Repr

namespace Diagnostic

def error (code : DiagnosticCode) (span : Span) (message : String) : Diagnostic :=
  ⟨.error, code, message, span, []⟩

def warning (code : DiagnosticCode) (span : Span) (message : String) : Diagnostic :=
  ⟨.warning, code, message, span, []⟩

/-- A second definition of a name in one scope; it points back at the first. -/
def duplicate (name : String) (span existing : Span) : Diagnostic :=
  ⟨.error, .duplicateDefinition,
    s!"duplicate definition: '{name}' is already defined in this scope", span,
    [⟨s!"previous definition of '{name}'", existing⟩]⟩

/-- A syntax error as a diagnostic; what was found and the hint are left out. -/
def ofSyntaxError (e : SyntaxError) : Diagnostic :=
  ⟨e.severity, .ofSyntax e.code, e.message, e.span, e.related⟩

def isError (d : Diagnostic) : Bool := d.severity = .error

def isWarning (d : Diagnostic) : Bool := d.severity = .warning

/-- Severity, code, place and message on one line. -/
def display (d : Diagnostic) : String :=
  s!"{d.severity.text} {d.code.text} at {d.span.start.display}: {d.message}"

end Diagnostic

/-! ## Collections of diagnostics -/

namespace Diagnostics

def errorCount (ds : List Diagnostic) : Nat := ds.countP (·.isError)

def warningCount (ds : List Diagnostic) : Nat := ds.countP (·.isWarning)

def hasErrors (ds : List Diagnostic) : Bool := ds.any (·.isError)

end Diagnostics

end SimFront
