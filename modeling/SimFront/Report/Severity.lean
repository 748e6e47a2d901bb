import SimFront.Text.Position

/-!
# Severity of reports, and places they point to
-/

namespace SimFront

inductive Severity where
  | error
  | warning
  | hint
deriving DecidableEq, Repr, Inhabited

namespace Severity

def isError : Severity → Bool
  | .error => true
  | _ => false

def text : Severity → String
  | .error => "error"
  | .warning => "warning"
  | .hint => "hint"

end Severity

/-- A second place that a report points to, and why. -/
structure Related where
  message : String
  span : Span
deriving DecidableEq, Repr

end SimFront
