import SimFront.Report.Severity
import SimFront.Report.SyntaxCode
import SimFront.Token.Kind

/-!
# Syntax errors

A syntax error has a code, a message and a span; it may name the kind of token
that was found, give a hint, and point to related places.  Left out, the
message is the code's own and the span is the start of the text.
-/

namespace SimFront

structure SyntaxError where
  code : SyntaxCode
  message : String := code.defaultMessage
  span : Span := {}
  severity : Severity := .error
  found : Option TokenKind := none
  hint : Option String := none
  related : List Related := []
deriving DecidableEq, Repr

namespace SyntaxError

def hasHint (e : SyntaxError) : Bool := e.hint.isSome

def hasRelated (e : SyntaxError) : Bool := !e.related.isEmpty

/-- Code, place and message on one line. -/
def display (e : SyntaxError) : String :=
  s!"{e.code.text} at {e.span.start.display}: {e.message}"

/-- Code and message, and the hint on a line of its own. -/
def format (e : SyntaxError) : String :=
  let head := s!"{e.code.text}: {e.message}"
  match e.hint with
  | some hint => s!"{head}\n  hint: {hint}"
  | none => head

end SyntaxError

end SimFront
