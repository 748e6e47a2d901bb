import SimFront.Text.Position
import SimFront.Token.Kind

/-!
# Tokens

A token is a kind, the text as written, the decoded value of a literal, and the
span it was read from.  Input that no rule of the language reads becomes a token
of kind `error` that carries its cause.
-/

namespace SimFront

/-- Why a piece of text could not be read as a token. -/
inductive LexicalError where
  | unexpectedCharacter (c : Char)
  | unterminatedComment
  | unterminatedString
  | malformedCharacter
deriving DecidableEq, Repr

namespace LexicalError

def message : LexicalError → String
  | .unexpectedCharacter c => s!"unexpected character '{c}'"
  | .unterminatedComment => "unterminated comment"
  | .unterminatedString => "unterminated string literal"
  | .malformedCharacter => "malformed character literal"

end LexicalError

/-- What a token says beyond its kind and text. -/
inductive TokenValue where
  | none
  | string (value : String)
  | char (value : Char)
  | error (cause : LexicalError)
deriving DecidableEq, Repr

structure Token where
  kind : TokenKind
  text : String
  value : TokenValue := .none
  span : Span
deriving DecidableEq, Repr

namespace Token

/-- The token that closes every text, empty and at its end. -/
def endAt (p : Position) : Token := ⟨.eof, "", .none, .emptyAt p⟩

/-- A token that is not in the text, placed at the start of a span. -/
def missing (kind : TokenKind) (place : Span) : Token := ⟨kind, "", .none, .emptyAt place.start⟩

def isError (t : Token) : Bool := t.kind = .error

def stringValue? (t : Token) : Option String :=
  match t.value with
  | .string s => some s
  | _ => none

def charValue? (t : Token) : Option Char :=
  match t.value with
  | .char c => some c
  | _ => none

def error? (t : Token) : Option LexicalError :=
  match t.value with
  | .error e => some e
  | _ => none

end Token

/-- The tokens a parser reads: all but those that could not be read. -/
def significant (tokens : List Token) : List Token := tokens.filter (!·.isError)

/-- The tokens that could not be read. -/
def lexicalErrors (tokens : List Token) : List Token := tokens.filter (·.isError)

end SimFront
