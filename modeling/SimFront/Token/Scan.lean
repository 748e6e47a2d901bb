import SimFront.Token.Basic
import SimFront.Token.Comment
import SimFront.Token.Literal

/-!
# Scanning a text into tokens

`Lexeme.read` decides, from the first character and those that follow it, what
stands at the head of a text and how many characters it takes: the longest
lexeme of any rule, and one character when no rule applies.  `tokenize` reads
lexeme after lexeme and keeps the tokens.  It never fails: what cannot be read
becomes a token of kind `error`, and the list always ends in `eof`.
-/

namespace SimFront

/-- What stands at the head of a text. -/
inductive Lexeme where
  | blank
  | comment
  | token (kind : TokenKind) (value : TokenValue)
deriving DecidableEq, Repr

namespace Lexeme

/-! ## Character classes, all of them within ASCII -/

def isBlank (c : Char) : Bool :=
  c = ' ' || c = '\t' || c = '\r' || c = '\n' || c = '\x0c'

def isNameStart (c : Char) : Bool := c.isAlpha || c = '_'

def isNameChar (c : Char) : Bool := c.isAlphanum || c = '_'

/-! ## Reading one lexeme -/

/-- The mark at the head of a text, the longest one that fits, and how many
characters follow its first. -/
def mark? : Char → List Char → Option (Mark × Nat)
  | ':', '=' :: _ => some (.assign, 1)
  | ':', _ => some (.colon, 0)
  | '<', '>' :: _ => some (.notEq, 1)
  | '<', '=' :: _ => some (.ltEq, 1)
  | '<', _ => some (.lt, 0)
  | '>', '=' :: _ => some (.gtEq, 1)
  | '>', _ => some (.gt, 0)
  | '.', '.' :: _ => some (.range, 1)
  | '.', _ => some (.dot, 0)
  | '+', _ => some (.plus, 0)
  | '-', _ => some (.minus, 0)
  | '*', _ => some (.star, 0)
  | '/', _ => some (.slash, 0)
  | '=', _ => some (.eq, 0)
  | '#', _ => some (.hash, 0)
  | '(', _ => some (.lParen, 0)
  | ')', _ => some (.rParen, 0)
  | '[', _ => some (.lBracket, 0)
  | ']', _ => some (.rBracket, 0)
  | ',', _ => some (.comma, 0)
  | ';', _ => some (.semicolon, 0)
  | '^', _ => some (.caret, 0)
  | '|', _ => some (.pipe, 0)
  | _, _ => none

/-- The form of a comment that opens at the head of a text, and how many
characters of the opener follow its first. -/
def opener? : Char → List Char → Option (Comment.Form × Nat)
  | '\x7b', _ => some (.brace, 0)
  | '(', '*' :: _ => some (.paren, 1)
  | _, _ => none

/-- A name, or the reserved word with that spelling. -/
def nameKind (text : List Char) : TokenKind :=
  match Keyword.ofText? (String.ofList text) with
  | some k => .word k
  | none => .ident

/-- A token of kind `error`. -/
def invalid (cause : LexicalError) : Lexeme := .token .error (.error cause)

/-- What stands at the head of `c :: cs`, and how many characters of `cs` belong to it. -/
def read (c : Char) (cs : List Char) : Lexeme × Nat :=
  if isBlank c then (.blank, (cs.takeWhile isBlank).length)
  else if isNameStart c then
    let tail := cs.takeWhile isNameChar
    (.token (nameKind (c :: tail)) .none, tail.length)
  else if c.isDigit then
    let (isReal, n) := Literal.numberTail cs
    (.token (if isReal then .real else .integer) .none, n)
  else if c = '"' then
    match Literal.stringTail cs with
    | (some s, n) => (.token .string (.string (String.ofList s)), n)
    | (none, n) => (invalid .unterminatedString, n)
  else if c = Literal.quote then
    match Literal.charTail cs with
    | (some v, n) => (.token .char (.char v), n)
    | (none, n) => (invalid .malformedCharacter, n)
  else
    match opener? c cs with
    | some (form, n) =>
      match Comment.length? form (cs.drop n) with
      | some len => (.comment, n + len)
      | none => (invalid .unterminatedComment, cs.length)
    | none =>
      match mark? c cs with
      | some (m, n) => (.token (.mark m) .none, n)
      | none => (invalid (.unexpectedCharacter c), 0)

end Lexeme

/-! ## Reading a whole text -/

/-- The tokens of a text that begins at position `p`. -/
def tokenizeFrom (p : Position) : List Char → List Token
  | [] => [.endAt p]
  | c :: cs =>
    let (lexeme, n) := Lexeme.read c cs
    let text := c :: cs.take n
    let stop := p.advanceBy text
    match lexeme with
    | .token kind value =>
      ⟨kind, String.ofList text, value, ⟨p, stop⟩⟩ :: tokenizeFrom stop (cs.drop n)
    | .blank | .comment => tokenizeFrom stop (cs.drop n)
termination_by cs => cs.length
decreasing_by all_goals simp only [List.length_drop, List.length_cons]; omega

/-- The tokens of a text, with `eof` at its end. -/
def tokenize (text : String) : List Token := tokenizeFrom .start text.toList

end SimFront
