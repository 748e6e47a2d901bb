import SimFront.Token.Basic
import SimFront.Report.SyntaxError
import SimFront.Grammar.Context
import SimFront.Tree.Ident

/-!
# Parsers: reading trees off tokens

A `Parser` reads from the tokens that are left and moves on.  In strict mode the
first syntax error refuses the text.  In recovery mode errors are recorded,
missing tokens are taken as read, and reading goes on, so that there is always a
tree.  Apart from that the two modes take the same steps.

Repetition (`gather` and `iterate`) and recursion (`recurse`) are the only ways to
go round.  A round that is followed by another has to read a token, and so has a rule
before it uses itself (`past`).  This bounds both by the number of tokens left, one more
than that.  A parser that broke the rule or used up the bound would end as `exhausted`.
-/

namespace SimFront

/-- What to do at a syntax error. -/
inductive Mode where
  | strict
  | recovery
deriving DecidableEq, Repr, Inhabited

/-- Why a parser ended without a result: a syntax error in strict mode, or a round or a use
of itself before which no token was read. -/
inductive Halt where
  | refused (error : SyntaxError)
  | exhausted
deriving DecidableEq, Repr

/-- The state of a parser: the tokens left, where the last one read ended, the errors
so far (latest first), the constructs being read (innermost first), and the
token that stands for the end of the text. -/
structure ParserState where
  rest : List Token
  lastEnd : Position
  errors : List SyntaxError := []
  contexts : List Context := []
  eof : Token
deriving Repr

namespace ParserState

/-- The state before the first token. -/
def ofTokens (tokens : List Token) : ParserState where
  rest := tokens
  lastEnd := (tokens.head?.map (·.span.start)).getD .start
  eof := .endAt ((tokens.getLast?.map (·.span.stop)).getD .start)

/-- The `n`-th token ahead, counted from zero. -/
def token (s : ParserState) (n : Nat) : Token := (s.rest[n]?).getD s.eof

def current (s : ParserState) : Token := s.token 0

def kind (s : ParserState) : TokenKind := s.current.kind

/-- Moves past the current token, unless it is the end of the text. -/
def bump (s : ParserState) : ParserState :=
  match s.rest with
  | [] => s
  | t :: ts => if t.kind = .eof then s else { s with rest := ts, lastEnd := t.span.stop }

/-- The innermost construct being read. -/
def context (s : ParserState) : Context := s.contexts.head?.getD .declarations

end ParserState

/-- A step of reading: it moves the state on and yields a value, or halts. -/
def Parser (α : Type) : Type := Mode → ParserState → Except Halt (α × ParserState)

namespace Parser

variable {α β σ : Type}

/-! ## Sequencing -/

protected def pure (a : α) : Parser α := fun _ s => .ok (a, s)

protected def bind (p : Parser α) (f : α → Parser β) : Parser β := fun m s =>
  match p m s with
  | .ok (a, s') => f a m s'
  | .error h => .error h

instance : Monad Parser where
  pure := Parser.pure
  bind := Parser.bind

/-- A value read off the state, which stays. -/
def inspect (f : ParserState → α) : Parser α := fun _ s => .ok (f s, s)

/-- A change of the state. -/
def change (f : ParserState → ParserState) : Parser Unit := fun _ s => .ok ((), f s)

/-- The end of a parser that goes round without reading a token, or of a bound that was too
small. -/
def exhausted : Parser α := fun _ _ => .error .exhausted

instance : Inhabited (Parser α) := ⟨exhausted⟩

/-! ## Looking at tokens -/

def current : Parser Token := inspect (·.current)

def kind : Parser TokenKind := inspect (·.kind)

/-- The kind of the `n`-th token ahead. -/
def kindAt (n : Nat) : Parser TokenKind := inspect fun s => (s.token n).kind

def atKind (k : TokenKind) : Parser Bool := inspect fun s => s.kind = k

def atAny (ks : List TokenKind) : Parser Bool := inspect fun s => ks.contains s.kind

/-- Where the current token starts. -/
def start : Parser Position := inspect (·.current.span.start)

/-- The span from a position to the end of the last token read. -/
def spanFrom (p : Position) : Parser Span := inspect fun s => ⟨p, s.lastEnd.later p⟩

/-! ## Errors -/

/-- Reports an error: refuses the text in strict mode, is recorded in recovery mode. -/
def report (e : SyntaxError) : Parser Unit := fun m s =>
  match m with
  | .strict => .error (.refused e)
  | .recovery => .ok ((), { s with errors := e :: s.errors })

/-- Reports an error at the current token. -/
def fail (code : SyntaxCode) (message : TokenKind → String) : Parser Unit := do
  let t ← current
  report { code, message := message t.kind, span := t.span, found := some t.kind }

/-- Reports an error at the current token that points back at where a construct opened. -/
def failRelated (code : SyntaxCode) (message : TokenKind → String) (related : Related) :
    Parser Unit := do
  let t ← current
  report { code, message := message t.kind, span := t.span, found := some t.kind,
           related := [related] }

/-- Reports that the current token does not fit the construct being read. -/
def failInContext (code : SyntaxCode) : Parser Unit := do
  let c ← inspect (·.context)
  fail code c.unexpected

/-! ## Reading tokens -/

/-- Reads a token, whichever it is; at the end of the text it stays. -/
def bump : Parser Token := do
  let t ← current
  change (·.bump)
  pure t

/-- Reads a token of the given kind if there is one. -/
def eat (k : TokenKind) : Parser Bool := do
  if ← atKind k then
    let _ ← bump
    pure true
  else pure false

def eatMark (m : Mark) : Parser Bool := eat (.mark m)

def eatWord (k : Keyword) : Parser Bool := eat (.word k)

/-- Reads a token of the given kind, or reports that it is missing and takes it as read. -/
def expectWith (code : SyntaxCode) (k : TokenKind) : Parser Unit := do
  if ← eat k then pure ()
  else fail code fun found => s!"expected {k.describe}, found {found.describe}"

/-- The code for a token of some kind that is missing. -/
def missingCode : TokenKind → SyntaxCode
  | .mark .semicolon => .missingSemicolon
  | .word .END => .missingEnd
  | .mark .rParen => .unclosedParen
  | .mark .rBracket => .unclosedBracket
  | _ => .expectedToken

def expect (k : TokenKind) : Parser Unit := expectWith (missingCode k) k

def expectMark (m : Mark) : Parser Unit := expect (.mark m)

def expectWord (k : Keyword) : Parser Unit := expect (.word k)

def semicolon : Parser Unit := expectMark .semicolon

/-- Reads an identifier if there is one; the missing one has the empty name. -/
def identOrMissing : Parser Ident := do
  if ← atKind .ident then
    let t ← bump
    pure ⟨t.text, t.span⟩
  else pure (.missingAt (← start))

/-- Reads an identifier, or reports it with the given code and wording when it is missing. -/
def identOr (code : SyntaxCode) (expected : String) : Parser Ident := do
  unless ← atKind .ident do
    fail code fun found => s!"expected {expected}, found {found.describe}"
  identOrMissing

def ident : Parser Ident := identOr .missingName "identifier"

/-- Reads END, and after it the word of the construct that it closes, which may be left out. -/
def closeWith (construct : Keyword) (opened : Span) : Parser Unit := do
  if ← eatWord .END then
    let _ ← eatWord construct
    pure ()
  else
    failRelated .missingEnd
      (fun found => s!"expected END to close {construct.text}, found {found.describe}")
      ⟨s!"{construct.text} started here", opened⟩

/-- Reads with a construct as the innermost one. -/
def within (c : Context) (p : Parser α) : Parser α := do
  change fun s => { s with contexts := c :: s.contexts }
  let a ← p
  change fun s => { s with contexts := s.contexts.tail }
  pure a

/-- Reads `p` when a condition holds. -/
def whenever (condition : Parser Bool) (p : Parser α) : Parser (Option α) := do
  if ← condition then pure (some (← p)) else pure none

/-! ## Going round -/

/-- Goes on with `p`, provided that fewer than `left` tokens are left. -/
def past (left : Nat) (p : Parser α) : Parser α := fun m s =>
  if s.rest.length < left then p m s else .error .exhausted

/-- The outcome of a round: the last one, or one more to come; each with an element or
without. -/
inductive Round (σ α : Type) where
  | stop (found : Option α)
  | next (state : σ) (found : Option α)

/-- At most `fuel` rounds; collects what the rounds find.  Each round but the last has to read
a token. -/
def gatherAt (round : σ → Parser (Round σ α)) : (fuel : Nat) → σ → Parser (List α)
  | 0, _ => exhausted
  | fuel + 1, s => do
    let left ← inspect (·.rest.length)
    match ← round s with
    | .stop found => pure found.toList
    | .next s' found => do
      let more ← past left (gatherAt round fuel s')
      pure (found.toList ++ more)

/-- Rounds until one stops. -/
def gather (round : σ → Parser (Round σ α)) (s : σ) : Parser (List α) := fun m st =>
  gatherAt round (st.rest.length + 1) s m st

/-- Rounds that carry no state. -/
def many (round : Parser (Round Unit α)) : Parser (List α) := gather (fun _ => round) ()

/-- A round that found an element. -/
def found (a : α) : Parser (Round Unit α) := pure (.next () (some a))

/-- The last round, which found an element. -/
def foundLast (a : α) : Parser (Round Unit α) := pure (.stop (some a))

/-- A round that found nothing. -/
def skipped : Parser (Round Unit α) := pure (.next () none)

def stopped : Parser (Round Unit α) := pure (.stop none)

/-- At most `fuel` steps from `a`, each to a larger value, until there is none.  Each step but
the last has to read a token. -/
def iterateAt (step : α → Parser (Option α)) : (fuel : Nat) → α → Parser α
  | 0, _ => exhausted
  | fuel + 1, a => do
    let left ← inspect (·.rest.length)
    match ← step a with
    | some a' => past left (iterateAt step fuel a')
    | none => pure a

/-- Steps from `a` until there is none. -/
def iterate (step : α → Parser (Option α)) (a : α) : Parser α := fun m st =>
  iterateAt step (st.rest.length + 1) a m st

/-- One or more elements with commas between them. -/
def commaSeparated (p : Parser α) : Parser (List α) := do
  let first ← p
  let more ← many do
    if ← eatMark .comma then found (← p) else stopped
  pure (first :: more)

/-- Skips tokens until one satisfies the condition, or the text ends. -/
def skipUntil (stop : TokenKind → Bool) : Parser Unit :=
  change fun s => skip s s.rest.length
where
  /-- At most `n` tokens are skipped. -/
  skip (s : ParserState) : Nat → ParserState
    | 0 => s
    | n + 1 => if s.kind = .eof || stop s.kind then s else skip s.bump n

/-- Skips a token, and all up to the next token at which reading can be resumed; a
semicolon there is skipped too. -/
def recover (c : Context) : Parser Unit := do
  let _ ← bump
  skipUntil c.isRecoveryPoint
  let _ ← eatMark .semicolon
  pure ()

/-! ## Recursion -/

/-- The recursion to a depth of `fuel`.  Each use of itself has to come after a token was
read. -/
def recurseAt (rule : Parser α → Parser α) : (fuel : Nat) → Parser α
  | 0 => exhausted
  | fuel + 1 => fun m s => rule (past s.rest.length (recurseAt rule fuel)) m s

/-- A parser that may use itself. -/
def recurse (rule : Parser α → Parser α) : Parser α := fun m s =>
  recurseAt rule (s.rest.length + 1) m s

end Parser

end SimFront
