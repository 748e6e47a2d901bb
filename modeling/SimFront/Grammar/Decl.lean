import SimFront.Grammar.TypeSpec
import SimFront.Grammar.Stmt
import SimFront.Tree.Decl

/-!
# The grammar of declarations

TYPE, CONST and VAR open sections, whose entries repeat no word.  An entry may
also go on with the section before it, or stand in none at all; then its shape
tells what it declares.  A procedure heading is followed by a body or stands
alone as a forward declaration, which is told by looking ahead.
-/

namespace SimFront.Grammar

open SimFront.Parser

/-! ## Sections -/

/-- What the entries of a section declare. -/
inductive Section where
  | type
  | const
  | var
deriving DecidableEq, Repr

def sectionOf? : TokenKind → Option Section
  | .word .TYPE => some .type
  | .word .CONST => some .const
  | .word .VAR => some .var
  | _ => none

/-- Whether an entry of a section can have this kind of token after its first name. -/
def Section.fits (s : Section) (afterName : TokenKind) : Bool :=
  match s with
  | .type => afterName = .mark .eq
  | .const => afterName = .mark .eq || afterName = .mark .colon
  | .var => afterName = .mark .colon || afterName = .mark .comma

/-- What a name with an equals sign after it declares, told by the kinds of tokens ahead:
a type when a type constructor, or a name alone, follows; else a constant. -/
def typeOrConst (ahead : Nat → TokenKind) : Section :=
  match ahead 2 with
  | .word .ARRAY | .word .RECORD | .word .POINTER | .word .SET | .word .OBJECT | .word .ENUM
  | .word .PROCEDURE | .mark .lBracket => .type
  | .mark .lParen =>
    if ahead 3 = .ident ∧ (ahead 4 = .mark .comma ∨ ahead 4 = .mark .rParen) then .type
    else .const
  | .integer | .char => if ahead 3 = .mark .range then .type else .const
  | .ident =>
    match ahead 3 with
    | .mark .semicolon | .mark .range => .type
    | .mark .dot =>
      if ahead 4 = .ident ∧ ahead 5 = .mark .semicolon then .type else .const
    | _ => .const
  | _ => .const

/-- What an entry declares, given the last section word.  The section wins if the
entry fits it; otherwise the shape of the entry decides. -/
def sectionOfEntry? (last : Option Section) (ahead : Nat → TokenKind) : Option Section :=
  let byShape := match ahead 1 with
    | .mark .colon | .mark .comma => some .var
    | .mark .eq => some (typeOrConst ahead)
    | _ => none
  match last with
  | some s => if s.fits (ahead 1) then some s else byShape
  | none => byShape

/-! ## Entries -/

def typeDecl : Parser TypeDecl := do
  let start ← start
  let name ← ident
  expectMark .eq
  let type ← typeSpec
  semicolon
  pure ⟨name, type, ← spanFrom start⟩

def constDecl : Parser ConstDecl := do
  let start ← start
  let name ← ident
  let type ← whenever (eatMark .colon) typeSpec
  expectMark .eq
  let value ← expr
  semicolon
  pure ⟨name, type, value, ← spanFrom start⟩

def varDecl : Parser VarDecl := do
  let start ← start
  let names ← commaSeparated ident
  expectMark .colon
  let type ← typeSpec
  let init ← whenever (eatMark .assign) expr
  semicolon
  pure ⟨names, type, init, ← spanFrom start⟩

/-- An entry of a section; none, after a report, when its shape fits no section. -/
def entry (last : Option Section) : Parser (Option Decl) := do
  match sectionOfEntry? last (← inspect fun s n => (s.token n).kind) with
  | some .type => pure (some (.type (← typeDecl)))
  | some .const => pure (some (.const (← constDecl)))
  | some .var => pure (some (.var (← varDecl)))
  | none =>
    failInContext .unexpectedInDeclarations
    recover .declarations
    pure none

/-! ## Looking ahead for the body of a procedure -/

/-- How many tokens are looked at to find out whether a procedure has a body. -/
def lookahead : Nat := 512

/-- Whether the declarations ahead are those of a procedure with a body: BEGIN comes
before anything that cannot stand among local declarations.  `depth` counts the
records and objects that are open, `last` is the kind of the token before. -/
def localsPrecedeBody (depth : Nat) (last : TokenKind) :
    (budget : Nat) → List TokenKind → Bool
  | 0, _ => false
  | budget + 1, kinds =>
    let k := kinds.headD .eof
    let next (depth : Nat) := localsPrecedeBody depth k budget kinds.tail
    if last = .word .END then next depth
    else match k with
      | .eof => false
      | .word .RECORD => next (depth + 1)
      | .word .OBJECT =>
        if depth = 0 ∧ last = .mark .semicolon then false else next (depth + 1)
      | .word .END => if depth = 0 then false else next (depth - 1)
      | .word .BEGIN => if depth = 0 then true else next depth
      | .word .PROCEDURE =>
        if depth = 0 ∧ last ∉ [.mark .colon, .mark .eq, .word .OF, .word .TO] then false
        else next depth
      | _ => next depth

/-- Whether a procedure body follows the semicolon of a heading. -/
def bodyFollows : Parser Bool := do
  match ← kind with
  | .word .BEGIN => pure true
  | .word .VAR | .word .CONST | .word .TYPE =>
    inspect fun s =>
      localsPrecedeBody 0 (.mark .semicolon) lookahead
        ((s.rest.take lookahead).map (·.kind))
  | _ => pure false

/-! ## Procedures and methods -/

/-- Local declarations, BEGIN, and statements. -/
def routineBody (locals : Parser (List Decl)) : Parser (List Decl × List Stmt) := do
  let ds ← locals
  expectWord .BEGIN
  let stmts ← statements
  pure (ds, stmts)

def procedure (locals : Parser (List Decl)) : Parser ProcDecl := do
  let start ← start
  let _ ← bump
  let name ← ident
  let ps ← params? typeSpec
  let result ← result? typeSpec
  let heading : ProcHeading := ⟨name, ps, result, ← spanFrom start⟩
  semicolon
  if ← bodyFollows then
    let (ds, stmts) ← routineBody locals
    closeWith .PROCEDURE heading.span
    semicolon
    pure ⟨heading, ds, stmts, false, ← spanFrom start⟩
  else pure ⟨heading, [], [], true, ← spanFrom start⟩

def methodImpl (locals : Parser (List Decl)) : Parser MethodImpl := do
  let start ← start
  let heading ← methodHeading typeSpec
  semicolon
  let (ds, stmts) ← routineBody locals
  closeWith .METHOD heading.span
  semicolon
  pure ⟨heading, ds, stmts, ← spanFrom start⟩

def implRound (locals : Parser (List Decl)) : Parser (Round Unit MethodImpl) := do
  match ← kind with
  | .word .END | .eof => stopped
  | .word .ASK | .word .TELL | .word .WAITFOR => found (← methodImpl locals)
  | .mark .semicolon =>
    let _ ← bump
    skipped
  | _ =>
    failInContext .unexpectedInObject
    recover .objectImpl
    skipped

/-- The bodies of an object's methods. -/
def objectImpl (locals : Parser (List Decl)) : Parser ObjectImpl := do
  let start ← start
  let _ ← bump
  let name ← ident
  semicolon
  let methods ← within .objectImpl (many (implRound locals))
  closeWith .OBJECT name.span
  semicolon
  pure ⟨name, methods, ← spanFrom start⟩

/-! ## Declarations -/

/-- One item among declarations: a section word, or a declaration.  Answers the section
that is open after it. -/
def declarationItem (locals : Parser (List Decl)) (last : Option Section) :
    Parser (Option Section × Option Decl) := within .declarations do
  let k ← kind
  match sectionOf? k with
  | some s =>
    let _ ← bump
    pure (some s, none)
  | none =>
    match k with
    | .word .PROCEDURE => pure (last, some (.procedure (← procedure locals)))
    | .word .OBJECT => pure (last, some (.objectImpl (← objectImpl locals)))
    | .ident => pure (last, ← entry last)
    | .eof => pure (last, none)
    | _ =>
      failInContext .unexpectedInDeclarations
      recover .declarations
      pure (last, none)

/-- Local declarations, given the parser of those nested in them. -/
def localsRule (locals : Parser (List Decl)) : Parser (List Decl) :=
  gather (fun last => do
    if ← atAny [.word .BEGIN, .word .END, .eof] then pure (.stop none)
    else
      let (s, decl) ← declarationItem locals last
      pure (.next s decl)) none

/-- Local declarations, up to BEGIN or END. -/
def locals : Parser (List Decl) := recurse localsRule

end SimFront.Grammar
