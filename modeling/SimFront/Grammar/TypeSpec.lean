import SimFront.Grammar.Expr
import SimFront.Tree.TypeSpec

/-!
# The grammar of types

Types, and the parameters, fields and method headings that hold types.  The rules
take the parser of nested types as their first argument; `Grammar.typeSpec` ties
them together.
-/

namespace SimFront.Grammar

open SimFront.Parser

/-- A name, with its module and a dot before it or not. -/
def qualIdent : Parser QualIdent := do
  let start ← start
  let first ← ident
  if (← atKind (.mark .dot)) && (← kindAt 1) = .ident then
    let _ ← bump
    let name ← ident
    pure ⟨some first, name, ← spanFrom start⟩
  else pure (.ofIdent first)

/-! ## Parameters and headings -/

/-- A mode, which may be left out, names, and the type they share. -/
def param (type : Parser TypeSpec) : Parser Param := do
  let start ← start
  let mode ← match ← kind with
    | .word .IN => do
      let _ ← bump
      pure .in_
    | .word .OUT => do
      let _ ← bump
      pure .out
    | .word .INOUT => do
      let _ ← bump
      pure .inOut
    | _ => pure .in_
  let first ← ident
  let more ← many do
    if (← atKind (.mark .comma)) && (← kindAt 1) = .ident then
      let _ ← bump
      found (← ident)
    else stopped
  expectMark .colon
  let t ← type
  pure ⟨mode, first :: more, t, ← spanFrom start⟩

/-- The end of a parameter list.  When it is not there, the damaged rest is skipped. -/
def closeParams (opened : Span) : Parser Unit := do
  unless ← atKind (.mark .rParen) do
    failRelated .invalidParameters
      (fun found => s!"expected ')' to close parameter list, found {found.describe}")
      ⟨"parameter list opened here", opened⟩
    skipUntil fun k => k = .mark .rParen || k = .mark .semicolon
  let _ ← eatMark .rParen
  pure ()

/-- A parameter, and the semicolon or comma that says that another may follow. -/
def paramRound (type : Parser TypeSpec) : Parser (Round Unit Param) := do
  if ← atAny [.mark .rParen, .eof] then stopped
  else
    let p ← param type
    if ← eatMark .semicolon then found p
    else if ← eatMark .comma then found p
    else foundLast p

/-- Parameters in parentheses; the current token opens them. -/
def params (type : Parser TypeSpec) : Parser (List Param) := within .parameters do
  let opened ← bump
  let ps ← many (paramRound type)
  closeParams opened.span
  pure ps

/-- Parameters in parentheses, if the current token opens them. -/
def params? (type : Parser TypeSpec) : Parser (List Param) := do
  if ← atKind (.mark .lParen) then params type else pure []

/-- A result type after a colon, if there is one. -/
def result? (type : Parser TypeSpec) : Parser (Option TypeSpec) :=
  whenever (eatMark .colon) type

def dispatchOf : TokenKind → Dispatch
  | .word .TELL => .tell
  | .word .WAITFOR => .waitFor
  | _ => .ask

/-- The heading of a method; the current token says how it is invoked. -/
def methodHeading (type : Parser TypeSpec) : Parser MethodHeading := do
  let start ← start
  let opener ← bump
  expectWith .invalidMethod (.word .METHOD)
  let name ← ident
  let ps ← params? type
  let result ← result? type
  pure ⟨dispatchOf opener.kind, name, ps, result, ← spanFrom start⟩

/-! ## Fields and records -/

/-- Names and the type they share. -/
def fieldDecl (type : Parser TypeSpec) : Parser FieldDecl := do
  let start ← start
  let names ← commaSeparated ident
  expectMark .colon
  let t ← type
  pure ⟨names, t, ← spanFrom start⟩

/-- The semicolon after a member, which may be left out before END. -/
def memberEnd : Parser Unit := do
  unless ← atKind (.word .END) do semicolon

def recordRound (type : Parser TypeSpec) : Parser (Round Unit FieldDecl) := do
  if ← atAny [.word .END, .eof] then stopped
  else if ← eatMark .semicolon then skipped
  else if ← atKind .ident then
    let f ← fieldDecl type
    memberEnd
    found f
  else
    failInContext .invalidType
    recover .recordBody
    skipped

/-- A record; the current token opens it. -/
def recordType (type : Parser TypeSpec) : Parser TypeSpec := do
  let start ← start
  let opened ← bump
  let fields ← within .recordBody (many (recordRound type))
  closeWith .RECORD opened.span
  pure (.record fields (← spanFrom start))

/-! ## Objects -/

def sectionKind? : TokenKind → Option SectionKind
  | .word .PRIVATE => some .private_
  | .word .CLASS => some .class_
  | .word .OVERRIDE => some .override
  | _ => none

/-- A round of the members of one section, which ends before the next section and
before the end of the object. -/
def memberRound (type : Parser TypeSpec) : Parser (Round Unit ObjectMember) := do
  match ← kind with
  | .word .END | .eof | .word .PRIVATE | .word .CLASS | .word .OVERRIDE => stopped
  | .mark .semicolon =>
    let _ ← bump
    skipped
  | .word .ASK | .word .TELL | .word .WAITFOR =>
    let h ← methodHeading type
    memberEnd
    found (.method h)
  | .ident =>
    let f ← fieldDecl type
    memberEnd
    found (.field f)
  | _ =>
    failInContext .unexpectedInObject
    recover .objectBody
    skipped

/-- The members before any section word; they make a section only if there are any. -/
def publicSection? (type : Parser TypeSpec) : Parser (Option ObjectSection) := do
  let members ← many (memberRound type)
  match members with
  | [] => pure none
  | m :: _ => pure (some ⟨.public_, members, ← spanFrom m.span.start⟩)

/-- A section that a word opens. -/
def sectionRound (type : Parser TypeSpec) : Parser (Round Unit ObjectSection) := do
  match sectionKind? (← kind) with
  | none => stopped
  | some k =>
    let opener ← bump
    let members ← many (memberRound type)
    found ⟨k, members, ← spanFrom opener.span.start⟩

/-- The bases of an object type, in parentheses, if there are any. -/
def bases? : Parser (List QualIdent) := do
  if ← eatMark .lParen then
    let bases ← commaSeparated qualIdent
    expectMark .rParen
    pure bases
  else pure []

/-- An object type; the current token opens it. -/
def objectType (type : Parser TypeSpec) : Parser ObjectType := do
  let start ← start
  let opened ← bump
  let bases ← bases?
  let _ ← eatMark .semicolon
  let sections ← within .objectBody do
    let first ← publicSection? type
    let more ← many (sectionRound type)
    pure (first.toList ++ more)
  closeWith .OBJECT opened.span
  pure ⟨bases, sections, ← spanFrom start⟩

/-! ## Other types -/

/-- Two bounds with a range mark between them. -/
def bounds : Parser (Expr × Expr) := do
  let low ← expr
  expectMark .range
  let high ← expr
  pure (low, high)

def subrange : Parser TypeSpec := do
  let start ← start
  let (low, high) ← bounds
  pure (.subrange low high (← spanFrom start))

/-- Bounds in brackets; the current token opens them. -/
def bracketedSubrange : Parser TypeSpec := do
  let start ← start
  let _ ← bump
  let (low, high) ← bounds
  expectMark .rBracket
  pure (.subrange low high (← spanFrom start))

/-- Whether the next tokens are an index type rather than bounds. -/
def atIndexType : Parser Bool := inspect fun s =>
  s.kind = .ident &&
    match (s.token 1).kind with
    | .mark .comma | .word .OF | .mark .rBracket => true
    | .mark .dot => (s.token 3).kind ≠ .mark .range
    | _ => false

/-- One dimension of an array. -/
def arrayIndex : Parser ArrayIndex := do
  let start ← start
  if ← atIndexType then pure (.type (← qualIdent))
  else
    let (low, high) ← bounds
    pure (.range low high (← spanFrom start))

/-- An array; the current token opens it.  The dimensions may stand in brackets, or be
left out. -/
def arrayType (type : Parser TypeSpec) : Parser TypeSpec := do
  let start ← start
  let _ ← bump
  let bracketed ← eatMark .lBracket
  let indices ←
    if (← atKind (.word .OF)) || (bracketed && (← atKind (.mark .rBracket))) then pure []
    else commaSeparated arrayIndex
  if bracketed then expectMark .rBracket
  expectWord .OF
  let element ← type
  pure (.array indices element (← spanFrom start))

/-- The values of an enumeration in parentheses, after ENUM or without it. -/
def enumType : Parser TypeSpec := do
  let start ← start
  let _ ← eatWord .ENUM
  expectMark .lParen
  let values ← commaSeparated ident
  expectMark .rParen
  pure (.enum values (← spanFrom start))

/-- A type, given the parser of those nested in it. -/
def typeRule (type : Parser TypeSpec) : Parser TypeSpec := within .typeSpec do
  let start ← start
  match ← kind with
  | .ident =>
    if (← kindAt 1) = .mark .range then subrange else pure (.named (← qualIdent))
  | .integer | .char | .mark .minus => subrange
  | .mark .lBracket => bracketedSubrange
  | .word .ARRAY => arrayType type
  | .word .RECORD => recordType type
  | .word .POINTER =>
    let _ ← bump
    expectWord .TO
    let target ← type
    pure (.pointer target (← spanFrom start))
  | .word .SET =>
    let _ ← bump
    expectWord .OF
    let element ← type
    pure (.set element (← spanFrom start))
  | .word .ENUM | .mark .lParen => enumType
  | .word .PROCEDURE =>
    let _ ← bump
    let ps ← params? type
    let result ← result? type
    pure (.procedure ps result (← spanFrom start))
  | .word .OBJECT => pure (.object (← objectType type))
  | _ =>
    fail .invalidType fun found => s!"expected type, found {found.describe}"
    pure (.named (.ofIdent (.missingAt start)))

/-- A type. -/
def typeSpec : Parser TypeSpec := recurse typeRule

end SimFront.Grammar
