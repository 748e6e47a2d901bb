import SimFront.Grammar.Parser
import SimFront.Numeral.Binary64
import SimFront.Tree.Expr

/-!
# The grammar of expressions

From loosest to tightest: OR, AND, equality, relations and IN, sums, products,
signs and NOT, and selectors.  Operators of one level associate to the left.
The rules below take the parser of nested expressions as their first argument;
`Grammar.expr` ties them together.
-/

namespace SimFront.Grammar

open SimFront.Parser

/-! ## Arguments -/

/-- Arguments in parentheses; the current token opens them. -/
def arguments (expr : Parser Expr) : Parser (List Expr) := do
  let opened ← bump
  let args ← within .arguments do
    if ← atKind (.mark .rParen) then pure [] else commaSeparated expr
  unless ← eatMark .rParen do
    failRelated .unclosedArguments
      (fun found => s!"expected ')' to close argument list, found {found.describe}")
      ⟨"argument list opened here", opened.span⟩
  pure args

/-- Arguments in parentheses, if the current token opens them. -/
def arguments? (expr : Parser Expr) : Parser (List Expr) := do
  if ← atKind (.mark .lParen) then arguments expr else pure []

/-! ## Selectors -/

/-- One selector applied to `base`: an index, a field or a dereference.  None when
no selector follows, as when the name after a dot is missing. -/
def selector? (expr : Parser Expr) (start : Position) (base : Expr) : Parser (Option Expr) := do
  match ← kind with
  | .mark .lBracket =>
    let _ ← bump
    let indices ← commaSeparated expr
    expectMark .rBracket
    pure (some (.index base indices (← spanFrom start)))
  | .mark .dot =>
    if (← kindAt 1) = .ident then
      let _ ← bump
      let name ← ident
      pure (some (.field base name (← spanFrom start)))
    else pure none
  | .mark .caret =>
    let _ ← bump
    pure (some (.deref base (← spanFrom start)))
  | _ => pure none

/-- A call or a selector, after a value. -/
def postfixStep? (expr : Parser Expr) (start : Position) (base : Expr) : Parser (Option Expr) := do
  if ← atKind (.mark .lParen) then
    let args ← arguments expr
    pure (some (.call base args (← spanFrom start)))
  else selector? expr start base

/-- A designator without calls, as the object of a method call is written. -/
def designator (expr : Parser Expr) : Parser Expr := do
  let start ← start
  let base ← if ← atKind (.word .SELF) then do pure (.selfRef (← bump).span)
    else do pure (.name (← ident))
  iterate (selector? expr start) base

/-- An object, TO if it is written, a method, and arguments if there are any.  The
call starts where the word before it does. -/
def methodCall (expr : Parser Expr) (start : Position) : Parser MethodCall := do
  let target ← designator expr
  let _ ← eatWord .TO
  let method ← ident
  let args ← arguments? expr
  pure ⟨target, method, args, ← spanFrom start⟩

/-! ## Primaries -/

/-- A value, or a range of values. -/
def rangeOrValue (expr : Parser Expr) : Parser Expr := do
  let start ← start
  let low ← expr
  if ← eatMark .range then
    let high ← expr
    pure (.range low high (← spanFrom start))
  else pure low

/-- A set in brackets; the current token opens it. -/
def setLiteral (expr : Parser Expr) : Parser Expr := do
  let start ← start
  let _ ← bump
  let elements ←
    if ← atKind (.mark .rBracket) then pure [] else commaSeparated (rangeOrValue expr)
  expectMark .rBracket
  pure (.set elements (← spanFrom start))

/-- A whole number; one that is too large is an error. -/
def integerLiteral : Parser Expr := do
  let t ← bump
  match Numeral.integer? t.text with
  | some value => pure (.integer value t.span)
  | none =>
    report { code := .invalidExpression,
             message := s!"integer literal {t.text} is out of range", span := t.span }
    pure (.missing t.span)

def primary (expr : Parser Expr) : Parser Expr := do
  let start ← start
  match ← kind with
  | .ident => pure (.name (← ident))
  | .integer => integerLiteral
  | .real => do
    let t ← bump
    pure (.real (Numeral.realBits t.text) t.span)
  | .string => do
    let t ← bump
    pure (.string (t.stringValue?.getD "") t.span)
  | .char => do
    let t ← bump
    pure (.char (t.charValue?.getD '\x00') t.span)
  | .word .TRUE => do pure (.bool true (← bump).span)
  | .word .FALSE => do pure (.bool false (← bump).span)
  | .word .NIL => do pure (.nil .nil (← bump).span)
  | .word .NILOBJ => do pure (.nil .nilObj (← bump).span)
  | .word .NILREC => do pure (.nil .nilRec (← bump).span)
  | .word .NILARRAY => do pure (.nil .nilArray (← bump).span)
  | .word .SELF => do pure (.selfRef (← bump).span)
  | .mark .lParen =>
    let _ ← bump
    let inner ← expr
    expectMark .rParen
    pure inner
  | .mark .lBracket => setLiteral expr
  | .word .ASK =>
    let _ ← bump
    pure (.ask (← methodCall expr start))
  | .word .INHERITED =>
    let _ ← bump
    let method ← ident
    let args ← arguments? expr
    pure (.inherited method args (← spanFrom start))
  | _ =>
    failInContext .invalidExpression
    pure (.missing (.emptyAt start))

/-- A primary with calls and selectors after it. -/
def postfixed (expr : Parser Expr) : Parser Expr := do
  let start ← start
  iterate (postfixStep? expr start) (← primary expr)

/-! ## Operators -/

def unaryOp? : TokenKind → Option UnaryOp
  | .word .NOT => some .not
  | .mark .minus => some .neg
  | .mark .plus => some .plus
  | _ => none

/-- Signs and NOT, each with the place at which it stands. -/
def signs : Parser (List (UnaryOp × Position)) := many do
  match unaryOp? (← kind) with
  | some op => do
    let t ← bump
    found (op, t.span.start)
  | none => stopped

/-- Puts a sign over the value behind it. -/
def signed (op : UnaryOp × Position) (e : Expr) : Parser Expr := do
  pure (.unary op.1 e (← spanFrom op.2))

/-- Signs and NOT before a value; the innermost is the last one written. -/
def unary (expr : Parser Expr) : Parser Expr := do
  let ops ← signs
  let operand ← postfixed expr
  ops.foldrM signed operand

/-- The levels of binary operators, loosest first. -/
def levels : List (TokenKind → Option BinaryOp) :=
  [fun
    | .word .OR => some .or
    | _ => none,
   fun
    | .word .AND => some .and
    | _ => none,
   fun
    | .mark .eq => some .eq
    | .mark .notEq => some .notEq
    | .mark .hash => some .notEq
    | _ => none,
   fun
    | .mark .lt => some .lt
    | .mark .ltEq => some .ltEq
    | .mark .gt => some .gt
    | .mark .gtEq => some .gtEq
    | .word .IN => some .in_
    | _ => none,
   fun
    | .mark .plus => some .add
    | .mark .minus => some .sub
    | _ => none,
   fun
    | .mark .star => some .mul
    | .mark .slash => some .div
    | .word .DIV => some .intDiv
    | .word .MOD => some .mod
    | _ => none]

/-- An operator of one level and the operand on its right, after the one on its left. -/
def operatorStep? (op? : TokenKind → Option BinaryOp) (operand : Parser Expr) (start : Position)
    (left : Expr) : Parser (Option Expr) := do
  match op? (← kind) with
  | none => pure none
  | some op => do
    let _ ← bump
    if ← atAny [.mark .semicolon, .mark .rParen, .eof] then
      fail .missingOperand fun found =>
        s!"expected operand after '{op.text}', found {found.describe}"
    let right ← operand
    pure (some (.binary op left right (← spanFrom start)))

/-- Operands of one level with operators between them, grouped to the left. -/
def leftAssociative (op? : TokenKind → Option BinaryOp) (operand : Parser Expr) :
    Parser Expr := do
  let start ← start
  iterate (operatorStep? op? operand start) (← operand)

/-- Operators of the given levels over signed values. -/
def binary (expr : Parser Expr) : List (TokenKind → Option BinaryOp) → Parser Expr
  | [] => unary expr
  | op? :: tighter => leftAssociative op? (binary expr tighter)

/-- An expression, given the parser of those nested in it. -/
def exprRule (expr : Parser Expr) : Parser Expr := within .expression (binary expr levels)

/-- An expression. -/
def expr : Parser Expr := recurse exprRule

end SimFront.Grammar
