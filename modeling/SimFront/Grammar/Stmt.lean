import SimFront.Grammar.Expr
import SimFront.Tree.Stmt

/-!
# The grammar of statements

A compound statement closes with END, after which its own word may be repeated.
DO after the head of a loop may be left out.  The rules take the parser of nested
statement lists as their first argument; `Grammar.statements` ties them together.
-/

namespace SimFront.Grammar

open SimFront.Parser

/-- The tokens before which a statement list ends.  The construct around it decides
whether the one that is there is the one it needs. -/
def blockEnds : List TokenKind :=
  [.word .END, .word .ELSE, .word .ELSIF, .word .UNTIL, .word .WHEN, .word .OTHERWISE,
   .word .ON, .mark .pipe, .eof]

/-! ## Conditions and cases -/

/-- IF or ELSIF, a condition, THEN and statements; the current token is the word. -/
def condBranch (body : Parser (List Stmt)) : Parser CondBranch := do
  let start ← start
  let _ ← bump
  let condition ← expr
  expectWord .THEN
  let stmts ← body
  pure ⟨condition, stmts, ← spanFrom start⟩

def ifStmt (body : Parser (List Stmt)) : Parser Stmt := do
  let opened ← current
  let first ← condBranch body
  let more ← many do
    if ← atKind (.word .ELSIF) then found (← condBranch body) else stopped
  let orElse ← whenever (eatWord .ELSE) body
  closeWith .IF opened.span
  pure (.if_ (first :: more) orElse (← spanFrom opened.span.start))

/-- The values of an arm of a CASE statement, and what is done for them. -/
def caseArm (body : Parser (List Stmt)) : Parser CaseArm := do
  let start ← start
  let _ ← eatWord .WHEN
  let labels ← commaSeparated (rangeOrValue expr)
  expectMark .colon
  let stmts ← body
  pure ⟨labels, stmts, ← spanFrom start⟩

/-- An arm of a CASE statement.  An arm that could not read anything is skipped. -/
def caseRound (body : Parser (List Stmt)) : Parser (Round Unit CaseArm) := do
  let _ ← eatMark .pipe
  if ← atAny [.word .OTHERWISE, .word .ELSE, .word .END, .eof] then stopped
  else
    let before ← inspect (·.rest.length)
    let arm ← caseArm body
    if (← inspect (·.rest.length)) = before then recover .statements
    found arm

/-- The statements of a CASE for all other values, if they are written. -/
def otherwise? (body : Parser (List Stmt)) : Parser (Option (List Stmt)) :=
  whenever (do if ← eatWord .OTHERWISE then pure true else eatWord .ELSE) do
    let _ ← eatMark .colon
    body

def caseStmt (body : Parser (List Stmt)) : Parser Stmt := do
  let opened ← bump
  let selector ← expr
  let _ ← eatWord .OF
  let arms ← many (caseRound body)
  let otherwise ← otherwise? body
  closeWith .CASE opened.span
  pure (.case selector arms otherwise (← spanFrom opened.span.start))

/-! ## Loops -/

def whileStmt (body : Parser (List Stmt)) : Parser Stmt := do
  let opened ← bump
  let condition ← expr
  let _ ← eatWord .DO
  let stmts ← body
  closeWith .WHILE opened.span
  pure (.while_ condition stmts (← spanFrom opened.span.start))

def direction : Parser Direction := do
  if ← eatWord .DOWNTO then pure .down
  else
    expectWord .TO
    pure .up

def forStmt (body : Parser (List Stmt)) : Parser Stmt := do
  let opened ← bump
  let var ← ident
  expectMark .assign
  let first ← expr
  let dir ← direction
  let last ← expr
  let step ← whenever (eatWord .BY) expr
  let _ ← eatWord .DO
  let stmts ← body
  closeWith .FOR opened.span
  pure (.for_ var first dir last step stmts (← spanFrom opened.span.start))

def forEachStmt (body : Parser (List Stmt)) : Parser Stmt := do
  let opened ← bump
  let var ← ident
  expectWord .IN
  let group ← expr
  let _ ← eatWord .DO
  let stmts ← body
  closeWith .FOREACH opened.span
  pure (.forEach var group stmts (← spanFrom opened.span.start))

def repeatStmt (body : Parser (List Stmt)) : Parser Stmt := do
  let opened ← bump
  let stmts ← body
  expectWord .UNTIL
  let condition ← expr
  pure (.repeat_ stmts condition (← spanFrom opened.span.start))

def loopStmt (body : Parser (List Stmt)) : Parser Stmt := do
  let opened ← bump
  let stmts ← body
  closeWith .LOOP opened.span
  pure (.loop stmts (← spanFrom opened.span.start))

/-! ## Methods, time and objects -/

def tellStmt : Parser Stmt := do
  let opened ← bump
  let call ← methodCall expr opened.span.start
  let delay ← whenever (eatWord .IN) expr
  pure (.tell call delay (← spanFrom opened.span.start))

def askStmt : Parser Stmt := do
  let opened ← bump
  let call ← methodCall expr opened.span.start
  pure (.ask call (← spanFrom opened.span.start))

/-- What a WAIT statement waits for. -/
def waitSubject : Parser WaitSubject := do
  if ← eatWord .FOR then
    let start ← start
    pure (.method (← methodCall expr start))
  else
    expectWord .DURATION
    pure (.duration (← expr))

/-- What to do when the wait is interrupted, if it is written. -/
def interrupt? (body : Parser (List Stmt)) : Parser (Option (List Stmt)) :=
  whenever (eatWord .ON) do
    expectWord .INTERRUPT
    body

def waitStmt (body : Parser (List Stmt)) : Parser Stmt := do
  let opened ← bump
  let subject ← waitSubject
  let stmts ← body
  let interrupt ← interrupt? body
  closeWith .WAIT opened.span
  pure (.wait subject stmts interrupt (← spanFrom opened.span.start))

/-- An expression in parentheses, as NEW and DISPOSE take it. -/
def inParens : Parser Expr := do
  expectMark .lParen
  let target ← expr
  expectMark .rParen
  pure target

def newStmt : Parser Stmt := do
  let opened ← bump
  let target ← inParens
  pure (.new target (← spanFrom opened.span.start))

def disposeStmt : Parser Stmt := do
  let opened ← bump
  let target ← inParens
  pure (.dispose target (← spanFrom opened.span.start))

def inheritedStmt : Parser Stmt := do
  let opened ← bump
  let method ← ident
  let args ← arguments? expr
  pure (.inherited method args (← spanFrom opened.span.start))

def withStmt (body : Parser (List Stmt)) : Parser Stmt := do
  let opened ← bump
  let subject ← expr
  let _ ← eatWord .DO
  let stmts ← body
  closeWith .WITH opened.span
  pure (.with_ subject stmts (← spanFrom opened.span.start))

/-! ## Simple statements -/

def returnStmt : Parser Stmt := do
  let opened ← bump
  let value ←
    if (← atKind (.mark .semicolon)) || (← atAny blockEnds) then pure none
    else pure (some (← expr))
  pure (.return_ value (← spanFrom opened.span.start))

def exitStmt : Parser Stmt := do
  let opened ← bump
  pure (.exit (← spanFrom opened.span.start))

def terminateStmt : Parser Stmt := do
  let opened ← bump
  pure (.terminate (← spanFrom opened.span.start))

/-- An assignment, or a designator or call on its own. -/
def assignOrCall : Parser Stmt := do
  let start ← start
  let target ← postfixed expr
  if ← eatMark .assign then
    let value ← expr
    pure (.assign target value (← spanFrom start))
  else pure (.call target (← spanFrom start))

/-! ## Statement lists -/

/-- One statement.  None, after a report, when no statement starts here. -/
def statement (body : Parser (List Stmt)) : Parser (Option Stmt) := do
  match ← kind with
  | .word .IF => some <$> ifStmt body
  | .word .WHILE => some <$> whileStmt body
  | .word .FOR => some <$> forStmt body
  | .word .FOREACH => some <$> forEachStmt body
  | .word .REPEAT => some <$> repeatStmt body
  | .word .LOOP => some <$> loopStmt body
  | .word .CASE => some <$> caseStmt body
  | .word .RETURN => some <$> returnStmt
  | .word .EXIT => some <$> exitStmt
  | .word .TERMINATE => some <$> terminateStmt
  | .word .NEW => some <$> newStmt
  | .word .DISPOSE => some <$> disposeStmt
  | .word .ASK => some <$> askStmt
  | .word .TELL => some <$> tellStmt
  | .word .WAIT => some <$> waitStmt body
  | .word .INHERITED => some <$> inheritedStmt
  | .word .WITH => some <$> withStmt body
  | .ident | .word .SELF => some <$> assignOrCall
  | _ =>
    failInContext .invalidStatement
    pure none

/-- A statement, where one can start, and the semicolon after it.  Where none starts,
tokens are skipped up to the next place to go on. -/
def statementRound (body : Parser (List Stmt)) : Parser (Round Unit Stmt) := do
  if ← atKind (.mark .semicolon) then
    let _ ← bump
    skipped
  else if ← atAny blockEnds then stopped
  else
    let before ← inspect (·.rest.length)
    let stmt ← statement body
    if (← inspect (·.rest.length)) = before then recover .statements
    else unless ← eatMark .semicolon do
      unless ← atAny blockEnds do
        fail .missingSemicolon fun found =>
          s!"expected ';' between statements, found {found.describe}"
    pure (.next () stmt)

/-- A statement list, given the parser of those nested in it. -/
def statementsRule (body : Parser (List Stmt)) : Parser (List Stmt) :=
  within .statements (many (statementRound body))

/-- A statement list, up to a token that closes a block. -/
def statements : Parser (List Stmt) := recurse statementsRule

end SimFront.Grammar
