import SimFront.Check.Expr
import SimFront.Tree.Stmt

/-!
# Statements

The parts of a statement are checked in the order in which they take effect: a
value before the place it is assigned to, the body of a REPEAT before its
condition.
-/

namespace SimFront.Check

/-- Whether a type may turn out to be any type. -/
def isOpen : Ty → Bool
  | .unknown | .named _ _ => true
  | _ => false

/-- Checks an expression that has to be true or false. -/
def checkCondition (e : Expr) : Check Unit := do
  let type ← normalize (← checkExpr e)
  unless type == .boolean || isOpen type do
    error .typeMismatch e.span s!"condition must be BOOLEAN, found {type.display}"

/-- Checks an expression that has to be a number; `what` names it in the report. -/
def checkNumeric (what : String) (e : Expr) : Check Unit := do
  let type ← normalize (← checkExpr e)
  unless type.isNumeric || isOpen type do
    error .typeMismatch e.span s!"{what} must be numeric, found {type.display}"

def checkAssign (target value : Expr) : Check Unit := do
  let valueType ← checkExpr value
  let targetType ← checkPlace target
  unless ← assignable targetType valueType do
    error .typeMismatch value.span
      s!"cannot assign a {valueType.display} value to a {targetType.display} target"

/-- Checks the value of a RETURN against the result of the routine around. -/
def checkReturn (value : Expr) (span : Span) : Check Unit := do
  let type ← checkExpr value
  match (← read).routine? with
  | none => pure ()
  | some none =>
    error .typeMismatch span "RETURN with a value in a routine that has no result type"
  | some (some expected) =>
    unless ← assignable expected type do
      error .typeMismatch value.span
        s!"RETURN value is {type.display} but the result type is {expected.display}"

/-- Assigns to the variable of a loop. -/
def writeLoopVar (var : Ident) : Check Unit := do
  let _ ← writeName var
  pure ()

def checkCallOf (call : MethodCall) : Check Unit := do
  let _ ← checkMethodCall call
  pure ()

def checkWaitSubject : WaitSubject → Check Unit
  | .method call => checkCallOf call
  | .duration time => checkNumeric "WAIT DURATION" time

mutual

def checkStmt : Stmt → Check Unit
  | .assign target value _ => checkAssign target value
  | .call call _ => checkValue call
  | .if_ branches else? _ => do
    checkBranches branches
    checkOptional else?
  | .while_ condition body _ => do
    checkCondition condition
    checkBlock body
  | .repeat_ body condition _ => do
    checkBlock body
    checkCondition condition
  | .for_ var first _ last step body _ => do
    checkValue first
    checkValue last
    step.forM checkValue
    writeLoopVar var
    checkBlock body
  | .forEach var group body _ => do
    checkValue group
    writeLoopVar var
    checkBlock body
  | .loop body _ => checkBlock body
  | .case selector arms otherwise _ => do
    checkValue selector
    checkArms arms
    checkOptional otherwise
  | .return_ value span => value.forM fun e => checkReturn e span
  | .exit _ | .terminate _ => pure ()
  | .new target _ => do
    let _ ← checkPlace target
    pure ()
  | .dispose target _ => checkValue target
  | .ask call _ => checkCallOf call
  | .tell call delay _ => do
    checkCallOf call
    delay.forM (checkNumeric "TELL delay")
  | .wait subject body interrupt _ => do
    checkWaitSubject subject
    checkBlock body
    checkOptional interrupt
  | .inherited method args _ => do
    let _ ← inheritedCall method (checkEach args)
    pure ()
  | .with_ subject body _ => do
    checkValue subject
    withReader (fun env => { env with insideWith := true }) (checkBlock body)

/-- Checks statements in order. -/
def checkBlock : List Stmt → Check Unit
  | [] => pure ()
  | s :: rest => do
    checkStmt s
    checkBlock rest

def checkOptional : Option (List Stmt) → Check Unit
  | none => pure ()
  | some body => checkBlock body

def checkBranches : List CondBranch → Check Unit
  | [] => pure ()
  | ⟨condition, body, _⟩ :: rest => do
    checkCondition condition
    checkBlock body
    checkBranches rest

def checkArms : List CaseArm → Check Unit
  | [] => pure ()
  | ⟨labels, body, _⟩ :: rest => do
    labels.forM checkValue
    checkBlock body
    checkArms rest

end

end SimFront.Check
