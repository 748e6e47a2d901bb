import SimFront.Tree.Expr

/-!
# Statements
-/

namespace SimFront

inductive Direction where
  | up
  | down
deriving DecidableEq, Repr, Inhabited

/-- What a WAIT statement waits for: a method to finish, or time to pass. -/
inductive WaitSubject where
  | method (call : MethodCall)
  | duration (time : Expr)

mutual

inductive Stmt where
  | assign (target value : Expr) (span : Span)
  | call (call : Expr) (span : Span)
  | if_ (branches : List CondBranch) (else? : Option (List Stmt)) (span : Span)
  | while_ (condition : Expr) (body : List Stmt) (span : Span)
  | for_ (var : Ident) (first : Expr) (direction : Direction) (last : Expr) (step : Option Expr)
      (body : List Stmt) (span : Span)
  | forEach (var : Ident) (group : Expr) (body : List Stmt) (span : Span)
  | repeat_ (body : List Stmt) (condition : Expr) (span : Span)
  | loop (body : List Stmt) (span : Span)
  | case (selector : Expr) (arms : List CaseArm) (otherwise : Option (List Stmt)) (span : Span)
  | return_ (value : Option Expr) (span : Span)
  | exit (span : Span)
  | new (target : Expr) (span : Span)
  | dispose (target : Expr) (span : Span)
  | ask (call : MethodCall) (span : Span)
  | tell (call : MethodCall) (delay : Option Expr) (span : Span)
  | wait (subject : WaitSubject) (body : List Stmt) (interrupt : Option (List Stmt)) (span : Span)
  | terminate (span : Span)
  | inherited (method : Ident) (args : List Expr) (span : Span)
  | with_ (subject : Expr) (body : List Stmt) (span : Span)

/-- A condition of an IF statement and the statements it guards. -/
structure CondBranch where
  condition : Expr
  body : List Stmt
  span : Span

/-- The labels of a CASE arm and its statements. -/
structure CaseArm where
  labels : List Expr
  body : List Stmt
  span : Span

end

instance : Inhabited Stmt := ⟨.exit {}⟩

namespace Stmt

def span : Stmt → Span
  | .assign _ _ s | .call _ s | .if_ _ _ s | .while_ _ _ s | .for_ _ _ _ _ _ _ s
  | .forEach _ _ _ s | .repeat_ _ _ s | .loop _ s | .case _ _ _ s | .return_ _ s | .exit s
  | .new _ s | .dispose _ s | .ask _ s | .tell _ _ s | .wait _ _ _ s | .terminate s
  | .inherited _ _ s | .with_ _ _ s => s

end Stmt

end SimFront
