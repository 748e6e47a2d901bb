import SimFront.Check.Name

/-!
# Expressions

`checkExpr` looks up the names in an expression, records their uses, and gives
the type of the expression; unknown if it cannot be told.  The parts of an
expression are checked from left to right.
-/

namespace SimFront.Check

/-! ## Operators -/

/-- Whether values of a type are text. -/
def isText (t : Ty) : Bool := t == .string || t == .char

/-- The type of an arithmetic operation on operands of some types. -/
def arithmeticType (op : BinaryOp) (left right : Ty) : Ty :=
  match op with
  | .intDiv | .mod => .integer
  | _ =>
    if op = .div && left.isNumeric && right.isNumeric then .real
    else if left.isInteger && right.isInteger then .integer
    else if left.isNumeric && right.isNumeric then .real
    else if op = .add && isText left && isText right then .string
    else match left with
      | .set element => .set element
      | _ => .unknown

/-- The type of a binary operation on operands of some types. -/
def binaryType (op : BinaryOp) (left right : Ty) : Check Ty := do
  if op.isComparison || op.isLogical then pure .boolean
  else
    let left ← normalize left
    let right ← normalize right
    pure (arithmeticType op left right)

/-- The type of an element of a value of some type. -/
def elementType (base : Ty) : Check Ty := do
  match ← normalize base with
  | .array _ element => pure element
  | .builtin .string => pure .char
  | _ => pure .unknown

/-! ## Targets and arguments -/

/-- Checks an expression that is assigned to, and gives its type.  `check` checks it as a
value.  An assignment to a part counts as one to the whole. -/
def checkTarget (target : Expr) (check : Check Ty) : Check Ty := do
  if !target.isDesignator then
    error .invalidAssignment target.span
      "left side of an assignment must be a variable, field or element"
    let _ ← check
    pure .unknown
  else match target with
    | .name id => writeName id
    | _ =>
      match target.rootName? with
      | some root =>
        match (← table).lookupId? root.name with
        | some id => markAssigned id
        | none => pure ()
      | none => pure ()
      check

/-- An argument, and the check of it as a value. -/
abbrev Argument : Type := Expr × Check Ty

/-- Reports an argument that should be a place but is not, and checks it as a value. -/
def notAPlace (index : Nat) (mode : ParamMode) (arg : Argument) : Check Unit := do
  error .nonAssignableArgument arg.1.span
    s!"argument {index + 1} is passed to an {mode.text} parameter and must be a variable"
  let _ ← arg.2
  pure ()

/-- Checks an argument for a parameter, or for none if nothing is known of the callee. -/
def checkArg (index : Nat) (arg : Argument) (param? : Option ParamType) : Check Unit := do
  match param? with
  | none =>
    let _ ← arg.2
    pure ()
  | some p =>
    if p.mode.needsDesignator then
      if arg.1.isDesignator then
        let _ ← checkTarget arg.1 arg.2
        pure ()
      else notAPlace index p.mode arg
    else
      let type ← arg.2
      unless ← assignable p.type type do
        error .typeMismatch arg.1.span
          s!"argument {index + 1} is {type.display} but the parameter is {p.type.display}"

def checkArgList : (index : Nat) → List Argument → List ParamType → Check Unit
  | _, [], _ => pure ()
  | i, arg :: args, params => do
    checkArg i arg params.head?
    checkArgList (i + 1) args params.tail

/-- Checks arguments against the parameters of a signature, if it is known. -/
def checkArgs (args : List Argument) (signature? : Option Signature) (span : Span) :
    Check Unit := do
  match signature? with
  | none => checkArgList 0 args []
  | some s =>
    if s.params.length ≠ args.length then
      error .typeMismatch span s!"expected {s.params.length} argument(s), found {args.length}"
    checkArgList 0 args s.params

/-- Checks the arguments of a call of something of a type, and gives the type of the
result. -/
def callResult (callee : Ty) (args : List Argument) (span : Span) : Check Ty := do
  match callee with
  | .procedure s =>
    checkArgs args (some s) span
    pure (s.result.getD .void)
  | _ =>
    checkArgs args none span
    pure .unknown

/-! ## Calls of built-in procedures -/

/-- The result of a built-in procedure, or of a built-in type used for conversion, whose
first argument has a type. -/
def builtinResult (name : String) (first : Ty) : Ty :=
  if ["FLOAT", "REAL", "STRTOREAL", "SimTime"].contains name then .real
  else if ["TRUNC", "ROUND", "ORD", "STRLEN", "POSITION", "STRTOINT", "INTEGER"].contains name
  then .integer
  else if ["CHR", "CHAR"].contains name then .char
  else if name = "ODD" then .boolean
  else if ["INTTOSTR", "REALTOSTR", "SUBSTR", "UPPER", "LOWER"].contains name then .string
  else if ["ABS", "MIN", "MAX"].contains name then first
  else .unknown

/-- Whether a built-in procedure changes its first argument. -/
def writesFirst (name : String) : Bool := name = "INC" || name = "DEC"

/-- Checks the first argument of a built-in procedure and gives its type. -/
def checkFirstArg (name : String) (arg : Argument) : Check Ty := do
  if writesFirst name then
    if arg.1.isDesignator then checkTarget arg.1 arg.2
    else
      notAPlace 0 .inOut arg
      pure .unknown
  else arg.2

/-- Checks a call of a built-in procedure, which takes any arguments. -/
def builtinCall (name : String) (args : List Argument) : Check Ty := do
  match args with
  | [] => pure (builtinResult name .unknown)
  | arg :: rest =>
    let first ← checkFirstArg name arg
    rest.forM fun a => do
      let _ ← a.2
      pure ()
    pure (builtinResult name first)

/-- The built-in name that a callee is, when no scope around hides it. -/
def builtinCallee? (callee : Expr) : Check (Option String) := do
  match callee with
  | .name id =>
    if isBuiltinName id.name && ((← table).lookupId? id.name).isNone then pure (some id.name)
    else pure none
  | _ => pure none

/-- Checks a call; `check` checks the callee as a value. -/
def checkCall (callee : Expr) (check : Check Ty) (args : List Argument) (span : Span) :
    Check Ty := do
  match ← builtinCallee? callee with
  | some name => builtinCall name args
  | none => callResult (← check) args span

/-! ## Methods -/

/-- Checks the call of a method on a target; `check` checks the target. -/
def methodCall (check : Check Ty) (method : Ident) (args : List Argument) (span : Span) :
    Check Ty := do
  callResult (← memberType (← check) method) args span

/-- Checks the call of an inherited method, which some base type has to declare. -/
def inheritedCall (method : Ident) (args : List Argument) : Check Ty := do
  match ((← read).objects.head?.filter (·.chainResolved)).bind (·.object?) with
  | none => callResult .unknown args method.span
  | some o =>
    match ← baseMethod o method.name with
    | some base => callResult base.type args method.span
    | none =>
      error .undefinedReference method.span
        s!"no base type of '{o.name}' declares a method '{method.name}'"
      callResult .unknown args method.span

/-! ## Expressions -/

/-- The type of SELF: the object whose methods are being checked. -/
def selfType : Check Ty := do
  pure (match (← read).objects.head?.bind (·.object?) with
    | some o => .named o.origin? o.name
    | none => .unknown)

/-- Checks a field access; `check` checks the base as a value.  A base that names a module
gives access to what the module declares. -/
def fieldAccess (base : Expr) (check : Check Ty) (member : Ident) : Check Ty := do
  let declared? ← match base with
    | .name module => moduleMember module member
    | _ => pure none
  match declared? with
  | some type => pure type
  | none => memberType (← check) member

/-- Runs the checks of some values in order and gives the type of the first. -/
def firstType : List Argument → Check Ty
  | [] => pure .unknown
  | arg :: rest => do
    let first ← arg.2
    rest.forM fun a => do
      let _ ← a.2
      pure ()
    pure first

mutual

/-- Checks an expression as a value and gives its type. -/
def checkExpr : Expr → Check Ty
  | .name id => readName id
  | .integer _ _ => pure .integer
  | .real _ _ => pure .real
  | .string _ _ => pure .string
  | .char _ _ => pure .char
  | .bool _ _ => pure .boolean
  | .nil _ _ => pure .nil
  | .selfRef _ => selfType
  | .unary op operand _ => do
    let type ← checkExpr operand
    pure (if op = .not then .boolean else type)
  | .binary op left right _ => do
    let l ← checkExpr left
    let r ← checkExpr right
    binaryType op l r
  | .call callee args span => checkCall callee (checkExpr callee) (checkEach args) span
  | .index base indices _ => do
    let type ← checkExpr base
    let _ ← firstType (checkEach indices)
    elementType type
  | .field base member _ => fieldAccess base (checkExpr base) member
  | .deref base _ => do
    match ← checkExpr base with
    | .pointer target => pure target
    | _ => pure .unknown
  | .set elements _ => do pure (.set (← firstType (checkEach elements)))
  | .range low high _ => do
    let type ← checkExpr low
    let _ ← checkExpr high
    pure type
  | .ask call => checkMethodCall call
  | .inherited method args _ => inheritedCall method (checkEach args)
  | .missing _ => pure .unknown

/-- Checks a method call and gives the type of its result. -/
def checkMethodCall : MethodCall → Check Ty
  | ⟨target, method, args, span⟩ => methodCall (checkExpr target) method (checkEach args) span

/-- The checks of some expressions as values. -/
def checkEach : List Expr → List Argument
  | [] => []
  | e :: es => (e, checkExpr e) :: checkEach es

end

/-- Checks an expression whose type plays no part. -/
def checkValue (e : Expr) : Check Unit := do
  let _ ← checkExpr e
  pure ()

/-- Checks an expression that is assigned to, and gives its type. -/
def checkPlace (target : Expr) : Check Ty := checkTarget target (checkExpr target)

end SimFront.Check
