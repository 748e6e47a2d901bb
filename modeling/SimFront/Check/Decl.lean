import SimFront.Check.TypeSpec
import SimFront.Tree.Decl

/-!
# Declarations

Declares what the declarations of a module or routine bring in, in source order.
Bodies are left alone.
-/

namespace SimFront.Check

/-- Declares a type.  Its name is known already where its specification is read. -/
def declareType (d : TypeDecl) : Check Unit := do
  let id? ← define { name := d.name.name, kind := .type, span := d.name.span }
  let type ← typeOfSpec (some d.name) d.type
  match id? with
  | some id => modifyTable (·.modifySymbol id fun s => { s with type })
  | none => pure ()

/-- The type of a constant: the one written out, which its value has to fit, or else the
type of the value. -/
def constType (d : ConstDecl) : Check Ty := do
  let value ← checkExpr d.value
  match d.type with
  | none => pure value
  | some spec =>
    let declared ← typeOfSpec none spec
    unless ← assignable declared value do
      error .typeMismatch d.value.span
        s!"constant '{d.name.name}' is declared {declared.display} but its value is {value.display}"
    pure declared

def declareConst (d : ConstDecl) : Check Unit := do
  let type ← constType d
  let _ ← define { name := d.name.name, kind := .const, type, span := d.name.span }
  pure ()

/-- Checks the initial value of variables of a type. -/
def checkInit (type : Ty) (init : Expr) : Check Unit := do
  let value ← checkExpr init
  unless ← assignable type value do
    error .typeMismatch init.span
      s!"cannot initialize a {type.display} variable with a {value.display} value"

def declareVars (d : VarDecl) : Check Unit := do
  let type ← typeOfSpec none d.type
  d.init.forM (checkInit type)
  d.names.forM fun n => do
    let _ ← define { name := n.name, kind := .var, type, span := n.span }
    pure ()

/-- Declares a procedure and keeps its signature for its body. -/
def declareProcedure (d : ProcDecl) : Check Unit := do
  let heading := d.heading
  let signature ← signatureOf heading.params heading.result
  modify fun s => { s with
    signatures := (heading.span.start.offset, signature) :: s.signatures }
  let _ ← define
    { name := heading.name.name, kind := .procedure, type := .procedure signature,
      span := heading.name.span, isForward := d.isForward }
  pure ()

def declare : Decl → Check Unit
  | .type d => declareType d
  | .const d => declareConst d
  | .var d => declareVars d
  | .procedure d => declareProcedure d
  | .objectImpl _ => pure ()

/-- Declares what some declarations bring in, in order. -/
def declareAll (ds : List Decl) : Check Unit := ds.forM declare

/-! ## Names of types -/

/-- Checks a type name that was noted: it has to be declared, as a type. -/
def checkPendingType (p : PendingType) : Check Unit := do
  match ← lookup p.module? p.name p.scope with
  | .found b =>
    unless ← isPlaceholder b do
      match ← bindingSymbol? b with
      | none => pure ()
      | some s =>
        if s.kind = .type then
          match b with
          | .declared id => modifyTable (·.referIn p.scope id p.span)
          | _ => pure ()
        else error .notAType p.span s!"'{p.name}' is a {s.kind.text}, not a type"
  | .unknowable => pure ()
  | .missing =>
    let name := match p.module? with
      | some m => s!"{m}.{p.name}"
      | none => p.name
    error .unknownType p.span s!"unknown type '{name}'"

/-- Checks the type names of the whole module, in the order in which they were noted. -/
def checkPendingTypes : Check Unit := do (← get).pendingTypes.reverse.forM checkPendingType

end SimFront.Check
