import SimFront.Check.Decl
import SimFront.Check.Stmt

/-!
# Bodies

Checks the bodies of procedures and methods.  A body has a scope of its own with
the parameters and the local declarations, which in turn may have bodies.  At its
end the variables and parameters that were never used are reported, and the OUT
parameters that were never assigned.
-/

namespace SimFront.Check

/-! ## Parameters -/

/-- Declares the names of a parameter declaration, whose types come from the signature, and
gives the OUT parameters among them and the types that are left. -/
def defineParams (mode : ParamMode) :
    List Ident → List ParamType → Check (List Nat × List ParamType)
  | [], types => pure ([], types)
  | n :: ns, types => do
    let type := (types.head?.map (·.type)).getD .unknown
    let id? ← define
      { name := n.name, kind := .parameter, type, span := n.span, mode? := some mode }
    let (outs, rest) ← defineParams mode ns types.tail
    pure ((if mode = .out then id?.toList else []) ++ outs, rest)

/-- Declares all parameters of a routine and gives the OUT parameters among them. -/
def defineAllParams : List Param → List ParamType → Check (List Nat)
  | [], _ => pure []
  | ⟨mode, names, _, _⟩ :: rest, types => do
    let (outs, types) ← defineParams mode names types
    let others ← defineAllParams rest types
    pure (outs ++ others)

/-! ## Reports at the end of a body -/

/-- Reports one symbol of a routine's scope if nothing was done with it. -/
def reportUnused (id : Nat) : Check Unit := do
  match ← symbol? id with
  | none => pure ()
  | some s =>
    if s.kind = .var ∨ s.kind = .parameter then
      if (List.lookup id (← get).outParams).any (!·.assigned) then
        warning .outNeverAssigned s.span s!"OUT parameter '{s.name}' is never assigned"
      else if (← table).referenceCount id = 0 then
        warning .unusedSymbol s.span s!"unused {s.kind.text} '{s.name}'"

/-- Reports the unused symbols of the current scope. -/
def reportAllUnused : Check Unit := do
  let t ← table
  (t.symbolsIn t.current).forM reportUnused

/-! ## Routines -/

/-- Runs a step inside a routine with a result type and OUT parameters.  Those of the
routine around play no part until the step is done. -/
def inRoutine (result? : Option Ty) (outs : List Nat) (step : Check Unit) : Check Unit := do
  let around := (← get).outParams
  modify fun s => { s with outParams := outs.map fun id => (id, {}) }
  withReader (fun env => { env with routine? := some result? }) step
  reportAllUnused
  modify fun s => { s with outParams := around }

/-- Checks a routine whose scope is current; `bodies` checks the bodies inside it. -/
def checkRoutine (params : List Param) (signature : Signature) (locals : List Decl)
    (bodies : Check Unit) (body : List Stmt) : Check Unit := do
  let outs ← defineAllParams params signature.params
  inRoutine signature.result outs do
    declareAll locals
    bodies
    checkBlock body

/-! ## Methods -/

/-- Records the heading of a method body as a use of the method that the object type
declares; one it does not declare is reported. -/
def checkMethodName (name : Ident) : Check Unit := do
  match (← read).objects.head?.bind (·.object?) with
  | none => pure ()
  | some o =>
    if (Members.find? o.info.methods name.name).isSome then
      if o.origin?.isNone then
        match ← memberSymbol? o.name name.name with
        | some id => refer id name.span
        | none => pure ()
    else
      error .undeclaredMethod name.span
        s!"method '{name.name}' is not declared by object type '{o.name}'"

/-- Finds the object type that an implementation names, and reports one that is unknown. -/
def implementedObject (name : Ident) : Check (Option ResolvedObject) := do
  let o? ← findObject none name.name
  if o?.isNone then
    unless ← suppressUnknown do
      error .unknownObject name.span s!"implementation of unknown object type '{name.name}'"
  let t ← table
  match t.lookupId? name.name with
  | some id => if (t.symbol? id).any (·.kind = .type) then refer id name.span
  | none => pure ()
  pure o?

/-- Runs a step inside the implementation of an object. -/
def inObject (o? : Option ResolvedObject) (span : Span) (step : Check Unit) : Check Unit := do
  let resolved ← match o? with
    | some o => chainResolved o
    | none => pure false
  inScope .object span do
    let context : ObjectContext := ⟨← currentScope, o?, resolved⟩
    withReader (fun env => { env with objects := context :: env.objects }) step

/-! ## Bodies -/

mutual

def checkBodyOf : Decl → Check Unit
  | .procedure ⟨heading, locals, body, isForward, span⟩ =>
    if isForward then pure ()
    else do
      let signature := (List.lookup heading.span.start.offset (← get).signatures).getD ⟨[], none⟩
      inScope .procedure span
        (checkRoutine heading.params signature locals (checkBodies locals) body)
  | .objectImpl ⟨name, methods, span⟩ => do
    inObject (← implementedObject name) span (checkMethods methods)
  | .type _ | .const _ | .var _ => pure ()

/-- Checks the bodies among some declarations, in order. -/
def checkBodies : List Decl → Check Unit
  | [] => pure ()
  | d :: ds => do
    checkBodyOf d
    checkBodies ds

/-- Checks the bodies of methods, in order. -/
def checkMethods : List MethodImpl → Check Unit
  | [] => pure ()
  | ⟨heading, locals, body, span⟩ :: rest => do
    checkMethodName heading.name
    let signature ← signatureOf heading.params heading.result
    inScope .method span
      (checkRoutine heading.params signature locals (checkBodies locals) body)
    checkMethods rest

end

end SimFront.Check
