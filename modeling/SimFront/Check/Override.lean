import SimFront.Check.Inheritance

/-!
# The rules for object types

An object type must not inherit from itself.  A method in an OVERRIDE section must
have a base method with the same signature, and a method outside of one must not
have a base method.
-/

namespace SimFront.Check

/-- The report that a method does not fit the base method it overrides. -/
def mismatch (name : String) (span : Span) (s : Signature) (base : Member)
    (baseSignature : Signature) : Check Diagnostic := do
  let declared? ← if base.origin?.isSome then pure none else memberSymbol? base.owner name
  let place? ← match declared? with
    | some id => symbol? id
    | none => pure none
  let d := Diagnostic.error .overrideMismatch span
    s!"OVERRIDE method '{name}' has signature {s.display} but '{base.owner}' declares {baseSignature.display}"
  pure { d with related := (place?.map fun p =>
    ⟨"base method declared here", p.span⟩).toList }

/-- Checks one method of an object type against the method that it inherits. -/
def checkOverride (o : ResolvedObject) (chainResolved : Bool) (span : Span) (name : String)
    (method : MethodInfo) : Check Unit := do
  match ← baseMethod o name with
  | none =>
    if method.isOverride && chainResolved then
      error .invalidOverride span
        s!"OVERRIDE method '{name}' of '{o.name}' has no base method to override"
  | some base =>
    match base.method? with
    | none => pure ()
    | some info =>
      if !method.isOverride then
        warning .hidesBaseMethod span
          s!"method '{name}' hides the method inherited from '{base.owner}'; declare it in an OVERRIDE section"
      else if !method.signature.overrides info.signature then
        report (← mismatch name span method.signature base info.signature)

/-- Checks the methods of an object type in the order of their declaration. -/
def checkOverrides (o : ResolvedObject) (chainResolved : Bool) (decl : ObjectDecl) (span : Span) :
    List (String × MethodInfo) → Check Unit
  | [] => pure ()
  | (name, method) :: rest => do
    let t ← table
    let place? := (t.declared? decl.scope name).bind t.symbol?
    checkOverride o chainResolved ((place?.map (·.span)).getD span) name method
    checkOverrides o chainResolved decl span rest

/-- Checks an object type that the module declares. -/
def checkObjectType (decl : ObjectDecl) : Check Unit := do
  match ← symbol? decl.symbol with
  | none => pure ()
  | some s =>
    match s.type with
    | .object info => do
      let o : ResolvedObject := ⟨decl.name, info, none⟩
      if ← inheritsItself o then
        error .circularInheritance s.span s!"object type '{decl.name}' inherits from itself"
      else
        checkOverrides o (← chainResolved o) decl s.span info.methods
    | _ => pure ()

/-- Checks all object types that the module declares. -/
def checkObjectTypes : Check Unit := do (← get).objectDecls.forM checkObjectType

end SimFront.Check
