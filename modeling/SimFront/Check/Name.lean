import SimFront.Check.Inheritance

/-!
# Names in expressions and statements

A name is looked for in the scopes around it, innermost first; the scope of an
object implementation also holds the members of its object, inherited ones
included.  Then come the built-in names, and last the other modules.
-/

namespace SimFront.Check

/-- The members of the object whose implementation has the scope. -/
def objectMemberAt (scope : Nat) (id : Ident) : Check (Option Binding) := do
  match (← table).scope? scope with
  | some s =>
    if s.kind = .object then
      match ((← read).objects.find? (·.scope = scope)).bind (·.object?) with
      | some o =>
        match ← findMember o id.name with
        | some m => do pure (some (← memberBinding m id.span))
        | none => pure none
      | none => pure none
    else pure none
  | none => pure none

/-- The meaning of a name in the first of some scopes that has one. -/
def nameIn (id : Ident) : List Nat → Check (Option Binding)
  | [] => pure none
  | scope :: rest => do
    match (← table).declared? scope id.name with
    | some symbol => pure (some (.declared symbol))
    | none =>
      match ← objectMemberAt scope id with
      | some b => pure (some b)
      | none => nameIn id rest

/-- Whether a name is built in. -/
def isBuiltinName (name : String) : Bool :=
  Builtin.procedures.contains name || (Builtin.ofName? name).isSome

/-- The meaning of a name, which is reported if it has none and should have one.  The use
itself is recorded by the caller, as a read or as a write. -/
def resolveName (id : Ident) : Check (Option Binding) := do
  let t ← table
  match ← nameIn id (t.enclosing t.current) with
  | some b => pure (some b)
  | none =>
    if isBuiltinName id.name then pure (some .builtin)
    else match ← lookupExternal id.name with
      | .found b => pure (some b)
      | .unknowable => pure none
      | .missing =>
        unless id.isMissing do
          unless ← suppressUnknown do
            error .undefinedReference id.span s!"undefined identifier '{id.name}'"
        pure none

/-- Reads a name and gives the type of its value. -/
def readName (id : Ident) : Check Ty := do
  match ← resolveName id with
  | none => pure .unknown
  | some b =>
    match b with
    | .declared symbol => noteRead symbol id.span
    | _ => pure ()
    valueType b

/-- Reports a name that is assigned to although it is no variable. -/
def notAssignable (id : Ident) (what : String) : Check Unit :=
  error .invalidAssignment id.span s!"cannot assign to {what} '{id.name}'"

/-- Assigns to a name and gives the type of its value. -/
def writeName (id : Ident) : Check Ty := do
  match ← resolveName id with
  | none => pure .unknown
  | some b =>
    match b with
    | .declared symbol =>
      refer symbol id.span
      match ← symbol? symbol with
      | none => pure ()
      | some s =>
        if s.kind = .parameter ∧ s.mode? = some .in_ then
          error .assignToInParameter id.span s!"cannot assign to IN parameter '{id.name}'"
        else if !s.kind.isAssignable then notAssignable id s.kind.text
      markAssigned symbol
    | .external s => if !s.kind.isAssignable then notAssignable id s.kind.text
    | .builtin => notAssignable id "builtin"
    valueType b

/-- What a name means as a member of the module that another name stands for; none when
that name stands for no module. -/
def moduleMember (module member : Ident) : Check (Option Ty) := do
  let t ← table
  match t.lookupId? module.name with
  | none => pure none
  | some id =>
    if (t.symbol? id).any (·.kind = .module) then
      refer id module.span
      match ← lookup (some module.name) member.name t.current with
      | .found b => do pure (some (← valueType b))
      | .unknowable => pure (some .unknown)
      | .missing =>
        error .undefinedReference member.span s!"module '{module.name}' has no '{member.name}'"
        pure (some .unknown)
    else pure none

/-- The type of a field of a record. -/
def fieldType (fields : Members Ty) (member : Ident) : Ty :=
  (Members.find? fields member.name).getD .unknown

/-- The type of a member of an object, whose use is recorded. -/
def objectMemberType (typeName : String) (o : ResolvedObject) (member : Ident) : Check Ty := do
  match ← findMember o member.name with
  | some m =>
    match ← memberBinding m member.span with
    | .declared id => refer id member.span
    | _ => pure ()
    pure m.type
  | none =>
    if (← chainResolved o) && !(← read).insideWith then
      error .undefinedReference member.span
        s!"object type '{typeName}' has no member '{member.name}'"
    pure .unknown

/-- The type of a member of a value of some type.  A pointer is followed once. -/
def memberType (base : Ty) (member : Ident) : Check Ty := do
  let base ← match ← normalize base with
    | .pointer target => normalize target
    | t => pure t
  match base with
  | .record fields => pure (fieldType fields member)
  | .named module? name =>
    match ← findObject module? name with
    | some o => objectMemberType name o member
    | none =>
      match ← resolveNamed module? name with
      | some (.record fields) => pure (fieldType fields member)
      | _ => pure .unknown
  | _ => pure .unknown

end SimFront.Check
