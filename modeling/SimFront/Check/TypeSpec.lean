import SimFront.Check.Expr
import SimFront.Tree.TypeSpec

/-!
# Type specifications

Turns types as they are written into types as the analysis sees them.  Names of
types are only noted here and checked at the end of the analysis, so that a type
may be used before it is declared.  The members of records and objects get a scope
of their own.
-/

namespace SimFront.Check

/-- A built-in type, or a name that is checked at the end. -/
def typeOfName (q : QualIdent) : Check Ty := do
  let module? := q.module?.map (·.name)
  match builtinType? module? q.name.name with
  | some b => pure b
  | none =>
    let pending : PendingType := ⟨module?, q.name.name, q.name.span, ← currentScope⟩
    modify fun s => { s with pendingTypes := pending :: s.pendingTypes }
    pure (.named module? q.name.name)

def checkArrayIndex : ArrayIndex → Check Unit
  | .range low high _ => do
    checkValue low
    checkValue high
  | .type name => do
    let _ ← typeOfName name
    pure ()

/-- Declares the values of an enumeration as constants of the type being declared. -/
def defineEnumValues (owner? : Option Ident) (values : List Ident) : Check Unit :=
  values.forM fun v => do
    let type := (owner?.map fun o => Ty.named none o.name).getD .unknown
    let _ ← define { name := v.name, kind := .const, type, span := v.span }
    pure ()

/-- Declares the fields of one declaration, and gives those that were not taken. -/
def defineFields (owner? : Option Ident) (sect : SectionKind) (type : Ty) :
    List Ident → Check (List (String × Ty))
  | [] => pure []
  | n :: ns => do
    let id? ← define
      { name := n.name, kind := .field, type, span := n.span, owner? := owner?.map (·.name),
        isPrivate := sect matches .private_, isClass := sect matches .class_ }
    let rest ← defineFields owner? sect type ns
    pure (if id?.isSome then (n.name, type) :: rest else rest)

/-- Declares a method with a signature, and gives it unless its name was taken. -/
def defineMethod (owner? : Option Ident) (sect : SectionKind) (dispatch : Dispatch)
    (name : Ident) (signature : Signature) : Check (List (String × MethodInfo)) := do
  let isOverride := sect matches .override
  let id? ← define
    { name := name.name, kind := .method, type := .procedure signature, span := name.span,
      owner? := owner?.map (·.name), dispatch? := some dispatch, isOverride,
      isPrivate := sect matches .private_, isClass := sect matches .class_ }
  pure (if id?.isSome then [(name.name, ⟨dispatch, signature, isOverride⟩)] else [])

/-- Notes an object type that belongs to the type being declared. -/
def noteObject (owner? : Option Ident) (scope : Nat) : Check Unit := do
  match owner? with
  | none => pure ()
  | some o =>
    let t ← table
    match t.lookupId? o.name with
    | none => pure ()
    | some symbol =>
      let name := ((t.symbol? symbol).map (·.name)).getD o.name
      modify fun s => { s with objectDecls := s.objectDecls ++ [⟨name, symbol, scope⟩] }

/-- One parameter type for each name that a declaration of parameters gives. -/
def paramTypes (mode : ParamMode) (names : List Ident) (type : Ty) : List ParamType :=
  names.map fun _ => ⟨mode, type⟩

mutual

/-- The type that a specification stands for.  `owner?` is the name of the type that is
being declared as it. -/
def typeOfSpec (owner? : Option Ident) : TypeSpec → Check Ty
  | .named name => typeOfName name
  | .array indices element _ => do
    indices.forM checkArrayIndex
    let type ← typeOfSpec none element
    pure (.array (max indices.length 1) type)
  | .record fields span => do
    let members ← inScope .record span (fieldsOf owner? .public_ fields)
    pure (.record (Members.ofList members))
  | .pointer target _ => do pure (.pointer (← typeOfSpec none target))
  | .set element _ => do pure (.set (← typeOfSpec none element))
  | .enum values _ => do
    defineEnumValues owner? values
    pure (.enum (values.map (·.name)))
  | .subrange low high _ => do
    let base ← checkExpr low
    checkValue high
    pure (.subrange base)
  | .procedure params result _ => do
    let types ← paramsOf params
    let resultType ← resultOf result
    pure (.procedure ⟨types, resultType⟩)
  | .object ⟨bases, sections, span⟩ => do
    let baseTypes ← bases.mapM typeOfName
    modifyTable (·.enter .object span)
    let scope ← currentScope
    let (fields, methods) ← sectionsOf owner? sections
    modifyTable (·.leave)
    noteObject owner? scope
    pure (.object ⟨baseTypes, Members.ofList fields, Members.ofList methods⟩)

/-- The types of parameters, one for each name. -/
def paramsOf : List Param → Check (List ParamType)
  | [] => pure []
  | ⟨mode, names, spec, _⟩ :: rest => do
    let type ← typeOfSpec none spec
    let types ← paramsOf rest
    pure (paramTypes mode names type ++ types)

def resultOf : Option TypeSpec → Check (Option Ty)
  | none => pure none
  | some spec => do pure (some (← typeOfSpec none spec))

/-- Declares fields in the current scope and gives their types. -/
def fieldsOf (owner? : Option Ident) (sect : SectionKind) :
    List FieldDecl → Check (List (String × Ty))
  | [] => pure []
  | ⟨names, spec, _⟩ :: rest => do
    let type ← typeOfSpec none spec
    let fields ← defineFields owner? sect type names
    let others ← fieldsOf owner? sect rest
    pure (fields ++ others)

/-- Declares a member of an object type in the current scope. -/
def memberOf (owner? : Option Ident) (sect : SectionKind) :
    ObjectMember → Check (List (String × Ty) × List (String × MethodInfo))
  | .field ⟨names, spec, _⟩ => do
    let type ← typeOfSpec none spec
    pure (← defineFields owner? sect type names, [])
  | .method ⟨dispatch, name, params, result, _⟩ => do
    let types ← paramsOf params
    let resultType ← resultOf result
    pure ([], ← defineMethod owner? sect dispatch name ⟨types, resultType⟩)

def membersOf (owner? : Option Ident) (sect : SectionKind) :
    List ObjectMember → Check (List (String × Ty) × List (String × MethodInfo))
  | [] => pure ([], [])
  | m :: rest => do
    let (fields, methods) ← memberOf owner? sect m
    let (fields', methods') ← membersOf owner? sect rest
    pure (fields ++ fields', methods ++ methods')

/-- Declares the members of the sections of an object type, fields and methods apart. -/
def sectionsOf (owner? : Option Ident) :
    List ObjectSection → Check (List (String × Ty) × List (String × MethodInfo))
  | [] => pure ([], [])
  | ⟨kind, members, _⟩ :: rest => do
    let (fields, methods) ← membersOf owner? kind members
    let (fields', methods') ← sectionsOf owner? rest
    pure (fields ++ fields', methods ++ methods')

end

/-- The signature of parameters and a result. -/
def signatureOf (params : List Param) (result : Option TypeSpec) : Check Signature := do
  let types ← paramsOf params
  let resultType ← resultOf result
  pure ⟨types, resultType⟩

end SimFront.Check
