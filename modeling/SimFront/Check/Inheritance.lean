import SimFront.Check.Resolve

/-!
# Object types and what they inherit

Bases of an object type are kept as names and found only when they are needed, so
that a base may be declared later or in another module.  Members are searched on
the object itself and then on its bases, depth first in the order of declaration.
A search visits every object once, so diamonds and cycles come to an end.
-/

namespace SimFront

/-- A field or method, and the object type that declares it. -/
structure Member where
  name : String
  kind : SymbolKind
  type : Ty
  owner : String
  /-- The module of the owner, none for the module under analysis. -/
  origin? : Option String
  method? : Option MethodInfo

namespace ResolvedObject

/-- The member that an object type itself declares under a name. -/
def member? (o : ResolvedObject) (name : String) : Option Member :=
  match Members.find? o.info.fields name with
  | some type => some ⟨name, .field, type, o.name, o.origin?, none⟩
  | none => (Members.find? o.info.methods name).map fun m =>
      ⟨name, .method, .procedure m.signature, o.name, o.origin?, some m⟩

end ResolvedObject

namespace SymbolTable

/-- All bases that object types of the table name. -/
def namedBases (t : SymbolTable) : List Ty :=
  t.symbols.toList.flatMap fun s =>
    match s.type with
    | .object info => info.bases
    | _ => []

end SymbolTable

namespace Check

/-! ## Finding objects -/

/-- The module that an object's name is declared in. -/
def objectOrigin? (module? : Option String) (name : String) : Check (Option String) := do
  let own := (← read).moduleName
  match module?.filter (· ≠ own) with
  | some m => pure (some m)
  | none =>
    match ← lookup module? name (← currentScope) with
    | .found b => do pure ((← bindingSymbol? b).bind (·.origin?))
    | _ => pure none

/-- The object type that a name stands for. -/
def findObject (module? : Option String) (name : String) : Check (Option ResolvedObject) := do
  match ← resolveNamed module? name with
  | some (.object info) => do pure (some ⟨name, info, ← objectOrigin? module? name⟩)
  | _ => pure none

/-- The object that a base type stands for.  A base that is no name is looked up by the
empty one. -/
def baseObject : Ty → Check (Option ResolvedObject)
  | .named module? name => findObject module? name
  | _ => findObject none ""

/-- The bases of an object in the order of their declaration; none for one not found. -/
def baseObjects (o : ResolvedObject) : Check (List (Option ResolvedObject)) :=
  o.info.bases.mapM baseObject

/-- How many objects a search can go through before it comes back to one it has seen: the
object it starts from, its bases, and every base that is named anywhere. -/
def searchDepth (o : ResolvedObject) : Check Nat := do
  let others := ((← read).resolver?.getD []).flatMap (·.2.namedBases)
  pure (1 + o.info.bases.length + (← table).namedBases.length + others.length)

/-! ## Searches -/

/-- The first hit of a search over some objects, and the keys of those that were visited.
Where a base was not found the hit is `missing?`, if there is one. -/
def firstHit {α : Type} (missing? : Option α)
    (search : ResolvedObject → List String → Check (Option α × List String)) :
    List (Option ResolvedObject) → List String → Check (Option α × List String)
  | [], visited => pure (none, visited)
  | none :: os, visited =>
    match missing? with
    | some hit => pure (some hit, visited)
    | none => firstHit missing? search os visited
  | some o :: os, visited => do
    match ← search o visited with
    | (some hit, visited) => pure (some hit, visited)
    | (none, visited) => firstHit missing? search os visited

/-- Searches an object and then its bases, unless it was visited before. -/
def searchIn {α : Type} (missing? : Option α) (hit? : ResolvedObject → Option α) :
    (depth : Nat) → ResolvedObject → List String → Check (Option α × List String)
  | 0, _, visited => pure (none, visited)
  | depth + 1, o, visited =>
    if visited.contains o.key then pure (none, visited)
    else match hit? o with
      | some hit => pure (some hit, o.key :: visited)
      | none => do firstHit missing? (searchIn missing? hit? depth) (← baseObjects o) (o.key :: visited)

/-- The member of an object, declared by itself or inherited. -/
def findMember (o : ResolvedObject) (name : String) : Check (Option Member) := do
  let depth ← searchDepth o
  pure (← searchIn none (·.member? name) depth o []).1

/-- The method that an object inherits under a name, unless the name is that of a field. -/
def baseMethod (o : ResolvedObject) (name : String) : Check (Option Member) := do
  let depth ← searchDepth o
  let bases ← baseObjects o
  let (found, _) ← firstHit none (searchIn none (·.member? name) depth) bases [o.key]
  pure (found.filter (·.kind = .method))

/-- Whether all base types of an object, near and far, were found. -/
def chainResolved (o : ResolvedObject) : Check Bool := do
  let depth ← searchDepth o
  pure (← searchIn (some ()) (fun _ => none) depth o []).1.isNone

/-! ## Circles of inheritance -/

/-- Whether an object with a key is on the stack, or a base of one that is. -/
def reaches (key : String) :
    (depth : Nat) → (stack : List ResolvedObject) → List String → Check Bool
  | _, [], _ => pure false
  | depth, o :: stack, visited =>
    if o.key = key then pure true
    else if visited.contains o.key then reaches key depth stack visited
    else match depth with
      | 0 => pure false
      | depth + 1 => do
        let bases := (← baseObjects o).filterMap id
        reaches key depth (bases.reverse ++ stack) (o.key :: visited)
termination_by depth stack => (depth, stack.length)

/-- Whether an object is among its own bases. -/
def inheritsItself (o : ResolvedObject) : Check Bool := do
  let depth ← searchDepth o
  let bases := (← baseObjects o).filterMap id
  reaches o.key depth bases.reverse []

/-! ## Members as bindings -/

/-- The symbol of a member of an object type that the module declares. -/
def memberSymbol? (owner name : String) : Check (Option Nat) := do
  let s ← get
  pure ((s.objectDecls.find? (·.name = owner)).bind fun d => s.table.declared? d.scope name)

/-- What a member stands for where it is used. -/
def memberBinding (m : Member) (use : Span) : Check Binding := do
  let copy : Symbol :=
    { name := m.name, kind := m.kind, type := m.type, span := use, owner? := some m.owner,
      origin? := m.origin?, dispatch? := m.method?.map (·.dispatch) }
  if m.origin?.isSome then pure (.external copy)
  else match ← memberSymbol? m.owner m.name with
    | some id => pure (.declared id)
    | none => pure (.external copy)

end Check

end SimFront
