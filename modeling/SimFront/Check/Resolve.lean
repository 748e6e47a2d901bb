import SimFront.Check.Basic
import SimFront.Types.Accepts

/-!
# What names mean

A name is looked up in the scopes of the module, and then in the modules that it
imports whole.  An implementation module looks in its definition module first.
A name that is found nowhere is missing, unless a module that could declare it
was not found itself; then nothing can be known about it.
-/

namespace SimFront

/-- What a name stands for. -/
inductive Binding where
  /-- A symbol of the module under analysis. -/
  | declared (id : Nat)
  /-- A copy of another module's symbol. -/
  | external (symbol : Symbol)
  /-- A built-in procedure or type. -/
  | builtin

/-- The outcome of looking a name up. -/
inductive Lookup where
  | found (b : Binding)
  /-- Not found, but a module that could declare it is unknown. -/
  | unknowable
  | missing

namespace Symbol

/-- The copy of a symbol that another module gets.  A copy of a copy keeps its origin. -/
def copiedFrom (s : Symbol) (module : String) : Symbol :=
  { s with type := s.type.qualify module, origin? := some (s.origin?.getD module),
           isForward := false }

end Symbol

namespace SymbolTable

/-- The copy of a module's own declaration under a name. -/
def exported? (t : SymbolTable) (module name : String) : Option Symbol :=
  ((t.lookupFrom? root name).bind t.symbol?).map (·.copiedFrom module)

end SymbolTable

namespace Check

/-! ## Other modules -/

/-- The table of another module.  The resolver is asked on first use only. -/
def moduleTable? (name : String) : Check (Option SymbolTable) := do
  match List.lookup name (← get).modules with
  | some answer => pure answer
  | none =>
    let resolver? := (← read).resolver?
    let answer := resolver?.bind (·.find? name)
    modify fun s => { s with
      modules := (name, answer) :: s.modules,
      asked := if resolver?.isSome then name :: s.asked else s.asked }
    pure answer

/-- The definition module that goes with an implementation module. -/
def definitionTable? : Check (Option SymbolTable) := do
  let env ← read
  if env.moduleKind = .implementation then moduleTable? env.moduleName else pure none

/-- Whether a bare name that is not found may be declared in a module that is unknown. -/
def hasUnresolvedSource : Check Bool := do
  let env ← read
  let lacksDefinition ←
    if env.moduleKind = .implementation then do pure (← definitionTable?).isNone
    else pure false
  pure (lacksDefinition || (env.resolver?.isNone && !(← get).wholeImports.isEmpty))

/-- Whether names that are not found go unreported here. -/
def suppressUnknown : Check Bool := do
  let env ← read
  if env.insideWith || env.objects.head?.any (!·.chainResolved) then pure true
  else hasUnresolvedSource

/-- The first of some modules that declares a name, and its copy. -/
def firstImported? (name : String) : List String → Check (Option Symbol)
  | [] => pure none
  | m :: ms => do
    match (← moduleTable? m).bind (·.exported? m name) with
    | some s => pure (some s)
    | none => firstImported? name ms

/-- Looks a name up outside the module. -/
def lookupExternal (name : String) : Check Lookup := do
  let m := (← read).moduleName
  match (← definitionTable?).bind (·.exported? m name) with
  | some s => pure (.found (.external s))
  | none =>
    match ← firstImported? name (← get).wholeImports with
    | some s => pure (.found (.external s))
    | none => if ← hasUnresolvedSource then pure .unknowable else pure .missing

/-- Looks a name up in a module that is known or not. -/
def lookupIn (module name : String) : Option SymbolTable → Lookup
  | none => .unknowable
  | some t =>
    match t.exported? module name with
    | some s => .found (.external s)
    | none => .missing

/-- Looks up a name, or the name in a module, from a scope. -/
def lookup (module? : Option String) (name : String) (scope : Nat) : Check Lookup := do
  let env ← read
  let t ← table
  match module? with
  | none =>
    match t.lookupFrom? scope name with
    | some id => pure (.found (.declared id))
    | none => lookupExternal name
  | some m =>
    if m = env.moduleName then
      match t.lookupFrom? SymbolTable.root name with
      | some id => pure (.found (.declared id))
      | none =>
        if env.moduleKind = .implementation then
          pure (lookupIn m name (← definitionTable?))
        else pure .missing
    else pure (lookupIn m name (← moduleTable? m))

/-! ## Bindings -/

def bindingSymbol? : Binding → Check (Option Symbol)
  | .declared id => symbol? id
  | .external s => pure (some s)
  | .builtin => pure none

/-- The type of the value that a binding stands for; types and modules have no value. -/
def valueType (b : Binding) : Check Ty := do
  match ← bindingSymbol? b with
  | some s => if s.kind = .type ∨ s.kind = .module then pure .unknown else pure s.type
  | none => pure .unknown

def isPlaceholder : Binding → Check Bool
  | .declared id => do pure ((← get).placeholders.contains id)
  | _ => pure false

/-! ## Types by name -/

/-- The built-in type of a bare name. -/
def builtinType? : Option String → String → Option Ty
  | none, name => Ty.ofBuiltinName? name
  | some _, _ => none

/-- The type that a name is declared as, when it names a type. -/
def declaredType? (module? : Option String) (name : String) (scope : Nat) :
    Check (Option Ty) := do
  match ← lookup module? name scope with
  | .found b =>
    match ← bindingSymbol? b with
    | some s => if s.kind = .type then pure (some s.type) else pure none
    | none => pure none
  | _ => pure none

/-- Follows names of types to a type that is no name, over at most so many declarations. -/
def followNames (scope : Nat) : (hops : Nat) → Ty → Check (Option Ty)
  | 0, _ => pure none
  | hops + 1, .named module? name => do
    match builtinType? module? name with
    | some b => pure (some b)
    | none =>
      match ← declaredType? module? name scope with
      | some t => followNames scope hops t
      | none => pure none
  | _ + 1, t => pure (some t)

/-- How many declarations a type name may lead over, so that cyclic ones come to an end. -/
def maxHops : Nat := 9

/-- The type behind a type name.  Built-in types come before declared ones. -/
def resolveNamed (module? : Option String) (name : String) : Check (Option Ty) := do
  followNames (← currentScope) maxHops (.named module? name)

/-- Puts the type behind a name in its place, unless it is an object or a record. -/
def normalize : Ty → Check Ty
  | .named module? name => do
    match ← resolveNamed module? name with
    | none | some (.object _) | some (.record _) => pure (.named module? name)
    | some t => pure t
  | t => pure t

/-- Whether a value of type `source` can be stored in a place of type `target`. -/
def assignable (target source : Ty) : Check Bool := do
  let target ← normalize target
  let source ← normalize source
  pure (target.accepts source)

end Check

end SimFront
