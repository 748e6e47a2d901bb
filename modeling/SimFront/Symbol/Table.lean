import SimFront.Symbol.Basic

/-!
# Symbol tables

The scopes and symbols of one module.  One scope is current; entering opens a
child of it, leaving goes back to its parent.  A name is declared once in a
scope, except that a procedure completes a forward heading of its own name.
-/

namespace SimFront

structure SymbolTable where
  moduleName : String
  symbols : Array Symbol := #[]
  scopes : Array Scope
  current : Nat := 0
  references : References := {}

/-- Why a symbol could not be declared: the name is taken. -/
structure DuplicateName where
  name : String
  existing : Nat
  existingSpan : Span
deriving DecidableEq, Repr

namespace DuplicateName

def message (d : DuplicateName) : String := s!"'{d.name}' is already defined in this scope"

end DuplicateName

namespace SymbolTable

/-- The scope that a table starts with. -/
def root : Nat := 0

/-- A table with one scope, the module's own, which covers `span`. -/
def new (moduleName : String) (span : Span) : SymbolTable :=
  { moduleName, scopes := #[{ id := root, kind := .module, span, parent? := none }] }

instance : Inhabited SymbolTable := ⟨new "" {}⟩

/-! ## Looking into a table -/

def symbol? (t : SymbolTable) (id : Nat) : Option Symbol := t.symbols[id]?

def scope? (t : SymbolTable) (id : Nat) : Option Scope := t.scopes[id]?

def children (t : SymbolTable) (id : Nat) : List Nat :=
  match t.scope? id with
  | some s => s.children
  | none => []

/-- The symbol that a scope itself declares under a name. -/
def declared? (t : SymbolTable) (scope : Nat) (name : String) : Option Nat :=
  (t.scope? scope).bind (·.find? name)

/-- The symbols declared directly in a scope, in the order of their declaration. -/
def symbolsIn (t : SymbolTable) (scope : Nat) : List Nat :=
  match t.scope? scope with
  | some s => (s.names.map (·.2)).mergeSort (· ≤ ·)
  | none => []

/-- The symbols of the module's own scope. -/
def rootSymbols (t : SymbolTable) : List (Nat × Symbol) :=
  (t.symbolsIn root).filterMap fun id => (t.symbol? id).map fun s => (id, s)

/-! ## Scopes -/

/-- Opens a child of the current scope and makes it current. -/
def enter (t : SymbolTable) (kind : ScopeKind) (span : Span) : SymbolTable :=
  let id := t.scopes.size
  { t with
    scopes := (t.scopes.modify t.current fun s => { s with children := s.children ++ [id] }).push
      { id, kind, span, parent? := some t.current },
    current := id }

/-- Goes back to the parent of the current scope; the module's own scope is never left. -/
def leave (t : SymbolTable) : SymbolTable :=
  match (t.scope? t.current).bind (·.parent?) with
  | some p => { t with current := p }
  | none => t

/-! ## Declaring -/

/-- Adds a symbol under a name that its scope does not declare yet. -/
def append (t : SymbolTable) (scope : Nat) (symbol : Symbol) : SymbolTable :=
  let id := t.symbols.size
  { t with
    symbols := t.symbols.push { symbol with scope },
    scopes := t.scopes.modify scope fun s => { s with names := (symbol.name, id) :: s.names } }

/-- Declares a symbol in a scope.  Only that scope is checked for the name, so names of
outer scopes may be hidden. -/
def defineIn (t : SymbolTable) (scope : Nat) (symbol : Symbol) :
    Except DuplicateName (Nat × SymbolTable) :=
  match t.declared? scope symbol.name with
  | none => .ok (t.symbols.size, t.append scope symbol)
  | some existing =>
    match t.symbol? existing with
    | none => .error ⟨symbol.name, existing, {}⟩
    | some previous =>
      if previous.isForward && previous.kind = .procedure && symbol.kind = .procedure then
        .ok (existing, { t with symbols := t.symbols.setIfInBounds existing { symbol with scope } })
      else .error ⟨symbol.name, existing, previous.span⟩

/-- Declares a symbol in the current scope. -/
def define (t : SymbolTable) (symbol : Symbol) : Except DuplicateName (Nat × SymbolTable) :=
  t.defineIn t.current symbol

/-- Changes a symbol in place. -/
def modifySymbol (t : SymbolTable) (id : Nat) (f : Symbol → Symbol) : SymbolTable :=
  { t with symbols := t.symbols.modify id f }

/-! ## References -/

/-- Records a use of a symbol in a scope. -/
def referIn (t : SymbolTable) (scope : Nat) (symbol : Nat) (span : Span) : SymbolTable :=
  { t with references := t.references.add ⟨symbol, span, scope⟩ }

/-- Records a use of a symbol in the current scope. -/
def refer (t : SymbolTable) (symbol : Nat) (span : Span) : SymbolTable :=
  t.referIn t.current symbol span

def referencesTo (t : SymbolTable) (symbol : Nat) : List Reference := t.references.of symbol

def referenceCount (t : SymbolTable) (symbol : Nat) : Nat := t.references.count symbol

/-- What has to change when a symbol is renamed: its declaration and all its uses. -/
def renameSpans (t : SymbolTable) (symbol : Nat) : List Span :=
  match t.symbol? symbol with
  | some s => s.span :: (t.referencesTo symbol).map (·.span)
  | none => []

end SymbolTable

end SimFront
