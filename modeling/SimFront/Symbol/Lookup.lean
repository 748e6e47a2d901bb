import SimFront.Symbol.Table

/-!
# Looking up names and positions

Names are looked up from a scope outwards (`lookupFrom?`), or in the whole table
from the module's own scope downwards, level by level (`lookupGlobal?`).
Positions lead to the innermost scope around them (`scopeAt`) and to the symbol
that is declared or used there (`symbolAt?`).
-/

namespace SimFront.SymbolTable

/-! ## Names -/

/-- A scope and the scopes around it, innermost first.  Scopes around a scope were opened
before it. -/
def enclosing (t : SymbolTable) (scope : Nat) : List Nat :=
  scope :: match (t.scope? scope).bind (·.parent?) with
    | some p => if p < scope then enclosing t p else []
    | none => []
termination_by scope

/-- What a name means in a scope: the declaration in the scope itself, or else in the
nearest scope around it. -/
def lookupFrom? (t : SymbolTable) (scope : Nat) (name : String) : Option Nat :=
  (t.enclosing scope).findSome? (t.declared? · name)

/-- What a name means in the current scope. -/
def lookupId? (t : SymbolTable) (name : String) : Option Nat := t.lookupFrom? t.current name

def lookup? (t : SymbolTable) (name : String) : Option Symbol :=
  (t.lookupId? name).bind t.symbol?

/-- The declaration in the current scope alone. -/
def lookupLocal? (t : SymbolTable) (name : String) : Option Symbol :=
  (t.declared? t.current name).bind t.symbol?

/-- Searches the scopes in the queue and those below them, breadth first. -/
def searchFrom (t : SymbolTable) (name : String) : (fuel : Nat) → List Nat → Option Nat
  | 0, _ => none
  | _, [] => none
  | fuel + 1, s :: queue =>
    match t.declared? s name with
    | some id => some id
    | none => searchFrom t name fuel (queue ++ t.children s)

/-- The declaration of a name nearest to the module's own scope.  Every scope is visited
at most once, so their number bounds the search. -/
def lookupGlobalId? (t : SymbolTable) (name : String) : Option Nat :=
  t.searchFrom name (t.scopes.size + 1) [root]

def lookupGlobal? (t : SymbolTable) (name : String) : Option Symbol :=
  (t.lookupGlobalId? name).bind t.symbol?

/-! ## Positions -/

/-- Whether a position falls in the span of a scope. -/
def covers (t : SymbolTable) (p : Position) (scope : Nat) : Bool :=
  match t.scope? scope with
  | some s => s.span.contains p
  | none => false

/-- Goes down from a scope to the first child around the position, as far as it goes.
Scopes below a scope were opened after it. -/
def scopeAtFrom (t : SymbolTable) (p : Position) (scope : Nat) : Nat :=
  match (t.children scope).find? (t.covers p) with
  | some c => if scope < c ∧ c < t.scopes.size then scopeAtFrom t p c else scope
  | none => scope
termination_by t.scopes.size - scope
decreasing_by omega

/-- The innermost scope around a position. -/
def scopeAt (t : SymbolTable) (p : Position) : Nat := t.scopeAtFrom p root

/-- The symbol that is used at a position, or else the first one declared there. -/
def symbolAt? (t : SymbolTable) (p : Position) : Option Nat :=
  match t.references.symbolAt? p with
  | some id => some id
  | none => t.symbols.findIdx? fun s => !s.isImported && s.span.contains p

end SimFront.SymbolTable
