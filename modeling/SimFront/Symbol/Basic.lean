import SimFront.Types.Equal
import SimFront.Text.Position

/-!
# Symbols, scopes and references

A symbol is a named thing that a module declares.  A scope is a region of text in
which names are declared; scopes form a tree.  A reference is one use of a
symbol.  Symbols and scopes are known by their number: their place, from zero, in
the table that holds them.
-/

namespace SimFront

inductive SymbolKind where
  | module
  | type
  | const
  | var
  | parameter
  | procedure
  | method
  | field
deriving DecidableEq, Repr, Inhabited

namespace SymbolKind

def all : List SymbolKind := [module, type, const, var, parameter, procedure, method, field]

def text : SymbolKind → String
  | module => "module"
  | type => "type"
  | const => "constant"
  | var => "variable"
  | parameter => "parameter"
  | procedure => "procedure"
  | method => "method"
  | field => "field"

/-- Whether symbols of a kind hold values that can be assigned. -/
def isAssignable : SymbolKind → Bool
  | var | parameter | field => true
  | _ => false

end SymbolKind

structure Symbol where
  name : String
  kind : SymbolKind
  /-- The declared type, unknown when none was written or it was not found. -/
  type : Ty := .unknown
  /-- The span of the declaring name. -/
  span : Span
  /-- The scope the symbol is declared in. -/
  scope : Nat := 0
  mode? : Option ParamMode := none
  dispatch? : Option Dispatch := none
  isOverride : Bool := false
  isPrivate : Bool := false
  /-- Declared in a CLASS section. -/
  isClass : Bool := false
  /-- The object or record that a field or method belongs to. -/
  owner? : Option String := none
  /-- The module that an imported copy comes from. -/
  origin? : Option String := none
  /-- A procedure heading that still lacks its body. -/
  isForward : Bool := false

namespace Symbol

def isImported (s : Symbol) : Bool := s.origin?.isSome

end Symbol

inductive ScopeKind where
  | module
  | procedure
  | object
  | method
  | record
deriving DecidableEq, Repr, Inhabited

structure Scope where
  id : Nat
  kind : ScopeKind
  span : Span
  parent? : Option Nat
  children : List Nat := []
  names : List (String × Nat) := []
deriving Repr, Inhabited

namespace Scope

/-- The symbol that a scope itself declares under a name. -/
def find? (s : Scope) (name : String) : Option Nat := List.lookup name s.names

end Scope

/-- A use of a symbol, and the scope it appears in. -/
structure Reference where
  symbol : Nat
  span : Span
  scope : Nat
deriving DecidableEq, Repr

/-! ## References -/

/-- For each symbol in use the places of its uses in the order of recording, from zero. -/
abbrev Places : Type := List (Nat × List Nat)

namespace Places

/-- The places of the uses of a symbol. -/
def of (ps : Places) (symbol : Nat) : List Nat := (List.lookup symbol ps).getD []

/-- Adds a place behind those of a symbol. -/
def add (ps : Places) (symbol place : Nat) : Places :=
  match ps with
  | [] => [(symbol, [place])]
  | (s, places) :: rest =>
    if s = symbol then (s, places ++ [place]) :: rest else (s, places) :: add rest symbol place

theorem of_cons (s : Nat) (places : List Nat) (rest : Places) (symbol : Nat) :
    of ((s, places) :: rest) symbol = if symbol = s then places else of rest symbol := by
  unfold of
  rw [List.lookup_cons]
  by_cases h : symbol = s
  · simp [h]
  · simp [h, beq_false_of_ne h]

/-- A new place comes last among those of its symbol, and changes those of no other. -/
theorem of_add (ps : Places) (symbol place other : Nat) :
    (ps.add symbol place).of other = ps.of other ++ if symbol = other then [place] else [] := by
  induction ps with
  | nil =>
    show of [(symbol, [place])] other = _
    rw [of_cons]
    by_cases h : symbol = other
    · simp [h, of]
    · simp [h, of, Ne.symm h]
  | cons e rest ih =>
    obtain ⟨s, places⟩ := e
    unfold add
    by_cases hs : s = symbol
    · subst hs
      by_cases h : other = s
      · simp [of_cons, h]
      · simp [of_cons, h, Ne.symm h]
    · rw [if_neg hs, of_cons, of_cons, ih]
      by_cases h : other = s
      · simp [h, Ne.symm hs]
      · simp [h]

end Places

/-- The places among some uses at which a symbol is used. -/
def placesAmong (entries : Array Reference) (symbol : Nat) : List Nat :=
  (List.range entries.size).filter fun i => (entries[i]?.map (·.symbol)) = some symbol

/-- A use that comes last has the last place. -/
theorem placesAmong_push (entries : Array Reference) (r : Reference) (symbol : Nat) :
    placesAmong (entries.push r) symbol =
      placesAmong entries symbol ++ if r.symbol = symbol then [entries.size] else [] := by
  unfold placesAmong
  rw [Array.size_push, List.range_succ, List.filter_append]
  congr 1
  · apply List.filter_congr
    intro i hi
    rw [Array.getElem?_push, if_neg (Nat.ne_of_lt (List.mem_range.1 hi))]
  · by_cases h : r.symbol = symbol <;> simp [h]

/-- All recorded uses, in the order in which they were recorded, and where among them the
uses of each symbol are. -/
structure References where
  entries : Array Reference := #[]
  places : Places := []
  /-- The places of a symbol are those of its uses. -/
  indexed : ∀ symbol, places.of symbol = placesAmong entries symbol := by intro symbol; rfl

namespace References

def add (rs : References) (r : Reference) : References where
  entries := rs.entries.push r
  places := rs.places.add r.symbol rs.entries.size
  indexed symbol := by rw [Places.of_add, rs.indexed, placesAmong_push]

/-- The uses of one symbol, in the order in which they were recorded. -/
def of (rs : References) (symbol : Nat) : List Reference :=
  (rs.places.of symbol).filterMap (rs.entries[·]?)

def count (rs : References) (symbol : Nat) : Nat := (rs.places.of symbol).length

/-- The symbol whose use stands at a position, the one recorded first if there are more. -/
def symbolAt? (rs : References) (p : Position) : Option Nat :=
  (rs.entries.toList.find? (·.span.contains p)).map (·.symbol)

def size (rs : References) : Nat := rs.entries.size

def isEmpty (rs : References) : Bool := rs.entries.isEmpty

end References

end SimFront
