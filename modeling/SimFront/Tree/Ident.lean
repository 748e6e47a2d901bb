import SimFront.Text.Position

/-!
# Names in the tree

An identifier keeps the span it was read from.  One that recovery put in for a
missing name has the empty name.
-/

namespace SimFront

structure Ident where
  name : String
  span : Span
deriving DecidableEq, Repr, Inhabited

namespace Ident

/-- The identifier that stands in for a missing name. -/
def missingAt (p : Position) : Ident := ⟨"", .emptyAt p⟩

def isMissing (i : Ident) : Bool := i.name.isEmpty

end Ident

/-- A name, qualified by a module or not. -/
structure QualIdent where
  module? : Option Ident
  name : Ident
  span : Span
deriving DecidableEq, Repr, Inhabited

namespace QualIdent

/-- An unqualified name. -/
def ofIdent (i : Ident) : QualIdent := ⟨none, i, i.span⟩

/-- Module and name with a dot between them, or the bare name. -/
def display (q : QualIdent) : String :=
  match q.module? with
  | some m => s!"{m.name}.{q.name.name}"
  | none => q.name.name

end QualIdent

end SimFront
