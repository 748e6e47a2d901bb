/-!
# Positions and spans of source text

A `Position` is a place between two characters of a text: its line and column,
both counted from one, and its offset in UTF-8 bytes.  Positions are ordered by
line, then column, then offset.  A `Span` is the stretch between two positions.
`Position.advance` moves a position over one character; everything the scanner
reports is obtained by advancing from the start of the text.
-/

namespace SimFront

/-- A place in a source text: line and column from one, offset in bytes from zero. -/
structure Position where
  line : Nat := 1
  column : Nat := 1
  offset : Nat := 0
deriving DecidableEq, Repr, Inhabited

namespace Position

/-- The start of every text. -/
def start : Position := {}

/-- Lexicographic order on line, column and offset. -/
def lt (a b : Position) : Prop :=
  a.line < b.line ∨ (a.line = b.line ∧
    (a.column < b.column ∨ (a.column = b.column ∧ a.offset < b.offset)))

instance : LT Position := ⟨lt⟩

instance : LE Position := ⟨fun a b => a < b ∨ a = b⟩

instance (a b : Position) : Decidable (a < b) := by
  show Decidable (lt a b)
  unfold lt
  infer_instance

instance (a b : Position) : Decidable (a ≤ b) := by
  show Decidable (a < b ∨ a = b)
  infer_instance

/-- Three-way comparison in the order of positions. -/
def compare (a b : Position) : Ordering :=
  if a < b then .lt else if a = b then .eq else .gt

/-- The earlier of two positions. -/
def earlier (a b : Position) : Position := if a ≤ b then a else b

/-- The later of two positions. -/
def later (a b : Position) : Position := if a ≤ b then b else a

/-- Line and column, the way messages show a position. -/
def display (p : Position) : String := s!"{p.line}:{p.column}"

/-- The position after one more character: a line feed opens the next line. -/
def advance (p : Position) (c : Char) : Position :=
  if c = '\n' then ⟨p.line + 1, 1, p.offset + c.utf8Size⟩
  else ⟨p.line, p.column + 1, p.offset + c.utf8Size⟩

/-- The position after a run of characters. -/
def advanceBy (p : Position) (cs : List Char) : Position := cs.foldl advance p

end Position

/-- The stretch of text from `start` up to, and not including, `stop`. -/
structure Span where
  start : Position := {}
  stop : Position := {}
deriving DecidableEq, Repr, Inhabited

namespace Span

/-- The zero-width span at a position. -/
def emptyAt (p : Position) : Span := ⟨p, p⟩

/-- The smallest span that covers both. -/
def cover (a b : Span) : Span := ⟨a.start.earlier b.start, a.stop.later b.stop⟩

/-- Whether a line and column fall in the span.  The column at which the span
ends still counts as inside, and offsets play no part. -/
def contains (s : Span) (p : Position) : Bool :=
  !(p.line < s.start.line || s.stop.line < p.line)
    && !(p.line == s.start.line && p.column < s.start.column)
    && !(p.line == s.stop.line && s.stop.column < p.column)

/-- Whether `other` lies entirely in the span, in the order of positions. -/
def containsSpan (s other : Span) : Bool := s.start ≤ other.start && other.stop ≤ s.stop

def isEmpty (s : Span) : Bool := s.start = s.stop

/-- Length of the spanned text in bytes. -/
def length (s : Span) : Nat := s.stop.offset - s.start.offset

end Span

/-! ## Lemmas -/

namespace Position

@[simp] theorem advanceBy_nil (p : Position) : p.advanceBy [] = p := rfl

@[simp] theorem advanceBy_cons (p : Position) (c : Char) (cs : List Char) :
    p.advanceBy (c :: cs) = (p.advance c).advanceBy cs := rfl

theorem advanceBy_append (p : Position) (cs ds : List Char) :
    p.advanceBy (cs ++ ds) = (p.advanceBy cs).advanceBy ds := by
  simp [advanceBy, List.foldl_append]

theorem advance_offset (p : Position) (c : Char) :
    (p.advance c).offset = p.offset + c.utf8Size := by
  unfold advance
  split <;> rfl

end Position

end SimFront
