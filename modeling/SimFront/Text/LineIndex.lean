import SimFront.Text.Position

/-!
# Line index: from byte offsets to positions

A `LineIndex` keeps the offset at which each line of a text starts.  A lookup
finds the line by binary search among these starts, and counts the characters
between the start of the line and the offset for the column.
-/

namespace SimFront

/-- The offsets at which the lines of a text start, and the text's length in bytes. -/
structure LineIndex where
  starts : Array Nat
  length : Nat
deriving Repr

namespace LineIndex

/-! ## Construction -/

/-- Offsets just after each line feed of `cs`, where `cs` begins at offset `off`. -/
def startsFrom (off : Nat) : List Char → List Nat
  | [] => []
  | c :: cs =>
    if c = '\n' then (off + c.utf8Size) :: startsFrom (off + c.utf8Size) cs
    else startsFrom (off + c.utf8Size) cs

def ofString (text : String) : LineIndex :=
  ⟨(0 :: startsFrom 0 text.toList).toArray, text.utf8ByteSize⟩

/-- The number of lines, at least one. -/
def lineCount (ix : LineIndex) : Nat := ix.starts.size

/-! ## Lookup -/

/-- The last index in `lo, …, hi` whose start is at most `offset`, when the
start at `lo` is. -/
def lastStart (starts : Array Nat) (offset lo hi : Nat) : Nat :=
  if lo < hi then
    let mid := (lo + hi + 1) / 2
    if starts.getD mid 0 ≤ offset then lastStart starts offset mid hi
    else lastStart starts offset lo (mid - 1)
  else lo
termination_by hi - lo
decreasing_by all_goals omega

/-- What follows the first `n` bytes, if `n` is on a character boundary of the text. -/
def dropBytes? : Nat → List Char → Option (List Char)
  | 0, cs => some cs
  | _ + 1, [] => none
  | n + 1, c :: cs => if c.utf8Size ≤ n + 1 then dropBytes? (n + 1 - c.utf8Size) cs else none

/-- How many characters the first `n` bytes hold, if `n` is on a character boundary. -/
def charsIn? : Nat → List Char → Option Nat
  | 0, _ => some 0
  | _ + 1, [] => none
  | n + 1, c :: cs =>
    if c.utf8Size ≤ n + 1 then (charsIn? (n + 1 - c.utf8Size) cs).map (· + 1) else none

/-- How many characters stand between two offsets; none when one of them is off
a character boundary or past the end. -/
def charsBetween? (text : List Char) (lo hi : Nat) : Option Nat :=
  (dropBytes? lo text).bind (charsIn? (hi - lo))

/-- The position of a byte offset.  An offset past the end stands for the end.
Where the text does not have a character boundary at the offset, the column
counts bytes. -/
def position (ix : LineIndex) (text : String) (offset : Nat) : Position :=
  let offset := min offset ix.length
  let line := lastStart ix.starts offset 0 (ix.starts.size - 1)
  let lineStart := ix.starts.getD line 0
  let column := (charsBetween? text.toList lineStart offset).getD (offset - lineStart)
  ⟨line + 1, column + 1, offset⟩

end LineIndex

end SimFront
