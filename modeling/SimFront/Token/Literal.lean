/-!
# Literals

The readers of the literals, each given the characters after the first one of
the lexeme.  A reader answers how many of them belong to the literal, and what
the literal means.

* A number is digits, an optional fraction and an optional exponent.  A point
  starts a fraction only before a digit, so that `1..10` is a range.
* A string stands between double quotes on one line; a quote inside it is
  written twice, and the backslash is an ordinary character.
* A character stands between single quotes; the single quote itself is written
  as four of them.
-/

namespace SimFront.Literal

/-! ## Numbers -/

/-- How many digits the text begins with. -/
def digits (cs : List Char) : Nat := (cs.takeWhile Char.isDigit).length

/-- Length of a fraction at the head of the text, zero when there is none. -/
def fraction : List Char → Nat
  | '.' :: cs => if digits cs = 0 then 0 else digits cs + 1
  | _ => 0

/-- Length of an optional sign. -/
def sign : List Char → Nat
  | '+' :: _ => 1
  | '-' :: _ => 1
  | _ => 0

/-- Length of an exponent at the head of the text, zero when there is none. -/
def exponent : List Char → Nat
  | [] => 0
  | c :: cs =>
    if c = 'e' ∨ c = 'E' then
      let power := digits (cs.drop (sign cs))
      if power = 0 then 0 else 1 + sign cs + power
    else 0

/-- What follows the first digit of a number: whether it is a real, and how many
characters it takes. -/
def numberTail (cs : List Char) : Bool × Nat :=
  let whole := digits cs
  let point := fraction (cs.drop whole)
  let power := exponent (cs.drop (whole + point))
  (point + power != 0, whole + point + power)

/-! ## Strings -/

/-- Reads a string after its opening quote: its value when it is closed, and how
many characters were read.  A line break ends an unclosed string, and is not
read.  `value` holds what was read so far, last character first. -/
def stringFrom (value : List Char) (n : Nat) : List Char → Option (List Char) × Nat
  | '"' :: '"' :: cs => stringFrom ('"' :: value) (n + 2) cs
  | '"' :: _ => (some value.reverse, n + 1)
  | [] => (none, n)
  | c :: cs => if c = '\n' ∨ c = '\r' then (none, n) else stringFrom (c :: value) (n + 1) cs

def stringTail (cs : List Char) : Option (List Char) × Nat := stringFrom [] 0 cs

/-! ## Characters -/

/-- The single quote. -/
def quote : Char := '\x27'

/-- Length of a malformed quoted run after its opening quote: up to the next
quote on the same line, or nothing when there is none. -/
def malformedChar (cs : List Char) : Nat :=
  let run := cs.takeWhile fun c => c != '\n' && c != '\r' && c != quote
  match cs.drop run.length with
  | c :: _ => if c = quote then run.length + 1 else 0
  | [] => 0

/-- Reads a character literal after its opening quote: its value when it is well
formed, and how many characters were read. -/
def charTail (cs : List Char) : Option Char × Nat :=
  match cs with
  | '\x27' :: '\x27' :: '\x27' :: _ => (some quote, 3)
  | c :: '\x27' :: _ =>
    if c = quote ∨ c = '\n' then (none, malformedChar cs) else (some c, 2)
  | _ => (none, malformedChar cs)

end SimFront.Literal
