/-!
# Numbers written in digits

The value of a whole number is a natural number.  The value of a real is the
binary64 number nearest to the decimal fraction as written, of two equally near
ones the one with the even last bit; it is kept as its 64 bits.  All steps are
exact, on natural numbers.
-/

namespace SimFront.Numeral

/-- The value of a run of decimal digits. -/
def ofDigits (cs : List Char) : Nat := cs.foldl (fun n c => 10 * n + (c.toNat - '0'.toNat)) 0

/-! ## Rounding -/

/-- `n / d` rounded to a whole number, halves to the even one. -/
def roundDiv (n d : Nat) : Nat :=
  let q := n / d
  let r := n % d
  if 2 * r < d then q
  else if d < 2 * r then q + 1
  else if q % 2 = 0 then q
  else q + 1

/-- The bits of positive infinity. -/
def infinityBits : Nat := 0x7ff * Nat.pow 2 52

/-- `2 ^ e`, for a whole exponent, as a fraction. -/
def powerOfTwo (e : Int) : Nat × Nat := (Nat.pow 2 e.toNat, Nat.pow 2 (-e).toNat)

/-- The exponent of the last place of the binary64 number nearest to `n / d`: the
significand has 53 bits, or fewer next to zero. -/
def lastPlace (n d : Nat) : Int :=
  let guess : Int := (n.log2 : Int) - d.log2 - 52
  let (up, down) := powerOfTwo guess
  let e := if n * down < Nat.pow 2 52 * (d * up) then guess - 1 else guess
  max e (-1074)

/-- The bits of the binary64 number nearest to `n / d`, for positive `n` and `d`.  Adding
the significand to the scaled exponent carries into the exponent when rounding
reaches the next power of two. -/
def bitsOfRatio (n d : Nat) : Nat :=
  let e := lastPlace n d
  let (up, down) := powerOfTwo e
  let bits := (e + 1074).toNat * Nat.pow 2 52 + roundDiv (n * down) (d * up)
  min bits infinityBits

/-- The bits of the binary64 number nearest to `m * 10 ^ e`.  Exponents far outside the
range are decided by the number of digits alone. -/
def bitsOfDecimal (m : Nat) (e : Int) : Nat :=
  if m = 0 then 0
  else
    let digits : Int := (Nat.toDigits 10 m).length
    if digits + e > 400 then infinityBits
    else if digits + e < -400 then 0
    else bitsOfRatio (m * Nat.pow 10 e.toNat) (Nat.pow 10 (-e).toNat)

/-! ## Literals -/

/-- Splits a real literal into whole digits, fraction digits, and exponent. -/
def realParts (cs : List Char) : List Char × List Char × Int :=
  let whole := cs.takeWhile Char.isDigit
  let rest := cs.drop whole.length
  let fraction := match rest with
    | '.' :: r => r.takeWhile Char.isDigit
    | _ => []
  let rest := match rest with
    | '.' :: r => r.drop fraction.length
    | r => r
  let exponent : Int := match rest with
    | _ :: '-' :: r => -(ofDigits (r.takeWhile Char.isDigit))
    | _ :: '+' :: r => ofDigits (r.takeWhile Char.isDigit)
    | _ :: r => ofDigits (r.takeWhile Char.isDigit)
    | [] => 0
  (whole, fraction, exponent)

/-- The bits of the binary64 value of a real literal. -/
def realBits (text : String) : UInt64 :=
  let (whole, fraction, exponent) := realParts text.toList
  UInt64.ofNat (bitsOfDecimal (ofDigits (whole ++ fraction)) (exponent - fraction.length))

/-- The largest whole number that a literal may stand for. -/
def largestInteger : Nat := Nat.pow 2 63 - 1

/-- The value of a whole literal, unless it is too large. -/
def integer? (text : String) : Option Nat :=
  let n := ofDigits text.toList
  if n ≤ largestInteger then some n else none

end SimFront.Numeral
