import DocWalk.Number.Rounding
import DocWalk.Number.Shortest

/-!
# Written numbers

A numeral is a number as it is written: a sign, a whole part without leading
zeros, the digits after the point and an exponent. Two layouts turn a binary64
number into a numeral, and three readings turn a numeral into a number.

## Implementation notes

The reading as a binary64 number takes digits into a 64-bit significand while
they fit and scales it by one rounded power of ten. It is therefore not always
the number nearest to the numeral, and the rounding steps below are part of
what a numeral means.
-/

namespace DocWalk

/-- A number as it is written. -/
structure Numeral where
  negative : Bool := false
  whole : Nat
  /-- Digits after the point; none when no point is written. -/
  fraction : List (Fin 10) := []
  exponent : Option Int := none
deriving DecidableEq, Repr

namespace Numeral

/-- The decimal digits of a natural number. -/
def digits (n : Nat) : List Char :=
  Nat.toDigits 10 n

/-- The sign that a negative number carries. -/
def sign (negative : Bool) : List Char :=
  if negative then ['-'] else []

def ofInt (n : Int) : Numeral :=
  { negative := n < 0, whole := n.natAbs }

def ofNat (n : Nat) : Numeral :=
  { whole := n }

/-- The characters of an exponent, which always has a sign. -/
def exponentChars (e : Int) : List Char :=
  'e' :: (if e < 0 then '-' else '+') :: digits e.natAbs

/-- The characters of a numeral. -/
def chars (n : Numeral) : List Char :=
  sign n.negative ++ digits n.whole ++
    (if n.fraction.isEmpty then [] else '.' :: n.fraction.map fun d => Nat.digitChar d.val) ++
    (match n.exponent with
      | none => []
      | some e => exponentChars e)

/-- The last decimal digit of a number. -/
def lastDigit (n : Nat) : Fin 10 :=
  Fin.ofNat 10 n

/-- The last `k` decimal digits of `n`, with leading zeros where it has fewer. -/
def lastDigits (n : Nat) : Nat → List (Fin 10)
  | 0 => []
  | k + 1 => lastDigits (n / 10) k ++ [lastDigit n]

/-- The layout without an exponent, and without a point for a whole number. -/
def positional (negative : Bool) (d : Decimal) : Numeral :=
  let places := (-d.exponent).toNat
  { negative := negative
    whole := d.digits * Nat.pow 10 d.exponent.toNat / Nat.pow 10 places
    fraction := lastDigits d.digits places }

/-- The layout with one digit before the point and an exponent. -/
def scientific (negative : Bool) (d : Decimal) : Numeral :=
  let places := d.width - 1
  { negative := negative
    whole := d.digits / Nat.pow 10 places
    fraction := lastDigits d.digits places
    exponent := some (d.exponent + places) }

/-- The layout of interchange text: positional while the point stands at most sixteen digits
after the first and fewer than five before it, always with a digit after the point. -/
def interchange (negative : Bool) (d : Decimal) : Numeral :=
  let point := d.exponent + d.width
  if -5 < point && point ≤ 16 then
    let n := positional negative d
    if n.fraction.isEmpty then { n with fraction := [0] } else n
  else scientific negative d

/-- A signed 64-bit integer, for a numeral without point and exponent. -/
def toInt64? (n : Numeral) : Option Int64 :=
  if n.fraction.isEmpty && n.exponent.isNone then
    if n.negative then
      if 1 ≤ n.whole && n.whole ≤ Nat.pow 2 63 then some (Int64.ofInt (-(n.whole : Int))) else none
    else if n.whole < Nat.pow 2 63 then some (Int64.ofInt n.whole)
    else none
  else none

/-- An unsigned 64-bit count, for a numeral without sign, point and exponent. -/
def toCount? (n : Numeral) : Option Nat :=
  if !n.negative && n.fraction.isEmpty && n.exponent.isNone && n.whole < Nat.pow 2 64 then
    some n.whole
  else none

/-- Take digits into a significand while it stays a 64-bit word; the second part of the result
counts the digits left over. -/
def absorb (significand : Nat) : List Nat → Nat × Nat
  | [] => (significand, 0)
  | d :: rest =>
      if significand * 10 + d < Nat.pow 2 64 then absorb (significand * 10 + d) rest
      else (significand, rest.length + 1)

/-- Divide by `10 ^ e`, by at most `10 ^ 308` at a time. -/
def scaleDown (x : Binary64) (e : Nat) : Binary64 :=
  if e ≤ 308 then x.quotient (Binary64.powerOfTen e)
  else if x.magnitude = 0 then x
  else scaleDown (x.quotient (Binary64.powerOfTen 308)) (e - 308)
termination_by e

/-- `significand * 10 ^ e` in binary64 arithmetic; none when it is not finite. -/
def scale? (significand : Nat) (e : Int) : Option Binary64 :=
  let x := Binary64.ofInt significand
  if significand = 0 then some x
  else if e < 0 then some (scaleDown x e.natAbs)
  else if 308 < e then none
  else
    let y := x.product (Binary64.powerOfTen e.toNat)
    if y.isFinite then some y else none

/-- The binary64 number that a numeral is read as; none when it is too large. -/
def toBinary64? (n : Numeral) : Option Binary64 :=
  let (s, left) := absorb 0 ((digits n.whole).map fun c => c.toNat - 48)
  let (s, unread) := absorb s (n.fraction.map fun d => d.val)
  let e : Int := (left : Int) - ((n.fraction.length - unread : Nat) : Int) + n.exponent.getD 0
  (scale? s e).map fun x => { x with negative := n.negative }

end Numeral

namespace Binary64

/-- The text of a number inside a query: fewest digits, the upper ones on a tie, no exponent. -/
def text (x : Binary64) : String :=
  if x.isNaN then "NaN"
  else if x.isInfinite then (if x.negative then "-inf" else "inf")
  else String.ofList (Numeral.positional x.negative (x.shortest .upper)).chars

end Binary64

end DocWalk
