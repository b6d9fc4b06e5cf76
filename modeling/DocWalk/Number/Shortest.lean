import DocWalk.Number.Binary64

/-!
# Fewest digits

The decimal with the fewest digits among those that round to a given binary64
number, and the nearest to it of that many digits. Where two are equally near,
the text that is being written decides.

## Implementation notes

The decimals with one more digit form a grid ten times as fine. On each grid
only the two neighbours of the number need a test: when any point of the grid
rounds to the number, one of these two does. Seventeen digits always suffice.
All tests are comparisons of whole numbers, in units of `2 ^ -1076`, in which
the half-way points between neighbouring numbers are whole.
-/

namespace DocWalk

/-- The decimal number `digits * 10 ^ exponent`. -/
structure Decimal where
  digits : Nat
  exponent : Int
deriving DecidableEq, Repr

namespace Decimal

/-- The number of decimal digits of `digits`. -/
def width (d : Decimal) : Nat :=
  (Nat.toDigits 10 d.digits).length

/-- The same number, with no trailing zero among its digits. -/
def trim (d : Decimal) : Decimal :=
  let cs := Nat.toDigits 10 d.digits
  let kept := (cs.reverse.dropWhile (· == '0')).reverse
  if kept.isEmpty then ⟨0, 0⟩
  else ⟨Nat.ofDigitChars 10 kept 0, d.exponent + (cs.length - kept.length : Nat)⟩

end Decimal

/-- Which of two equally near decimals is taken. -/
inductive Tie where
  | upper
  | even
deriving DecidableEq, Repr

/-- The reals that round to one positive number, in units of `2 ^ -1076`. -/
structure RoundingSpan where
  low : Nat
  centre : Nat
  high : Nat
  /-- Whether the two ends round to the number as well. -/
  closed : Bool

namespace RoundingSpan

/-- The span of a positive finite number. Below a power of two the neighbour is twice as near. -/
def of (x : Binary64) : RoundingSpan :=
  let unit := Nat.pow 2 (x.exponent.val - 1)
  let below := if x.fraction.val = 0 && 1 < x.exponent.val then 1 else 2
  { low := 4 * x.magnitude - below * unit
    centre := 4 * x.magnitude
    high := 4 * x.magnitude + 2 * unit
    closed := x.fraction.val % 2 == 0 }

/-- Whether a point, given in a unit `scale` times finer, lies in the span. -/
def holds (s : RoundingSpan) (scale point : Nat) : Bool :=
  if s.closed then s.low * scale ≤ point && point ≤ s.high * scale
  else s.low * scale < point && point < s.high * scale

/-- Whether the lower of two neighbours is taken, given twice its distance and the step of the
grid. -/
def takesLower (tie : Tie) (lower twice step : Nat) : Bool :=
  twice < step || (twice == step && tie == .even && lower % 2 == 0)

/-- The multiple of `10 ^ k` in the span that is nearest to the centre. -/
def pick (s : RoundingSpan) (tie : Tie) (k : Int) : Option Nat :=
  let scale := Nat.pow 10 (-k).toNat
  let step := Nat.pow 10 k.toNat * Nat.pow 2 1076
  let below := s.centre * scale / step
  let above := below + 1
  match s.holds scale (below * step), s.holds scale (above * step) with
  | true, true =>
      let twice := 2 * (s.centre * scale - below * step)
      if takesLower tie below twice step then some below else some above
  | true, false => some below
  | false, true => some above
  | false, false => none

/-- The exponent of the first decimal digit of `num / den`, both positive. -/
def leadingExponent (num den : Nat) : Int :=
  if den ≤ num then ((Nat.toDigits 10 (num / den)).length : Int) - 1
  else -((Nat.toDigits 10 ((den - 1) / num)).length : Int)

end RoundingSpan

/-- The fewest digits that round to a finite number, its sign left out. -/
def Binary64.shortest (x : Binary64) (tie : Tie) : Decimal :=
  if x.magnitude = 0 then ⟨0, 0⟩
  else
    let span := RoundingSpan.of x
    let top := RoundingSpan.leadingExponent span.centre (Nat.pow 2 1076)
    let grids := (List.range 17).map fun (n : Nat) => top - (n : Int)
    let found := grids.findSome? fun k => (span.pick tie k).map fun d => (⟨d, k⟩ : Decimal)
    (found.getD ⟨0, 0⟩).trim

end DocWalk
