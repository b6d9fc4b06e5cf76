import DocWalk.Number.Binary64

/-!
# Rounding to binary64

The nearest binary64 number to an exact quotient, ties going to the even
significand, and the arithmetic that reading a written number needs.
-/

namespace DocWalk

/-- The whole number nearest to `num / den`; a tie goes to the even neighbour. -/
def roundQuotient (num den : Nat) : Nat :=
  let q := num / den
  let twice := 2 * (num % den)
  if twice < den then q
  else if den < twice then q + 1
  else q + q % 2

namespace Binary64

def infinity (negative : Bool) : Binary64 :=
  ⟨negative, exponentField 2047, fractionField 0⟩

/-- The NaN that signals nothing. -/
def nan (negative : Bool) : Binary64 :=
  ⟨negative, exponentField 2047, fractionField (Nat.pow 2 51)⟩

/-- The number of a given magnitude; magnitudes past the largest finite one are infinite.
Exact for a magnitude that needs no more than 53 significant bits. -/
def ofMagnitude (negative : Bool) (m : Nat) : Binary64 :=
  if m < Nat.pow 2 52 then ⟨negative, exponentField 0, fractionField m⟩
  else
    let e := m.log2 - 51
    if 2047 ≤ e then infinity negative
    else ⟨negative, exponentField e, fractionField (m / Nat.pow 2 (e - 1))⟩

/-- `num / den` units of `2 ^ -1074`, rounded to 53 significant bits where it has more. -/
def nearestMagnitude (num den : Nat) : Nat :=
  let shift := (num / den).log2 - 52
  roundQuotient num (den * Nat.pow 2 shift) * Nat.pow 2 shift

/-- The number nearest to `num / den`. -/
def nearest (negative : Bool) (num den : Nat) : Binary64 :=
  ofMagnitude negative (nearestMagnitude (num * Nat.pow 2 1074) den)

/-- The number nearest to an integer. -/
def ofInt (n : Int) : Binary64 :=
  nearest (n < 0) n.natAbs 1

/-- The rounded product of two finite numbers. -/
def product (x y : Binary64) : Binary64 :=
  nearest (x.negative != y.negative) (x.magnitude * y.magnitude) (Nat.pow 2 2148)

/-- The rounded quotient of two finite numbers, the divisor not zero. -/
def quotient (x y : Binary64) : Binary64 :=
  nearest (x.negative != y.negative) x.magnitude y.magnitude

/-- The number nearest to a power of ten. -/
def powerOfTen (e : Nat) : Binary64 :=
  nearest false (Nat.pow 10 e) 1

end Binary64

end DocWalk
