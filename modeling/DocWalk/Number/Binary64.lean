/-!
# Binary64 numbers

A binary64 number is a sign, a biased exponent and a fraction. Every number
except a NaN has a magnitude, a whole multiple of the least positive number,
and numbers are compared through these multiples.

## Implementation notes

The magnitude of an infinity is the one that follows the largest finite
magnitude. The order therefore needs no separate case for infinities, and the
two zeros compare equal because both have magnitude zero.
-/

namespace DocWalk

/-- A number in the binary64 interchange format, field by field. -/
structure Binary64 where
  negative : Bool
  exponent : Fin 2048
  fraction : Fin (Nat.pow 2 52)
deriving DecidableEq, Repr, Inhabited

namespace Binary64

/-- The exponent field with the last eleven bits of a number. -/
def exponentField (n : Nat) : Fin 2048 :=
  Fin.ofNat 2048 n

/-- The fraction field with the last 52 bits of a number. -/
def fractionField (n : Nat) : Fin (Nat.pow 2 52) :=
  Fin.ofNat (Nat.pow 2 52) n

/-- The number encoded by a 64-bit word. -/
def ofBits (w : UInt64) : Binary64 where
  negative := Nat.pow 2 63 ≤ w.toNat
  exponent := exponentField (w.toNat / Nat.pow 2 52)
  fraction := fractionField w.toNat

/-- The 64-bit word that encodes a number. -/
def toBits (x : Binary64) : UInt64 :=
  UInt64.ofNat
    ((if x.negative then Nat.pow 2 63 else 0) + x.exponent.val * Nat.pow 2 52 + x.fraction.val)

def isNaN (x : Binary64) : Bool :=
  x.exponent.val == 2047 && x.fraction.val != 0

def isInfinite (x : Binary64) : Bool :=
  x.exponent.val == 2047 && x.fraction.val == 0

def isFinite (x : Binary64) : Bool :=
  x.exponent.val != 2047

/-- The absolute value, counted in units of `2 ^ -1074`. -/
def magnitude (x : Binary64) : Nat :=
  if x.exponent.val = 0 then x.fraction.val
  else (Nat.pow 2 52 + x.fraction.val) * Nat.pow 2 (x.exponent.val - 1)

/-- The value in units of `2 ^ -1074`; a NaN has none. -/
def value? (x : Binary64) : Option Int :=
  if x.isNaN then none
  else if x.negative then some (-(x.magnitude : Int))
  else some (x.magnitude : Int)

/-- Order of two numbers by value; a NaN is not ordered against anything. -/
def compare? (x y : Binary64) : Option Ordering :=
  match x.value?, y.value? with
  | some a, some b => some (compare a b)
  | _, _ => none

/-- Equality by value: the zeros are equal, and a NaN differs even from itself. -/
def equals (x y : Binary64) : Bool :=
  x.compare? y == some .eq

end Binary64

end DocWalk
