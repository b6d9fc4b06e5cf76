import DocWalk.Number.Numeral

/-!
# Literal values

The scalar values that both query languages can write down, with their order,
their equality and their text.

## Implementation notes

Order and equality differ on purpose. The order puts integers and binary64
numbers on one scale, an integer being rounded to binary64 first; equality
keeps the two kinds apart.
-/

namespace DocWalk

/-- A literal value. -/
inductive Value where
  | null
  | bool (b : Bool)
  | int (n : Int64)
  | float (x : Binary64)
  | text (s : String)
deriving DecidableEq, Repr, Inhabited

namespace Value

/-- The order of two values of one kind; numbers of both kinds are comparable. -/
def compare? : Value → Value → Option Ordering
  | null, null => some .eq
  | bool a, bool b => some (compare a b)
  | int a, int b => some (compare a.toInt b.toInt)
  | float a, float b => a.compare? b
  | int a, float b => (Binary64.ofInt a.toInt).compare? b
  | float a, int b => a.compare? (Binary64.ofInt b.toInt)
  | text a, text b => some (compare a b)
  | _, _ => none

/-- Equality within one kind; binary64 numbers are equal by value. -/
def equals : Value → Value → Bool
  | null, null => true
  | bool a, bool b => a == b
  | int a, int b => a == b
  | float a, float b => a.equals b
  | text a, text b => a == b
  | _, _ => false

/-- The text of a value, without quotes. -/
def plainText : Value → String
  | null => "null"
  | bool true => "true"
  | bool false => "false"
  | int n => String.ofList (Numeral.ofInt n.toInt).chars
  | float x => x.text
  | text s => s

end Value

end DocWalk
