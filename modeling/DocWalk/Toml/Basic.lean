import DocWalk.Number.Numeral

/-!
# TOML values

The values of a TOML document. A table keeps its keys in the order in which
they were defined, and no key occurs in it twice.

## Implementation notes

What a number is worth is asked only when it is used. A document may therefore
hold numbers that have no value, as long as nothing reads them.
-/

namespace DocWalk

/-- A TOML value. -/
inductive Toml where
  | text (s : String)
  | integer (n : Int)
  | float (x : Binary64)
  /-- A number without a value: too large, or with digits that its base does not have. -/
  | unreadable
  | bool (b : Bool)
  /-- A date, a time of day or both, as it is written. -/
  | moment (s : String)
  | array (items : List Toml)
  | table (entries : List (String × Toml))
deriving Repr, Inhabited

namespace Toml

mutual

/-- Whether every number in a value has a value of its own. -/
def isReadable : Toml → Bool
  | text _ => true
  | integer _ => true
  | float _ => true
  | unreadable => false
  | bool _ => true
  | moment _ => true
  | array items => areReadable items
  | table entries => entriesReadable entries

def areReadable : List Toml → Bool
  | [] => true
  | v :: vs => v.isReadable && areReadable vs

def entriesReadable : List (String × Toml) → Bool
  | [] => true
  | (_, v) :: es => v.isReadable && entriesReadable es

end

end Toml

end DocWalk
