import DocWalk.Number.Numeral

/-!
# JSON documents

Documents as they are written: numbers keep their spelling, and the members of
an object keep their order and their repetitions.

## Implementation notes

An escape can name half of a surrogate pair. A string in which such a half has
no partner follows the grammar and denotes no text; it is held as `none`, so a
reader can pass over it where the string is not needed.
-/

namespace DocWalk

/-- A JSON document. -/
inductive Json where
  | null
  | bool (b : Bool)
  | number (n : Numeral)
  | text (s : Option String)
  | array (items : List Json)
  | object (members : List (Option String × Json))
deriving Repr, Inhabited

namespace Json

def ofString (s : String) : Json :=
  text (some s)

def ofStrings (l : List String) : Json :=
  array (l.map ofString)

/-- A value that may be absent, which is written `null`. -/
def ofOption {α : Type} (f : α → Json) : Option α → Json
  | none => null
  | some a => f a

/-- An object with the given names, in this order. -/
def record (members : List (String × Json)) : Json :=
  object (members.map fun m => (some m.1, m.2))

/-- A choice that carries something. -/
def tagged (tag : String) (payload : Json) : Json :=
  record [(tag, payload)]

end Json

end DocWalk
