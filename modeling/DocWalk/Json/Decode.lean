import DocWalk.Json.Basic

/-!
# Reading data from documents

A document becomes data by its shape:

* a record is an object with the record's names, or an array of its fields;
  an object may have other members, and these are ignored;
* a choice is its tag as a string, or an object with the tag as its only name;
* a list is an array.

## Implementation notes

Data may nest only so deep. Every function takes the number of arrays and
objects that may still be entered. Members that are ignored are not entered
and do not count.
-/

namespace DocWalk.Json

/-- How deep data may nest. -/
def nestingLimit : Nat := 127

def string? : Json → Option String
  | text s => s
  | _ => none

def count? : Json → Option Nat
  | number n => n.toCount?
  | _ => none

/-- The items of an array. -/
def items? : Nat → Json → Option (Nat × List Json)
  | limit + 1, array items => some (limit, items)
  | _, _ => none

def strings? (limit : Nat) (j : Json) : Option (List String) := do
  let (_, items) ← j.items? limit
  items.mapM string?

/-- The member of a name, `none` within when it is missing; a name must not be repeated. -/
def member? (members : List (String × Json)) (name : String) : Option (Option Json) :=
  match members.filter (·.1 == name) with
  | [] => some none
  | [m] => some (some m.2)
  | _ => none

/-- The fields of a record with the given names, in their order. -/
def fields? (names : List String) : Json → Option (List (Option Json))
  | array items => if items.length = names.length then some (items.map some) else none
  | object members => do
      let members ← members.mapM fun m => m.1.map fun k => (k, m.2)
      names.mapM (member? members)
  | _ => none

/-- A record that is one level inside. -/
def record? (names : List String) : Nat → Json → Option (Nat × List (Option Json))
  | limit + 1, j => (j.fields? names).map fun fs => (limit, fs)
  | 0, _ => none

/-- A choice: its tag and what it carries, one level inside. -/
def choice? : Nat → Json → Option (String × Option (Nat × Json))
  | _, text s => s.map fun tag => (tag, none)
  | limit + 1, object [(some tag, payload)] => some (tag, some (limit, payload))
  | _, _ => none

/-- A choice that carries nothing: the tag alone, or with `null`. -/
def tag? (limit : Nat) (j : Json) : Option String :=
  match j.choice? limit with
  | some (tag, none) => some tag
  | some (tag, some (_, null)) => some tag
  | _ => none

/-- A field that may be missing or `null`. -/
def optional? {α : Type} (read : Json → Option α) : Option Json → Option (Option α)
  | none => some none
  | some null => some none
  | some j => (read j).map some

end DocWalk.Json
