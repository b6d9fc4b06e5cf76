import DocWalk.Proofs.Expr.Operand
import DocWalk.Proofs.Json.Document

/-!
# How deep a text nests

The nesting of a text is counted on its characters alone: a bracket or a brace
opens a level or closes one, except inside a string, where it is data. The text
of a document nests exactly as deep as the document.

## Implementation notes

The count keeps the deepest level seen. In front of any text, the text of a
document therefore contributes a maximum and leaves the level as it was, which
is the statement that the induction carries.
-/

namespace DocWalk.Json

mutual

/-- How many arrays and objects lie around the deepest part of a document, itself included. -/
def depth : Json → Nat
  | null => 0
  | bool _ => 0
  | number _ => 0
  | text _ => 0
  | array items => depthItems items + 1
  | object members => depthMembers members + 1

def depthItems : List Json → Nat
  | [] => 0
  | j :: js => max j.depth (depthItems js)

def depthMembers : List (Option String × Json) → Nat
  | [] => 0
  | (_, j) :: ms => max j.depth (depthMembers ms)

end

/-- Where a character stands: outside strings, inside one, or behind a backslash inside. -/
inductive Place where
  | outside
  | inside
  | escaped
deriving DecidableEq, Repr

namespace Place

/-- The place after a character. -/
def next : Place → Char → Place
  | outside, c => if c = '"' then inside else outside
  | inside, c => if c = '\\' then escaped else if c = '"' then outside else inside
  | escaped, _ => inside

/-- The number of levels that are open after a character. -/
def level : Place → Nat → Char → Nat
  | outside, n, c =>
      if c = '[' ∨ c = '{' then n + 1
      else if c = ']' ∨ c = '}' then n - 1
      else n
  | _, n, _ => n

end Place

/-- The most levels that are open at once in a text, given the place and the open levels. -/
def nestingFrom : Place → Nat → List Char → Nat
  | _, n, [] => n
  | p, n, c :: cs => max n (nestingFrom (p.next c) (p.level n c) cs)

/-- How deep the brackets and braces of a text nest. -/
def nesting (s : String) : Nat :=
  nestingFrom .outside 0 s.toList

theorem le_nestingFrom (p : Place) (n : Nat) (cs : List Char) : n ≤ nestingFrom p n cs := by
  cases cs with
  | nil => exact Nat.le_refl n
  | cons c cs => exact Nat.le_max_left _ _

/-- A character that keeps the level counts for nothing. -/
theorem nestingFrom_cons {p : Place} {n : Nat} {c : Char} (h : p.level n c = n) (cs : List Char) :
    nestingFrom p n (c :: cs) = nestingFrom (p.next c) n cs := by
  rw [nestingFrom, h, Nat.max_eq_right (le_nestingFrom _ n cs)]

/-- The characters that change the level or the place outside strings. -/
def structural : List Char :=
  ['[', ']', '{', '}', '"']

def isNeutral (c : Char) : Bool :=
  !structural.contains c

theorem nestingFrom_of_isNeutral {c : Char} (h : isNeutral c = true) (n : Nat) (cs : List Char) :
    nestingFrom .outside n (c :: cs) = nestingFrom .outside n cs := by
  have hlevel : Place.outside.level n c = n := by
    simp_all [isNeutral, structural, Place.level]
  have hnext : Place.outside.next c = .outside := by
    simp_all [isNeutral, structural, Place.next]
  rw [nestingFrom_cons hlevel, hnext]

theorem nestingFrom_of_all {cs : List Char} (h : cs.all isNeutral = true) (n : Nat)
    (rest : List Char) : nestingFrom .outside n (cs ++ rest) = nestingFrom .outside n rest := by
  induction cs with
  | nil => rfl
  | cons c cs ih =>
      obtain ⟨hc, hcs⟩ : isNeutral c = true ∧ cs.all isNeutral = true := by
        simpa only [List.all_cons, Bool.and_eq_true] using h
      rw [List.cons_append, nestingFrom_of_isNeutral hc, ih hcs]

theorem nestingFrom_numeral (m : Numeral) (n : Nat) (rest : List Char) :
    nestingFrom .outside n (m.chars ++ rest) = nestingFrom .outside n rest := by
  have hall : m.chars.all isNeutral = true := by
    rw [List.all_eq_true]
    intro c hc
    have hm : Numeral.isNumeralChar c = true := List.all_eq_true.mp m.all_chars c hc
    have hs : c ∉ structural := Text.notMem_of_test rfl hm
    simpa [isNeutral] using hs
  exact nestingFrom_of_all hall n rest

theorem nestingFrom_inside (n : Nat) (c : Char) (cs : List Char) :
    nestingFrom .inside n (c :: cs) = nestingFrom (Place.inside.next c) n cs :=
  nestingFrom_cons rfl cs

theorem nestingFrom_escaped (n : Nat) (c : Char) (cs : List Char) :
    nestingFrom .escaped n (c :: cs) = nestingFrom .inside n cs :=
  nestingFrom_cons rfl cs

theorem nestingFrom_escapeChar (n : Nat) (c : Char) (rest : List Char) :
    nestingFrom .inside n (escapeChar c ++ rest) = nestingFrom .inside n rest := by
  rcases escapeChar_cases c with ⟨e, hc, -, -⟩ | ⟨hlt, hc⟩ | ⟨hc, -, hq, hb⟩
  · simp [hc, nestingFrom_inside, nestingFrom_escaped, Place.next]
  · have hhex : ∀ m, hexDigit m ≠ '\\' ∧ hexDigit m ≠ '"' := by
      intro m
      exact ⟨Nat.digitChar_ne _ rfl, Nat.digitChar_ne _ rfl⟩
    simp [hc, nestingFrom_inside, nestingFrom_escaped, Place.next, hhex]
  · simp [hc, nestingFrom_inside, Place.next, hq, hb]

/-- A string is passed over, whatever it holds. -/
theorem nestingFrom_stringChars (k : Option String) (n : Nat) (rest : List Char) :
    nestingFrom .outside n (stringChars k ++ rest) = nestingFrom .outside n rest := by
  have hinside : ∀ cs : List Char, nestingFrom .inside n (cs.flatMap escapeChar ++ '"' :: rest) =
      nestingFrom .outside n rest := by
    intro cs
    induction cs with
    | nil => exact nestingFrom_cons rfl rest
    | cons c cs ih => rw [List.flatMap_cons, List.append_assoc, nestingFrom_escapeChar, ih]
  cases k with
  | none =>
      rw [stringChars, List.cons_append, nestingFrom_cons rfl]
      simp [Place.next, nestingFrom_inside, nestingFrom_escaped]
  | some s =>
      rw [stringChars, List.cons_append, List.append_assoc, nestingFrom_cons rfl]
      exact hinside s.toList

/-- Between items and before the first of them the count is the same. -/
theorem nestingFrom_furtherItemChars (items : List Json) (n : Nat) (rest : List Char) :
    nestingFrom .outside n (furtherItemChars items ++ rest) =
      nestingFrom .outside n (itemChars items ++ rest) := by
  cases items with
  | nil => rfl
  | cons j js => rw [furtherItemChars_cons, List.cons_append, nestingFrom_of_isNeutral rfl]

theorem nestingFrom_furtherMemberChars (members : List (Option String × Json)) (n : Nat)
    (rest : List Char) :
    nestingFrom .outside n (furtherMemberChars members ++ rest) =
      nestingFrom .outside n (memberChars members ++ rest) := by
  cases members with
  | nil => rfl
  | cons m ms => rw [furtherMemberChars_cons, List.cons_append, nestingFrom_of_isNeutral rfl]

/-- Text that is passed over has the nesting of a document of depth zero. -/
theorem nestingFrom_atom {n : Nat} {cs rest : List Char}
    (h : nestingFrom .outside n (cs ++ rest) = nestingFrom .outside n rest) :
    nestingFrom .outside n (cs ++ rest) = max (n + 0) (nestingFrom .outside n rest) := by
  rw [h, Nat.add_zero, Nat.max_eq_right (le_nestingFrom _ n rest)]

theorem nestingFrom_opening {c : Char} (h : c = '[' ∨ c = '{') (n : Nat) (cs : List Char) :
    nestingFrom .outside n (c :: cs) = max n (nestingFrom .outside (n + 1) cs) := by
  rcases h with rfl | rfl <;> rfl

theorem nestingFrom_closing {c : Char} (h : c = ']' ∨ c = '}') (n : Nat) (cs : List Char) :
    nestingFrom .outside (n + 1) (c :: cs) = max (n + 1) (nestingFrom .outside n cs) := by
  rcases h with rfl | rfl <;> rfl

mutual

/-- The text of a document nests as deep as the document, and closes all that it opens. -/
theorem nestingFrom_chars (n : Nat) (rest : List Char) : ∀ j : Json,
    nestingFrom .outside n (j.chars ++ rest) = max (n + j.depth) (nestingFrom .outside n rest)
  | .null => nestingFrom_atom (nestingFrom_of_all rfl n rest)
  | .bool true => nestingFrom_atom (nestingFrom_of_all rfl n rest)
  | .bool false => nestingFrom_atom (nestingFrom_of_all rfl n rest)
  | .number m => nestingFrom_atom (nestingFrom_numeral m n rest)
  | .text s => nestingFrom_atom (nestingFrom_stringChars s n rest)
  | .array items => by
      rw [chars, List.cons_append, nestingFrom_opening (Or.inl rfl),
        nestingFrom_itemChars n rest items, depth]
      omega
  | .object members => by
      rw [chars, List.cons_append, nestingFrom_opening (Or.inr rfl),
        nestingFrom_memberChars n rest members, depth]
      omega

theorem nestingFrom_itemChars (n : Nat) (rest : List Char) : ∀ items : List Json,
    nestingFrom .outside (n + 1) (itemChars items ++ rest) =
      max (n + 1 + depthItems items) (nestingFrom .outside n rest)
  | [] => nestingFrom_closing (Or.inl rfl) n rest
  | j :: js => by
      rw [itemChars, List.append_assoc, nestingFrom_chars (n + 1) _ j, nestingFrom_furtherItemChars,
        nestingFrom_itemChars n rest js, depthItems]
      omega

theorem nestingFrom_memberChars (n : Nat) (rest : List Char) :
    ∀ members : List (Option String × Json),
    nestingFrom .outside (n + 1) (memberChars members ++ rest) =
      max (n + 1 + depthMembers members) (nestingFrom .outside n rest)
  | [] => nestingFrom_closing (Or.inr rfl) n rest
  | (k, j) :: ms => by
      rw [memberChars, List.append_assoc, nestingFrom_stringChars, List.cons_append,
        nestingFrom_of_isNeutral rfl, List.append_assoc, nestingFrom_chars (n + 1) _ j,
        nestingFrom_furtherMemberChars, nestingFrom_memberChars n rest ms, depthMembers]
      omega

end

theorem nesting_write (j : Json) : nesting j.write = j.depth := by
  have h := nestingFrom_chars 0 [] j
  simpa [nesting, write, nestingFrom] using h

end DocWalk.Json
