import DocWalk.Text.Quoted

/-!
# Literals that end where they were closed

A reader of a quoted literal starts behind the opening quote, takes a backslash
and the character after it for one character, and stops at the first quote that
is not part of such a pair. Whatever text a literal quotes and whatever text
follows it, the reader stops at the closing quote and has read the quoted text.

## Implementation notes

`escape` writes every character on its own. Replacing one special character
after another throughout the text comes to the same because the backslash is
the first: the others add backslashes, and none of them replaces one.
-/

namespace DocWalk.Text

/-- The special characters, each with the one that stands for it behind a backslash, in the order
in which they are replaced. -/
def pairs : List (Char × Char) :=
  [('\\', '\\'), ('\x27', '\x27'), ('"', '"'), ('\n', 'n'), ('\r', 'r'), ('\t', 't')]

def specials : List Char :=
  pairs.map Prod.fst

/-- Line ends and tabs, which no literal holds as they are. -/
def breaks : List Char :=
  ['\n', '\r', '\t']

/-- The character that a backslash pair is read as, given its second character. -/
def unescape? : Char → Option Char
  | '\\' => some '\\'
  | '\x27' => some '\x27'
  | '"' => some '"'
  | 'n' => some '\n'
  | 'r' => some '\r'
  | 't' => some '\t'
  | _ => none

/-- A special character is written as a pair that is read as this character, any other as it is. -/
theorem escapeChar_cases (c : Char) :
    (∃ e, escapeChar c = ['\\', e] ∧ unescape? e = some c) ∨
      (escapeChar c = [c] ∧ c ∉ specials) := by
  unfold escapeChar
  split
  case h_7 => exact Or.inr ⟨rfl, by simp_all [specials, pairs]⟩
  all_goals exact Or.inl ⟨_, rfl, rfl⟩

section NotSpecial

variable {c : Char} (h : c ∉ specials)

include h

theorem ne_slash_of_notMem : c ≠ '\\' := by
  rintro rfl
  exact h (by decide)

theorem ne_quote_of_notMem {q : Char} (hq : q = '"' ∨ q = '\x27') : c ≠ q := by
  rintro rfl
  rcases hq with rfl | rfl <;> exact h (by decide)

end NotSpecial

theorem break_notMem_escapeChar {b : Char} (hb : b ∈ breaks) (c : Char) : b ∉ escapeChar c := by
  have hspecial : b ∈ specials ∧ b ≠ '\\' ∧ unescape? b = none := by
    simp only [breaks, List.mem_cons, List.not_mem_nil, or_false] at hb
    rcases hb with rfl | rfl | rfl <;> decide
  obtain ⟨hmem, hslash, hnone⟩ := hspecial
  intro h
  rcases escapeChar_cases c with ⟨e, hc, he⟩ | ⟨hc, hnot⟩
  · rw [hc, List.mem_cons, List.mem_singleton] at h
    rcases h with rfl | rfl
    · exact hslash rfl
    · rw [hnone] at he
      cases he
  · rw [hc, List.mem_singleton] at h
    exact hnot (h ▸ hmem)

section InTurn

/-- Replace a character wherever it stands. -/
def replaceAll (c : Char) (form cs : List Char) : List Char :=
  cs.flatMap fun d => if d = c then form else [d]

/-- Replace the special characters one after another, each throughout what the last left. -/
def escapeInTurn (cs : List Char) : List Char :=
  pairs.foldl (fun cs p => replaceAll p.1 ['\\', p.2] cs) cs

theorem escapeInTurn_append (as bs : List Char) :
    escapeInTurn (as ++ bs) = escapeInTurn as ++ escapeInTurn bs := by
  simp [escapeInTurn, pairs, replaceAll]

theorem escapeInTurn_singleton (c : Char) : escapeInTurn [c] = escapeChar c := by
  unfold escapeChar
  split
  case h_7 => simp_all [escapeInTurn, pairs, replaceAll]
  all_goals rfl

theorem escapeInTurn_eq_flatMap (cs : List Char) : escapeInTurn cs = cs.flatMap escapeChar := by
  induction cs with
  | nil => rfl
  | cons c cs ih =>
      calc
        escapeInTurn (c :: cs) = escapeInTurn [c] ++ escapeInTurn cs := escapeInTurn_append [c] cs
        _ = escapeChar c ++ cs.flatMap escapeChar := by rw [escapeInTurn_singleton, ih]
        _ = (c :: cs).flatMap escapeChar := List.flatMap_cons.symm

end InTurn

section Reading

/-- Read a literal from behind its opening quote: what it quotes, and what is left behind the
quote that closes it. -/
def scanQuoted (quote : Char) : List Char → Option (List Char × List Char)
  | [] => none
  | '\\' :: e :: rest => do
      let c ← unescape? e
      let (cs, rest) ← scanQuoted quote rest
      return (c :: cs, rest)
  | c :: rest =>
      if c = quote then some ([], rest)
      else do
        let (cs, rest) ← scanQuoted quote rest
        return (c :: cs, rest)

/-- Read the literal that a text begins with: the text it quotes, and the text behind it. -/
def readLiteral (quote : Char) (s : String) : Option (String × String) :=
  match s.toList with
  | [] => none
  | c :: cs =>
      if c = quote then
        (scanQuoted quote cs).map fun p => (String.ofList p.1, String.ofList p.2)
      else none

variable {q : Char} (hq : q = '"' ∨ q = '\x27')

include hq

/-- One character of the quoted text is read, and the reader goes on behind its written form. -/
theorem scanQuoted_escapeChar (c : Char) (rest : List Char) :
    scanQuoted q (escapeChar c ++ rest) =
      (scanQuoted q rest).map fun p => (c :: p.1, p.2) := by
  rcases escapeChar_cases c with ⟨e, hc, he⟩ | ⟨hc, hnot⟩
  · cases h : scanQuoted q rest <;> simp [hc, scanQuoted, he, h]
  · have hslash := ne_slash_of_notMem hnot
    have hquote := ne_quote_of_notMem hnot hq
    cases h : scanQuoted q rest <;> simp [hc, scanQuoted, hslash, hquote, h]

/-- The reader stops at the first quote behind the written text, and no earlier. -/
theorem scanQuoted_escape (cs rest : List Char) :
    scanQuoted q (cs.flatMap escapeChar ++ q :: rest) = some (cs, rest) := by
  induction cs with
  | nil => rcases hq with rfl | rfl <;> simp [scanQuoted]
  | cons c cs ih =>
      rw [List.flatMap_cons, List.append_assoc, scanQuoted_escapeChar hq, ih]
      rfl

end Reading

theorem toList_inDouble (s : String) :
    (inDouble s).toList = '"' :: s.toList.flatMap escapeChar ++ ['"'] := by
  simp [inDouble, escape]

theorem toList_inSingle (s : String) :
    (inSingle s).toList = '\x27' :: s.toList.flatMap escapeChar ++ ['\x27'] := by
  simp [inSingle, escape]

/-- A text that stands for another one between two quotes. -/
structure IsLiteral (quote : Char) (s literal : String) : Prop where
  /-- It is made by replacing the special characters one after another, the backslash first. -/
  made : literal.toList = quote :: escapeInTurn s.toList ++ [quote]
  /-- A reader finds its end and what it quotes, whatever follows. -/
  read (rest : String) : readLiteral quote (literal ++ rest) = some (s, rest)
  unbroken : ∀ b ∈ breaks, b ∉ literal.toList

theorem isLiteral_of_toList {q : Char} (hq : q = '"' ∨ q = '\x27') {s literal : String}
    (h : literal.toList = q :: s.toList.flatMap escapeChar ++ [q]) : IsLiteral q s literal where
  made := by rw [h, escapeInTurn_eq_flatMap]
  read rest := by
    have hchars : (literal ++ rest).toList =
        q :: (s.toList.flatMap escapeChar ++ q :: rest.toList) := by
      simp [h]
    simp only [readLiteral, hchars]
    simp [scanQuoted_escape hq]
  unbroken := by
    intro b hb
    have hne : b ≠ q := by
      rintro rfl
      rcases hq with rfl | rfl <;> exact absurd hb (by decide)
    have hnot : b ∉ s.toList.flatMap escapeChar := by
      rw [List.mem_flatMap]
      rintro ⟨c, -, hc⟩
      exact break_notMem_escapeChar hb c hc
    simp [h, hne, hnot]

/-- Text in quotes of either kind is a literal for this text. -/
theorem quoted_isLiteral (s : String) :
    IsLiteral '"' s (inDouble s) ∧ IsLiteral '\x27' s (inSingle s) :=
  ⟨isLiteral_of_toList (Or.inl rfl) (toList_inDouble s),
    isLiteral_of_toList (Or.inr rfl) (toList_inSingle s)⟩

end DocWalk.Text
