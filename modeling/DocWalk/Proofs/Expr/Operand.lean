import DocWalk.Dialect
import DocWalk.Proofs.Expr.Precedence

/-!
# Operands in query text

Whatever a value holds and whatever properties a column names, its text is one
word and never an operator: quoted text keeps its spaces, parentheses and
quotes inside the quotes, and all other text has none.
-/

namespace DocWalk

namespace Text

/-- Text that is read as one operand: a single word that is no operator. -/
structure IsOperand (s : String) : Prop where
  solid : Solid s.toList
  nonempty : s.toList ≠ []
  notOperator : Operator.ofWord? s = none

theorem IsOperand.spells {s : String} (h : IsOperand s) : Spells s.toList [.word s] :=
  h.solid.spells h.nonempty

/-- Solid text with a character that operators do not have is an operand. -/
theorem Solid.isOperand {s : String} (hs : Solid s.toList) {c : Char} (hc : c ∈ s.toList)
    (h : c ∉ Operator.letters) : IsOperand s where
  solid := hs
  nonempty := List.ne_nil_of_mem hc
  notOperator := Operator.ofWord?_eq_none hc h

/-- A test that no character of a list passes. -/
theorem notMem_of_test {P : Char → Bool} {cs : List Char} (h : cs.all (!P ·) = true) {c : Char}
    (hc : P c = true) : c ∉ cs := by
  intro hm
  have hn := List.all_eq_true.mp h c hm
  simp [hc] at hn

/-- Text whose characters all pass a test that no marker passes. -/
theorem solid_of_test {P : Char → Bool} (h : markers.all (!P ·) = true) {cs : List Char}
    (hcs : cs.all P = true) : Solid cs := by
  apply solid_of_all
  rw [List.all_eq_true] at hcs ⊢
  intro c hc
  simpa [isPlain] using notMem_of_test h (hcs c hc)

theorem solid_of_isNameRest {cs : List Char} (h : cs.all isNameRest = true) : Solid cs :=
  solid_of_test rfl h

theorem all_isNameRest_of_isName {s : String} (h : isName s = true) :
    s.toList.all isNameRest = true := by
  cases hs : s.toList with
  | nil => rfl
  | cons c cs =>
      obtain ⟨hstart, hrest⟩ : isNameStart c = true ∧ cs.all isNameRest = true := by
        simpa only [isName, hs, Bool.and_eq_true] using h
      have hc : isNameRest c = true := by
        simp only [isNameStart, Bool.or_eq_true] at hstart
        simp only [isNameRest, Char.isAlphanum, Bool.or_eq_true]
        exact hstart.imp_left Or.inl
      rw [List.all_cons, hc, hrest]
      rfl

theorem all_isNameRest_repr (n : Nat) : (Nat.repr n).toList.all isNameRest = true := by
  rw [Nat.toList_repr, List.all_eq_true]
  intro c hc
  have hd : c.isDigit = true := Nat.isDigit_of_mem_toDigits (by decide) (by decide) hc
  simp [isNameRest, Char.isAlphanum, hd]

/-- A name with an underscore that goes on with a number. -/
theorem isOperand_numbered {s : String} (hs : Solid s.toList) (hm : '_' ∈ s.toList) (n : Nat) :
    IsOperand (s ++ Nat.repr n) := by
  have hsolid := hs.append (solid_of_isNameRest (all_isNameRest_repr n))
  rw [← String.toList_append] at hsolid
  apply hsolid.isOperand (c := '_')
  · simp [hm]
  · decide

theorem isOperand_inDouble (s : String) : IsOperand (inDouble s) :=
  (solid_inDouble s).isOperand (c := '"') (by simp [toList_inDouble]) (by decide)

theorem isOperand_inSingle (s : String) : IsOperand (inSingle s) :=
  (solid_inSingle s).isOperand (c := '\x27') (by simp [toList_inSingle]) (by decide)

/-- The values that are written as words of their own. -/
def keywords : List String :=
  ["null", "true", "false", "NaN", "inf", "-inf"]

theorem isOperand_of_mem_keywords {s : String} (hs : s ∈ keywords) : IsOperand s := by
  have h : ∀ s ∈ keywords, s.toList.all isPlain = true ∧ s.toList ≠ [] ∧
      Operator.ofWord? s = none := by decide
  obtain ⟨hp, hne, ho⟩ := h s hs
  exact ⟨solid_of_all hp, hne, ho⟩

end Text

open Text

namespace Numeral

/-- The characters that numerals are written with. -/
def isNumeralChar (c : Char) : Bool :=
  c.isDigit || ['-', '+', '.', 'e'].contains c

theorem all_digits (n : Nat) : (digits n).all isNumeralChar = true := by
  rw [List.all_eq_true]
  intro c hc
  have hd : c.isDigit = true := Nat.isDigit_of_mem_toDigits (by decide) (by decide) hc
  simp [isNumeralChar, hd]

theorem all_exponentChars (e : Int) : (exponentChars e).all isNumeralChar = true := by
  have hsign : isNumeralChar (if e < 0 then '-' else '+') = true := by
    split <;> rfl
  simp only [exponentChars, List.all_cons, all_digits, hsign]
  rfl

theorem all_chars (n : Numeral) : n.chars.all isNumeralChar = true := by
  have hsign : (sign n.negative).all isNumeralChar = true := by
    cases n.negative <;> rfl
  have hpoint : isNumeralChar '.' = true := rfl
  have hfraction : ∀ d : Fin 10, isNumeralChar (Nat.digitChar d.val) = true := by decide
  simp only [chars, List.all_append, hsign, all_digits, Bool.true_and, Bool.and_eq_true]
  constructor
  · split
    · rfl
    · simp [hpoint, hfraction]
  · split
    · rfl
    · exact all_exponentChars _

theorem isOperand_chars (n : Numeral) : IsOperand (String.ofList n.chars) := by
  have hsolid : Solid (String.ofList n.chars).toList := by
    rw [String.toList_ofList]
    exact solid_of_test rfl n.all_chars
  -- the whole part has a digit, even when it is zero
  obtain ⟨c, hc⟩ := List.exists_mem_of_ne_nil (digits n.whole) Nat.toDigits_ne_nil
  apply hsolid.isOperand (c := c)
  · simp [chars, hc]
  · exact notMem_of_test rfl (List.all_eq_true.mp (all_digits n.whole) c hc)

end Numeral

theorem Binary64.isOperand_text (x : Binary64) : IsOperand x.text := by
  unfold text
  split
  · exact isOperand_of_mem_keywords (by decide)
  · split
    · split <;> exact isOperand_of_mem_keywords (by decide)
    · exact Numeral.isOperand_chars _

/-- Every value is written as one operand. -/
theorem Value.isOperand_inQuery (d : Dialect) (v : Value) : IsOperand (v.inQuery d) := by
  cases v with
  | null => exact isOperand_of_mem_keywords (s := "null") (by decide)
  | bool b =>
      cases b with
      | true => exact isOperand_of_mem_keywords (s := "true") (by decide)
      | false => exact isOperand_of_mem_keywords (s := "false") (by decide)
  | int n => exact Numeral.isOperand_chars _
  | float x => exact x.isOperand_text
  | text s =>
      cases d with
      | documentDB => exact isOperand_inDouble s
      | jsonServer => exact isOperand_inSingle s

/-- A property in brackets is part of a word; its name is quoted there. -/
theorem Dialect.solid_bracketed (d : Dialect) (name : String) :
    Solid (d.bracketed name).toList := by
  have hclose : Solid [']'] := solid_singleton rfl
  cases d with
  | documentDB =>
      have hopen : Solid ['['] := solid_singleton rfl
      simpa [bracketed] using (hopen.append (solid_inDouble name)).append hclose
  | jsonServer =>
      have hopen : Solid ['.', '['] := solid_of_all rfl
      simpa [bracketed] using (hopen.append (solid_inDouble name)).append hclose

theorem Dialect.mem_bracketed (d : Dialect) (name : String) : '[' ∈ (d.bracketed name).toList := by
  cases d <;> simp [bracketed]

namespace Segment

theorem solid_inQuery (d : Dialect) (s : Segment) : Solid (s.inQuery d).toList := by
  cases s with
  | member name =>
      by_cases hn : isName name = true
      · have hdot : Solid ['.'] := solid_singleton rfl
        simpa [inQuery, hn] using hdot.append (solid_of_isNameRest (all_isNameRest_of_isName hn))
      · simpa [inQuery, hn] using d.solid_bracketed name
  | key name => exact d.solid_bracketed name
  | wildcard =>
      have hmarks : Solid ['.', '*'] := solid_of_all rfl
      simpa [inQuery] using hmarks

/-- A path segment begins with a mark that no operator has. -/
theorem exists_mem_inQuery (d : Dialect) (s : Segment) :
    ∃ c ∈ (s.inQuery d).toList, c ∉ Operator.letters := by
  have hbracket : ∀ name, ∃ c ∈ (d.bracketed name).toList, c ∉ Operator.letters :=
    fun name => ⟨'[', d.mem_bracketed name, by decide⟩
  cases s with
  | member name =>
      by_cases hn : isName name = true
      · exact ⟨'.', by simp [inQuery, hn], by decide⟩
      · simpa only [inQuery, if_neg hn] using hbracket name
  | key name => exact hbracket name
  | wildcard => exact ⟨'.', by simp [inQuery], by decide⟩

end Segment

theorem Text.solid_join {ss : List String} (h : ∀ s ∈ ss, Solid s.toList) :
    Solid (String.join ss).toList := by
  induction ss with
  | nil => exact solid_nil
  | cons s ss ih =>
      rw [String.join_cons, String.toList_append]
      exact (h s List.mem_cons_self).append (ih fun s' hs' => h s' (List.mem_cons_of_mem s hs'))

/-- A column of a table that is an operand is one, whatever its path. -/
theorem Column.isOperand_inQuery (d : Dialect) {c : Column} (h : IsOperand c.table) :
    IsOperand (c.inQuery d) := by
  have hsolid : Solid (c.inQuery d).toList := by
    rw [inQuery, String.toList_append]
    apply h.solid.append
    apply solid_join
    intro s hs
    obtain ⟨g, _, rfl⟩ := List.mem_map.mp hs
    exact g.solid_inQuery d
  cases hp : c.path with
  | nil =>
      have hc : c.inQuery d = c.table := by simp [inQuery, hp]
      rw [hc]
      exact h
  | cons g gs =>
      obtain ⟨a, ha, hn⟩ := g.exists_mem_inQuery d
      apply hsolid.isOperand (c := a) _ hn
      simp [inQuery, hp, String.join_cons, ha]

end DocWalk
