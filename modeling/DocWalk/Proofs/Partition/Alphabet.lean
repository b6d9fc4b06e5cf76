import DocWalk.Partition.Plan
import Mathlib.Data.String.Basic

/-!
# The parts of the alphabet

The alphabet is split into consecutive ranges, one for each worker. A text from
the first letter to the last one, of whatever length, is in exactly one of
them. Any other text is in none.

## Implementation notes

What a range admits is read off the comparisons that its condition is made of,
with a text in the place of the first letter. Texts are compared letter by
letter, by code point, so a text that goes on behind a letter comes after that
letter.
-/

namespace DocWalk

namespace Plan

/-- A side of a comparison in the condition of a plan. -/
inductive Operand where
  | bound (s : String)
  | firstLetter

namespace Operand

/-- The side as it is written, given the text of the first letter. -/
def text (letter : String) : Operand → String
  | bound s => Text.inDouble s
  | firstLetter => letter

/-- What the side stands for, given the first letter itself. -/
def value (x : String) : Operand → String
  | bound s => s
  | firstLetter => x

end Operand

/-- A comparison in the condition of a plan. -/
structure Comparison where
  left : Operand
  op : Comparator
  right : Operand

namespace Comparison

/-- From a bound up to the first letter. -/
def above (lower : String) (op : Comparator) : Comparison :=
  ⟨.bound lower, op, .firstLetter⟩

/-- From the first letter up to a bound. -/
def below (upper : String) (op : Comparator) : Comparison :=
  ⟨.firstLetter, op, .bound upper⟩

def text (letter : String) (c : Comparison) : String :=
  c.left.text letter ++ " " ++ c.op.symbol ++ " " ++ c.right.text letter

/-- Whether the comparison is true of a text. -/
def holds (x : String) (c : Comparison) : Bool :=
  c.op.admits (compare (c.left.value x) (c.right.value x))

end Comparison

end Plan

open Plan

/-- The comparisons that a range is made of. -/
def Bounds.comparisons (lower upper : String) : Bounds → List Comparison
  | includeBoth => [.above lower .lessOrEqual, .below upper .lessOrEqual]
  | includeLeft => [.above lower .lessOrEqual, .below upper .less]
  | includeRight => [.above lower .less, .below upper .lessOrEqual]
  | excludeBoth => [.above lower .less, .below upper .less]
  | greater => [.above lower .less]
  | greaterOrEqual => [.above lower .lessOrEqual]
  | less => [.below upper .less]
  | lessOrEqual => [.below upper .lessOrEqual]

/-- The comparisons that a rule is made of, if it is a range. -/
def Rule.comparisons? : Rule → Option (List Comparison)
  | between lower upper bounds => some (bounds.comparisons lower upper)
  | _ => none

/-- Whether a text meets every comparison of a range. -/
def Rule.admits (r : Rule) (x : String) : Bool :=
  r.comparisons?.any fun cs => cs.all (·.holds x)

/-- The condition of a plan writes the comparisons of its rule. -/
theorem Plan.condition_of_comparisons {p : Plan} {cs : List Comparison}
    (h : p.rule.comparisons? = some cs) (name : String) :
    p.condition name =
      .ok (" AND ".intercalate (cs.map (Comparison.text (p.firstLetter name)))) := by
  rw [condition]
  cases hr : p.rule with
  | equal letter =>
      rw [hr] at h
      cases h
  | oneOf letters =>
      rw [hr] at h
      cases h
  | between lower upper bounds =>
      rw [hr] at h
      cases h
      cases bounds <;> rfl

section Order

variable {a b : String}

theorem admits_less_iff : Comparator.less.admits (compare a b) = true ↔ a < b := by
  rw [Comparator.admits, beq_iff_eq, compare_lt_iff_lt]

theorem admits_lessOrEqual_iff : Comparator.lessOrEqual.admits (compare a b) = true ↔ a ≤ b := by
  rw [Comparator.admits, bne_iff_ne, compare_le_iff_le]

end Order

section Ranges

variable {lower upper x : String}

theorem admits_includeBoth_iff :
    (Rule.between lower upper .includeBoth).admits x = true ↔ lower ≤ x ∧ x ≤ upper := by
  rw [← admits_lessOrEqual_iff, ← admits_lessOrEqual_iff]
  simp [Rule.admits, Rule.comparisons?, Bounds.comparisons, Comparison.holds, Comparison.above,
    Comparison.below, Operand.value]

theorem admits_includeLeft_iff :
    (Rule.between lower upper .includeLeft).admits x = true ↔ lower ≤ x ∧ x < upper := by
  rw [← admits_lessOrEqual_iff, ← admits_less_iff]
  simp [Rule.admits, Rule.comparisons?, Bounds.comparisons, Comparison.holds, Comparison.above,
    Comparison.below, Operand.value]

/-- Ranges from one bound to another one. The last one has both of its bounds, and each other one
goes on to where the next one begins. -/
inductive Consecutive (upper : String) : String → List Rule → Prop where
  | last {lower : String} (h : lower ≤ upper) :
      Consecutive upper lower [.between lower upper .includeBoth]
  | next {lower middle : String} {rules : List Rule} (h : lower ≤ middle)
      (hrules : Consecutive upper middle rules) :
      Consecutive upper lower (.between lower middle .includeLeft :: rules)

theorem Consecutive.lower_le {rules : List Rule} (h : Consecutive upper lower rules) :
    lower ≤ upper := by
  induction h with
  | last h => exact h
  | next h _ ih => exact h.trans ih

/-- Consecutive ranges admit every text between their outer bounds once, and no other text. -/
theorem Consecutive.countP_admits {rules : List Rule} (h : Consecutive upper lower rules)
    (x : String) : rules.countP (·.admits x) = if lower ≤ x ∧ x ≤ upper then 1 else 0 := by
  induction h with
  | last _ => simp only [List.countP_cons, List.countP_nil, admits_includeBoth_iff, Nat.zero_add]
  | @next lower middle rules hle hrules ih =>
      simp only [List.countP_cons, admits_includeLeft_iff, ih]
      -- the first range ends where the others begin
      rcases lt_or_ge x middle with hx | hx
      · have hupper : x ≤ upper := hx.le.trans hrules.lower_le
        have hrest : ¬ middle ≤ x := not_le.mpr hx
        simp only [hrest, hx, hupper, and_true, if_false, Nat.zero_add]
      · have hlower : lower ≤ x := hle.trans hx
        have hfirst : ¬ x < middle := not_lt.mpr hx
        simp only [hfirst, hx, hlower, true_and, and_false, if_false, Nat.add_zero]

end Ranges

namespace Plan

theorem toNat_letter {i : Nat} (h : i < alphabetSize) : (Char.ofNat (97 + i)).toNat = 97 + i := by
  have hvalid : (97 + i).isValidChar := Or.inl (by simp only [alphabetSize] at h; omega)
  rw [Char.ofNat, dif_pos hvalid]
  rfl

/-- Letters are ordered by their offsets. -/
theorem letter_le_letter {i j : Nat} (h : i ≤ j) (hj : j < alphabetSize) :
    letter i ≤ letter j := by
  rcases h.lt_or_eq with hlt | rfl
  · apply le_of_lt
    rw [String.lt_iff_toList_lt, letter, letter, String.toList_singleton, String.toList_singleton]
    apply List.Lex.rel
    change (Char.ofNat (97 + i)).toNat < (Char.ofNat (97 + j)).toNat
    rw [toNat_letter (hlt.trans hj), toNat_letter hj]
    omega
  · exact le_refl _

/-- The pieces from one of them on are consecutive ranges up to the end of the alphabet. -/
theorem consecutive_pieces {n span k i : Nat} (hspan : 0 < span) (hn : n * span ≤ alphabetSize)
    (hk : i + k + 1 = n) :
    Consecutive "z" (letter (i * span)) ((List.range' i (k + 1)).map (piece n span)) := by
  induction k generalizing i with
  | zero =>
      have hlast : piece n span i = .between (letter (i * span)) "z" .includeBoth := if_pos hk
      have hmul : i * span + span ≤ n * span := by
        rw [← Nat.succ_mul]
        exact Nat.mul_le_mul_right span (by omega)
      have hle : letter (i * span) ≤ "z" :=
        letter_le_letter (j := 25) (by simp only [alphabetSize] at hn; omega) (by decide)
      rw [List.range'_one, List.map_singleton, hlast]
      exact .last hle
  | succ k ih =>
      have hnext : piece n span i =
          .between (letter (i * span)) (letter (i * span + span)) .includeLeft :=
        if_neg (by omega)
      have hmul : i * span + span + span ≤ n * span := by
        rw [← Nat.succ_mul, ← Nat.succ_mul]
        exact Nat.mul_le_mul_right span (by omega)
      have hrest := ih (i := i + 1) (by omega)
      rw [Nat.succ_mul] at hrest
      rw [List.range'_succ, List.map_cons, hnext]
      exact .next (letter_le_letter (by omega) (by omega)) hrest

section Split

variable {key : String} {n : Nat}

theorem splitAlphabet_refused (h : ¬ (0 < n ∧ n ≤ alphabetSize)) :
    splitAlphabet key n = .error (.invalidParallelism n alphabetSize) := by
  rw [splitAlphabet, if_pos]
  simp only [Bool.or_eq_true, decide_eq_true_eq]
  omega

theorem splitAlphabet_eq (hkey : key ≠ "") (hn : 0 < n) (hle : n ≤ alphabetSize) :
    splitAlphabet key n =
      .ok (((List.range n).map (piece n (alphabetSize / n))).map (Plan.mk key)) := by
  have hcreate : ∀ rule, create key rule = pure ⟨key, rule⟩ := fun rule => if_neg hkey
  rw [splitAlphabet, if_neg]
  · simp only [hcreate, List.mapM_pure, List.map_map]
    rfl
  · simp only [Bool.or_eq_true, decide_eq_true_eq]
    omega

/-- All pieces together are consecutive ranges from the first letter to the last one. -/
theorem consecutive_alphabet (hn : 0 < n) (hle : n ≤ alphabetSize) :
    Consecutive "z" "a" ((List.range n).map (piece n (alphabetSize / n))) := by
  have hspan : 0 < alphabetSize / n := Nat.div_pos hle hn
  have hpieces := consecutive_pieces (i := 0) (k := n - 1) hspan
    (Nat.mul_div_le alphabetSize n) (by omega)
  rw [Nat.zero_mul, Nat.sub_add_cancel hn, ← List.range_eq_range'] at hpieces
  exact hpieces

/-- Plans that divide the alphabet among them. -/
structure DividesAlphabet (key : String) (n : Nat) (plans : List Plan) : Prop where
  length : plans.length = n
  keys : ∀ p ∈ plans, p.key = key
  /-- Each plan is a range, and its condition writes the comparisons of the range. -/
  conditions : ∀ p ∈ plans, ∃ cs, p.rule.comparisons? = some cs ∧ ∀ name,
    p.condition name = .ok (" AND ".intercalate (cs.map (Comparison.text (p.firstLetter name))))
  /-- A text from the first letter to the last one is admitted once, and any other one never. -/
  once : ∀ x, plans.countP (·.rule.admits x) = if "a" ≤ x ∧ x ≤ "z" then 1 else 0

theorem exists_comparisons_piece (n span i : Nat) :
    ∃ cs, (piece n span i).comparisons? = some cs := by
  rw [piece]
  split <;> exact ⟨_, rfl⟩

theorem dividesAlphabet_pieces (key : String) (hn : 0 < n) (hle : n ≤ alphabetSize) :
    DividesAlphabet key n
      (((List.range n).map (piece n (alphabetSize / n))).map (Plan.mk key)) where
  length := by simp
  keys := by
    intro p hp
    obtain ⟨rule, _, rfl⟩ := List.mem_map.mp hp
    rfl
  conditions := by
    intro p hp
    obtain ⟨rule, hrule, rfl⟩ := List.mem_map.mp hp
    obtain ⟨i, _, rfl⟩ := List.mem_map.mp hrule
    obtain ⟨cs, hcs⟩ := exists_comparisons_piece n (alphabetSize / n) i
    exact ⟨cs, hcs, condition_of_comparisons hcs⟩
  once x := by
    rw [List.countP_map]
    exact (consecutive_alphabet hn hle).countP_admits x

/-- The alphabet can be split into any number of parts from one to its size. The parts leave no
gap, and no two of them overlap. -/
theorem splitAlphabet_divides (hkey : key ≠ "") (n : Nat) :
    ((∃ plans, splitAlphabet key n = .ok plans) ↔ 0 < n ∧ n ≤ alphabetSize) ∧
      ∀ plans, splitAlphabet key n = .ok plans → DividesAlphabet key n plans := by
  by_cases hn : 0 < n ∧ n ≤ alphabetSize
  · have heq := splitAlphabet_eq hkey hn.1 hn.2
    refine ⟨iff_of_true ⟨_, heq⟩ hn, ?_⟩
    intro plans h
    cases heq.symm.trans h
    exact dividesAlphabet_pieces key hn.1 hn.2
  · have heq : splitAlphabet key n = _ := splitAlphabet_refused hn
    refine ⟨iff_of_false ?_ hn, ?_⟩
    · rintro ⟨plans, h⟩
      cases heq.symm.trans h
    · intro plans h
      cases heq.symm.trans h

/-- Four parts, the last of which is the longest one. A letter with an accent and a text that goes
on behind the last letter are in none of them. -/
theorem splitAlphabet_divides_four :
    ∃ plans, splitAlphabet "name" 4 = .ok plans ∧ DividesAlphabet "name" 4 plans ∧
      plans.countP (·.rule.admits "yes") = 1 ∧ plans.countP (·.rule.admits "é") = 0 ∧
      plans.countP (·.rule.admits "zoo") = 0 := by
  obtain ⟨haccepted, hdivides⟩ := splitAlphabet_divides (by decide : "name" ≠ "") 4
  obtain ⟨plans, h⟩ := haccepted.mpr (by decide)
  have hplans := hdivides plans h
  refine ⟨plans, h, hplans, ?_, ?_, ?_⟩
  · rw [hplans.once, if_pos (by decide)]
  · rw [hplans.once, if_neg (by decide)]
  · rw [hplans.once, if_neg (by decide)]

end Split

end Plan

end DocWalk
