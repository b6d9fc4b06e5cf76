import Mathlib.Data.String.Basic
import DocWalk.Proofs.Number.Rounding
import DocWalk.Value

/-!
# The order of values

Two values in some order are in the reverse order the other way round. An order
also has to carry over from two pairs to the third, and within each kind of
value it does. Numbers are two kinds on one scale: two integers are compared as
they are, but an integer and a binary64 number are compared after the integer
has been rounded. Past `2 ^ 53` two integers may become one number that way,
and three values do not fit together exactly when a binary64 number makes two
integers one that a direct comparison tells apart.

## Implementation notes

A comparison of numbers is a comparison of whole numbers, either of the
integers themselves or of values in units of `2 ^ -1074`. The cases with a
binary64 number in them differ only in where it stands, and rounding being
monotone is all that they need.
-/

namespace DocWalk

namespace Binary64

variable {x y : Binary64} {u v : Int}

theorem compare?_of_values (hx : x.value? = some u) (hy : y.value? = some v) :
    x.compare? y = some (compare u v) := by
  simp only [compare?, hx, hy]

theorem exists_values {o : Ordering} (h : x.compare? y = some o) :
    (∃ u, x.value? = some u) ∧ ∃ v, y.value? = some v := by
  unfold compare? at h
  split at h
  · next u v hx hy => exact ⟨⟨u, hx⟩, v, hy⟩
  · cases h

theorem compare?_swap (x y : Binary64) : y.compare? x = (x.compare? y).map Ordering.swap := by
  cases hx : x.value? with
  | none => cases hy : y.value? <;> simp [compare?, hx, hy]
  | some u =>
      cases hy : y.value? with
      | none => simp [compare?, hx, hy]
      | some v =>
          rw [compare?_of_values hx hy, compare?_of_values hy hx]
          exact congrArg some Std.OrientedCmp.eq_swap

/-- Every 64-bit integer has a binary64 number next to it. -/
theorem value?_ofInt64 (n : Int64) : (ofInt n.toInt).value? = some (roundedInt n.toInt) := by
  have hlow := Int64.le_toInt n
  have hhigh := Int64.toInt_lt n
  have hpow : Nat.pow 2 63 = 9223372036854775808 := rfl
  exact value?_ofInt (by omega)

end Binary64

namespace Value

/-- The first value is less than the second or equal to it. -/
def Precedes (a b : Value) : Prop :=
  a.compare? b = some .lt ∨ a.compare? b = some .eq

/-- Of three values the first is less than the last, or all are equal. -/
def Chains (a b c : Value) : Prop :=
  a.compare? c = some .lt ∨
    a.compare? c = some .eq ∧ a.compare? b = some .eq ∧ b.compare? c = some .eq

/-- A binary64 number that is equal to two integers of which one is less than the other. -/
structure Merges (x : Binary64) (m n : Int64) : Prop where
  less : (int m).compare? (int n) = some .lt
  lower : (int m).compare? (float x) = some .eq
  upper : (int n).compare? (float x) = some .eq

/-- Two merged integers and the number they are merged in, in an order that neighbours have and
the ends do not bear out. -/
inductive Slips : Value → Value → Value → Prop where
  | below {x : Binary64} {m n : Int64} (h : Merges x m n) : Slips (float x) (int m) (int n)
  | above {x : Binary64} {m n : Int64} (h : Merges x m n) : Slips (int m) (int n) (float x)
  | across {x : Binary64} {m n : Int64} (h : Merges x m n) : Slips (int n) (float x) (int m)

section Slips

variable {x : Binary64} {m n : Int64}

theorem slips_below_iff : Slips (float x) (int m) (int n) ↔ Merges x m n := by
  constructor
  · intro h
    cases h with
    | below h => exact h
  · exact .below

theorem slips_above_iff : Slips (int m) (int n) (float x) ↔ Merges x m n := by
  constructor
  · intro h
    cases h with
    | above h => exact h
  · exact .above

theorem slips_across_iff : Slips (int n) (float x) (int m) ↔ Merges x m n := by
  constructor
  · intro h
    cases h with
    | across h => exact h
  · exact .across

end Slips

theorem compare?_swap (a b : Value) : b.compare? a = (a.compare? b).map Ordering.swap := by
  cases a with
  | null => cases b <;> rfl
  | bool p =>
      cases b with
      | bool q => exact congrArg some Std.OrientedCmp.eq_swap
      | _ => rfl
  | int m =>
      cases b with
      | int n => exact congrArg some Std.OrientedCmp.eq_swap
      | float y => exact Binary64.compare?_swap _ y
      | _ => rfl
  | float x =>
      cases b with
      | int n => exact Binary64.compare?_swap x _
      | float y => exact Binary64.compare?_swap x y
      | _ => rfl
  | text s =>
      cases b with
      | text t => exact congrArg some Std.OrientedCmp.eq_swap
      | _ => rfl

section Scales

variable {a b c : Value}

theorem Precedes.exists_order (h : a.Precedes b) : ∃ o, a.compare? b = some o :=
  h.elim (fun h => ⟨_, h⟩) fun h => ⟨_, h⟩

/-- Three values that are compared on one scale fit together. -/
theorem chains_of_scale {α : Type} [Ord α] [Std.TransOrd α] {x y z : α}
    (hxy : a.compare? b = some (compare x y)) (hyz : b.compare? c = some (compare y z))
    (hxz : a.compare? c = some (compare x z)) (hab : a.Precedes b) (hbc : b.Precedes c) :
    Chains a b c := by
  simp only [Precedes, hxy, hyz, Option.some.injEq] at hab hbc
  simp only [Chains, hxy, hyz, hxz, Option.some.injEq]
  rcases hab with hab | hab
  · exact Or.inl (Std.TransCmp.lt_of_lt_of_isLE hab (Ordering.isLE_iff_eq_lt_or_eq_eq.mpr hbc))
  · rw [Std.TransCmp.congr_left hab]
    exact hbc.imp_right fun h => ⟨h, hab, h⟩

variable {x y z : Binary64} {m n : Int64} {u v w : Int}

theorem compare?_int_int (m n : Int64) :
    (int m).compare? (int n) = some (compare m.toInt n.toInt) := rfl

theorem compare?_int_float (hx : x.value? = some u) :
    (int m).compare? (float x) = some (compare (Binary64.roundedInt m.toInt) u) :=
  Binary64.compare?_of_values (Binary64.value?_ofInt64 m) hx

theorem compare?_float_int (hx : x.value? = some u) :
    (float x).compare? (int m) = some (compare u (Binary64.roundedInt m.toInt)) :=
  Binary64.compare?_of_values hx (Binary64.value?_ofInt64 m)

theorem compare?_float_float (hx : x.value? = some u) (hy : y.value? = some v) :
    (float x).compare? (float y) = some (compare u v) :=
  Binary64.compare?_of_values hx hy

theorem precedes_iff (h : a.compare? b = some (compare u v)) : a.Precedes b ↔ u ≤ v := by
  rw [Precedes, h, Option.some.injEq, Option.some.injEq, ← Ordering.isLE_iff_eq_lt_or_eq_eq,
    Int.isLE_compare]

theorem merges_iff (hx : x.value? = some u) :
    Merges x m n ↔ m.toInt < n.toInt ∧ Binary64.roundedInt m.toInt = u ∧
      Binary64.roundedInt n.toInt = u := by
  constructor
  · rintro ⟨hless, hlower, hupper⟩
    rw [compare?_int_float hx, Option.some.injEq, Int.compare_eq_eq] at hlower hupper
    exact ⟨Int.compare_eq_lt.mp (Option.some.inj hless), hlower, hupper⟩
  · rintro ⟨hless, hlower, hupper⟩
    refine ⟨congrArg some (Int.compare_eq_lt.mpr hless), ?_, ?_⟩
    · rw [compare?_int_float hx, Int.compare_eq_eq.mpr hlower]
    · rw [compare?_int_float hx, Int.compare_eq_eq.mpr hupper]

/-- Merged integers are past those that every binary64 number tells apart. -/
theorem Merges.past_exact (h : Merges x m n) :
    Nat.pow 2 53 < m.toInt.natAbs ∨ Nat.pow 2 53 < n.toInt.natAbs := by
  obtain ⟨-, u, hu⟩ := Binary64.exists_values h.lower
  obtain ⟨hless, hlower, hupper⟩ := (merges_iff hu).mp h
  rw [← Nat.not_le, ← Nat.not_le, ← not_and_or]
  rintro ⟨hm, hn⟩
  have heq := Binary64.roundedInt_injOn hm hn (hlower.trans hupper.symm)
  omega

theorem chains_iff {p q r t e f : Int} (hab : a.compare? b = some (compare p q))
    (hbc : b.compare? c = some (compare r t)) (hac : a.compare? c = some (compare e f)) :
    Chains a b c ↔ e < f ∨ e = f ∧ p = q ∧ r = t := by
  simp only [Chains, hab, hbc, hac, Option.some.injEq, Int.compare_eq_lt, Int.compare_eq_eq]

/-- A number below two integers. -/
theorem chains_below_iff (hx : x.value? = some u) (hab : (float x).Precedes (int m))
    (hbc : (int m).Precedes (int n)) :
    Chains (float x) (int m) (int n) ↔ ¬ Slips (float x) (int m) (int n) := by
  rw [precedes_iff (compare?_float_int hx)] at hab
  rw [precedes_iff (compare?_int_int m n)] at hbc
  have hround := Binary64.roundedInt_mono hbc
  rw [chains_iff (compare?_float_int hx) (compare?_int_int m n) (compare?_float_int hx),
    slips_below_iff, merges_iff hx]
  omega

/-- A number above two integers. -/
theorem chains_above_iff (hx : x.value? = some u) (hab : (int m).Precedes (int n))
    (hbc : (int n).Precedes (float x)) :
    Chains (int m) (int n) (float x) ↔ ¬ Slips (int m) (int n) (float x) := by
  rw [precedes_iff (compare?_int_int m n)] at hab
  rw [precedes_iff (compare?_int_float hx)] at hbc
  have hround := Binary64.roundedInt_mono hab
  rw [chains_iff (compare?_int_int m n) (compare?_int_float hx) (compare?_int_float hx),
    slips_above_iff, merges_iff hx]
  omega

/-- A number between two integers. Only here do the ends turn around. -/
theorem chains_across_iff (hx : x.value? = some u) (hab : (int n).Precedes (float x))
    (hbc : (float x).Precedes (int m)) :
    Chains (int n) (float x) (int m) ↔ ¬ Slips (int n) (float x) (int m) := by
  rw [precedes_iff (compare?_int_float hx)] at hab
  rw [precedes_iff (compare?_float_int hx)] at hbc
  have hround : m.toInt ≤ n.toInt → _ := Binary64.roundedInt_mono
  rw [chains_iff (compare?_int_float hx) (compare?_float_int hx) (compare?_int_int n m),
    slips_across_iff, merges_iff hx]
  omega

end Scales

section Kinds

variable {a b c : Value}

/-- The values that have a place on the scale of numbers. -/
inductive IsNumber : Value → Prop where
  | int (n : Int64) : IsNumber (int n)
  | float {x : Binary64} {u : Int} (h : x.value? = some u) : IsNumber (float x)

/-- The pairs of values that have an order. -/
inductive Comparable : Value → Value → Prop where
  | null : Comparable null null
  | bool (p q : Bool) : Comparable (bool p) (bool q)
  | text (s t : String) : Comparable (text s) (text t)
  | number {a b : Value} (ha : a.IsNumber) (hb : b.IsNumber) : Comparable a b

theorem Precedes.comparable (h : a.Precedes b) : Comparable a b := by
  obtain ⟨o, h⟩ := h.exists_order
  cases a with
  | null =>
      cases b with
      | null => exact .null
      | _ => cases h
  | bool p =>
      cases b with
      | bool q => exact .bool p q
      | _ => cases h
  | int m =>
      cases b with
      | int n => exact .number (.int m) (.int n)
      | float y =>
          obtain ⟨-, v, hy⟩ := Binary64.exists_values h
          exact .number (.int m) (.float hy)
      | _ => cases h
  | float x =>
      cases b with
      | int n =>
          obtain ⟨⟨u, hx⟩, -⟩ := Binary64.exists_values h
          exact .number (.float hx) (.int n)
      | float y =>
          obtain ⟨⟨u, hx⟩, v, hy⟩ := Binary64.exists_values h
          exact .number (.float hx) (.float hy)
      | _ => cases h
  | text s =>
      cases b with
      | text t => exact .text s t
      | _ => cases h

/-- Three numbers fit together unless one of them merges the other two. -/
theorem IsNumber.chains_iff (ha : a.IsNumber) (hb : b.IsNumber) (hc : c.IsNumber)
    (hab : a.Precedes b) (hbc : b.Precedes c) : Chains a b c ↔ ¬ Slips a b c := by
  cases ha with
  | int m =>
      cases hb with
      | int n =>
          cases hc with
          | int k => exact iff_of_true (chains_of_scale rfl rfl rfl hab hbc) nofun
          | float hz => exact chains_above_iff hz hab hbc
      | float hy =>
          cases hc with
          | int k => exact chains_across_iff hy hab hbc
          | float hz =>
              exact iff_of_true (chains_of_scale (compare?_int_float hy)
                (compare?_float_float hy hz) (compare?_int_float hz) hab hbc) nofun
  | float hx =>
      cases hb with
      | int n =>
          cases hc with
          | int k => exact chains_below_iff hx hab hbc
          | float hz =>
              exact iff_of_true (chains_of_scale (compare?_float_int hx) (compare?_int_float hz)
                (compare?_float_float hx hz) hab hbc) nofun
      | float hy =>
          cases hc with
          | int k =>
              exact iff_of_true (chains_of_scale (compare?_float_float hx hy)
                (compare?_float_int hy) (compare?_float_int hx) hab hbc) nofun
          | float hz =>
              exact iff_of_true (chains_of_scale (compare?_float_float hx hy)
                (compare?_float_float hy hz) (compare?_float_float hx hz) hab hbc) nofun

/-- Three values in order fit together unless a binary64 number among them merges two integers. -/
theorem Precedes.chains_iff (hab : a.Precedes b) (hbc : b.Precedes c) :
    Chains a b c ↔ ¬ Slips a b c := by
  cases hab.comparable with
  | null =>
      cases hbc.comparable with
      | null => exact iff_of_true (Or.inr ⟨rfl, rfl, rfl⟩) nofun
      | number hb _ => cases hb
  | bool p q =>
      cases hbc.comparable with
      | bool _ r => exact iff_of_true (chains_of_scale rfl rfl rfl hab hbc) nofun
      | number hb _ => cases hb
  | text s t =>
      cases hbc.comparable with
      | text _ r => exact iff_of_true (chains_of_scale rfl rfl rfl hab hbc) nofun
      | number hb _ => cases hb
  | number ha hb =>
      cases hbc.comparable with
      | null => cases hb
      | bool => cases hb
      | text => cases hb
      | number _ hc => exact ha.chains_iff hb hc hab hbc

end Kinds

/-- The order of values is consistent but for rounding. The other way round it is the reverse, and
two orders give the third unless a binary64 number among the three merges the other two, which are
integers then and not both within `2 ^ 53` of zero. -/
theorem compare?_consistent_iff_not_slips :
    (∀ a b : Value, b.compare? a = (a.compare? b).map Ordering.swap) ∧
      (∀ a b c : Value, a.Precedes b → b.Precedes c → (Chains a b c ↔ ¬ Slips a b c)) ∧
      ∀ x m n, Merges x m n →
        Nat.pow 2 53 < m.toInt.natAbs ∨ Nat.pow 2 53 < n.toInt.natAbs :=
  ⟨compare?_swap, fun _ _ _ hab hbc => hab.chains_iff hbc, fun _ _ _ h => h.past_exact⟩

/-- The binary64 number `2 ^ 53`. -/
def lastExact : Binary64 :=
  .ofBits 0x4340000000000000

/-- Two integers that are not merged, and the number that is equal to the second. -/
theorem compare?_consistent_iff_not_slips_lastExact :
    (int 9007199254740991).Precedes (int 9007199254740992) ∧
      (int 9007199254740992).Precedes (float lastExact) ∧
      Chains (int 9007199254740991) (int 9007199254740992) (float lastExact) := by
  obtain ⟨-, hchain, hmerged⟩ := compare?_consistent_iff_not_slips
  have hab : (int 9007199254740991).Precedes (int 9007199254740992) := Or.inl (by decide +kernel)
  have hbc : (int 9007199254740992).Precedes (float lastExact) := Or.inr (by decide +kernel)
  refine ⟨hab, hbc, (hchain _ _ _ hab hbc).mpr ?_⟩
  rw [slips_above_iff]
  intro h
  exact absurd (hmerged _ _ _ h) (by decide)

/-- The next integer is equal to that number as well, and yet greater than the one before it. -/
theorem not_chains_lastExact :
    (int 9007199254740993).Precedes (float lastExact) ∧
      (float lastExact).Precedes (int 9007199254740992) ∧
      ¬ Chains (int 9007199254740993) (float lastExact) (int 9007199254740992) ∧
      (int 9007199254740993).compare? (int 9007199254740992) = some .gt := by
  have hgreater : (int 9007199254740993).compare? (int 9007199254740992) = some .gt := by decide
  refine ⟨Or.inr (by decide +kernel), Or.inr (by decide +kernel), ?_, hgreater⟩
  rw [Chains, hgreater]
  rintro (h | ⟨h, -⟩) <;> cases h

end Value

end DocWalk
