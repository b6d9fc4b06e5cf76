import DocWalk.Number.Rounding

/-!
# Integers as binary64 numbers

An integer becomes the binary64 number nearest to it. Numbers up to `2 ^ 53`
are met exactly; past that several integers share one number. Rounding never
turns two integers around, so what it can do to their order is to make them
equal.

## Implementation notes

Magnitudes are counted in units of `2 ^ -1074`, as in the model. A magnitude
is `Short` when it has at most 53 significant bits; these are the ones that a
binary64 number holds as they are, and rounding gives no others.
-/

namespace DocWalk

section Quotients

variable {num num' den k : Nat}

theorem div_le_roundQuotient (num den : Nat) : num / den ≤ roundQuotient num den := by
  unfold roundQuotient
  dsimp only
  split
  · exact Nat.le_refl _
  · split <;> omega

/-- A quotient that is no more than a whole number is not rounded past it. -/
theorem roundQuotient_le (hden : 0 < den) (h : num ≤ k * den) : roundQuotient num den ≤ k := by
  have hle : num / den ≤ k := Nat.div_le_of_le_mul (Nat.mul_comm k den ▸ h)
  have hsum := Nat.div_add_mod num den
  -- a quotient that reaches the bound leaves no remainder to round up
  have hreached : num / den = k → num % den = 0 := by
    intro hk
    rw [hk, Nat.mul_comm] at hsum
    omega
  unfold roundQuotient
  dsimp only
  split
  · exact hle
  · split <;> omega

theorem le_roundQuotient (hden : 0 < den) (h : k * den ≤ num) : k ≤ roundQuotient num den :=
  Nat.le_trans ((Nat.le_div_iff_mul_le hden).mpr h) (div_le_roundQuotient num den)

theorem roundQuotient_mul (hden : 0 < den) (k : Nat) : roundQuotient (k * den) den = k :=
  Nat.le_antisymm (roundQuotient_le hden (Nat.le_refl _)) (le_roundQuotient hden (Nat.le_refl _))

theorem roundQuotient_mono (hden : 0 < den) (h : num ≤ num') :
    roundQuotient num den ≤ roundQuotient num' den := by
  have hsum := Nat.div_add_mod num den
  have hsum' := Nat.div_add_mod num' den
  rcases Nat.lt_or_ge (num / den) (num' / den) with hlt | hge
  · have hmod := Nat.mod_lt num hden
    calc
      roundQuotient num den ≤ num / den + 1 := by
        apply roundQuotient_le hden
        rw [Nat.succ_mul, Nat.mul_comm (num / den)]
        omega
      _ ≤ num' / den := hlt
      _ ≤ roundQuotient num' den := div_le_roundQuotient num' den
  · have hquot : num / den = num' / den := Nat.le_antisymm (Nat.div_le_div_right h) hge
    have hmod : num % den ≤ num' % den := by
      rw [hquot] at hsum
      omega
    unfold roundQuotient
    dsimp only
    rw [hquot]
    repeat' split
    all_goals omega

end Quotients

/-- A magnitude with at most 53 significant bits. -/
def Short (m : Nat) : Prop :=
  ∃ r t, r < Nat.pow 2 53 ∧ m = r * Nat.pow 2 t

section Magnitudes

variable {m num num' den r t : Nat}

theorem short_of_le (hr : r ≤ Nat.pow 2 53) : Short (r * Nat.pow 2 t) := by
  rcases Nat.lt_or_eq_of_le hr with hlt | rfl
  · exact ⟨r, t, hlt, rfl⟩
  · -- one more than the largest significand is one with a larger unit
    refine ⟨Nat.pow 2 52, t + 1, by decide, ?_⟩
    calc
      Nat.pow 2 53 * Nat.pow 2 t = Nat.pow 2 (53 + t) := (Nat.pow_add 2 53 t).symm
      _ = Nat.pow 2 (52 + (t + 1)) := by rw [Nat.add_left_comm, Nat.add_comm t]
      _ = Nat.pow 2 52 * Nat.pow 2 (t + 1) := Nat.pow_add 2 52 (t + 1)

/-- The unit of a magnitude's 53 leading bits divides it when it has no more. -/
theorem Short.dvd (h : Short m) : Nat.pow 2 (m.log2 - 52) ∣ m := by
  obtain ⟨r, t, hr, rfl⟩ := h
  rcases Nat.eq_zero_or_pos r with rfl | hpos
  · exact ⟨0, by simp⟩
  · have hlt : r * Nat.pow 2 t < Nat.pow 2 (53 + t) :=
      Nat.lt_of_lt_of_eq (Nat.mul_lt_mul_of_pos_right hr (Nat.two_pow_pos t))
        (Nat.pow_add 2 53 t).symm
    have hne : r * Nat.pow 2 t ≠ 0 := Nat.ne_of_gt (Nat.mul_pos hpos (Nat.two_pow_pos t))
    have hlog : (r * Nat.pow 2 t).log2 < 53 + t := (Nat.log2_lt hne).mpr hlt
    have hunit : Nat.pow 2 ((r * Nat.pow 2 t).log2 - 52) ∣ Nat.pow 2 t :=
      Nat.pow_dvd_pow 2 (by omega)
    exact Nat.dvd_trans hunit (Nat.dvd_mul_left _ _)

end Magnitudes

namespace Binary64

section Nearest

variable {m num num' den : Nat}

/-- The unit that 53 significant bits of `num / den` leave, as a power of two. -/
def unitShift (num den : Nat) : Nat :=
  (num / den).log2 - 52

/-- The rounded significand of `num / den`. -/
def significand (num den : Nat) : Nat :=
  roundQuotient num (den * Nat.pow 2 (unitShift num den))

theorem nearestMagnitude_eq (num den : Nat) :
    nearestMagnitude num den = significand num den * Nat.pow 2 (unitShift num den) := rfl

theorem unitShift_mono (den : Nat) (h : num ≤ num') : unitShift num den ≤ unitShift num' den := by
  unfold unitShift
  have hquot : num / den ≤ num' / den := Nat.div_le_div_right h
  rcases Nat.eq_zero_or_pos (num / den) with hzero | hpos
  · simp [hzero]
  · have hlog : (num / den).log2 ≤ (num' / den).log2 :=
      (Nat.le_log2 (by omega)).mpr (Nat.le_trans (Nat.log2_self_le (by omega)) hquot)
    omega

theorem significand_le (hden : 0 < den) : significand num den ≤ Nat.pow 2 53 := by
  apply roundQuotient_le (Nat.mul_pos hden (Nat.two_pow_pos _))
  have hquot : num / den < Nat.pow 2 (53 + unitShift num den) := by
    apply Nat.lt_of_lt_of_le Nat.lt_log2_self
    apply Nat.pow_le_pow_right Nat.two_pos
    unfold unitShift
    omega
  have hnum : num < Nat.pow 2 (53 + unitShift num den) * den :=
    (Nat.div_lt_iff_lt_mul hden).mp hquot
  calc
    num ≤ Nat.pow 2 (53 + unitShift num den) * den := Nat.le_of_lt hnum
    _ = Nat.pow 2 53 * Nat.pow 2 (unitShift num den) * den :=
      congrArg (· * den) (Nat.pow_add 2 53 _)
    _ = Nat.pow 2 53 * (den * Nat.pow 2 (unitShift num den)) := by
      rw [Nat.mul_assoc, Nat.mul_comm den]

/-- A quotient with a unit above one has all its 53 bits. -/
theorem le_significand (hden : 0 < den) (h : 0 < unitShift num den) :
    Nat.pow 2 52 ≤ significand num den := by
  apply le_roundQuotient (Nat.mul_pos hden (Nat.two_pow_pos _))
  have hlog : 52 + unitShift num den = (num / den).log2 := by
    unfold unitShift at h ⊢
    omega
  have hne : num / den ≠ 0 := by
    intro hzero
    simp [unitShift, hzero] at h
  calc
    Nat.pow 2 52 * (den * Nat.pow 2 (unitShift num den))
        = Nat.pow 2 52 * Nat.pow 2 (unitShift num den) * den := by
      rw [Nat.mul_assoc, Nat.mul_comm den]
    _ = Nat.pow 2 (52 + unitShift num den) * den :=
      congrArg (· * den) (Nat.pow_add 2 52 _).symm
    _ ≤ num / den * den := by
      rw [hlog]
      exact Nat.mul_le_mul_right den (Nat.log2_self_le hne)
    _ ≤ num := Nat.div_mul_le_self num den

theorem short_nearestMagnitude (hden : 0 < den) : Short (nearestMagnitude num den) :=
  short_of_le (significand_le hden)

theorem nearestMagnitude_mono (hden : 0 < den) (h : num ≤ num') :
    nearestMagnitude num den ≤ nearestMagnitude num' den := by
  rw [nearestMagnitude_eq, nearestMagnitude_eq]
  rcases Nat.lt_or_eq_of_le (unitShift_mono den h) with hlt | heq
  · -- the power of two between the two units lies between the two magnitudes
    calc
      significand num den * Nat.pow 2 (unitShift num den)
          ≤ Nat.pow 2 53 * Nat.pow 2 (unitShift num den) :=
        Nat.mul_le_mul_right _ (significand_le hden)
      _ = Nat.pow 2 (53 + unitShift num den) := (Nat.pow_add 2 53 _).symm
      _ ≤ Nat.pow 2 (52 + unitShift num' den) := Nat.pow_le_pow_right Nat.two_pos (by omega)
      _ = Nat.pow 2 52 * Nat.pow 2 (unitShift num' den) := Nat.pow_add 2 52 _
      _ ≤ significand num' den * Nat.pow 2 (unitShift num' den) :=
        Nat.mul_le_mul_right _ (le_significand hden (by omega))
  · unfold significand
    rw [heq]
    exact Nat.mul_le_mul_right _
      (roundQuotient_mono (Nat.mul_pos hden (Nat.two_pow_pos _)) h)

/-- A magnitude with few enough bits is not rounded. -/
theorem nearestMagnitude_of_short (h : Short m) : nearestMagnitude m 1 = m := by
  obtain ⟨k, hk⟩ := h.dvd
  have hshift : unitShift m 1 = m.log2 - 52 := by rw [unitShift, Nat.div_one]
  have hnum : m = k * (1 * Nat.pow 2 (m.log2 - 52)) := by
    rw [Nat.one_mul, Nat.mul_comm]
    exact hk
  have hround : significand m 1 = k := by
    unfold significand
    rw [hshift]
    generalize hunit : 1 * Nat.pow 2 (m.log2 - 52) = unit at hnum ⊢
    rw [hnum]
    exact roundQuotient_mul (hunit ▸ Nat.mul_pos Nat.one_pos (Nat.two_pow_pos _)) k
  rw [nearestMagnitude_eq, hround, hshift, Nat.mul_comm]
  exact hk.symm

end Nearest

section Encoding

variable {m n : Nat} {negative : Bool}

theorem exponentField_val (h : n < 2048) : (exponentField n).val = n :=
  Nat.mod_eq_of_lt h

theorem fractionField_val (n : Nat) : (fractionField n).val = n % Nat.pow 2 52 := rfl

theorem ofMagnitude_of_lt (h : m < Nat.pow 2 52) :
    ofMagnitude negative m = ⟨negative, exponentField 0, fractionField m⟩ :=
  if_pos h

theorem ofMagnitude_of_le (h : Nat.pow 2 52 ≤ m) (hlog : m.log2 < 2098) :
    ofMagnitude negative m =
      ⟨negative, exponentField (m.log2 - 51), fractionField (m / Nat.pow 2 (m.log2 - 52))⟩ := by
  have hrange : ¬ 2047 ≤ m.log2 - 51 := by omega
  have hunit : m.log2 - 51 - 1 = m.log2 - 52 := by omega
  simp only [ofMagnitude, if_neg (Nat.not_lt.mpr h), if_neg hrange, hunit]

/-- Whole significands of a magnitude that needs the hidden bit have it set. -/
theorem fractionField_div (h : Nat.pow 2 52 ≤ m) :
    Nat.pow 2 52 + (fractionField (m / Nat.pow 2 (m.log2 - 52))).val =
      m / Nat.pow 2 (m.log2 - 52) := by
  have hne : m ≠ 0 := Nat.ne_of_gt (Nat.lt_of_lt_of_le (Nat.two_pow_pos 52) h)
  have hlog : 52 ≤ m.log2 := (Nat.le_log2 hne).mpr h
  have hpos : 0 < Nat.pow 2 (m.log2 - 52) := Nat.two_pow_pos _
  have hlow : Nat.pow 2 52 ≤ m / Nat.pow 2 (m.log2 - 52) := by
    rw [Nat.le_div_iff_mul_le hpos]
    calc
      Nat.pow 2 52 * Nat.pow 2 (m.log2 - 52) = Nat.pow 2 (52 + (m.log2 - 52)) :=
        (Nat.pow_add 2 52 _).symm
      _ = Nat.pow 2 m.log2 := by rw [Nat.add_sub_cancel' hlog]
      _ ≤ m := Nat.log2_self_le hne
  have hhigh : m / Nat.pow 2 (m.log2 - 52) < Nat.pow 2 52 + Nat.pow 2 52 := by
    rw [Nat.div_lt_iff_lt_mul hpos]
    calc
      m < Nat.pow 2 (m.log2 + 1) := Nat.lt_log2_self
      _ = Nat.pow 2 (53 + (m.log2 - 52)) := by
        rw [← Nat.add_sub_assoc hlog, Nat.add_comm 53, Nat.add_sub_assoc (by decide)]
      _ = Nat.pow 2 53 * Nat.pow 2 (m.log2 - 52) := Nat.pow_add 2 53 _
      _ = (Nat.pow 2 52 + Nat.pow 2 52) * Nat.pow 2 (m.log2 - 52) := rfl
  rw [fractionField_val, Nat.mod_eq_sub_mod hlow, Nat.mod_eq_of_lt (by omega)]
  omega

/-- A magnitude with few enough bits that is in range is encoded as it is. -/
theorem magnitude_ofMagnitude (hs : Short m) (hlog : m.log2 < 2098) :
    (ofMagnitude negative m).magnitude = m := by
  rcases Nat.lt_or_ge m (Nat.pow 2 52) with hlt | hge
  · have hzero : (exponentField 0).val = 0 := rfl
    rw [ofMagnitude_of_lt hlt, magnitude, if_pos hzero, fractionField_val, Nat.mod_eq_of_lt hlt]
  · have hne : m ≠ 0 := Nat.ne_of_gt (Nat.lt_of_lt_of_le (Nat.two_pow_pos 52) hge)
    have hlow : 52 ≤ m.log2 := (Nat.le_log2 hne).mpr hge
    have hexp : (exponentField (m.log2 - 51)).val = m.log2 - 51 := exponentField_val (by omega)
    have hunit : m.log2 - 51 - 1 = m.log2 - 52 := by omega
    rw [ofMagnitude_of_le hge hlog, magnitude, hexp, if_neg (by omega), hunit,
      fractionField_div hge]
    exact Nat.div_mul_cancel hs.dvd

theorem isNaN_ofMagnitude (negative : Bool) (m : Nat) :
    (ofMagnitude negative m).isNaN = false := by
  unfold ofMagnitude
  dsimp only
  split
  · rfl
  · split
    · rfl
    · next hrange =>
        have hexp : (exponentField (m.log2 - 51)).val = m.log2 - 51 := exponentField_val (by omega)
        have hne : m.log2 - 51 ≠ 2047 := by omega
        simp [isNaN, hexp, hne]

theorem negative_ofMagnitude (negative : Bool) (m : Nat) :
    (ofMagnitude negative m).negative = negative := by
  unfold ofMagnitude
  dsimp only
  split
  · rfl
  · split <;> rfl

/-- Rounding leaves a power of two where it is. -/
theorem log2_nearestMagnitude_le {b k : Nat} (h : n ≤ Nat.pow 2 k) :
    (nearestMagnitude (n * Nat.pow 2 b) 1).log2 ≤ k + b := by
  have hshort : Short (Nat.pow 2 (k + b)) := ⟨1, k + b, by decide, (Nat.one_mul _).symm⟩
  have hlt : nearestMagnitude (n * Nat.pow 2 b) 1 < Nat.pow 2 (k + b + 1) :=
    calc
      nearestMagnitude (n * Nat.pow 2 b) 1 ≤ nearestMagnitude (Nat.pow 2 (k + b)) 1 := by
        apply nearestMagnitude_mono Nat.one_pos
        exact Nat.le_trans (Nat.mul_le_mul_right _ h) (Nat.le_of_eq (Nat.pow_add 2 k b).symm)
      _ = Nat.pow 2 (k + b) := nearestMagnitude_of_short hshort
      _ < Nat.pow 2 (k + b + 1) := Nat.pow_lt_pow_right (by decide) (Nat.lt_succ_self _)
  rcases Nat.eq_zero_or_pos (nearestMagnitude (n * Nat.pow 2 b) 1) with hzero | hpos
  · rw [hzero, Nat.log2_zero]
    exact Nat.zero_le _
  · exact Nat.le_of_lt_succ ((Nat.log2_lt (Nat.ne_of_gt hpos)).mpr hlt)

/-- The magnitude of a whole number, rounded. -/
def roundedMagnitude (n : Nat) : Nat :=
  nearestMagnitude (n * Nat.pow 2 1074) 1

theorem roundedMagnitude_mono {m n : Nat} (h : m ≤ n) : roundedMagnitude m ≤ roundedMagnitude n :=
  nearestMagnitude_mono Nat.one_pos (Nat.mul_le_mul_right _ h)

/-- The value of the binary64 number nearest to an integer. -/
def roundedInt (n : Int) : Int :=
  if n < 0 then -(roundedMagnitude n.natAbs : Int) else roundedMagnitude n.natAbs

theorem value?_ofInt {n : Int} (h : n.natAbs ≤ Nat.pow 2 63) :
    (ofInt n).value? = some (roundedInt n) := by
  have hlog : (roundedMagnitude n.natAbs).log2 < 2098 := by
    unfold roundedMagnitude
    apply Nat.lt_of_le_of_lt (log2_nearestMagnitude_le h)
    decide
  have hm : (ofInt n).magnitude = roundedMagnitude n.natAbs :=
    magnitude_ofMagnitude (short_nearestMagnitude Nat.one_pos) hlog
  have hnan : (ofInt n).isNaN = false := isNaN_ofMagnitude _ _
  have hneg : (ofInt n).negative = decide (n < 0) := negative_ofMagnitude _ _
  by_cases hn : n < 0
  · simp [value?, roundedInt, hm, hnan, hneg, hn]
  · simp [value?, roundedInt, hm, hnan, hneg, hn]

/-- Rounding keeps integers in their order. -/
theorem roundedInt_mono {m n : Int} (h : m ≤ n) : roundedInt m ≤ roundedInt n := by
  unfold roundedInt
  split
  · split
    · have hmag := roundedMagnitude_mono (by omega : n.natAbs ≤ m.natAbs)
      omega
    · omega
  · have hn : ¬ n < 0 := by omega
    have hmag := roundedMagnitude_mono (by omega : m.natAbs ≤ n.natAbs)
    rw [if_neg hn]
    omega

/-- Integers up to `2 ^ 53` are not rounded. -/
theorem roundedInt_of_le {n : Int} (h : n.natAbs ≤ Nat.pow 2 53) :
    roundedInt n = n * (Nat.pow 2 1074 : Nat) := by
  have hmag : roundedMagnitude n.natAbs = n.natAbs * Nat.pow 2 1074 := by
    apply nearestMagnitude_of_short
    apply short_of_le h
  unfold roundedInt
  rw [hmag, Int.natCast_mul]
  split
  · have habs : -(n.natAbs : Int) = n := by omega
    rw [← Int.neg_mul, habs]
  · have habs : (n.natAbs : Int) = n := by omega
    rw [habs]

/-- Rounding makes no two integers up to `2 ^ 53` one. -/
theorem roundedInt_injOn {m n : Int} (hm : m.natAbs ≤ Nat.pow 2 53) (hn : n.natAbs ≤ Nat.pow 2 53)
    (h : roundedInt m = roundedInt n) : m = n := by
  rw [roundedInt_of_le hm, roundedInt_of_le hn] at h
  refine Int.eq_of_mul_eq_mul_right ?_ h
  generalize 1074 = k
  exact Int.ne_of_gt (Int.natCast_pos.mpr (Nat.two_pow_pos k))

end Encoding

end Binary64

end DocWalk
