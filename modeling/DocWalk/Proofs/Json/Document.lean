import DocWalk.Json.Reader
import DocWalk.Json.Writer

/-!
# Reading what was written

The text of a document is read back as that document, whatever its strings and
numbers are. The reader is followed piece by piece: strings by characters,
numbers by their parts, and documents by their shape.

## Implementation notes

Every statement has a text `rest` behind the piece that is read, and says that
exactly this text is left. Only a number needs to know something about it: that
it does not go on with the number.
-/

namespace DocWalk.Json

section Strings

/-- The code of a control character is read from its two hexadecimal digits. -/
theorem hexCode?_hexDigit :
    ∀ n < 32, hexCode? '0' '0' (hexDigit (n / 16)) (hexDigit (n % 16)) = some n := by
  decide

/-- A character is written as a short escape, by its code, or as itself. -/
theorem escapeChar_cases (c : Char) :
    (∃ e, escapeChar c = ['\\', e] ∧ e ≠ 'u' ∧ shortEscape? e = some c) ∨
      (c.toNat < 32 ∧ escapeChar c =
        ['\\', 'u', '0', '0', hexDigit (c.toNat / 16), hexDigit (c.toNat % 16)]) ∨
      (escapeChar c = [c] ∧ 32 ≤ c.toNat ∧ c ≠ '"' ∧ c ≠ '\\') := by
  have hc : ∀ n, c.toNat = n → c = Char.ofNat n := by
    rintro n rfl
    exact (Char.ofNat_toNat c).symm
  unfold escapeChar
  split
  · next h => exact Or.inl ⟨_, rfl, by decide, by rw [h]; rfl⟩
  split
  · next h => exact Or.inl ⟨_, rfl, by decide, by rw [h]; rfl⟩
  split
  · next h => exact Or.inl ⟨_, rfl, by decide, by rw [h]; rfl⟩
  split
  · next h => exact Or.inl ⟨_, rfl, by decide, by rw [h]; rfl⟩
  split
  · next h => exact Or.inl ⟨_, rfl, by decide, by rw [h]; rfl⟩
  split
  · next h => exact Or.inl ⟨_, rfl, by decide, by rw [hc _ h]; rfl⟩
  split
  · next h => exact Or.inl ⟨_, rfl, by decide, by rw [hc _ h]; rfl⟩
  split
  · next h => exact Or.inr (Or.inl ⟨h, rfl⟩)
  · next hq hb _ _ _ _ _ h => exact Or.inr (Or.inr ⟨rfl, Nat.le_of_not_lt h, hq, hb⟩)

theorem readUnits_escapeChar (c : Char) (rest : List Char) :
    readUnits (escapeChar c ++ rest) =
      (readUnits rest).map fun p => (.char c :: p.1, p.2) := by
  rcases escapeChar_cases c with ⟨e, hc, hu, he⟩ | ⟨hlt, hc⟩ | ⟨hc, hle, hq, hb⟩
  · cases hrest : readUnits rest <;> simp [hc, readUnits, hu, he, hrest]
  · have hcode := hexCode?_hexDigit c.toNat hlt
    have hunit : TextUnit.ofCode c.toNat = .char c := by
      have h : ¬ 0xD800 ≤ c.toNat := by omega
      simp [TextUnit.ofCode, h]
    cases hrest : readUnits rest <;> simp [hc, readUnits, hcode, hunit, hrest]
  · have hlt : ¬ c.toNat < 32 := by omega
    cases hrest : readUnits rest <;> simp [hc, readUnits, hlt, hb, hrest]

theorem readUnits_flatMap (cs rest : List Char) :
    readUnits (cs.flatMap escapeChar ++ '"' :: rest) = some (cs.map .char, rest) := by
  induction cs with
  | nil => rfl
  | cons c cs ih =>
      rw [List.flatMap_cons, List.append_assoc, readUnits_escapeChar, ih]
      rfl

theorem joinUnits?_map_char (cs : List Char) : joinUnits? (cs.map .char) = some cs := by
  induction cs with
  | nil => rfl
  | cons c cs ih => simp [joinUnits?, ih]

/-- A written string is its opening quote and a text from which the string is read. -/
theorem exists_readString (k : Option String) (rest : List Char) :
    ∃ cs, stringChars k ++ rest = '"' :: cs ∧ readString cs = some (k, rest) := by
  cases k with
  | none => exact ⟨_, rfl, rfl⟩
  | some s =>
      refine ⟨s.toList.flatMap escapeChar ++ '"' :: rest, by simp [stringChars], ?_⟩
      simp [readString, readUnits_flatMap, joinUnits?_map_char]

end Strings

section Numbers

/-- Text in front of which a run of digits ends. -/
def NoDigit (rest : List Char) : Prop :=
  ∀ c ∈ rest.head?, c.isDigit = false

/-- Text in front of which a number ends. -/
def EndsNumber (rest : List Char) : Prop :=
  ∀ c ∈ rest.head?, c.isDigit = false ∧ c ≠ '.' ∧ c ≠ 'e' ∧ c ≠ 'E'

theorem EndsNumber.noDigit {rest : List Char} (h : EndsNumber rest) : NoDigit rest :=
  fun c hc => (h c hc).1

theorem readDigits_append {ds rest : List Char} (hd : ∀ c ∈ ds, c.isDigit = true) (hne : ds ≠ [])
    (hr : NoDigit rest) : readDigits (ds ++ rest) = some (ds, rest) := by
  have htake : rest.takeWhile Char.isDigit = [] := by
    cases rest with
    | nil => rfl
    | cons c rest => simp [hr c rfl]
  have hdrop : rest.dropWhile Char.isDigit = rest := by
    cases rest with
    | nil => rfl
    | cons c rest => simp [hr c rfl]
  rw [readDigits, List.takeWhile_append_of_pos hd, List.dropWhile_append_of_pos hd, htake, hdrop,
    List.append_nil]
  cases ds with
  | nil => exact absurd rfl hne
  | cons d ds => rfl

theorem isDigit_of_mem_digits {n : Nat} {c : Char} (h : c ∈ Numeral.digits n) :
    c.isDigit = true :=
  Nat.isDigit_of_mem_toDigits (by decide) (by decide) h

theorem readDigits_digits (n : Nat) {rest : List Char} (hr : NoDigit rest) :
    readDigits (Numeral.digits n ++ rest) = some (Numeral.digits n, rest) :=
  readDigits_append (fun _ => isDigit_of_mem_digits) Nat.toDigits_ne_nil hr

/-- Only the digits of zero begin with a zero. -/
theorem head?_digits_ne_zero {n : Nat} (h : 0 < n) : (Numeral.digits n).head? ≠ some '0' := by
  induction n using Nat.strongRecOn with
  | ind n ih =>
      unfold Numeral.digits
      by_cases hn : n < 10
      · rw [Nat.toDigits_of_lt_base hn]
        simpa using Nat.ne_of_gt h
      · have hpos : 0 < n / 10 := by omega
        obtain ⟨d, ds, hds⟩ : ∃ d ds, Nat.toDigits 10 (n / 10) = d :: ds :=
          List.exists_cons_of_ne_nil Nat.toDigits_ne_nil
        have hd := ih (n / 10) (by omega) hpos
        rw [Numeral.digits, hds] at hd
        rw [Nat.toDigits_of_base_le (by decide) (by omega), hds]
        exact hd

theorem readWhole_digits (n : Nat) {rest : List Char} (hr : NoDigit rest) :
    readWhole (Numeral.digits n ++ rest) = some (n, rest) := by
  have hv : Nat.ofDigitChars 10 (Numeral.digits n) 0 = n := Nat.ofDigitChars_ten_toDigits
  have hz : ∀ c cs, Numeral.digits n ≠ '0' :: c :: cs := by
    intro c cs h
    rcases Nat.eq_zero_or_pos n with rfl | hpos
    · simp [Numeral.digits] at h
    · exact head?_digits_ne_zero hpos (by rw [h]; rfl)
  simp only [readWhole, readDigits_digits n hr, Option.bind_eq_bind, Option.bind_some]
  rw [hv]
  rfl

/-- The point of a fraction and its digits; nothing when it has none. -/
def fractionChars (ds : List (Fin 10)) : List Char :=
  if ds.isEmpty then [] else '.' :: ds.map fun d => Nat.digitChar d.val

theorem chars_eq_parts (n : Numeral) :
    n.chars = Numeral.sign n.negative ++ (Numeral.digits n.whole ++ (fractionChars n.fraction ++
      n.exponent.elim [] Numeral.exponentChars)) := by
  unfold Numeral.chars fractionChars
  cases n.exponent <;> simp

theorem readFraction_fractionChars (ds : List (Fin 10)) {rest : List Char} (hr : NoDigit rest)
    (hp : rest.head? ≠ some '.') :
    readFraction (fractionChars ds ++ rest) = some (ds, rest) := by
  have hdigit : ∀ c ∈ ds.map fun d => Nat.digitChar d.val, c.isDigit = true := by
    simp [Nat.isDigit_digitChar]
  have hvalue : ∀ d : Fin 10, Numeral.lastDigit ((Nat.digitChar d.val).toNat - 48) = d := by
    decide
  cases ds with
  | nil =>
      cases rest with
      | nil => rfl
      | cons c rest =>
          have hc : c ≠ '.' := by simpa using hp
          simp [fractionChars, readFraction, hc]
  | cons d ds =>
      have hread := readDigits_append hdigit (by simp) hr
      simp only [fractionChars, List.isEmpty_cons, Bool.false_eq_true, if_false, List.cons_append,
        readFraction, hread]
      simp [hvalue, Function.comp_def]

theorem readExponent_exponentChars (e : Int) {rest : List Char} (hr : NoDigit rest) :
    readExponent (Numeral.exponentChars e ++ rest) = some (some e, rest) := by
  have hv : Nat.ofDigitChars 10 (Numeral.digits e.natAbs) 0 = e.natAbs :=
    Nat.ofDigitChars_ten_toDigits
  by_cases he : e < 0
  · have habs : -(e.natAbs : Int) = e := by omega
    have hvalue : readExponentValue ('-' :: (Numeral.digits e.natAbs ++ rest)) =
        some (e, rest) := by
      simp only [readExponentValue, readDigits_digits _ hr, Option.map_some, hv, habs]
    simp [Numeral.exponentChars, readExponent, he, hvalue]
  · have habs : (e.natAbs : Int) = e := by omega
    have hvalue : readExponentValue ('+' :: (Numeral.digits e.natAbs ++ rest)) =
        some (e, rest) := by
      simp only [readExponentValue, readDigits_digits _ hr, Option.map_some, hv, habs]
    simp [Numeral.exponentChars, readExponent, he, hvalue]

theorem readExponent_elim (e : Option Int) {rest : List Char} (hr : EndsNumber rest) :
    readExponent (e.elim [] Numeral.exponentChars ++ rest) = some (e, rest) := by
  cases e with
  | none =>
      cases rest with
      | nil => rfl
      | cons c rest =>
          obtain ⟨-, -, he, hE⟩ := hr c rfl
          simp [readExponent, he, hE]
  | some e => exact readExponent_exponentChars e hr.noDigit

theorem readUnsigned_parts (n : Numeral) {rest : List Char} (hr : EndsNumber rest) :
    readUnsigned n.negative (Numeral.digits n.whole ++ (fractionChars n.fraction ++
      (n.exponent.elim [] Numeral.exponentChars ++ rest))) = some (n, rest) := by
  -- each part begins with a character that cannot belong to the part before it
  have hexponent : ∀ c ∈ (n.exponent.elim [] Numeral.exponentChars ++ rest).head?,
      c.isDigit = false ∧ c ≠ '.' := by
    cases n.exponent with
    | none => exact fun c hc => ⟨(hr c hc).1, (hr c hc).2.1⟩
    | some e => simp [Numeral.exponentChars]
  have hfraction : NoDigit (fractionChars n.fraction ++
      (n.exponent.elim [] Numeral.exponentChars ++ rest)) := by
    cases n.fraction with
    | nil => exact fun c hc => (hexponent c hc).1
    | cons d ds => simp [NoDigit, fractionChars]
  have hread := readFraction_fractionChars n.fraction (fun c hc => (hexponent c hc).1)
    (fun hp => (hexponent _ hp).2 rfl)
  simp only [readUnsigned, readWhole_digits _ hfraction, Option.bind_eq_bind, Option.bind_some,
    hread, readExponent_elim _ hr]
  rfl

theorem exists_digits_eq_cons (n : Nat) :
    ∃ d ds, Numeral.digits n = d :: ds ∧ d.isDigit = true := by
  obtain ⟨d, ds, h⟩ : ∃ d ds, Numeral.digits n = d :: ds :=
    List.exists_cons_of_ne_nil Nat.toDigits_ne_nil
  exact ⟨d, ds, h, isDigit_of_mem_digits (h ▸ List.mem_cons_self)⟩

/-- A number begins with its sign or with a digit. -/
theorem exists_chars_eq_cons_of_number (n : Numeral) :
    ∃ c cs, n.chars = c :: cs ∧ (c = '-' ∨ c.isDigit = true) := by
  obtain ⟨d, ds, hds, hd⟩ := exists_digits_eq_cons n.whole
  rw [chars_eq_parts, hds]
  cases n.negative with
  | true => exact ⟨_, _, rfl, Or.inl rfl⟩
  | false => exact ⟨_, _, rfl, Or.inr hd⟩

theorem readNumeral_chars (n : Numeral) {rest : List Char} (hr : EndsNumber rest) :
    readNumeral (n.chars ++ rest) = some (n, rest) := by
  have hread := readUnsigned_parts n hr
  rw [chars_eq_parts]
  cases hn : n.negative with
  | true => simpa [readNumeral, Numeral.sign, hn] using hread
  | false =>
      obtain ⟨d, ds, hds, hd⟩ := exists_digits_eq_cons n.whole
      have hsign : d ≠ '-' := by
        rintro rfl
        exact absurd hd (by decide)
      rw [hn, hds] at hread
      simpa [readNumeral, Numeral.sign, hds, hsign] using hread

end Numbers

section Documents

/-- A character that begins a document: it is no blank and closes nothing. -/
def opensValue (c : Char) : Bool :=
  c.isDigit || ['-', 'n', 't', 'f', '"', '[', '{'].contains c

theorem exists_stringChars_eq_cons (k : Option String) : ∃ cs, stringChars k = '"' :: cs := by
  cases k <;> exact ⟨_, rfl⟩

theorem exists_chars_eq_cons (j : Json) : ∃ c cs, j.chars = c :: cs ∧ opensValue c = true := by
  cases j with
  | null => exact ⟨_, _, rfl, rfl⟩
  | bool b => cases b <;> exact ⟨_, _, rfl, rfl⟩
  | number n =>
      obtain ⟨c, cs, h, hc⟩ := exists_chars_eq_cons_of_number n
      exact ⟨c, cs, h, by rcases hc with rfl | hc <;> simp_all [opensValue]⟩
  | text s =>
      obtain ⟨cs, h⟩ := exists_stringChars_eq_cons s
      exact ⟨_, cs, h, rfl⟩
  | array items => exact ⟨_, _, rfl, rfl⟩
  | object members => exact ⟨_, _, rfl, rfl⟩

theorem isBlank_eq_false {c : Char} (h : opensValue c = true) : isBlank c = false := by
  cases hb : isBlank c with
  | false => rfl
  | true =>
      simp only [isBlank, Bool.or_eq_true, beq_iff_eq] at hb
      rcases hb with ((rfl | rfl) | rfl) | rfl <;> exact absurd h (by decide)

theorem skipBlank_chars (j : Json) (rest : List Char) :
    skipBlank (j.chars ++ rest) = j.chars ++ rest := by
  obtain ⟨c, cs, h, hc⟩ := exists_chars_eq_cons j
  simp [h, skipBlank, isBlank_eq_false hc]

theorem readValue_number (n : Numeral) (fuel : Nat) {rest : List Char} (hr : EndsNumber rest) :
    readValue (fuel + 1) (n.chars ++ rest) = some (number n, rest) := by
  have hread := readNumeral_chars n hr
  have hskip : skipBlank (n.chars ++ rest) = n.chars ++ rest := skipBlank_chars (number n) rest
  obtain ⟨c, cs, h, hc⟩ := exists_chars_eq_cons_of_number n
  have hne : c ≠ 'n' ∧ c ≠ 't' ∧ c ≠ 'f' ∧ c ≠ '"' ∧ c ≠ '[' ∧ c ≠ '{' := by
    refine ⟨?_, ?_, ?_, ?_, ?_, ?_⟩ <;> rintro rfl <;> exact absurd hc (by decide)
  rw [readValue, hskip]
  simp only [h, List.cons_append] at hread ⊢
  simp [hread, hne]

theorem readValue_text (s : Option String) (fuel : Nat) (rest : List Char) :
    readValue (fuel + 1) (stringChars s ++ rest) = some (text s, rest) := by
  obtain ⟨cs, hcs, hread⟩ := exists_readString s rest
  simp [hcs, readValue, skipBlank, isBlank, hread]

-- one call of a reader at a time, given what the calls inside it return

theorem readValue_array {fuel : Nat} {j : Json} {js : List Json} {rest : List Char}
    (h : readItems fuel (itemChars (j :: js) ++ rest) = some (j :: js, rest)) :
    readValue (fuel + 1) ('[' :: (itemChars (j :: js) ++ rest)) = some (array (j :: js), rest) := by
  obtain ⟨c, cs, hcs, hc⟩ := exists_chars_eq_cons j
  have hne : c ≠ ']' := by
    rintro rfl
    exact absurd hc (by decide)
  have hblank := isBlank_eq_false hc
  simp only [itemChars, hcs, List.cons_append] at h ⊢
  simpa [readValue, skipBlank, isBlank.eq_def '[', hblank, hne] using h

theorem readItems_last {fuel : Nat} {j : Json} {rest : List Char}
    (h : readValue fuel (j.chars ++ ']' :: rest) = some (j, ']' :: rest)) :
    readItems (fuel + 1) (j.chars ++ ']' :: rest) = some ([j], rest) := by
  simp [readItems, h, skipBlank, isBlank]

theorem readItems_further {fuel : Nat} {j : Json} {js : List Json} {cs rest : List Char}
    (hv : readValue fuel (j.chars ++ ',' :: cs) = some (j, ',' :: cs))
    (hs : readItems fuel cs = some (js, rest)) :
    readItems (fuel + 1) (j.chars ++ ',' :: cs) = some (j :: js, rest) := by
  simp [readItems, hv, hs, skipBlank, isBlank]

theorem readValue_object {fuel : Nat} {k : Option String} {j : Json}
    {ms : List (Option String × Json)} {rest : List Char}
    (h : readMembers fuel (memberChars ((k, j) :: ms) ++ rest) = some ((k, j) :: ms, rest)) :
    readValue (fuel + 1) ('{' :: (memberChars ((k, j) :: ms) ++ rest)) =
      some (object ((k, j) :: ms), rest) := by
  obtain ⟨cs, hcs⟩ := exists_stringChars_eq_cons k
  simp only [memberChars, hcs, List.cons_append] at h ⊢
  simpa [readValue, skipBlank, isBlank] using h

theorem readMembers_last {fuel : Nat} {k : Option String} {j : Json} {rest : List Char}
    (h : readValue fuel (j.chars ++ '}' :: rest) = some (j, '}' :: rest)) :
    readMembers (fuel + 1) (stringChars k ++ ':' :: (j.chars ++ '}' :: rest)) =
      some ([(k, j)], rest) := by
  obtain ⟨cs, hcs, hread⟩ := exists_readString k (':' :: (j.chars ++ '}' :: rest))
  simp [readMembers, hcs, hread, h, skipBlank, isBlank]

theorem readMembers_further {fuel : Nat} {k : Option String} {j : Json}
    {ms : List (Option String × Json)} {cs rest : List Char}
    (hv : readValue fuel (j.chars ++ ',' :: cs) = some (j, ',' :: cs))
    (hs : readMembers fuel cs = some (ms, rest)) :
    readMembers (fuel + 1) (stringChars k ++ ':' :: (j.chars ++ ',' :: cs)) =
      some ((k, j) :: ms, rest) := by
  obtain ⟨cs', hcs, hread⟩ := exists_readString k (':' :: (j.chars ++ ',' :: cs))
  simp [readMembers, hcs, hread, hv, hs, skipBlank, isBlank]

theorem furtherItemChars_cons (j : Json) (js : List Json) :
    furtherItemChars (j :: js) = ',' :: itemChars (j :: js) := by
  simp [furtherItemChars, itemChars]

theorem furtherMemberChars_cons (m : Option String × Json) (ms : List (Option String × Json)) :
    furtherMemberChars (m :: ms) = ',' :: memberChars (m :: ms) := by
  simp [furtherMemberChars, memberChars]

theorem endsNumber_cons {c : Char} (rest : List Char) (h : c = ',' ∨ c = ']' ∨ c = '}') :
    EndsNumber (c :: rest) := by
  rcases h with rfl | rfl | rfl <;> simp [EndsNumber]

-- the induction is on the fuel: a call uses one unit, and a character pays for two calls
mutual

/-- The text of a document is read as that document, and all that follows is left. -/
theorem readValue_chars (fuel : Nat) (j : Json) {rest : List Char}
    (hf : 2 * j.chars.length ≤ fuel) (hr : EndsNumber rest) :
    readValue fuel (j.chars ++ rest) = some (j, rest) := by
  match fuel, j with
  | 0, j =>
      obtain ⟨c, cs, h, -⟩ := exists_chars_eq_cons j
      simp [h] at hf
  | _ + 1, .null => rfl
  | _ + 1, .bool true => rfl
  | _ + 1, .bool false => rfl
  | fuel + 1, .number n => exact readValue_number n fuel hr
  | fuel + 1, .text s => exact readValue_text s fuel rest
  | _ + 1, .array [] => rfl
  | fuel + 1, .array (j :: js) =>
      simp only [chars, List.length_cons] at hf
      exact readValue_array (readItems_itemChars fuel j js (by omega))
  | _ + 1, .object [] => rfl
  | fuel + 1, .object ((k, j) :: ms) =>
      simp only [chars, List.length_cons] at hf
      exact readValue_object (readMembers_memberChars fuel k j ms (by omega))

theorem readItems_itemChars (fuel : Nat) (j : Json) (js : List Json) {rest : List Char}
    (hf : 2 * (itemChars (j :: js)).length < fuel) :
    readItems fuel (itemChars (j :: js) ++ rest) = some (j :: js, rest) := by
  match fuel, js with
  | fuel + 1, [] =>
      simp only [itemChars, furtherItemChars, List.length_append, List.length_cons] at hf
      rw [itemChars, furtherItemChars, List.append_assoc]
      exact readItems_last (readValue_chars fuel j (by omega) (endsNumber_cons _ (by simp)))
  | fuel + 1, j' :: js =>
      rw [itemChars, furtherItemChars_cons] at hf ⊢
      simp only [List.length_append, List.length_cons] at hf
      rw [List.append_assoc]
      exact readItems_further (readValue_chars fuel j (by omega) (endsNumber_cons _ (by simp)))
        (readItems_itemChars fuel j' js (by omega))

theorem readMembers_memberChars (fuel : Nat) (k : Option String) (j : Json)
    (ms : List (Option String × Json)) {rest : List Char}
    (hf : 2 * (memberChars ((k, j) :: ms)).length < fuel) :
    readMembers fuel (memberChars ((k, j) :: ms) ++ rest) = some ((k, j) :: ms, rest) := by
  match fuel, ms with
  | fuel + 1, [] =>
      simp only [memberChars, furtherMemberChars, List.length_append, List.length_cons] at hf
      rw [memberChars, furtherMemberChars, List.append_assoc, List.cons_append, List.append_assoc]
      exact readMembers_last (readValue_chars fuel j (by omega) (endsNumber_cons _ (by simp)))
  | fuel + 1, (k', j') :: ms =>
      rw [memberChars, furtherMemberChars_cons] at hf ⊢
      simp only [List.length_append, List.length_cons] at hf
      rw [List.append_assoc, List.cons_append, List.append_assoc]
      exact readMembers_further (readValue_chars fuel j (by omega) (endsNumber_cons _ (by simp)))
        (readMembers_memberChars fuel k' j' ms (by omega))

end

/-- Every document survives being written and read. -/
theorem parse?_write (j : Json) : parse? j.write = some j := by
  have hread : readValue (2 * j.chars.length + 2) (j.chars ++ []) = some (j, []) :=
    readValue_chars _ j (by omega) (by simp [EndsNumber])
  rw [List.append_nil] at hread
  simp only [parse?, write, String.toList_ofList, hread, Option.bind_eq_bind, Option.bind_some]
  rfl

end Documents

end DocWalk.Json
