import Mathlib.Data.List.Forall2
import Mathlib.Data.List.Induction
import Mathlib.Data.List.Nodup

/-!
# Results, lists and numerals

Facts that proofs about different parts share: how a chain of computations
succeeds, how a list splits at one of its items, what a lookup by a key finds,
what is left of a list without repetitions, and how a number is read off the
end of a name.
-/

namespace DocWalk

theorem bind_eq_ok_iff {ε α β : Type} {x : Except ε α} {f : α → Except ε β} {b : β} :
    (x >>= f) = .ok b ↔ ∃ a, x = .ok a ∧ f a = .ok b := by
  cases x <;> simp [bind, Except.bind]

theorem mapError_eq_ok_iff {ε ε' α : Type} {x : Except ε α} {f : ε → ε'} {a : α} :
    x.mapError f = .ok a ↔ x = .ok a := by
  cases x <;> simp [Except.mapError]

/-- A list of computations succeeds with the results of all of them, in order. -/
theorem mapM_eq_ok_iff {ε α β : Type} {f : α → Except ε β} {xs : List α} {ys : List β} :
    xs.mapM f = .ok ys ↔ List.Forall₂ (fun x y => f x = .ok y) xs ys := by
  induction xs generalizing ys with
  | nil => simp [pure, Except.pure, eq_comm]
  | cons x xs ih =>
      simp only [List.mapM_cons, bind_eq_ok_iff, ih, List.forall₂_cons_left_iff, pure, Except.pure,
        Except.ok.injEq]
      constructor
      · rintro ⟨y, hy, ys, hys, rfl⟩
        exact ⟨y, ys, hy, hys, rfl⟩
      · rintro ⟨y, ys, hy, hys, rfl⟩
        exact ⟨y, hy, ys, hys, rfl⟩

theorem exists_mapM_eq_ok_iff {ε α β : Type} {f : α → Except ε β} {xs : List α} :
    (∃ ys, xs.mapM f = .ok ys) ↔ ∀ x ∈ xs, ∃ y, f x = .ok y := by
  induction xs with
  | nil => simp [pure, Except.pure]
  | cons x xs ih =>
      rw [List.forall_mem_cons, ← ih]
      simp only [mapM_eq_ok_iff, List.forall₂_cons_left_iff]
      constructor
      · rintro ⟨_, y, ys, hy, hys, _⟩
        exact ⟨⟨y, hy⟩, ys, hys⟩
      · rintro ⟨⟨y, hy⟩, ys, hys⟩
        exact ⟨_, y, ys, hy, hys, rfl⟩

/-- An item of a list with one more at its end is that last one, or stands before it. -/
theorem append_singleton_eq_split {α : Type} {xs before after : List α} {x y : α}
    (h : xs ++ [x] = before ++ y :: after) :
    (after = [] ∧ before = xs ∧ y = x) ∨
      ∃ after', after = after' ++ [x] ∧ xs = before ++ y :: after' := by
  rcases List.eq_nil_or_concat' after with rfl | ⟨after', z, rfl⟩
  · obtain ⟨rfl, hs⟩ := List.append_inj' h rfl
    cases hs
    exact Or.inl ⟨rfl, rfl, rfl⟩
  · have h' : xs ++ [x] = (before ++ y :: after') ++ [z] := by
      simpa using h
    obtain ⟨rfl, hs⟩ := List.append_inj' h' rfl
    cases hs
    exact Or.inr ⟨after', rfl, rfl⟩

/-- Where a key tells the items of a list apart, a lookup by key finds the item itself. -/
theorem find?_of_nodup_map {α : Type} (key : α → String) {xs : List α} {x : α}
    (hn : (xs.map key).Nodup) (h : x ∈ xs) : xs.find? (key · == key x) = some x := by
  induction xs with
  | nil => cases h
  | cons y ys ih =>
      obtain ⟨hy, hn⟩ : key y ∉ ys.map key ∧ (ys.map key).Nodup := by
        simpa only [List.map_cons, List.nodup_cons] using hn
      rcases List.mem_cons.mp h with rfl | h
      · simp
      · have hne : key y ≠ key x := fun he => hy (he ▸ List.mem_map_of_mem h)
        rw [List.find?_cons_of_neg (by simpa using hne), ih hn h]

section FirstOccurrences

variable {α : Type} [BEq α] [LawfulBEq α] {xs : List α} {x : α}

theorem eraseDups_append_of_mem (h : x ∈ xs) : (xs ++ [x]).eraseDups = xs.eraseDups := by
  rw [List.eraseDups_append]
  simp [List.removeAll, h]

theorem eraseDups_append_of_notMem (h : x ∉ xs) :
    (xs ++ [x]).eraseDups = xs.eraseDups ++ [x] := by
  have hrest : [x].removeAll xs = [x] := by
    simp [List.removeAll, h]
  rw [List.eraseDups_append, hrest]
  rfl

theorem nodup_eraseDups (xs : List α) : xs.eraseDups.Nodup := by
  induction xs using List.reverseRecOn with
  | nil => exact List.nodup_nil
  | append_singleton xs x ih =>
      by_cases h : x ∈ xs
      · rwa [eraseDups_append_of_mem h]
      · rw [eraseDups_append_of_notMem h, ← List.concat_eq_append, List.nodup_concat]
        exact ⟨mt List.mem_eraseDups.mp h, ih⟩

end FirstOccurrences

theorem underscore_notMem_repr (n : Nat) : '_' ∉ (Nat.repr n).toList := by
  rw [Nat.toList_repr]
  exact Nat.underscore_not_in_toDigits

/-- What follows the last underscore of a numbered name is its number. -/
theorem numbered_injective {a b : String} {m n : Nat}
    (h : a ++ "_" ++ Nat.repr m = b ++ "_" ++ Nat.repr n) : a = b ∧ m = n := by
  have hl : a.toList ++ '_' :: (Nat.repr m).toList = b.toList ++ '_' :: (Nat.repr n).toList := by
    simpa using congrArg String.toList h
  have hm := underscore_notMem_repr m
  have hn := underscore_notMem_repr n
  -- were the two underscores apart, the later one would stand in a number
  have hsplit : a.toList = b.toList ∧ (Nat.repr m).toList = (Nat.repr n).toList := by
    rcases List.append_eq_append_iff.mp hl with ⟨c, hb, hr⟩ | ⟨c, ha, hr⟩
    · cases c with
      | nil => exact ⟨by simpa using hb.symm, (List.cons.inj hr).2⟩
      | cons x c => exact absurd (by simp [(List.cons.inj hr).2]) hm
    · cases c with
      | nil => exact ⟨by simpa using ha, (List.cons.inj hr).2.symm⟩
      | cons x c => exact absurd (by simp [(List.cons.inj hr).2]) hn
  have hdigits : Nat.toDigits 10 m = Nat.toDigits 10 n := by
    simpa only [Nat.toList_repr] using hsplit.2
  refine ⟨String.toList_injective hsplit.1, ?_⟩
  calc
    m = Nat.ofDigitChars 10 (Nat.toDigits 10 m) 0 := Nat.ofDigitChars_ten_toDigits.symm
    _ = Nat.ofDigitChars 10 (Nat.toDigits 10 n) 0 := by rw [hdigits]
    _ = n := Nat.ofDigitChars_ten_toDigits

theorem numbered_ne (a : String) (n : Nat) : a ++ "_" ++ Nat.repr n ≠ a := by
  intro h
  have hl := congrArg (·.toList.length) h
  simp at hl

end DocWalk
