import DocWalk.Dialect
import DocWalk.Proofs.Partition.Alphabet

/-!
# What the condition of a plan reads

The condition of a plan is about the first letter of a property of the
document. The property is written after a dot, whatever its name. An
expression writes it after a dot only where its name allows that, and in
brackets elsewhere, so both read the same property of a document exactly where
the key of the plan is such a name.

## Implementation notes

A condition has its operand in one place or in two. Either way the text around
it is fixed, so the condition determines the operand.
-/

namespace DocWalk

open Plan

/-- The condition of a range on the first letter of what an operand reads, behind a filter. -/
def Bounds.narrowedOn (bounds : Bounds) (filter lower upper operand : String) : String :=
  "(" ++ filter ++ ") AND " ++ " AND ".intercalate ((bounds.comparisons lower upper).map
    (Plan.Comparison.text ("LOWER(LEFT(" ++ operand ++ ", 1))")))

/-- Equal texts have equal beginnings of one length. -/
theorem eq_of_append_eq {x y s t : String} (h : x ++ s = y ++ t) (hlen : x.length = y.length) :
    x = y := by
  have hlist := congrArg String.toList h
  simp only [String.toList_append] at hlist
  rw [← String.length_toList, ← String.length_toList] at hlen
  exact String.toList_injective (List.append_inj_left hlist hlen)

/-- A range has a lower end, an upper end or both. -/
theorem Bounds.comparisons_cases (bounds : Bounds) (lower upper : String) :
    ∃ op op', bounds.comparisons lower upper = [.above lower op] ∨
      bounds.comparisons lower upper = [.below upper op'] ∨
      bounds.comparisons lower upper = [.above lower op, .below upper op'] := by
  cases bounds with
  | includeBoth => exact ⟨_, _, Or.inr (Or.inr rfl)⟩
  | includeLeft => exact ⟨_, _, Or.inr (Or.inr rfl)⟩
  | includeRight => exact ⟨_, _, Or.inr (Or.inr rfl)⟩
  | excludeBoth => exact ⟨_, _, Or.inr (Or.inr rfl)⟩
  | greater => exact ⟨_, .less, Or.inl rfl⟩
  | greaterOrEqual => exact ⟨_, .less, Or.inl rfl⟩
  | less => exact ⟨.less, _, Or.inr (Or.inl rfl)⟩
  | lessOrEqual => exact ⟨.less, _, Or.inr (Or.inl rfl)⟩

/-- The condition of a range determines its operand. -/
theorem Bounds.narrowedOn_injective {bounds : Bounds} {filter lower upper x y : String}
    (h : bounds.narrowedOn filter lower upper x = bounds.narrowedOn filter lower upper y) :
    x = y := by
  -- what stands before the first operand is the same in both, so `h` comes to begin with it
  obtain ⟨op, op', hcs | hcs | hcs⟩ := bounds.comparisons_cases lower upper
  all_goals
    simp only [narrowedOn, hcs, List.map_cons, List.map_nil, String.intercalate_cons_cons,
      String.intercalate_singleton, Comparison.text, Comparison.above, Comparison.below,
      Operand.text, String.append_assoc, String.append_right_inj] at h
    have hlen := congrArg String.length h
    simp only [String.length_append] at hlen
    exact eq_of_append_eq h (by omega)

/-- A range narrows a filter by a condition on a property that is written after a dot. -/
theorem Plan.narrow_between (key name filter lower upper : String) (bounds : Bounds) :
    (⟨key, .between lower upper bounds⟩ : Plan).narrow name filter =
      .ok (bounds.narrowedOn filter lower upper (name ++ "." ++ key)) := by
  rw [narrow, condition_of_comparisons rfl]
  simp only [Bounds.narrowedOn, firstLetter, String.append_assoc]
  rfl

/-- An expression writes a property after a dot exactly where its name allows it. -/
theorem Column.inQuery_member_iff (table name : String) :
    Column.inQuery .documentDB ⟨table, [.member name]⟩ = table ++ "." ++ name ↔
      Text.isName name = true := by
  have htext : Column.inQuery .documentDB ⟨table, [.member name]⟩ =
      table ++ Segment.inQuery .documentDB (.member name) := by
    simp [inQuery]
  rw [htext, String.append_assoc, String.append_right_inj, Segment.inQuery]
  by_cases hn : Text.isName name = true
  · simp [hn]
  · apply iff_of_false ?_ hn
    rw [if_neg hn]
    intro h
    -- the one begins with a bracket and the other with a dot
    have hhead := congrArg (·.toList.head?) h
    simp [Dialect.bracketed] at hhead

/-- A plan for a range compares the first letter of `name.key` and of nothing else, which is the
column that an expression writes for the key exactly where the key can follow a dot. -/
theorem Plan.narrow_reads_column_iff (key name filter lower upper : String) (bounds : Bounds) :
    (∀ operand, (⟨key, .between lower upper bounds⟩ : Plan).narrow name filter =
        .ok (bounds.narrowedOn filter lower upper operand) ↔ operand = name ++ "." ++ key) ∧
      ((⟨key, .between lower upper bounds⟩ : Plan).narrow name filter =
          .ok (bounds.narrowedOn filter lower upper
            (Column.inQuery .documentDB ⟨name, [.member key]⟩)) ↔
        Text.isName key = true) := by
  have hoperand (operand : String) :
      (⟨key, .between lower upper bounds⟩ : Plan).narrow name filter =
        .ok (bounds.narrowedOn filter lower upper operand) ↔ operand = name ++ "." ++ key := by
    rw [narrow_between]
    constructor
    · intro h
      exact (Bounds.narrowedOn_injective (Except.ok.inj h)).symm
    · intro h
      rw [h]
  exact ⟨hoperand, (hoperand _).trans (Column.inQuery_member_iff name key)⟩

/-- The key `first name` can not follow a dot, so a plan on it does not read the column. -/
theorem Plan.narrow_ne_column_of_blank :
    Column.inQuery .documentDB ⟨"N", [.member "first name"]⟩ = "N[\"first name\"]" ∧
      (⟨"first name", .between "a" "m" .includeLeft⟩ : Plan).narrow "N" "true" =
        .ok (Bounds.includeLeft.narrowedOn "true" "a" "m" "N.first name") ∧
      (⟨"first name", .between "a" "m" .includeLeft⟩ : Plan).narrow "N" "true" ≠
        .ok (Bounds.includeLeft.narrowedOn "true" "a" "m" "N[\"first name\"]") := by
  decide +kernel

end DocWalk
