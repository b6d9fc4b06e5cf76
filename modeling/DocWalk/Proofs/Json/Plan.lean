import DocWalk.Json.Plan
import DocWalk.Proofs.Json.Decode
import DocWalk.Proofs.Json.Document

/-!
# Plans that are handed to workers

A list of plans is one JSON document, from which every worker reads the same
list. Keys and bounds may hold any characters, and a key may be empty: nothing
is checked when a plan is read.

## Implementation notes

A plan is read back wherever the limit on nesting allows its depth. No plan nests
deeper than three levels, whatever it holds, so a list of plans of any length
stays within the limit.
-/

namespace DocWalk

open Json

theorem Bounds.ofTag?_tag (bounds : Bounds) : ofTag? bounds.tag = some bounds := by
  cases bounds <;> rfl

namespace Rule

theorem ofJson?_oneOf (letters : List String) (limit : Nat) :
    ofJson? (limit + 1) (oneOf letters).toJson = ((ofStrings letters).strings? limit).map oneOf :=
  rfl

theorem ofJson?_between (lower upper : String) (bounds : Bounds) (limit : Nat) :
    ofJson? (limit + 2) (between lower upper bounds).toJson =
      some (between lower upper bounds) := by
  have hrecord : (record [("lower", ofString lower), ("upper", ofString upper),
      ("kind", ofString bounds.tag)]).record? ["lower", "upper", "kind"] (limit + 1) =
      some (limit, [some (ofString lower), some (ofString upper), some (ofString bounds.tag)]) :=
    record?_record _ (by simp) limit
  have hbounds := bounds.ofTag?_tag
  rw [toJson]
  generalize record [("lower", ofString lower), ("upper", ofString upper),
    ("kind", ofString bounds.tag)] = payload at hrecord
  simp [ofJson?, tagged, record, choice?, hrecord, string?, ofString, tag?, hbounds]

theorem depth_toJson_le (r : Rule) : r.toJson.depth ≤ 2 := by
  cases r with
  | equal letter => simp [toJson, depth_tagged, ofString, depth]
  | oneOf letters => simp [toJson, depth_tagged, depth_ofStrings]
  | between lower upper bounds =>
      simp [toJson, depth_tagged, depth_record, depthItems, ofString, depth]

theorem readsBack (r : Rule) : ReadsBack ofJson? toJson r := by
  cases r with
  | equal letter =>
      refine ReadsBack.of_tagged rfl rfl fun limit b => ?_
      simp [toJson, ofJson?, tagged, record, choice?, depth, string?, ofString]
  | oneOf letters =>
      refine ReadsBack.of_tagged rfl rfl fun limit b => ?_
      rw [ofJson?_oneOf]
      exact map_eq_some_iff_of_unique (fun l => strings?_ofStrings letters l limit) oneOf b
  | between lower upper bounds =>
      refine ReadsBack.of_tagged rfl rfl fun limit b => ?_
      cases limit with
      | zero =>
          have hnone : ofJson? 1 (between lower upper bounds).toJson = none := rfl
          simp [hnone, depth_record]
      | succ limit =>
          rw [ofJson?_between]
          simp [depth_record, depthItems, ofString, depth]

end Rule

namespace Plan

theorem depth_toJson_le (p : Plan) : p.toJson.depth ≤ 3 := by
  have hrule := p.rule.depth_toJson_le
  rw [toJson, depth_record, Nat.add_le_add_iff_right]
  simpa [depthItems, ofString, depth] using hrule

theorem readsBack (p : Plan) : ReadsBack ofJson? toJson p := by
  refine ReadsBack.of_record _ rfl rfl fun limit b => ?_
  have hrecord : p.toJson.record? ["key", "method", "compare"] (limit + 1) = some (limit,
      [some (ofString p.key), some (ofString methodName), some p.rule.toJson]) :=
    record?_record _ (by simp) limit
  have hread := bind_eq_some_iff_of_unique (p.rule.readsBack limit)
    (fun rule => some (Plan.mk p.key rule)) b
  simp only [ofJson?, hrecord]
  simpa [string?, ofString, tag?, choice?, depthItems, depth] using hread

/-- The text of a list of plans is a document with one item for each plan, in order, and is read
as the same list. -/
theorem writeAll_roundTrip (plans : List Plan) :
    Json.parse? (writeAll plans) = some (.array (plans.map toJson)) ∧
      readAll? (writeAll plans) = some plans := by
  have hparse : Json.parse? (writeAll plans) = some (.array (plans.map toJson)) :=
    parse?_write (.array (plans.map toJson))
  have hlimit : (array (plans.map toJson)).depth ≤ nestingLimit :=
    Nat.le_trans (depth_array_le fun p _ => p.depth_toJson_le) (by decide)
  refine ⟨hparse, ?_⟩
  rw [readAll?, hparse]
  exact (items?_readsBack (fun p _ => p.readsBack) nestingLimit plans).mpr ⟨hlimit, rfl⟩

end Plan

end DocWalk
