import DocWalk.Compiler
import DocWalk.Proofs.Fetch.Text

/-!
# Texts of the parts of a fetch

A plan adds its condition to that of a fetch and changes nothing else in the
text. Only a range has a condition, so a plan with another rule has no text,
and a list of plans has texts when each of them has one.
-/

namespace DocWalk

/-- Of the rules of plans only ranges can be written as a condition. -/
theorem Plan.exists_condition_iff (p : Plan) (name : String) :
    (∃ condition, p.condition name = .ok condition) ↔
      ∃ lower upper bounds, p.rule = .between lower upper bounds := by
  rw [Plan.condition]
  cases p.rule with
  | equal letter => exact iff_of_false nofun nofun
  | oneOf letters => exact iff_of_false nofun nofun
  | between lower upper bounds => exact iff_of_true ⟨_, rfl⟩ ⟨lower, upper, bounds, rfl⟩

namespace Fetch

variable {q : Fetch}

/-- What the text of a fetch has in front of its condition, and the condition, are the same for
the whole fetch and for each part of it. -/
theorem exists_start_of_render {whole : String} (h : q.render .documentDB none = .ok whole) :
    ∃ driving start filter, q.driving? = some driving ∧
      whole = start ++ "\nWHERE (" ++ filter ++ ")" ∧
      ∀ p text, q.render .documentDB (some p) = .ok text ↔
        ∃ condition, p.condition driving = .ok condition ∧
          text = start ++ "\nWHERE ((" ++ filter ++ ") AND " ++ condition ++ ")" := by
  obtain ⟨hs, entries, driving, filter, condition, he, hd, hf, hc, rfl⟩ :=
    (render_documentDB_iff.mp h).imp_right DocumentDB.render_eq_ok_iff.mp
  cases hc
  have hopen : "\nWHERE ((" = "\nWHERE (" ++ "(" := rfl
  refine ⟨driving, _, _, hd, rfl, fun p text => ?_⟩
  simp only [render_documentDB_iff, DocumentDB.render_eq_ok_iff, DocumentDB.narrowed_eq_ok_iff,
    hopen]
  constructor
  · rintro ⟨_, entries', driving', filter', _, he', hd', hf', ⟨condition, hc, rfl⟩, rfl⟩
    cases he.symm.trans he'
    cases hd.symm.trans hd'
    cases hf.symm.trans hf'
    exact ⟨condition, hc, by simp only [String.append_assoc]⟩
  · rintro ⟨condition, hc, rfl⟩
    exact ⟨hs, entries, driving, filter, _, he, hd, hf, ⟨condition, hc, rfl⟩, by
      simp only [String.append_assoc]⟩

/-- A fetch that has a text for a plan has one as a whole. -/
theorem exists_render_none {p : Plan} {text : String}
    (h : q.render .documentDB (some p) = .ok text) :
    ∃ whole, q.render .documentDB none = .ok whole := by
  simp only [render_documentDB_iff, DocumentDB.render_eq_ok_iff] at h ⊢
  obtain ⟨hs, entries, driving, filter, _, he, hd, hf, _⟩ := h
  exact ⟨_, hs, entries, driving, filter, _, he, hd, hf, rfl, rfl⟩

theorem exists_render_some_iff (q : Fetch) (p : Plan) :
    (∃ text, q.render .documentDB (some p) = .ok text) ↔
      (∃ lower upper bounds, p.rule = .between lower upper bounds) ∧
        ∃ whole, q.render .documentDB none = .ok whole := by
  constructor
  · rintro ⟨text, h⟩
    obtain ⟨whole, hw⟩ := exists_render_none h
    obtain ⟨driving, start, filter, _, _, htexts⟩ := exists_start_of_render hw
    obtain ⟨condition, hc, _⟩ := (htexts p text).mp h
    exact ⟨(p.exists_condition_iff driving).mp ⟨condition, hc⟩, whole, hw⟩
  · rintro ⟨hrange, whole, hw⟩
    obtain ⟨driving, start, filter, _, _, htexts⟩ := exists_start_of_render hw
    obtain ⟨condition, hc⟩ := (p.exists_condition_iff driving).mpr hrange
    exact ⟨_, (htexts p _).mpr ⟨condition, hc, rfl⟩⟩

theorem partitionTexts_eq_ok_iff {plans : List Plan} {texts : List String} :
    partitionTexts q plans = .ok texts ↔
      List.Forall₂ (fun p text => q.render .documentDB (some p) = .ok text) plans texts := by
  simp only [partitionTexts, mapM_eq_ok_iff, text, mapError_eq_ok_iff]

/-- The texts of a fetch for plans differ from that of the whole fetch in a condition that is
added at the end. It is told by the plan and by the document that the fetch starts from. -/
structure NarrowedByPlans (q : Fetch) : Prop where
  /-- A plan has a text when it is a range and the whole fetch has a text. -/
  text_iff : ∀ p, (∃ text, q.render .documentDB (some p) = .ok text) ↔
    (∃ lower upper bounds, p.rule = .between lower upper bounds) ∧
      ∃ whole, q.render .documentDB none = .ok whole
  /-- The condition of a plan is added behind that of the fetch. -/
  text_eq : ∀ whole, q.render .documentDB none = .ok whole →
    ∃ driving start filter, q.driving? = some driving ∧
      whole = start ++ "\nWHERE (" ++ filter ++ ")" ∧
      ∀ p text, q.render .documentDB (some p) = .ok text ↔
        ∃ condition, p.condition driving = .ok condition ∧
          text = start ++ "\nWHERE ((" ++ filter ++ ") AND " ++ condition ++ ")"
  /-- A list of plans has texts when each plan has one. -/
  texts_iff : ∀ plans, (∃ texts, partitionTexts q plans = .ok texts) ↔
    ∀ p ∈ plans, ∃ text, q.render .documentDB (some p) = .ok text
  /-- The texts are those of the plans, in the order of the plans. -/
  texts_eq : ∀ plans texts, partitionTexts q plans = .ok texts →
    texts.length = plans.length ∧
      ∀ (i : Nat) (p : Plan) (text : String), plans[i]? = some p → texts[i]? = some text →
        q.render .documentDB (some p) = .ok text

/-- A plan only narrows a fetch, and a list of plans does so plan by plan. -/
theorem narrowedByPlans (q : Fetch) : q.NarrowedByPlans where
  text_iff := q.exists_render_some_iff
  text_eq _ := exists_start_of_render
  texts_iff plans := by
    simp only [partitionTexts, exists_mapM_eq_ok_iff, text, mapError_eq_ok_iff]
  texts_eq plans texts h := by
    obtain ⟨hlength, hget⟩ := List.forall₂_iff_get.mp (partitionTexts_eq_ok_iff.mp h)
    refine ⟨hlength.symm, ?_⟩
    intro i p text hp ht
    obtain ⟨hi, rfl⟩ := List.getElem?_eq_some_iff.mp hp
    obtain ⟨hj, rfl⟩ := List.getElem?_eq_some_iff.mp ht
    exact hget i hi hj

/-- The last letters of the alphabet, by name. -/
def lastLetters : Plan :=
  ⟨"name", .between "m" "" .greaterOrEqual⟩

/-- One letter of the alphabet, which is no range. -/
def oneLetter : Plan :=
  ⟨"name", .equal "m"⟩

/-- A range has a text, and a list with another rule in it has none. -/
theorem narrowedByPlans_oneLetter :
    ∃ q, compile {} [.vertices []] = .ok q ∧
      (∃ texts, partitionTexts q [lastLetters] = .ok texts) ∧
      ¬ ∃ texts, partitionTexts q [lastLetters, oneLetter] = .ok texts := by
  obtain ⟨q, whole, hq, hw⟩ : ∃ q whole, compile {} [.vertices []] = .ok q ∧
      q.render .documentDB none = .ok whole := ⟨_, _, rfl, rfl⟩
  have hplans := narrowedByPlans q
  refine ⟨q, hq, (hplans.texts_iff _).mpr ?_, fun htexts => ?_⟩
  · intro p hp
    rw [List.mem_singleton.mp hp]
    exact (hplans.text_iff _).mpr ⟨⟨_, _, _, rfl⟩, whole, hw⟩
  · have htext := (hplans.texts_iff _).mp htexts oneLetter (by simp)
    obtain ⟨⟨_, _, _, hrule⟩, _⟩ := (hplans.text_iff _).mp htext
    cases hrule

end Fetch

end DocWalk
