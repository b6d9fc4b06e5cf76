import DocWalk.Fetch.Render
import DocWalk.Proofs.Prelude

/-!
# The parts of a query text

A fetch has a text when each of its parts has one. The parts are found here
once, for both dialects, and put together the way the text has them.
-/

namespace DocWalk

theorem demand_eq_ok_iff {α : Type} {e : RenderError} {x : Option α} {a : α} :
    demand e x = .ok a ↔ x = some a := by
  cases x <;> simp [demand]

namespace Fetch

variable {q : Fetch} {plan : Option Plan} {text : String}

theorem render_documentDB_iff :
    q.render .documentDB plan = .ok text ↔
      q.select ≠ [] ∧ DocumentDB.render q plan = .ok text := by
  unfold Fetch.render
  cases q.select <;> simp

/-- Only the whole of a fetch has a text in this dialect, never a part that a plan has chosen. -/
theorem render_jsonServer_iff :
    q.render .jsonServer plan = .ok text ↔
      plan = none ∧ q.select ≠ [] ∧ JsonServer.render q = .ok text := by
  unfold Fetch.render
  cases q.select <;> cases plan <;> simp

/-- Three lines: the projection, the joins and the condition. -/
theorem DocumentDB.render_eq_ok_iff :
    DocumentDB.render q plan = .ok text ↔
      ∃ entries driving filter condition,
        q.select.mapM entry = .ok entries ∧ q.driving? = some driving ∧
        q.filter = some filter ∧
        narrowed plan driving ((adapt q filter).1.inQuery .documentDB) = .ok condition ∧
        text = "SELECT " ++ ", ".intercalate entries ++
          "\nFROM " ++ driving ++ String.join ((adapt q filter).2.map propertyJoin) ++
            String.join (q.joins.map join) ++
          "\nWHERE (" ++ condition ++ ")" := by
  simp only [DocumentDB.render, bind_eq_ok_iff, demand_eq_ok_iff, pure, Except.pure,
    Except.ok.injEq]
  constructor
  · rintro ⟨entries, he, driving, hd, filter, hf, condition, hc, rfl⟩
    exact ⟨entries, driving, filter, condition, he, hd, hf, hc, rfl⟩
  · rintro ⟨entries, driving, filter, condition, he, hd, hf, hc, rfl⟩
    exact ⟨entries, he, driving, hd, filter, hf, condition, hc, rfl⟩

/-- A line for the driving document and one for each join, then the condition and the
projection. -/
theorem JsonServer.render_eq_ok_iff :
    JsonServer.render q = .ok text ↔
      ∃ driving select collection filter,
        q.driving? = some driving ∧ projection driving q.select = .ok select ∧
        q.collection = some collection ∧ q.filter = some filter ∧
        text = "FOR " ++ driving ++ " IN (" ++ Text.inSingle collection ++ ")\n" ++
          String.join (q.joins.map join) ++
          "WHERE " ++ (adapt q filter).inQuery .jsonServer ++ "\n" ++ "SELECT " ++ select := by
  simp only [JsonServer.render, bind_eq_ok_iff, demand_eq_ok_iff, pure, Except.pure,
    Except.ok.injEq]
  constructor
  · rintro ⟨driving, hd, select, hs, collection, hc, filter, hf, rfl⟩
    exact ⟨driving, select, collection, filter, hd, hs, hc, hf, rfl⟩
  · rintro ⟨driving, select, collection, filter, hd, hs, hc, hf, rfl⟩
    exact ⟨driving, hd, select, hs, collection, hc, filter, hf, rfl⟩

/-- A narrowed condition has the condition itself in parentheses, and that of the plan behind
them. -/
theorem DocumentDB.narrowed_eq_ok_iff {p : Plan} {driving filter condition : String} :
    narrowed (some p) driving filter = .ok condition ↔
      ∃ added, p.condition driving = .ok added ∧
        condition = "(" ++ filter ++ ") AND " ++ added := by
  simp only [narrowed, mapError_eq_ok_iff, Plan.narrow, bind_eq_ok_iff, pure, Except.pure,
    Except.ok.injEq]
  constructor
  · rintro ⟨added, h, rfl⟩
    exact ⟨added, h, rfl⟩
  · rintro ⟨added, h, rfl⟩
    exact ⟨added, h, rfl⟩

theorem DocumentDB.length_lt_of_narrowed {p : Plan} {driving filter condition : String}
    (h : narrowed (some p) driving filter = .ok condition) :
    filter.toList.length < condition.toList.length := by
  obtain ⟨added, _, rfl⟩ := narrowed_eq_ok_iff.mp h
  simp only [String.toList_append, List.length_append]
  have hparenthesis : "(".toList.length = 1 := rfl
  omega

/-- The text tells whether a plan was applied, in whichever dialect it is. -/
theorem render_ne_of_narrowed {p : Plan} {d : Dialect}
    (h : q.render .documentDB (some p) = .ok text) : q.render d none ≠ .ok text := by
  intro h'
  obtain ⟨_, entries, driving, filter, condition, he, hd, hf, hc, ht⟩ :=
    (render_documentDB_iff.mp h).imp_right DocumentDB.render_eq_ok_iff.mp
  cases d with
  | documentDB =>
      obtain ⟨_, entries', driving', filter', condition', he', hd', hf', hc', ht'⟩ :=
        (render_documentDB_iff.mp h').imp_right DocumentDB.render_eq_ok_iff.mp
      cases he.symm.trans he'
      cases hd.symm.trans hd'
      cases hf.symm.trans hf'
      cases hc'
      have hlt := DocumentDB.length_lt_of_narrowed hc
      have hl := congrArg (·.toList.length) (ht.symm.trans ht')
      simp only [String.toList_append, List.length_append] at hl
      omega
  | jsonServer =>
      obtain ⟨_, _, hr⟩ := render_jsonServer_iff.mp h'
      obtain ⟨_, _, _, _, _, _, _, _, ht'⟩ := JsonServer.render_eq_ok_iff.mp hr
      have hl := congrArg String.toList (ht.symm.trans ht')
      simp at hl

end Fetch

end DocWalk
