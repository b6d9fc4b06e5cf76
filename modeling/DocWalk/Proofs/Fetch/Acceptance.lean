import DocWalk.Proofs.Fetch.Text

/-!
# Which fetches have a text

The two dialects look at the parts of a fetch in different orders and stop at
the first one they refuse. Which part that is depends on the dialect, whether
there is one hardly does: the second dialect needs a collection besides, and
has no way to write the whole document beside other entries.
-/

namespace DocWalk

/-- An entry of a projection that can be written. The whole document is not made up of
expressions, not even of none, and other entries are made up of literals and columns. -/
structure Projection.Selectable (p : Projection) : Prop where
  wildcard : p.isWildcard = true → p.parts = none
  primary : ∀ e ∈ p.parts.getD [], e.isPrimary = true

namespace Projection

variable {p : Projection}

theorem checkWildcard_eq_ok_iff :
    p.checkWildcard = .ok () ↔ (p.isWildcard = true → p.parts = none) := by
  rw [checkWildcard]
  cases p.isWildcard <;> cases p.parts <;> simp

theorem Selectable.checkWildcard_eq (h : p.Selectable) : p.checkWildcard = .ok () :=
  checkWildcard_eq_ok_iff.mpr h.wildcard

theorem getD_parts_of_hasParts_eq_false (h : p.hasParts = false) : p.parts.getD [] = [] := by
  rw [hasParts] at h
  split at h
  next => cases h
  next hparts =>
    cases hp : p.parts with
    | none => rfl
    | some es =>
        cases es with
        | nil => rfl
        | cons e es => exact absurd hp (hparts e es)

end Projection

section Primary

variable (d : Dialect) (document : String → String)

theorem Expr.exists_inProjection_iff (e : Expr) :
    (∃ s, e.inProjection d document = .ok s) ↔ e.isPrimary = true := by
  cases e with
  | literal v => exact iff_of_true ⟨_, rfl⟩ rfl
  | column c =>
      obtain ⟨table, path⟩ := c
      cases path <;> exact iff_of_true ⟨_, rfl⟩ rfl
  | paren e => exact iff_of_false nofun nofun
  | compare l op r => exact iff_of_false nofun nofun
  | connect l op r => exact iff_of_false nofun nofun
  | call name args => exact iff_of_false nofun nofun

theorem exists_mapM_inProjection_iff (es : List Expr) :
    (∃ parts, es.mapM (Expr.inProjection d document) = .ok parts) ↔
      ∀ e ∈ es, e.isPrimary = true := by
  simp only [exists_mapM_eq_ok_iff, Expr.exists_inProjection_iff]

end Primary

namespace Fetch

theorem DocumentDB.exists_entry_iff {p : Projection} :
    (∃ s, entry p = .ok s) ↔ p.Selectable := by
  constructor
  · rintro ⟨s, hs⟩
    obtain ⟨_, hc, hs⟩ := bind_eq_ok_iff.mp hs
    refine ⟨Projection.checkWildcard_eq_ok_iff.mp hc, ?_⟩
    split at hs
    next hparts => simp [hparts]
    next hparts => simp [hparts]
    next es _ hparts =>
      obtain ⟨parts, hp, _⟩ := bind_eq_ok_iff.mp hs
      rw [hparts]
      exact (exists_mapM_inProjection_iff .documentDB id es).mp ⟨parts, hp⟩
  · intro h
    simp only [entry, h.checkWildcard_eq, bind, Except.bind]
    split
    next => exact ⟨_, rfl⟩
    next => exact ⟨_, rfl⟩
    next es _ hparts =>
      have hprimary := h.primary
      rw [hparts] at hprimary
      obtain ⟨parts, hp⟩ := (exists_mapM_inProjection_iff .documentDB id es).mpr hprimary
      rw [hp]
      -- one part is written as it is, several are concatenated
      cases parts with
      | nil => exact ⟨_, rfl⟩
      | cons part parts => cases parts <;> exact ⟨_, rfl⟩

/-- The whole document is not an entry like the others. -/
theorem JsonServer.exists_entry_iff {p : Projection} :
    (∃ s, entry p = .ok s) ↔ p.Selectable ∧ p.isWildcard = false := by
  constructor
  · rintro ⟨s, hs⟩
    obtain ⟨_, hc, hs⟩ := bind_eq_ok_iff.mp hs
    have hwildcard := Projection.checkWildcard_eq_ok_iff.mp hc
    split at hs
    next hparts =>
      obtain ⟨parts, hp, _⟩ := bind_eq_ok_iff.mp hs
      have hprimary := (exists_mapM_inProjection_iff .jsonServer document _).mp ⟨parts, hp⟩
      refine ⟨⟨hwildcard, hprimary⟩, Bool.eq_false_iff.mpr fun hw => ?_⟩
      rw [Projection.hasParts, hwildcard hw] at hparts
      cases hparts
    next hparts =>
      have hnone := Projection.getD_parts_of_hasParts_eq_false (Bool.eq_false_iff.mpr hparts)
      split at hs
      next => cases hs
      next hw => exact ⟨⟨hwildcard, by simp [hnone]⟩, Bool.eq_false_iff.mpr hw⟩
  · rintro ⟨h, hw⟩
    simp only [entry, h.checkWildcard_eq, hw, bind, Except.bind]
    split
    next =>
      obtain ⟨parts, hp⟩ := (exists_mapM_inProjection_iff .jsonServer document _).mpr h.primary
      rw [hp]
      exact ⟨_, rfl⟩
    next => exact ⟨_, rfl⟩

/-- A single entry may be the whole document. -/
theorem JsonServer.exists_projection_singleton_iff (driving : String) (p : Projection) :
    (∃ s, projection driving [p] = .ok s) ↔ p.Selectable := by
  rw [projection]
  split
  next hw =>
    constructor
    · rintro ⟨s, hs⟩
      obtain ⟨_, hc, _⟩ := bind_eq_ok_iff.mp hs
      have hnone := Projection.checkWildcard_eq_ok_iff.mp hc hw
      exact ⟨fun _ => hnone, by simp [hnone]⟩
    · intro h
      rw [h.checkWildcard_eq]
      exact ⟨_, rfl⟩
  next hw => rw [exists_entry_iff, and_iff_left (Bool.eq_false_iff.mpr hw)]

/-- None of several entries is the whole document. -/
theorem JsonServer.exists_projection_several_iff (driving : String) (p p' : Projection)
    (ps : List Projection) :
    (∃ s, projection driving (p :: p' :: ps) = .ok s) ↔
      ∀ r ∈ p :: p' :: ps, r.Selectable ∧ r.isWildcard = false := by
  simp only [projection, bind_eq_ok_iff, ← exists_entry_iff, ← exists_mapM_eq_ok_iff]
  constructor
  · rintro ⟨_, entries, he, _⟩
    exact ⟨entries, he⟩
  · rintro ⟨entries, he⟩
    exact ⟨_, entries, he, rfl⟩

theorem JsonServer.exists_projection_iff (driving : String) (select : List Projection) :
    (∃ s, projection driving select = .ok s) ↔
      (∀ p ∈ select, p.Selectable) ∧ ∀ p ∈ select, p.isWildcard = true → select = [p] := by
  cases select with
  | nil => exact iff_of_true ⟨_, rfl⟩ (by simp)
  | cons p ps =>
      cases ps with
      | nil =>
          rw [exists_projection_singleton_iff]
          simp
      | cons p' ps =>
          have hseveral : ∀ r, p :: p' :: ps ≠ [r] := by simp
          simp only [exists_projection_several_iff, forall_and, hseveral, imp_false,
            Bool.not_eq_true]

variable {q : Fetch}

theorem exists_text_documentDB_iff :
    (∃ text, q.render .documentDB none = .ok text) ↔
      q.select ≠ [] ∧ (∀ p ∈ q.select, p.Selectable) ∧
        (∃ driving, q.driving? = some driving) ∧ ∃ filter, q.filter = some filter := by
  simp only [render_documentDB_iff, DocumentDB.render_eq_ok_iff,
    ← DocumentDB.exists_entry_iff, ← exists_mapM_eq_ok_iff]
  constructor
  · rintro ⟨_, hs, entries, driving, filter, _, he, hd, hf, _⟩
    exact ⟨hs, ⟨entries, he⟩, ⟨driving, hd⟩, filter, hf⟩
  · rintro ⟨hs, ⟨entries, he⟩, ⟨driving, hd⟩, filter, hf⟩
    exact ⟨_, hs, entries, driving, filter, _, he, hd, hf, rfl, rfl⟩

theorem exists_text_jsonServer_iff :
    (∃ text, q.render .jsonServer none = .ok text) ↔
      q.select ≠ [] ∧ ((∀ p ∈ q.select, p.Selectable) ∧
          ∀ p ∈ q.select, p.isWildcard = true → q.select = [p]) ∧
        (∃ driving, q.driving? = some driving) ∧ (∃ filter, q.filter = some filter) ∧
        ∃ collection, q.collection = some collection := by
  simp only [render_jsonServer_iff, JsonServer.render_eq_ok_iff]
  constructor
  · rintro ⟨_, _, hs, driving, select, collection, filter, hd, hp, hc, hf, _⟩
    exact ⟨hs, (JsonServer.exists_projection_iff driving q.select).mp ⟨select, hp⟩,
      ⟨driving, hd⟩, ⟨filter, hf⟩, collection, hc⟩
  · rintro ⟨hs, hp, ⟨driving, hd⟩, ⟨filter, hf⟩, collection, hc⟩
    obtain ⟨select, hp⟩ := (JsonServer.exists_projection_iff driving q.select).mpr hp
    exact ⟨_, trivial, hs, driving, select, collection, filter, hd, hp, hc, hf, rfl⟩

/-- A fetch has a text in the first dialect when it selects something, nothing it selects is
refused, and it has a document to start from and a filter. It has one in the second dialect when
it has one in the first, names a collection, and selects the whole document alone or not at all. -/
theorem accepted_in_each_dialect_iff (q : Fetch) :
    ((∃ text, q.render .documentDB none = .ok text) ↔
      q.select ≠ [] ∧ (∀ p ∈ q.select, p.Selectable) ∧
        (∃ driving, q.driving? = some driving) ∧ ∃ filter, q.filter = some filter) ∧
    ((∃ text, q.render .jsonServer none = .ok text) ↔
      (∃ text, q.render .documentDB none = .ok text) ∧
        (∃ collection, q.collection = some collection) ∧
        ∀ p ∈ q.select, p.isWildcard = true → q.select = [p]) := by
  refine ⟨exists_text_documentDB_iff, ?_⟩
  rw [exists_text_jsonServer_iff, exists_text_documentDB_iff]
  constructor
  · rintro ⟨hs, ⟨hp, hw⟩, hd, hf, hc⟩
    exact ⟨⟨hs, hp, hd, hf⟩, hc, hw⟩
  · rintro ⟨⟨hs, hp, hd, hf⟩, hc, hw⟩
    exact ⟨hs, ⟨hp, hw⟩, hd, hf, hc⟩

end Fetch

end DocWalk
