import DocWalk.Proofs.Fetch.Reading
import DocWalk.Proofs.Json.Fetch
import DocWalk.Proofs.Traversal.Conditions

/-!
# Shipping the fetch of a traversal

The fetch of a traversal holds no floating-point number that the traversal does
not, so it is received as it was shipped unless its text nests too deep. It can:
alternatives nest to the left, two levels each, and every further condition on a
variable puts three levels around the ones before it. The levels are therefore
bounded by the number of steps and the longest list among them.

## Implementation notes

Both facts are about the filters along a run, and what a step contributes to
them is what `Step.condition_cases` says of its condition. A test without a
list has a condition of up to seven levels all the same. It is never the first
condition of a run in which no step has a list, since a run starts from
vertices, and that makes room for them.
-/

namespace DocWalk

open Json

namespace Step

/-- The length of the longest list that a step has. -/
def widest (steps : List Step) : Nat :=
  (steps.map width).foldr max 0

theorem width_le_widest {s : Step} {steps : List Step} (h : s ∈ steps) :
    s.width ≤ widest steps := by
  induction steps with
  | nil => cases h
  | cons s' steps ih =>
      rcases List.mem_cons.mp h with rfl | h
      · exact Nat.le_max_left _ _
      · exact Nat.le_trans (ih h) (Nat.le_max_right _ _)

end Step

namespace Expr

theorem depth_paren (e : Expr) : (paren e).toJson.depth = e.toJson.depth + 1 := by
  rw [toJson, depth_tagged]

theorem depth_connect (l : Expr) (op : Connective) (r : Expr) :
    (connect l op r).toJson.depth = max l.toJson.depth r.toJson.depth + 2 := by
  simp [toJson, depth_tagged, depth_record, depthItems, ofString, depth]

/-- A conjunction of two conditions, each in parentheses. -/
theorem depth_conjunction (l r : Expr) :
    (connect (paren l) .and (paren r)).toJson.depth = max l.toJson.depth r.toJson.depth + 3 := by
  rw [depth_connect, depth_paren, depth_paren]
  omega

theorem isFloat_conjunction {l r : Expr} (hl : ∀ v ∈ l.literals, v.isFloat = false)
    (hr : ∀ v ∈ r.literals, v.isFloat = false) :
    ∀ v ∈ (connect (paren l) .and (paren r)).literals, v.isFloat = false := by
  simpa [literals, or_imp, forall_and] using ⟨hl, hr⟩

theorem depth_compare (l : Expr) (op : Comparator) (r : Expr) :
    (compare l op r).toJson.depth = max l.toJson.depth r.toJson.depth + 2 := by
  simp [toJson, depth_tagged, depth_record, depthItems, ofString, depth]

/-- The levels of a property of a document. -/
def columnDepth (key : String) : Nat :=
  if key = Column.wholeDocument then 3 else 4

theorem columnDepth_le (key : String) : columnDepth key ≤ 4 := by
  unfold columnDepth
  split <;> decide

theorem depth_property (name key : String) :
    (column (.property name key)).toJson.depth = columnDepth key := by
  unfold columnDepth Column.property
  split <;> rfl

theorem depth_literal_le (v : Value) : (literal v).toJson.depth ≤ 2 := by
  rw [toJson, depth_tagged]
  cases v with
  | float x =>
      rw [Value.toJson, depth_tagged]
      split <;> simp [depth]
  | _ => simp [Value.toJson, depth_tagged, ofString, depth]

theorem depth_comparison (name key : String) (op : Comparator) (v : Value) :
    (compare (column (.property name key)) op (literal v)).toJson.depth = columnDepth key + 2 := by
  have hle : (literal v).toJson.depth ≤ columnDepth key := by
    have hv := depth_literal_le v
    unfold columnDepth
    split <;> omega
  rw [depth_compare, depth_property, Nat.max_eq_left hle]

section Alternatives

variable (name key : String)

theorem depth_foldl_or (vs : List Value) (e : Expr) (h : columnDepth key + 2 ≤ e.toJson.depth) :
    ((vs.map (propertyIs name key)).foldl (fun acc next => connect acc .or next) e).toJson.depth =
      e.toJson.depth + 2 * vs.length := by
  induction vs generalizing e with
  | nil => rfl
  | cons v vs ih =>
      have hor : (connect e .or (propertyIs name key v)).toJson.depth = e.toJson.depth + 2 := by
        rw [depth_connect, propertyIs, depth_comparison, Nat.max_eq_left h]
      rw [List.map_cons, List.foldl_cons, ih _ (by omega), hor, List.length_cons]
      omega

/-- Alternatives nest to the left, so each of them adds a level of its connective and its record. -/
theorem depth_anyOf (v : Value) (vs : List Value) :
    ∀ e ∈ anyOf ((v :: vs).map (propertyIs name key)),
      e.toJson.depth = columnDepth key + 2 + 2 * vs.length := by
  intro e he
  cases he
  have hv : (propertyIs name key v).toJson.depth = columnDepth key + 2 :=
    depth_comparison name key .equal v
  rw [depth_foldl_or name key vs _ (Nat.le_of_eq hv.symm), hv]

theorem literals_foldl_or (vs : List Value) (e : Expr) :
    ((vs.map (propertyIs name key)).foldl (fun acc next => connect acc .or next) e).literals =
      e.literals ++ vs := by
  induction vs generalizing e with
  | nil => simp
  | cons v vs ih =>
      rw [List.map_cons, List.foldl_cons, ih]
      simp [literals, propertyIs]

theorem literals_anyOf (vs : List Value) :
    ∀ e ∈ anyOf (vs.map (propertyIs name key)), e.literals = vs := by
  intro e he
  cases vs with
  | nil => cases he
  | cons v vs =>
      cases he
      exact literals_foldl_or name key vs _

end Alternatives

end Expr

section Filters

theorem Step.isFloat_condition {s : Step} (hs : ∀ v ∈ s.values, v.isFloat = false) {name : String}
    {e : Expr} (h : e ∈ s.condition? name) : ∀ v ∈ e.literals, v.isFloat = false := by
  rcases Step.condition_cases h with ⟨key, vs, he, -, hvs⟩ | ⟨key, op, v, rfl, hv⟩ | ⟨key, rfl⟩ |
    rfl
  · rw [Expr.literals_anyOf name key vs e he]
    intro v hv
    rcases hvs v hv with hv | ⟨text, rfl⟩
    · exact hs v hv
    · rfl
  · simpa [Expr.literals] using hs v hv
  · simp [Expr.literals, Expr.literalsAll]
  · simp [Expr.truth, Expr.literals, Value.isFloat]

/-- The levels of the condition of a step: two for each entry of its list, and seven at most where
it has none. -/
theorem Step.depth_condition_le {s : Step} {name : String} {e : Expr}
    (h : e ∈ s.condition? name) : e.toJson.depth ≤ max 7 (2 * s.width + 4) := by
  rcases Step.condition_cases h with ⟨key, vs, he, hw, -⟩ | ⟨key, op, v, rfl, -⟩ | ⟨key, rfl⟩ | rfl
  · have hkey := Expr.columnDepth_le key
    cases vs with
    | nil => cases he
    | cons v vs =>
        rw [Expr.depth_anyOf name key v vs e he, ← hw, List.length_cons]
        omega
  · have hkey := Expr.columnDepth_le key
    rw [Expr.depth_comparison]
    omega
  · have hkey := Expr.columnDepth_le key
    have hcall : (Expr.call definedFunction [.column (.property name key)]).toJson.depth =
        Expr.columnDepth key + 3 := by
      rw [← Expr.depth_property name key]
      simp [Expr.toJson, Expr.toJsonAll, depth_tagged, depth_record, depthItems, depth, ofString]
    rw [hcall]
    omega
  · exact Nat.le_trans (Expr.depth_literal_le _) (by omega)

variable {steps : List Step} {t : Trail}

/-- A run brings no floating-point number into a filter that its steps do not have. -/
theorem Trail.isFloat_filter (hs : ∀ s ∈ steps, ∀ v ∈ s.values, v.isFloat = false)
    (h : Trail.empty.run steps = .ok t) :
    t.FiltersSatisfy fun _ e => ∀ v ∈ e.literals, v.isFloat = false := by
  refine Trail.filtersSatisfy_after_run
    (P := fun _ _ e => ∀ v ∈ e.literals, v.isFloat = false) ?_
    (fun s hmem name e he => s.isFloat_condition (hs s hmem) he) h
  intro n
  constructor
  · exact fun _ _ he => he
  · exact fun _ _ he => he
  · exact fun _ _ _ hl hr => Expr.isFloat_conjunction hl hr

/-- Every condition after the first puts at most three levels around a filter. -/
theorem Trail.depth_filter_le (h : Trail.empty.run steps = .ok t) :
    t.FiltersSatisfy fun _ e => e.toJson.depth + 3 ≤
      max 7 (2 * Step.widest steps + 4) + 3 * steps.countP Step.isDemanding := by
  have hc : ∀ s ∈ steps, ∀ name, ∀ e ∈ s.condition? name,
      e.toJson.depth ≤ max 7 (2 * Step.widest steps + 4) := by
    intro s hs name e he
    have hwidth := Step.width_le_widest hs
    have hdepth := s.depth_condition_le he
    omega
  generalize max 7 (2 * Step.widest steps + 4) = bare at hc ⊢
  -- a filter that a condition is added to has one behind it already, so the first one is bare
  have hrun := Trail.filtersSatisfy_after_run
    (P := fun n _ e => 0 < n ∧ e.toJson.depth + 3 ≤ bare + 3 * n)
    (C := fun _ e => e.toJson.depth ≤ bare) ?_ hc h
  · exact hrun.mono fun _ _ he => he.2
  · intro n
    constructor
    · intro _ e he
      omega
    · intro _ e he
      omega
    · intro _ l r hl hr
      rw [Expr.depth_conjunction]
      omega

/-- A run without lists starts from all vertices, so its first step has no condition. -/
theorem Trail.countP_isDemanding_lt (h : Trail.empty.run steps = .ok t) (hne : steps ≠ [])
    (hw : Step.widest steps = 0) : steps.countP Step.isDemanding < steps.length := by
  cases steps with
  | nil => exact absurd rfl hne
  | cons s steps =>
      have hhead : s.isDemanding = false := by
        have hwidth : s.width ≤ 0 := hw ▸ Step.width_le_widest List.mem_cons_self
        have hwalk := Trail.walk_of_run h
        rw [Stance.walk_cons] at hwalk
        cases s with
        | vertices ids =>
            cases List.length_eq_zero_iff.mp (Nat.le_zero.mp hwidth)
            rfl
        | _ => cases hwalk
      rw [List.countP_cons_of_neg (by simp [hhead]), List.length_cons]
      exact Nat.lt_succ_of_le List.countP_le_length

/-- The levels of a first condition and of those around it, by the number of all steps. -/
theorem Trail.levels_le (h : Trail.empty.run steps = .ok t) (hne : steps ≠ []) :
    max 7 (2 * Step.widest steps + 4) + 3 * steps.countP Step.isDemanding ≤
      2 * Step.widest steps + 3 * steps.length + 5 := by
  have hle : steps.countP Step.isDemanding ≤ steps.length := List.countP_le_length
  rcases Nat.eq_zero_or_pos (Step.widest steps) with hw | hw
  · have hlt := Trail.countP_isDemanding_lt h hne hw
    omega
  · omega

end Filters

/-- What is read together is joined by one conjunction. -/
theorem Reading.depth_filter?_le {r : Reading} {b : Nat}
    (h : ∀ w ∈ r.members, ∀ e ∈ w.filter, e.toJson.depth + 3 ≤ b) :
    ∀ e ∈ r.filter?, e.toJson.depth ≤ b := by
  have hnone : ∀ c, conjoinBy none c = c := by
    intro c
    cases c <;> rfl
  obtain ⟨vertex, edge⟩ := r
  have hvertex := h vertex List.mem_cons_self
  cases edge with
  | none =>
      intro e he
      change e ∈ conjoinBy none vertex.filter at he
      rw [hnone] at he
      exact Nat.le_of_add_right_le (hvertex e he)
  | some p =>
      have hedge := h p.1 (by simp [Reading.members])
      intro e he
      change e ∈ conjoinBy (conjoinBy none vertex.filter) p.1.filter at he
      rw [hnone] at he
      refine forall_mem_conjoinBy (Q := fun e => e.toJson.depth ≤ b) ?_ ?_ ?_ hvertex hedge e he
      · intro e he
        omega
      · intro e he
        omega
      · intro l r hl hr
        rw [Expr.depth_conjunction]
        omega

namespace Fetch

theorem depth_joins_le (joins : List Join) : (array (joins.map Join.toJson)).depth ≤ 2 :=
  depth_array_le fun _ _ => Nat.le_of_eq (depth_ofStrings _)

/-- The levels of a fetch are those of its filter, or the two of its result. -/
theorem nesting_ofReading (settings : CompilerSettings) (r : Reading) (target : String) :
    nesting (ofReading settings r target).ship =
      max 2 (r.filter?.getD (Expr.truth true)).toJson.depth + 1 := by
  have hselect :
      (array ((ofReading settings r target).select.map Projection.toJson)).depth = 2 := by
    rw [ofReading_eq]
    rfl
  have hjoins := depth_joins_le (ofReading settings r target).joins
  have hfilter : (ofOption Expr.toJson (ofReading settings r target).filter).depth =
      (r.filter?.getD (Expr.truth true)).toJson.depth := by
    rw [filter_ofReading]
    rfl
  rw [ship, nesting_write, depth_toJson]
  omega

end Fetch

section Compiled

variable {settings : CompilerSettings} {steps : List Step} {q : Fetch}

theorem Compiled.isFloat_literals (h : Compiled settings steps q)
    (hs : ∀ s ∈ steps, ∀ v ∈ s.values, v.isFloat = false) :
    ∀ v ∈ q.literals, v.isFloat = false := by
  obtain ⟨t, v, r, ht, hv, hr, rfl⟩ := h.exists_reading
  have hfilter : ∀ e ∈ r.filter?, ∀ v ∈ e.literals, v.isFloat = false := by
    apply Reading.forall_mem_filter?
    · exact fun _ _ hl hr => Expr.isFloat_conjunction hl hr
    · exact fun w hw => Trail.isFloat_filter hs ht w (hr.members_mem hv w hw)
  have hliterals : (Fetch.ofReading settings r v.alias).literals =
      (r.filter?.getD (Expr.truth true)).literals := by
    rw [Fetch.ofReading_eq]
    simp [Fetch.literals, Projection.literals]
  rw [hliterals]
  cases hf : r.filter? with
  | none => simp [Expr.truth, Expr.literals, Value.isFloat]
  | some e => exact hfilter e hf

theorem Compiled.nesting_ship_le (h : Compiled settings steps q) :
    nesting q.ship ≤ 2 * Step.widest steps + 3 * steps.length + 6 := by
  obtain ⟨t, v, r, ht, hv, hr, rfl⟩ := h.exists_reading
  have hne : steps ≠ [] := by
    rintro rfl
    cases ht
    cases hv
  have hfilter := Reading.depth_filter?_le (r := r)
    fun w hw => Trail.depth_filter_le ht w (hr.members_mem hv w hw)
  have hlevels := Trail.levels_le ht hne
  rw [Fetch.nesting_ofReading]
  cases hf : r.filter? with
  | none =>
      have htruth : (Expr.truth true).toJson.depth ≤ 2 := Expr.depth_literal_le _
      rw [Option.getD_none]
      omega
  | some e =>
      have hdepth := hfilter e hf
      rw [Option.getD_some]
      omega

/-- The fetch of a traversal whose values are no floating-point numbers is received as it was
shipped if its text nests at most 127 deep, and is refused if it nests deeper. How deep it nests is
bounded by the number of steps and the longest list that one of them has. -/
theorem compiled_ship_roundTrip (h : Compiled settings steps q)
    (hs : ∀ s ∈ steps, ∀ v ∈ s.values, v.isFloat = false) :
    (nesting q.ship ≤ 127 → Fetch.receive? q.ship = some q) ∧
      (127 < nesting q.ship → Fetch.receive? q.ship = none) ∧
      nesting q.ship ≤ 2 * Step.widest steps + 3 * steps.length + 6 := by
  have hfree := h.isFloat_literals hs
  exact ⟨Fetch.receive?_ship_of_le hfree, Fetch.receive?_ship_of_lt hfree, h.nesting_ship_le⟩

end Compiled

/-- A traversal that compares an edge with values of every other kind. -/
def throughSince : List Step :=
  [.vertices ["1", "2"], .hopToEdge .outgoing ["knows"],
    .has "since" (.within [.int 2020, .null, .text "\"[\x7b\\"]),
    .has "open" (.compare .equal (.bool true))]

theorem compiled_ship_roundTrip_throughSince :
    ∃ q, compile {} throughSince = .ok q ∧
      (∀ s ∈ throughSince, ∀ v ∈ s.values, v.isFloat = false) ∧ Fetch.receive? q.ship = some q := by
  obtain ⟨q, h⟩ : ∃ q, compile {} throughSince = .ok q := ⟨_, rfl⟩
  have hs : ∀ s ∈ throughSince, ∀ v ∈ s.values, v.isFloat = false := by
    simp [throughSince, Step.values, Test.values, Value.isFloat]
  obtain ⟨hreceived, -, hnesting⟩ := compiled_ship_roundTrip (.inl h) hs
  exact ⟨q, h, hs, hreceived (Nat.le_trans hnesting (by decide))⟩

/-- The vertex that a traversal starts from, with its identifiers as its filter. -/
def startVertex (ids : List String) : Variable :=
  ⟨vertexAlias 0, .vertex, [], oneOf (vertexAlias 0) idProperty ids⟩

theorem compile_vertices (settings : CompilerSettings) (id : String) (ids : List String) :
    compile settings [.vertices (id :: ids)] =
      .ok (Fetch.ofReading settings ⟨startVertex (id :: ids), none⟩ (vertexAlias 0)) :=
  rfl

/-- Every identifier after the first adds two levels. -/
theorem nesting_vertices {settings : CompilerSettings} {id : String} {ids : List String} {q : Fetch}
    (h : compile settings [.vertices (id :: ids)] = .ok q) :
    nesting q.ship = 2 * ids.length + 7 := by
  rw [compile_vertices] at h
  cases h
  obtain ⟨e, he⟩ : ∃ e, Expr.anyOf ((.text id :: ids.map .text).map
      (Expr.propertyIs (vertexAlias 0) idProperty)) = some e := ⟨_, rfl⟩
  have hfilter : Reading.filter? ⟨startVertex (id :: ids), none⟩ = some e := by
    rw [← he, ← List.map_cons, ← Step.oneOf_eq]
    rfl
  have hdepth := Expr.depth_anyOf (vertexAlias 0) idProperty (.text id) (ids.map .text) e he
  have hcolumn : Expr.columnDepth idProperty = 4 := rfl
  rw [Fetch.nesting_ofReading, hfilter, Option.getD_some, hdepth, hcolumn, List.length_map]
  omega

/-- Sixty-two identifiers make a fetch that is shipped and not received. -/
theorem compiled_ship_refused_manyIds :
    ∃ q, compile {} [.vertices (List.replicate 62 "1")] = .ok q ∧
      (∀ s ∈ [Step.vertices (List.replicate 62 "1")], ∀ v ∈ s.values, v.isFloat = false) ∧
      Fetch.receive? q.ship = none := by
  obtain ⟨q, h⟩ : ∃ q, compile {} [.vertices (List.replicate 62 "1")] = .ok q := ⟨_, rfl⟩
  have hs : ∀ s ∈ [Step.vertices (List.replicate 62 "1")], ∀ v ∈ s.values, v.isFloat = false := by
    simp [Step.values]
  have hnesting : nesting q.ship = 2 * (List.replicate 61 "1").length + 7 := nesting_vertices h
  refine ⟨q, h, hs, Fetch.receive?_ship_of_lt (Compiled.isFloat_literals (.inl h) hs) ?_⟩
  rw [hnesting, List.length_replicate]
  decide

end DocWalk
