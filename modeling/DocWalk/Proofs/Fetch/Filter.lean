import DocWalk.Proofs.Expr.Truth
import DocWalk.Proofs.Fetch.Reading

/-!
# The filter of a fetch

A condition that a step adds stays on its variable while the traversal moves
on. At the end the fetch applies the filters of the variables it reads, and it
is refused when any other variable has one. The filter of a fetch is therefore
true exactly when every step's demand on its variable is met.
-/

namespace DocWalk

namespace Trail

/-- The alias of the variable that a step is about: the vertex or the edge that it binds, or else
the current one. -/
def subject? (t : Trail) : Step → Option String
  | .vertices _ => some (t.nextAlias .vertex)
  | .hop d _ => some (t.nextAlias (.edge d))
  | .hopToEdge d _ => some (t.nextAlias (.edge d))
  | _ => t.current

/-- The filters of all variables are true. -/
def Holds (σ : Expr → Bool) (t : Trail) : Prop :=
  ∀ v ∈ t.variables, Expr.filterHolds σ v.filter = true

section Steps

variable (σ : Expr → Bool) {t t' : Trail} {s : Step}

theorem holds_empty : empty.Holds σ := by
  intro v hv
  cases hv

@[simp] theorem holds_declare (t : Trail) (k : Kind) : (t.declare k).Holds σ ↔ t.Holds σ := by
  simp [Holds, or_imp, forall_and]

@[simp] theorem holds_standOn (t : Trail) (name : String) :
    (t.standOn name).Holds σ ↔ t.Holds σ := Iff.rfl

@[simp] theorem holds_addLink (t : Trail) (l : Link) : (t.addLink l).Holds σ ↔ t.Holds σ := Iff.rfl

/-- A condition on a bound variable is one more filter that has to be true. -/
theorem holds_restrictAt {name : String} (h : name ∈ t.aliases) (labels : List String)
    (c : Option Expr) :
    (t.restrictAt name labels c).Holds σ ↔ t.Holds σ ∧ Expr.filterHolds σ c = true := by
  constructor
  · intro hall
    have hone : ∀ v ∈ t.variables, v.alias = name →
        Expr.filterHolds σ v.filter = true ∧ Expr.filterHolds σ c = true := by
      intro v hv ha
      have hm := hall _ (List.mem_map_of_mem hv)
      simpa [ha, Variable.restrictBy] using hm
    constructor
    · intro v hv
      by_cases ha : v.alias = name
      · exact (hone v hv ha).1
      · have hm := hall _ (List.mem_map_of_mem hv)
        simpa [ha] using hm
    · obtain ⟨v, hv, ha⟩ := List.mem_map.mp (t.aliases_eq ▸ h)
      exact (hone v hv ha).2
  · rintro ⟨hall, hc⟩ w hw
    obtain ⟨v, hv, rfl⟩ := List.mem_map.mp hw
    by_cases ha : v.alias = name
    · simp [ha, Variable.restrictBy, hall v hv, hc]
    · simpa [ha] using hall v hv

theorem holds_bindHop (t : Trail) (source : String) (d : Direction) (labels : List String) :
    (t.bindHop source d labels).Holds σ ↔
      t.Holds σ ∧
        Expr.filterHolds σ (oneOf (edgeAlias t.edgeCount) labelProperty labels) = true := by
  have hm : edgeAlias t.edgeCount ∈ (t.declare (.edge d)).aliases := by
    simp [aliases]
  simp only [bindHop, holds_addLink, holds_declare, holds_restrictAt σ hm]

/-- One step adds its own demand, on the variable it is about, and nothing else. -/
theorem Takes.holds_iff (h : t.Takes s t') :
    ∃ name, t.subject? s = some name ∧ (t'.Holds σ ↔ t.Holds σ ∧ s.Passes σ name) := by
  cases h with
  | source ids =>
      have hm : vertexAlias t.vertexCount ∈ (t.declare .vertex).aliases := by
        simp [aliases]
      refine ⟨vertexAlias t.vertexCount, rfl, ?_⟩
      rw [holds_standOn, holds_restrictAt σ hm, holds_declare]
      exact and_congr_right' (Step.condition?_holds_iff σ _ (.vertices ids))
  | hop hv hk d labels =>
      refine ⟨edgeAlias t.edgeCount, rfl, ?_⟩
      rw [holds_standOn, holds_bindHop]
      exact and_congr_right' (Step.condition?_holds_iff σ _ (.hop d labels))
  | hopToEdge hv hk d labels =>
      refine ⟨edgeAlias t.edgeCount, rfl, ?_⟩
      rw [holds_standOn, holds_bindHop]
      exact and_congr_right' (Step.condition?_holds_iff σ _ (.hopToEdge d labels))
  | toEnd hv hk hl he hn =>
      refine ⟨_, (mem_of_currentVariable? hv).2, ?_⟩
      simp [Step.Passes]
  | @filter v s hv hs =>
      obtain ⟨hm, hc⟩ := mem_of_currentVariable? hv
      refine ⟨v.alias, ?_, ?_⟩
      · cases s with
        | vertices ids => cases hs
        | hop d labels => cases hs
        | hopToEdge d labels => cases hs
        | _ => exact hc
      · rw [holds_restrictAt σ (mem_aliases hm)]
        exact and_congr_right' (Step.condition?_holds_iff σ v.alias s)

end Steps

end Trail

/-- Every step of a list has its demand met by the variable that it was about. -/
def AllPass (σ : Expr → Bool) (steps : List Step) : Prop :=
  ∀ before s after, steps = before ++ s :: after →
    ∃ t name, trace before = .ok t ∧ t.subject? s = some name ∧ s.Passes σ name

theorem allPass_nil (σ : Expr → Bool) : AllPass σ [] := by
  intro before s after h
  simp at h

theorem allPass_append_singleton (σ : Expr → Bool) (steps : List Step) (s : Step) :
    AllPass σ (steps ++ [s]) ↔ AllPass σ steps ∧
      ∃ t name, trace steps = .ok t ∧ t.subject? s = some name ∧ s.Passes σ name := by
  constructor
  · intro h
    refine ⟨?_, h steps s [] rfl⟩
    rintro before s' after rfl
    exact h before s' (after ++ [s]) (by simp)
  · rintro ⟨hall, hlast⟩ before s' after h
    rcases append_singleton_eq_split h with ⟨rfl, rfl, rfl⟩ | ⟨after', rfl, hs⟩
    · exact hlast
    · exact hall before s' after' hs

namespace Trail

/-- The filters that a run leaves behind are true exactly when every step's demand is met. -/
theorem holds_iff_of_run (σ : Expr → Bool) {steps : List Step} {t : Trail}
    (h : empty.run steps = .ok t) : t.Holds σ ↔ AllPass σ steps := by
  refine run_induction (motive := fun steps t => t.Holds σ ↔ AllPass σ steps) ?_ ?_ h
  · exact iff_of_true (holds_empty σ) (allPass_nil σ)
  · intro steps t s t' hr _ hs ih
    obtain ⟨name, hn, hiff⟩ := hs.holds_iff σ
    rw [hiff, ih, allPass_append_singleton]
    apply and_congr_right'
    constructor
    · intro hp
      exact ⟨t, name, trace_eq_ok_iff.mpr hr, hn, hp⟩
    · rintro ⟨t₁, name', hr', hn', hp⟩
      rw [trace_eq_ok_iff.mpr hr] at hr'
      cases hr'
      rw [hn] at hn'
      cases hn'
      exact hp

/-- Where no filter is left out, the variables that are read carry all there are. -/
theorem holds_iff_of_not_stray (σ : Expr → Bool) {t : Trail} (ht : t.Layout) {r : Reading}
    (hm : ∀ w ∈ r.members, w ∈ t.variables) (hs : stray? t.variables r = none) :
    t.Holds σ ↔ ∀ w ∈ r.members, Expr.filterHolds σ w.filter = true := by
  constructor
  · intro h w hw
    exact h w (hm w hw)
  · intro h w hw
    cases hf : w.filter with
    | none => rfl
    | some e =>
        have hc : r.covers w.alias = true := by
          have hn := List.find?_eq_none.mp hs w hw
          simpa [hf] using hn
        obtain ⟨u, hu, ha⟩ := List.any_eq_true.mp hc
        have he : u = w := ht.eq_of_alias_eq (hm u hu) hw (by simpa using ha)
        rw [← hf, ← he]
        exact h u hu

end Trail

theorem filterHolds_foldl_conjoinBy (σ : Expr → Bool) (filter : Option Expr)
    (vs : List Variable) :
    Expr.filterHolds σ (vs.foldl (fun filter v => conjoinBy filter v.filter) filter) = true ↔
      Expr.filterHolds σ filter = true ∧ ∀ v ∈ vs, Expr.filterHolds σ v.filter = true := by
  induction vs generalizing filter with
  | nil => simp
  | cons v vs ih =>
      simp only [List.foldl_cons, ih, Expr.filterHolds_conjoinBy, Bool.and_eq_true,
        List.forall_mem_cons, and_assoc]

/-- The filter of a fetch is the conjunction of the filters of what is read. -/
theorem Reading.holds_filter?_iff (σ : Expr → Bool) (r : Reading) :
    (r.filter?.getD (Expr.truth true)).holds σ = true ↔
      ∀ w ∈ r.members, Expr.filterHolds σ w.filter = true := by
  have hiff := filterHolds_foldl_conjoinBy σ none r.members
  rw [← Reading.filter?] at hiff
  cases hf : r.filter? with
  | none => simpa [hf] using hiff
  | some e => simpa [hf] using hiff

/-- No filter is lost, weakened or invented: the filter of a fetch is true exactly when every
step's demand is met by the variable that the step was about. -/
theorem compile_filter_holds_iff {settings : CompilerSettings} {steps : List Step} {q : Fetch}
    (h : compile settings steps = .ok q) (σ : Expr → Bool) :
    ∃ e, q.filter = some e ∧ (e.holds σ = true ↔ AllPass σ steps) := by
  obtain ⟨t, v, hr, hv, hq⟩ := compile_eq_ok h
  obtain ⟨r, hreads, hs, rfl⟩ := Trail.fetchWithin_eq_ok hq
  have ht := Trail.empty_wellFormed.run hr
  have hm := hreads.members_mem (Trail.mem_of_currentVariable? hv).1
  refine ⟨_, Fetch.filter_ofReading settings r v.alias, ?_⟩
  rw [r.holds_filter?_iff, ← Trail.holds_iff_of_not_stray σ ht.toLayout hm hs,
    Trail.holds_iff_of_run σ hr]

/-- To the second edge of a vertex, after going back over the first one. -/
def toSecondEdge : List Step :=
  [.vertices [], .hopToEdge .outgoing [], .toEnd .start,
    .has "name" (.compare .equal (.text "x")), .hopToEdge .incoming ["knows", "likes"],
    .has "since" (.within [])]

theorem compile_filter_holds_iff_toSecondEdge :
    ∃ q, compile {} toSecondEdge = .ok q ∧
      ∀ σ, ∃ e, q.filter = some e ∧ (e.holds σ = true ↔ AllPass σ toSecondEdge) := by
  obtain ⟨q, h⟩ : ∃ q, compile {} toSecondEdge = .ok q := ⟨_, rfl⟩
  exact ⟨q, h, compile_filter_holds_iff h⟩

end DocWalk
