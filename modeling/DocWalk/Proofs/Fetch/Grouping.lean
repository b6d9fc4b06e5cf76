import DocWalk.Proofs.Expr.Hoist
import DocWalk.Proofs.Fetch.Reading
import DocWalk.Proofs.Traversal.Conditions

/-!
# Grouped conjunctions

A condition is joined to a filter with parentheses around both, so a
conjunction never stands next to an operator that binds closer. Passes replace
columns and decided comparisons, and neither is in parentheses or is a
conjunction. A filter therefore stays grouped, however conditions and passes
follow one another, and it is only ever ungrouped where it was so at first or
a condition that was joined to it was.

## Implementation notes

What a pass keeps is more than grouping. Whether a conjunction is grouped
depends on whether its sides are parentheses, so both are kept together.
-/

namespace DocWalk

/-- Whether every conjunction of a filter is grouped, where there is a filter. -/
def isGrouped (filter : Option Expr) : Bool :=
  filter.all Expr.conjunctsGrouped

@[simp] theorem isGrouped_none : isGrouped none = true := rfl

@[simp] theorem isGrouped_some (e : Expr) : isGrouped (some e) = e.conjunctsGrouped := rfl

theorem isGrouped_iff {filter : Option Expr} :
    isGrouped filter = true ↔ ∀ e ∈ filter, e.conjunctsGrouped = true := by
  cases filter <;> simp

/-- Both sides come to stand in parentheses, whatever joins them. -/
theorem Expr.conjunctsGrouped_conjoin (filter : Option Expr) (op : Connective) (e : Expr) :
    (conjoin filter op e).conjunctsGrouped = (isGrouped filter && e.conjunctsGrouped) := by
  cases filter with
  | none => rfl
  | some l => cases op <;> rfl

namespace Expr

/-- One of the passes over an expression. -/
inductive Pass where
  | fold
  /-- Read nested properties from join variables, after the given joins. -/
  | hoist (s : Storage) (joins : List PropertyJoin)
  | unfold (s : Storage)
  | bracket (tables : List String)

def Pass.run : Pass → Expr → Expr
  | fold, e => e.fold
  | hoist s joins, e => (e.hoistFrom s joins).1
  | unfold s, e => e.unfold s
  | bracket tables, e => e.bracket tables

/-- Whether an expression is in parentheses, and whether its conjunctions are grouped. -/
def grouping (e : Expr) : Bool × Bool :=
  (e.isParen, e.conjunctsGrouped)

theorem conjunctsGroupedAll_eq_all (es : List Expr) :
    conjunctsGroupedAll es = (es.map grouping).all Prod.snd := by
  induction es with
  | nil => rfl
  | cons e es ih => simp [conjunctsGroupedAll, ih, grouping]

theorem grouping_compositional : Compositional grouping where
  paren h := by
    simp only [grouping, Prod.mk.injEq] at h ⊢
    exact ⟨rfl, h.2⟩
  compare op hl hr := by
    simp only [grouping, Prod.mk.injEq] at hl hr ⊢
    simp only [conjunctsGrouped, hl.2, hr.2]
    exact ⟨rfl, trivial⟩
  connect op hl hr := by
    simp only [grouping, Prod.mk.injEq] at hl hr ⊢
    refine ⟨rfl, ?_⟩
    cases op <;> simp only [conjunctsGrouped, hl.1, hl.2, hr.1, hr.2]
  call name h := by
    simp only [grouping, conjunctsGrouped, conjunctsGroupedAll_eq_all, h]
    rfl

/-- A replacement of columns keeps all grouping. -/
theorem grouping_mapColumns (f : Column → Column) (e : Expr) :
    (e.mapColumns f).grouping = e.grouping :=
  grouping_compositional.mapColumns_eq f (fun _ => rfl) e

/-- Every pass keeps all grouping. -/
theorem Pass.grouping_run (p : Pass) (e : Expr) : (p.run e).grouping = e.grouping := by
  cases p with
  | fold => exact grouping_compositional.fold_eq (fun _ _ _ _ _ => rfl) e
  | hoist s joins =>
      rw [run, hoistFrom_eq (List.prefix_refl _)]
      exact grouping_mapColumns _ e
  | unfold s =>
      rw [run, unfold_eq]
      exact grouping_mapColumns _ e
  | bracket tables =>
      rw [run, bracket_eq]
      exact grouping_mapColumns _ e

theorem Pass.isGrouped_run (p : Pass) (filter : Option Expr) :
    isGrouped (filter.map p.run) = isGrouped filter := by
  cases filter with
  | none => rfl
  | some e => exact congrArg Prod.snd (p.grouping_run e)

end Expr

namespace Fetch

/-- A change of the filter of a fetch: one more condition, or a pass over it. -/
inductive Revision where
  | restrict (op : Connective) (e : Expr)
  | pass (p : Expr.Pass)

/-- The condition that a revision brings. -/
def Revision.condition? : Revision → Option Expr
  | restrict _ e => some e
  | pass _ => none

def revise (q : Fetch) : Revision → Fetch
  | .restrict op e => q.restrict op e
  | .pass p => { q with filter := q.filter.map p.run }

/-- One revision leaves a filter grouped when it was, and the condition that is new is. -/
theorem isGrouped_revise (q : Fetch) (r : Revision) :
    isGrouped (q.revise r).filter = (isGrouped q.filter && isGrouped r.condition?) := by
  cases r with
  | restrict op e => exact Expr.conjunctsGrouped_conjoin q.filter op e
  | pass p => simp [revise, Revision.condition?, p.isGrouped_run]

/-- Revisions leave a filter grouped when it was, and all conditions that are new are. -/
theorem isGrouped_foldl_revise (q : Fetch) (rs : List Revision) :
    isGrouped (rs.foldl revise q).filter =
      (isGrouped q.filter && rs.all (isGrouped ·.condition?)) := by
  induction rs generalizing q with
  | nil => simp
  | cons r rs ih => rw [List.foldl_cons, ih, isGrouped_revise, List.all_cons, Bool.and_assoc]

end Fetch

theorem grouped_conjunctive : Conjunctive fun _ e => e.conjunctsGrouped = true := by
  apply conjunctive_of_atoms
  · intro name key op v
    rfl
  · intro name key
    rfl
  · intro name
    rfl
  · intro name e key v he
    simp [Expr.conjunctsGrouped, Expr.propertyIs, he]
  · intro name l r hl hr
    simp [Expr.conjunctsGrouped, Expr.isParen, hl, hr]

/-- The condition of a step is grouped. -/
theorem Step.isGrouped_condition? (s : Step) (name : String) :
    isGrouped (s.condition? name) = true :=
  isGrouped_iff.mpr (grouped_conjunctive.condition name s)

namespace Trail

/-- A trail all of whose filters are grouped, its own and those of its variables. -/
structure Grouped (t : Trail) : Prop where
  own : isGrouped t.filter = true
  bound : ∀ v ∈ t.variables, isGrouped v.filter = true

/-- A change of a trail: a step, or one more condition on a variable. -/
inductive Change where
  | step (s : Step)
  | restrict (name : String) (op : Connective) (e : Expr)

/-- The condition that a change brings from outside. -/
def Change.condition? : Change → Option Expr
  | step _ => none
  | restrict _ _ e => some e

def change (t : Trail) : Change → Except TraversalError Trail
  | .step s => t.apply s
  | .restrict name op e => t.restrict name op e

/-- A variable after a change was there before it, or comes out of the change. -/
theorem mem_of_updateFirst {name : String} {f : Variable → Variable} {vs vs' : List Variable}
    (h : Variable.updateFirst name f vs = some vs') : ∀ w ∈ vs', w ∈ vs ∨ ∃ v ∈ vs, w = f v := by
  induction vs generalizing vs' with
  | nil => cases h
  | cons v vs ih =>
      rw [Variable.updateFirst] at h
      split at h
      next =>
        cases h
        intro w hw
        rcases List.mem_cons.mp hw with rfl | hw
        · exact Or.inr ⟨v, List.mem_cons_self, rfl⟩
        · exact Or.inl (List.mem_cons_of_mem v hw)
      next =>
        obtain ⟨rest, hrest, rfl⟩ := Option.map_eq_some_iff.mp h
        intro w hw
        rcases List.mem_cons.mp hw with rfl | hw
        · exact Or.inl List.mem_cons_self
        · apply (ih hrest w hw).imp (List.mem_cons_of_mem v)
          rintro ⟨u, hu, rfl⟩
          exact ⟨u, List.mem_cons_of_mem v hu, rfl⟩

namespace Grouped

variable {t t' : Trail} {name : String}

theorem declare (h : t.Grouped) (k : Kind) : (t.declare k).Grouped where
  own := by cases k <;> exact h.own
  bound := by
    intro v hv
    rw [variables_declare] at hv
    rcases List.mem_append.mp hv with hv | hv
    · exact h.bound v hv
    · cases List.mem_singleton.mp hv
      rfl

theorem update (h : t.Grouped) {f : Variable → Variable} (hu : t.update name f = .ok t')
    (hf : ∀ v, isGrouped v.filter = true → isGrouped (f v).filter = true) : t'.Grouped := by
  rw [Trail.update] at hu
  split at hu
  next vs hvs =>
    cases hu
    refine ⟨h.own, ?_⟩
    intro w hw
    rcases mem_of_updateFirst hvs w hw with hw | ⟨v, hv, rfl⟩
    · exact h.bound w hw
    · exact hf v (h.bound v hv)
  next => cases hu

theorem restrict (h : t.Grouped) {op : Connective} {e : Expr} (he : e.conjunctsGrouped = true)
    (hr : t.restrict name op e = .ok t') : t'.Grouped := by
  obtain ⟨t₁, hu, hr⟩ := bind_eq_ok_iff.mp hr
  have hjoin (filter : Option Expr) (hf : isGrouped filter = true) :
      (Expr.conjoin filter op e).conjunctsGrouped = true := by
    rw [Expr.conjunctsGrouped_conjoin, hf, he, Bool.and_true]
  have h₁ : t₁.Grouped := h.update hu fun v hv => hjoin v.filter hv
  cases hr
  exact ⟨hjoin t₁.filter h₁.own, h₁.bound⟩

theorem restrictBy (h : t.Grouped) {c : Option Expr} (hc : isGrouped c = true)
    (hr : t.restrictBy name c = .ok t') : t'.Grouped := by
  cases c with
  | none =>
      cases hr
      exact h
  | some e => exact h.restrict hc hr

theorem restrictLabels (h : t.Grouped) {labels : List String}
    (hr : t.restrictLabels name labels = .ok t') : t'.Grouped := by
  obtain ⟨t₁, hu, hr⟩ := bind_eq_ok_iff.mp hr
  have h₁ : t₁.Grouped := h.update hu fun v hv => hv
  exact h₁.restrictBy ((Step.hasLabel labels).isGrouped_condition? name) hr

theorem moveTo (h : t.Grouped) (hm : t.moveTo name = .ok t') : t'.Grouped := by
  rw [Trail.moveTo] at hm
  split at hm
  next =>
    cases hm
    exact ⟨h.own, h.bound⟩
  next => cases hm

theorem follow (h : t.Grouped) {step : String} {d : Direction} {labels : List String} {l : Link}
    (hf : t.follow step d labels = .ok (t', l)) : t'.Grouped := by
  obtain ⟨source, _, hf⟩ := bind_eq_ok_iff.mp hf
  obtain ⟨t₁, hr, hf⟩ := bind_eq_ok_iff.mp hf
  cases hf
  have h₁ := ((h.declare (.edge d)).restrictLabels hr).declare .vertex
  exact ⟨h₁.own, h₁.bound⟩

/-- One step keeps the filters of a trail grouped. -/
theorem apply (h : t.Grouped) {s : Step} (hs : t.apply s = .ok t') : t'.Grouped := by
  cases s with
  | vertices ids =>
      obtain ⟨t₁, hr, hm⟩ := bind_eq_ok_iff.mp hs
      exact ((h.declare .vertex).restrictBy ((Step.hasId ids).isGrouped_condition? _) hr).moveTo hm
  | hop d labels =>
      obtain ⟨⟨t₁, l⟩, hf, hm⟩ := bind_eq_ok_iff.mp hs
      exact (h.follow hf).moveTo hm
  | hopToEdge d labels =>
      obtain ⟨⟨t₁, l⟩, hf, hm⟩ := bind_eq_ok_iff.mp hs
      exact (h.follow hf).moveTo hm
  | toEnd which =>
      obtain ⟨edge, _, hs⟩ := bind_eq_ok_iff.mp hs
      split at hs
      next => cases hs
      next => cases hs
      next =>
        split at hs
        next => cases hs
        next => exact h.moveTo hs
  | has key test =>
      obtain ⟨v, _, hr⟩ := bind_eq_ok_iff.mp hs
      exact h.restrict ((Step.has key test).isGrouped_condition? v.alias) hr
  | hasLabel labels =>
      obtain ⟨v, _, hr⟩ := bind_eq_ok_iff.mp hs
      exact h.restrictLabels hr
  | hasId ids =>
      obtain ⟨v, _, hr⟩ := bind_eq_ok_iff.mp hs
      exact h.restrictBy ((Step.hasId ids).isGrouped_condition? v.alias) hr

/-- One change keeps the filters of a trail grouped, when the condition it brings is. -/
theorem change (h : t.Grouped) {c : Change} (hc : isGrouped c.condition? = true)
    (hs : t.change c = .ok t') : t'.Grouped := by
  cases c with
  | step s => exact h.apply hs
  | restrict name op e => exact h.restrict hc hs

/-- So do changes that follow one another. -/
theorem foldlM_change (h : t.Grouped) {cs : List Change}
    (hc : ∀ c ∈ cs, isGrouped c.condition? = true) (hs : cs.foldlM Trail.change t = .ok t') :
    t'.Grouped := by
  induction cs generalizing t with
  | nil =>
      cases hs
      exact h
  | cons c cs ih =>
      obtain ⟨hhead, htail⟩ := List.forall_mem_cons.mp hc
      rw [List.foldlM_cons] at hs
      obtain ⟨t₁, h₁, hs⟩ := bind_eq_ok_iff.mp hs
      exact ih (h.change hhead h₁) htail hs

end Grouped

theorem grouped_empty : empty.Grouped where
  own := rfl
  bound := by
    intro v hv
    cases hv

/-- A run is a list of changes that are all steps. -/
theorem grouped_of_run {steps : List Step} {t : Trail} (h : empty.run steps = .ok t) :
    t.Grouped := by
  have hs : (steps.map Change.step).foldlM change empty = .ok t := by
    rw [List.foldlM_map]
    exact h
  apply grouped_empty.foldlM_change ?_ hs
  intro c hc
  obtain ⟨s, _, rfl⟩ := List.mem_map.mp hc
  rfl

end Trail

theorem Compiled.isGrouped_filter {settings : CompilerSettings} {steps : List Step} {q : Fetch}
    (h : Compiled settings steps q) : isGrouped q.filter = true := by
  obtain ⟨t, v, r, ht, hv, hr, rfl⟩ := h.exists_reading
  have hfilters : ∀ w ∈ r.members, ∀ e ∈ w.filter, e.conjunctsGrouped = true := by
    intro w hw
    exact isGrouped_iff.mp ((Trail.grouped_of_run ht).bound w (hr.members_mem hv w hw))
  have hall : ∀ e ∈ r.filter?, e.conjunctsGrouped = true := by
    apply Reading.forall_mem_filter? ?_ hfilters
    intro l r hl hr
    exact grouped_conjunctive.conjoin "" l r hl hr
  rw [Fetch.filter_ofReading, isGrouped_some]
  cases hf : r.filter? with
  | none => rfl
  | some e => exact hall e hf

/-- Conjunctions stay grouped. Conditions and passes leave the filter of a fetch grouped exactly
where it was grouped at first and all the conditions are. Steps and grouped conditions leave all
filters of a trail grouped, so those of every run are, and so are those of the fetches from it. -/
theorem conjuncts_stay_grouped :
    (∀ (q : Fetch) (rs : List Fetch.Revision), isGrouped (rs.foldl Fetch.revise q).filter =
        (isGrouped q.filter && rs.all (isGrouped ·.condition?))) ∧
      (∀ (t t' : Trail) (cs : List Trail.Change), t.Grouped →
        (∀ c ∈ cs, isGrouped c.condition? = true) → cs.foldlM Trail.change t = .ok t' →
        t'.Grouped) ∧
      (∀ steps t, Trail.empty.run steps = .ok t → t.Grouped) ∧
      ∀ settings steps q, Compiled settings steps q → isGrouped q.filter = true := by
  refine ⟨Fetch.isGrouped_foldl_revise, ?_, ?_, ?_⟩
  · intro t t' cs ht hc hs
    exact ht.foldlM_change hc hs
  · intro steps t h
    exact Trail.grouped_of_run h
  · intro settings steps q h
    exact h.isGrouped_filter

/-- To the edges of two vertices, by label and property. -/
def recentEdges : List Step :=
  [.vertices ["1", "2"], .hopToEdge .outgoing ["knows"],
    .has "since" (.compare .greater (.int 2000))]

/-- Alternatives, one of them a conjunction that a pass makes smaller. -/
def namedOrNever : Expr :=
  .connect (.propertyIs "N_0" "name" (.text "a")) .or
    (.connect (.paren (Expr.truth true)) .and
      (.paren (.compare (.literal (.int 1)) .less (.literal (.int 0)))))

/-- Conditions, each with passes after it. -/
def mixedRevisions : List Fetch.Revision :=
  [.restrict .or namedOrNever, .pass .fold, .pass (.hoist ⟨[], []⟩ []), .restrict .and namedOrNever,
    .pass (.unfold ⟨["since"], []⟩), .pass (.bracket ["E_0"])]

/-- A condition on a vertex while standing on an edge, and a step. -/
def mixedChanges : List Trail.Change :=
  [.restrict "N_0" .or namedOrNever, .step (.hasLabel ["person"])]

theorem conjuncts_stay_grouped_recentEdges :
    ∃ q t t', compile {} recentEdges = .ok q ∧ Trail.empty.run recentEdges = .ok t ∧
      mixedChanges.foldlM Trail.change t = .ok t' ∧
      isGrouped (mixedRevisions.foldl Fetch.revise q).filter = true ∧ t'.Grouped := by
  obtain ⟨q, t, t', hq, ht, ht'⟩ : ∃ q t t', compile {} recentEdges = .ok q ∧
      Trail.empty.run recentEdges = .ok t ∧ mixedChanges.foldlM Trail.change t = .ok t' :=
    ⟨_, _, _, rfl, rfl, rfl⟩
  obtain ⟨hrevise, hchange, hrun, hcompiled⟩ := conjuncts_stay_grouped
  refine ⟨q, t, t', hq, ht, ht', ?_, ?_⟩
  · rw [hrevise, hcompiled {} recentEdges q (Or.inl hq)]
    rfl
  · exact hchange t t' mixedChanges (hrun recentEdges t ht) (by decide) ht'

end DocWalk
