import DocWalk.Compiler
import DocWalk.Proofs.Traversal.Rules
import Mathlib.Data.List.Induction

/-!
# Which steps a traversal accepts

Whether a step can be taken depends on nothing but the kind of the current
variable, and so does the error where it cannot. A machine whose state is that
kind therefore accepts the same lists of steps as the trail does.

## Implementation notes

The lookups of a trail by alias can fail in ways that the machine does not
have. They do not fail on a well-formed trail, and every trail of a run is
well-formed.
-/

namespace DocWalk

/-- What a traversal stands on. -/
inductive Stance where
  | nowhere
  | vertex
  | edge (direction : Direction)
deriving DecidableEq, Repr

namespace Stance

/-- Where a step leads; none when it cannot be taken. -/
def take : Stance → Step → Option Stance
  | _, .vertices _ => some .vertex
  | .nowhere, _ => none
  | .vertex, .hop _ _ => some .vertex
  | .vertex, .hopToEdge d _ => some (.edge d)
  | .edge .outgoing, .toEnd _ => some .vertex
  | .edge .incoming, .toEnd _ => some .vertex
  | .edge .both, .toEnd .far => some .vertex
  | p, .has _ _ => some p
  | p, .hasLabel _ => some p
  | p, .hasId _ => some p
  | _, _ => none

/-- Where a list of steps leads; none when one of them cannot be taken. -/
def walk (p : Stance) (steps : List Step) : Option Stance :=
  steps.foldlM take p

/-- Why a step that cannot be taken is refused, the current variable having the given name. -/
def refusal (name : String) : Stance → Step → TraversalError
  | .nowhere, s => .noCurrent s.name
  | .vertex, s => .wrongKind s.name .edge name .vertex
  | .edge _, .toEnd _ => .undirectedHop name
  | .edge d, s => .wrongKind s.name .vertex name (.edge d)

theorem walk_append (p : Stance) (before after : List Step) :
    p.walk (before ++ after) = (p.walk before).bind (·.walk after) := by
  rw [walk, List.foldlM_append]
  rfl

theorem walk_cons (p : Stance) (s : Step) (steps : List Step) :
    p.walk (s :: steps) = (p.take s).bind (·.walk steps) := by
  rw [walk, List.foldlM_cons]
  rfl

/-- Every step leads somewhere. -/
theorem take_ne_nowhere (p : Stance) (s : Step) : p.take s ≠ some .nowhere := by
  unfold take
  split <;> simp_all

/-- An edge leads to the vertex at a known end of its link. -/
theorem take_toEnd {e : EdgeEnd} {d : Direction} {l : Link} {name : String}
    (h : e.vertex? l d = some name) : take (.edge d) (.toEnd e) = some .vertex := by
  cases d with
  | outgoing => rfl
  | incoming => rfl
  | both =>
      cases e with
      | start => cases h
      | finish => cases h
      | far => rfl

/-- Where an edge leads to a vertex, its link has one at that end. -/
theorem exists_vertex? {e : EdgeEnd} {d : Direction} {p : Stance}
    (h : take (.edge d) (.toEnd e) = some p) (l : Link) : ∃ name, e.vertex? l d = some name := by
  cases d with
  | outgoing => cases e <;> exact ⟨_, rfl⟩
  | incoming => cases e <;> exact ⟨_, rfl⟩
  | both =>
      cases e with
      | start => cases h
      | finish => cases h
      | far => exact ⟨_, rfl⟩

/-- An edge that leads nowhere has no known vertex at that end. -/
theorem vertex?_of_take {e : EdgeEnd} {d : Direction} (h : take (.edge d) (.toEnd e) = none)
    (l : Link) : e.vertex? l d = none := by
  cases d with
  | outgoing => cases h
  | incoming => cases h
  | both =>
      cases e with
      | start => rfl
      | finish => rfl
      | far => cases h

end Stance

def Kind.stance : Kind → Stance
  | vertex => .vertex
  | edge d => .edge d

theorem Stance.take_filter {s : Step} (hs : s.isFilter = true) (k : Kind) :
    k.stance.take s = some k.stance := by
  cases s with
  | vertices ids => cases hs
  | hop d labels => cases hs
  | hopToEdge d labels => cases hs
  | toEnd e => cases hs
  | has key test => cases k <;> rfl
  | hasLabel labels => cases k <;> rfl
  | hasId ids => cases k <;> rfl

namespace Trail

/-- What the current variable of a trail is. -/
def stance (t : Trail) : Stance :=
  match t.currentVariable? with
  | none => .nowhere
  | some v => v.kind.stance

section Steps

variable {t t' : Trail} {s : Step}

theorem stance_of_current {v : Variable} (hv : t.currentVariable? = some v) :
    t.stance = v.kind.stance := by
  rw [stance, hv]

theorem stance_of_none (hv : t.currentVariable? = none) : t.stance = .nowhere := by
  rw [stance, hv]

theorem Layout.stance_eq (ht : t.Layout) {name : String} {k : Kind}
    (hc : t.current = some name) (hm : (name, k) ∈ t.outline) : t.stance = k.stance := by
  obtain ⟨v, hv, rfl, rfl⟩ := exists_of_mem_outline hm
  apply stance_of_current
  rw [currentVariable?, hc]
  exact ht.find?_of_mem hv

/-- A rule leads where the machine goes. -/
theorem Takes.stance_eq (ht : t.WellFormed) (h : t.Takes s t') :
    t.stance.take s = some t'.stance := by
  have ht' := h.wellFormed ht
  cases h with
  | source ids =>
      rw [ht'.stance_eq (k := .vertex) rfl (by simp)]
      cases t.stance <;> rfl
  | hop hv hk d labels =>
      rw [ht'.stance_eq (k := .vertex) rfl (by simp [outline_bindHop]), stance_of_current hv, hk]
      rfl
  | hopToEdge hv hk d labels =>
      rw [ht'.stance_eq (k := .edge d) rfl (by simp [outline_bindHop]), stance_of_current hv, hk]
      rfl
  | toEnd hv hk hl he hn =>
      rw [ht'.stance_eq (k := .vertex) rfl (ht.vertex?_mem hl hn), stance_of_current hv, hk]
      exact Stance.take_toEnd hn
  | @filter v s hv hs =>
      obtain ⟨hm, hc⟩ := mem_of_currentVariable? hv
      rw [ht'.stance_eq (k := v.kind) hc (by simpa using mem_outline hm), stance_of_current hv]
      exact Stance.take_filter hs v.kind

/-- Wherever the machine goes there is a rule. -/
theorem exists_takes (ht : t.WellFormed) {p : Stance} (h : t.stance.take s = some p) :
    ∃ t', t.Takes s t' := by
  cases hv : t.currentVariable? with
  | none =>
      rw [stance_of_none hv] at h
      cases s with
      | vertices ids => exact ⟨_, .source ids⟩
      | _ => cases h
  | some v =>
      rw [stance_of_current hv] at h
      cases s with
      | vertices ids => exact ⟨_, .source ids⟩
      | hop d labels =>
          cases hk : v.kind with
          | vertex => exact ⟨_, .hop hv hk d labels⟩
          | edge d => simp [hk, Kind.stance, Stance.take] at h
      | hopToEdge d labels =>
          cases hk : v.kind with
          | vertex => exact ⟨_, .hopToEdge hv hk d labels⟩
          | edge d => simp [hk, Kind.stance, Stance.take] at h
      | toEnd e =>
          cases hk : v.kind with
          | vertex => simp [hk, Kind.stance, Stance.take] at h
          | edge d =>
              obtain ⟨l, hl, he⟩ :=
                ht.exists_link (mem_outline (mem_of_currentVariable? hv).1) (hk ▸ rfl)
              rw [hk] at h
              obtain ⟨name, hn⟩ := Stance.exists_vertex? h l
              exact ⟨_, .toEnd hv hk hl he hn⟩
      | has key test => exact ⟨_, .filter hv rfl⟩
      | hasLabel labels => exact ⟨_, .filter hv rfl⟩
      | hasId ids => exact ⟨_, .filter hv rfl⟩

/-- A step that the machine cannot take fails with the machine's reason. -/
theorem apply_refused (ht : t.WellFormed) (h : t.stance.take s = none) :
    t.apply s = .error (t.stance.refusal (t.current.getD "") s) := by
  cases hv : t.currentVariable? with
  | none =>
      have hr : ∀ step, t.require step = .error (.noCurrent step) := fun step => by
        rw [require, hv]
      rw [stance_of_none hv] at h ⊢
      cases s with
      | vertices ids => cases h
      | hop d labels => simp only [apply, follow, requireVertex, hr]; rfl
      | hopToEdge d labels => simp only [apply, follow, requireVertex, hr]; rfl
      | toEnd e => simp only [apply, requireEdge, hr]; rfl
      | has key test => simp only [apply, hr]; rfl
      | hasLabel labels => simp only [apply, hr]; rfl
      | hasId ids => simp only [apply, hr]; rfl
  | some v =>
      obtain ⟨hm, hc⟩ := mem_of_currentVariable? hv
      have hr := require_of_current hv
      rw [stance_of_current hv] at h ⊢
      cases hk : v.kind with
      | vertex =>
          rw [hk] at h
          cases s with
          | toEnd e =>
              simp only [apply, requireEdge, hr, hc, bind, Except.bind, hk]
              rfl
          | _ => cases h
      | edge d =>
          rw [hk] at h
          cases s with
          | hop d' labels =>
              simp only [apply, follow, requireVertex, hr, hc, bind, Except.bind, hk]
              rfl
          | hopToEdge d' labels =>
              simp only [apply, follow, requireVertex, hr, hc, bind, Except.bind, hk]
              rfl
          | toEnd e =>
              obtain ⟨l, hl, he⟩ := ht.exists_link (mem_outline hm) (hk ▸ rfl)
              have hd := directionOf?_of_current hv hk
              rw [← he] at hd
              simp only [apply, requireEdge_of_current hv hk, bind, Except.bind, ← he,
                ht.linkOf?_of_mem hl, hd, Stance.vertex?_of_take h l, hc]
              rfl
          | vertices ids => cases h
          | has key test => cases h
          | hasLabel labels => cases h
          | hasId ids => cases h

/-- On a well-formed trail the rules are exactly the steps that succeed. -/
theorem apply_eq_ok_iff (ht : t.WellFormed) : t.apply s = .ok t' ↔ t.Takes s t' := by
  constructor
  · intro h
    cases hp : t.stance.take s with
    | none =>
        rw [apply_refused ht hp] at h
        cases h
    | some p =>
        obtain ⟨t₁, h₁⟩ := exists_takes ht hp
        rw [h₁.apply_eq ht] at h
        exact Except.ok.inj h ▸ h₁
  · exact Takes.apply_eq ht

end Steps

section Runs

variable {t : Trail} {steps : List Step}

theorem run_append_singleton (t : Trail) (steps : List Step) (s : Step) :
    t.run (steps ++ [s]) = t.run steps >>= (·.apply s) := by
  simp only [run, List.foldlM_append, List.foldlM_cons, List.foldlM_nil, bind_pure]

/-- The last step of a run that succeeds. -/
theorem exists_of_run_append_singleton {t t' : Trail} {s : Step}
    (h : t.run (steps ++ [s]) = .ok t') : ∃ t₁, t.run steps = .ok t₁ ∧ t₁.apply s = .ok t' := by
  rw [run_append_singleton] at h
  exact bind_eq_ok_iff.mp h

/-- A run keeps a trail well-formed. -/
theorem WellFormed.run {t' : Trail} (ht : t.WellFormed) (h : t.run steps = .ok t') :
    t'.WellFormed := by
  induction steps using List.reverseRecOn generalizing t' with
  | nil =>
      cases h
      exact ht
  | append_singleton steps s ih =>
      obtain ⟨t₁, h₁, hs⟩ := exists_of_run_append_singleton h
      have ht₁ := ih h₁
      exact ((apply_eq_ok_iff ht₁).mp hs).wellFormed ht₁

/-- What holds of the empty trail and is kept by every rule holds at the end of every run. -/
theorem run_induction {motive : List Step → Trail → Prop} (nil : motive [] empty)
    (step : ∀ steps t s t', empty.run steps = .ok t → t.WellFormed → t.Takes s t' →
      motive steps t → motive (steps ++ [s]) t')
    (h : empty.run steps = .ok t) : motive steps t := by
  induction steps using List.reverseRecOn generalizing t with
  | nil =>
      cases h
      exact nil
  | append_singleton steps s ih =>
      obtain ⟨t₁, h₁, hs⟩ := exists_of_run_append_singleton h
      have ht₁ := empty_wellFormed.run h₁
      exact step steps t₁ s t h₁ ht₁ ((apply_eq_ok_iff ht₁).mp hs) (ih h₁)

/-- A run that succeeds is a walk of the machine. -/
theorem walk_of_run (h : empty.run steps = .ok t) :
    Stance.nowhere.walk steps = some t.stance := by
  refine run_induction (motive := fun steps t => Stance.nowhere.walk steps = some t.stance)
    rfl ?_ h
  intro steps t s t' _ ht hs ih
  rw [Stance.walk_append, ih, Option.bind_some, Stance.walk_cons, hs.stance_eq ht]
  rfl

/-- A run fails at the first step that fails. -/
theorem exists_of_run_error {e : TraversalError} (h : empty.run steps = .error e) :
    ∃ before s after t, steps = before ++ s :: after ∧ empty.run before = .ok t ∧
      t.apply s = .error e := by
  induction steps using List.reverseRecOn with
  | nil => cases h
  | append_singleton steps s ih =>
      rw [run_append_singleton] at h
      cases hr : empty.run steps with
      | ok t =>
          rw [hr] at h
          exact ⟨steps, s, [], t, rfl, hr, h⟩
      | error e' =>
          rw [hr] at h
          cases h
          obtain ⟨before, s', after, t, rfl, ht, hs⟩ := ih hr
          exact ⟨before, s', after ++ [s], t, by simp, ht, hs⟩

/-- The step at which a run fails is one that the machine cannot take. -/
theorem take_eq_none_of_apply_error {s : Step} {e : TraversalError} (ht : t.WellFormed)
    (h : t.apply s = .error e) :
    t.stance.take s = none ∧ e = t.stance.refusal (t.current.getD "") s := by
  cases hp : t.stance.take s with
  | none =>
      rw [apply_refused ht hp] at h
      exact ⟨rfl, (Except.error.inj h).symm⟩
  | some p =>
      obtain ⟨t', h'⟩ := exists_takes ht hp
      rw [h'.apply_eq ht] at h
      cases h

/-- A walk of the machine is a run that succeeds. -/
theorem exists_run_of_walk {p : Stance} (h : Stance.nowhere.walk steps = some p) :
    ∃ t, empty.run steps = .ok t := by
  cases hr : empty.run steps with
  | ok t => exact ⟨t, rfl⟩
  | error e =>
      obtain ⟨before, s, after, t, rfl, ht, hs⟩ := exists_of_run_error hr
      have hn := (take_eq_none_of_apply_error (empty_wellFormed.run ht) hs).1
      rw [Stance.walk_append, walk_of_run ht, Option.bind_some, Stance.walk_cons, hn] at h
      cases h

end Runs

end Trail

theorem trace_eq_ok_iff {steps : List Step} {t : Trail} :
    trace steps = .ok t ↔ Trail.empty.run steps = .ok t :=
  mapError_eq_ok_iff

theorem trace_eq_error_iff {steps : List Step} {e : CompileError} :
    trace steps = .error e ↔ ∃ e', Trail.empty.run steps = .error e' ∧ e = .traversal e' := by
  rw [trace]
  cases Trail.empty.run steps <;> simp [Except.mapError, eq_comm]

/-- A refusal is never about a missing variable or an edge without a link. -/
theorem Stance.refusal_ne (p : Stance) (s : Step) (name other : String) :
    p.refusal name s ≠ .unknownVariable other ∧ p.refusal name s ≠ .detachedEdge other := by
  cases p with
  | nowhere => exact ⟨nofun, nofun⟩
  | vertex => exact ⟨nofun, nofun⟩
  | edge d => cases s <;> exact ⟨nofun, nofun⟩

/-- The machine accepts exactly the steps that a trail can be made of, and ends in the kind of
the current variable. Where it does not, the error is the one of the first step it refuses, and
no lookup by alias has failed. -/
theorem trace_follows_stance (steps : List Step) :
    ((∃ t, trace steps = .ok t) ↔ ∃ p, Stance.nowhere.walk steps = some p) ∧
    (∀ t, trace steps = .ok t → Stance.nowhere.walk steps = some t.stance) ∧
    (∀ e, trace steps = .error e → ∃ before s after t, steps = before ++ s :: after ∧
      trace before = .ok t ∧ Stance.nowhere.walk before = some t.stance ∧
      t.stance.take s = none ∧ e = .traversal (t.stance.refusal (t.current.getD "") s)) ∧
    (∀ name, trace steps ≠ .error (.traversal (.unknownVariable name))) ∧
    (∀ name, trace steps ≠ .error (.traversal (.detachedEdge name))) := by
  have herror : ∀ e, trace steps = .error e → ∃ before s after t,
      steps = before ++ s :: after ∧ trace before = .ok t ∧
      Stance.nowhere.walk before = some t.stance ∧ t.stance.take s = none ∧
      e = .traversal (t.stance.refusal (t.current.getD "") s) := by
    intro e he
    obtain ⟨e', hr, rfl⟩ := trace_eq_error_iff.mp he
    obtain ⟨before, s, after, t, rfl, ht, hs⟩ := Trail.exists_of_run_error hr
    obtain ⟨hn, rfl⟩ := Trail.take_eq_none_of_apply_error (Trail.empty_wellFormed.run ht) hs
    exact ⟨before, s, after, t, rfl, trace_eq_ok_iff.mpr ht, Trail.walk_of_run ht, hn, rfl⟩
  have hok : ∀ t, trace steps = .ok t → Stance.nowhere.walk steps = some t.stance :=
    fun t ht => Trail.walk_of_run (trace_eq_ok_iff.mp ht)
  refine ⟨⟨?_, ?_⟩, hok, herror, ?_, ?_⟩
  · rintro ⟨t, ht⟩
    exact ⟨t.stance, hok t ht⟩
  · rintro ⟨p, hp⟩
    obtain ⟨t, ht⟩ := Trail.exists_run_of_walk hp
    exact ⟨t, trace_eq_ok_iff.mpr ht⟩
  · intro name he
    obtain ⟨_, s, _, t, _, _, _, _, heq⟩ := herror _ he
    exact (t.stance.refusal_ne s _ name).1 (CompileError.traversal.inj heq).symm
  · intro name he
    obtain ⟨_, s, _, t, _, _, _, _, heq⟩ := herror _ he
    exact (t.stance.refusal_ne s _ name).2 (CompileError.traversal.inj heq).symm

end DocWalk
