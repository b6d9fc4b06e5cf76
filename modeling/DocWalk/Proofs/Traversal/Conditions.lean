import DocWalk.Proofs.Traversal.Stance

/-!
# Properties of all filters

The filter of a variable is made up of the conditions of the steps that were
about it, joined by conjunctions of parentheses. A property that every such
condition has and that these conjunctions keep is a property of every filter
of every run.

## Implementation notes

A property may change with the number of conditions, as a bound on the size of
a filter does. `Extends` says what one more condition makes of it, and the run
lemma counts the steps that have one; a property of conditions alone is the
constant case.
-/

namespace DocWalk

/-- The values that a property is compared with. -/
def Test.values : Test → List Value
  | compare _ value => [value]
  | within values => values
  | present => []

namespace Step

/-- The values that a step compares properties with. -/
def values : Step → List Value
  | has _ test => test.values
  | _ => []

/-- The length of the list of ids, labels or values that a step has, and zero if it has none. -/
def width : Step → Nat
  | vertices ids => ids.length
  | hop _ labels => labels.length
  | hopToEdge _ labels => labels.length
  | toEnd _ => 0
  | has _ (.within values) => values.length
  | has _ _ => 0
  | hasLabel labels => labels.length
  | hasId ids => ids.length

/-- Steps that ask something of the variable they are about. -/
def isDemanding : Step → Bool
  | vertices ids => !ids.isEmpty
  | hop _ labels => !labels.isEmpty
  | hopToEdge _ labels => !labels.isEmpty
  | toEnd _ => false
  | has .. => true
  | hasLabel labels => !labels.isEmpty
  | hasId ids => !ids.isEmpty

theorem isSome_oneOf (name property : String) (values : List String) :
    (oneOf name property values).isSome = !values.isEmpty := by
  cases values <;> rfl

theorem isSome_condition? (name : String) (s : Step) :
    (s.condition? name).isSome = s.isDemanding := by
  cases s with
  | vertices ids => exact isSome_oneOf name idProperty ids
  | hop d labels => exact isSome_oneOf name labelProperty labels
  | hopToEdge d labels => exact isSome_oneOf name labelProperty labels
  | toEnd e => rfl
  | has key test => rfl
  | hasLabel labels => exact isSome_oneOf name labelProperty labels
  | hasId ids => exact isSome_oneOf name idProperty ids

theorem oneOf_eq (name key : String) (values : List String) :
    oneOf name key values = Expr.anyOf ((values.map .text).map (Expr.propertyIs name key)) := by
  rw [List.map_map]
  rfl

/-- The condition of a step: alternatives, one comparison, a test of presence or the constant
false. -/
theorem condition_cases {s : Step} {name : String} {e : Expr} (h : e ∈ s.condition? name) :
    (∃ (key : String) (vs : List Value), e ∈ Expr.anyOf (vs.map (Expr.propertyIs name key)) ∧
      vs.length = s.width ∧ ∀ v ∈ vs, v ∈ s.values ∨ ∃ text, v = .text text) ∨
    (∃ key op v, e = .compare (.column (.property name key)) op (.literal v) ∧ v ∈ s.values) ∨
    (∃ key, e = .call definedFunction [.column (.property name key)]) ∨
    e = Expr.truth false := by
  have hone : ∀ key (values : List String), values.length = s.width →
      e ∈ oneOf name key values →
      ∃ (key : String) (vs : List Value), e ∈ Expr.anyOf (vs.map (Expr.propertyIs name key)) ∧
        vs.length = s.width ∧ ∀ v ∈ vs, v ∈ s.values ∨ ∃ text, v = .text text := by
    intro key values hw he
    refine ⟨key, values.map .text, oneOf_eq name key values ▸ he, by simpa using hw, ?_⟩
    intro v hv
    obtain ⟨text, -, rfl⟩ := List.mem_map.mp hv
    exact Or.inr ⟨text, rfl⟩
  cases s with
  | vertices ids => exact Or.inl (hone idProperty ids rfl h)
  | hop d labels => exact Or.inl (hone labelProperty labels rfl h)
  | hopToEdge d labels => exact Or.inl (hone labelProperty labels rfl h)
  | toEnd which => cases h
  | has key test =>
      cases h
      cases test with
      | compare op value =>
          exact Or.inr (Or.inl ⟨key, op, value, rfl, List.mem_singleton_self value⟩)
      | within vs =>
          rw [Test.condition]
          cases he : Expr.anyOf (vs.map (Expr.propertyIs name key)) with
          | none => exact Or.inr (Or.inr (Or.inr rfl))
          | some e => exact Or.inl ⟨key, vs, he, rfl, fun v hv => Or.inl hv⟩
      | present => exact Or.inr (Or.inr (Or.inl ⟨key, rfl⟩))
  | hasLabel labels => exact Or.inl (hone labelProperty labels rfl h)
  | hasId ids => exact Or.inl (hone idProperty ids rfl h)

end Step

/-- A property of conditions on a variable that the conditions of steps have and their conjunction
keeps. -/
structure Conjunctive (P : String → Expr → Prop) : Prop where
  condition : ∀ name s, ∀ e ∈ Step.condition? name s, P name e
  conjoin : ∀ name l r, P name l → P name r → P name (.connect (.paren l) .and (.paren r))

/-- What holds of comparisons with values, of tests for presence and of the constant false, and is
kept by the ways in which steps put them together. -/
theorem conjunctive_of_atoms {P : String → Expr → Prop}
    (compare : ∀ name key op v,
      P name (.compare (.column (.property name key)) op (.literal v)))
    (present : ∀ name key, P name (.call definedFunction [.column (.property name key)]))
    (never : ∀ name, P name (Expr.truth false))
    (or : ∀ name e key v, P name e → P name (.connect e .or (.propertyIs name key v)))
    (and : ∀ name l r, P name l → P name r → P name (.connect (.paren l) .and (.paren r))) :
    Conjunctive P := by
  have hfold : ∀ name key (vs : List Value) e, P name e →
      P name ((vs.map (Expr.propertyIs name key)).foldl
        (fun acc next => .connect acc .or next) e) := by
    intro name key vs
    induction vs with
    | nil =>
        intro e he
        exact he
    | cons v vs ih =>
        intro e he
        exact ih _ (or name e key v he)
  have hany : ∀ name key (vs : List Value),
      ∀ e ∈ Expr.anyOf (vs.map (Expr.propertyIs name key)), P name e := by
    intro name key vs e he
    cases vs with
    | nil => cases he
    | cons v vs =>
        cases he
        exact hfold name key vs _ (compare name key .equal v)
  constructor
  · intro name s e he
    rcases Step.condition_cases he with ⟨key, vs, he, -⟩ | ⟨key, op, v, rfl, -⟩ | ⟨key, rfl⟩ | rfl
    · exact hany name key vs e he
    · exact compare name key op v
    · exact present name key
    · exact never name
  · exact and

/-- What filters have after a step, from what they had before it and what its condition has. -/
structure Extends (P C P' : String → Expr → Prop) : Prop where
  keep : ∀ name e, P name e → P' name e
  fresh : ∀ name e, C name e → P' name e
  conjoin : ∀ name l r, P name l → C name r → P' name (.connect (.paren l) .and (.paren r))

theorem Conjunctive.toExtends {P : String → Expr → Prop} (hP : Conjunctive P) : Extends P P P where
  keep _ _ h := h
  fresh _ _ h := h
  conjoin := hP.conjoin

/-- Without a condition nothing changes. -/
theorem Extends.of_none (P : String → Expr → Prop) : Extends P (fun _ _ => False) P where
  keep _ _ h := h
  fresh _ _ h := h.elim
  conjoin _ _ _ _ h := h.elim

namespace Trail

/-- Every filter has a property as a condition on its variable. -/
def FiltersSatisfy (P : String → Expr → Prop) (t : Trail) : Prop :=
  ∀ v ∈ t.variables, ∀ e ∈ v.filter, P v.alias e

variable {P C P' : String → Expr → Prop} {t t' : Trail}

theorem FiltersSatisfy.mono (h : t.FiltersSatisfy P) (hP : ∀ name e, P name e → P' name e) :
    t.FiltersSatisfy P' :=
  fun v hv e he => hP v.alias e (h v hv e he)

theorem FiltersSatisfy.declare (h : t.FiltersSatisfy P) (k : Kind) :
    (t.declare k).FiltersSatisfy P := by
  intro v hv
  rw [variables_declare] at hv
  rcases List.mem_append.mp hv with hv | hv
  · exact h v hv
  · cases List.mem_singleton.mp hv
    intro e he
    cases he

theorem FiltersSatisfy.restrictAt (hP : Extends P C P') (h : t.FiltersSatisfy P) {name : String}
    (labels : List String) {c : Option Expr} (hc : ∀ e ∈ c, C name e) :
    (t.restrictAt name labels c).FiltersSatisfy P' := by
  intro w hw
  obtain ⟨v, hv, rfl⟩ := List.mem_map.mp hw
  by_cases hn : v.alias = name
  · subst hn
    rw [if_pos rfl]
    exact forall_mem_conjoinBy (hP.keep v.alias) (hP.fresh v.alias) (hP.conjoin v.alias) (h v hv) hc
  · rw [if_neg hn]
    exact fun e he => hP.keep v.alias e (h v hv e he)

theorem FiltersSatisfy.bindHop (hP : Extends P C P') (h : t.FiltersSatisfy P) (source : String)
    (d : Direction) (labels : List String)
    (hc : ∀ name, ∀ e ∈ oneOf name labelProperty labels, C name e) :
    (t.bindHop source d labels).FiltersSatisfy P' :=
  ((h.declare (.edge d)).restrictAt hP labels (hc _)).declare .vertex

/-- One step changes a property of all filters as its condition does. -/
theorem FiltersSatisfy.takes (hP : Extends P C P') {s : Step}
    (hc : ∀ name, ∀ e ∈ s.condition? name, C name e) (h : t.FiltersSatisfy P)
    (hs : t.Takes s t') : t'.FiltersSatisfy P' := by
  cases hs with
  | source ids => exact (h.declare .vertex).restrictAt hP [] (hc _)
  | @hop v hv hk d labels => exact h.bindHop hP v.alias d labels hc
  | @hopToEdge v hv hk d labels => exact h.bindHop hP v.alias d labels hc
  | toEnd hv hk hl he hn => exact h.mono hP.keep
  | filter hv hs => exact h.restrictAt hP _ (hc _)

/-- Whole runs change a property of all filters once for every step with a condition. -/
theorem filtersSatisfy_after_run {P : Nat → String → Expr → Prop}
    (hP : ∀ n, Extends (P n) C (P (n + 1))) {steps : List Step}
    (hc : ∀ s ∈ steps, ∀ name, ∀ e ∈ s.condition? name, C name e)
    (h : empty.run steps = .ok t) : t.FiltersSatisfy (P (steps.countP Step.isDemanding)) := by
  revert hc
  refine run_induction (motive := fun steps t =>
    (∀ s ∈ steps, ∀ name, ∀ e ∈ s.condition? name, C name e) →
      t.FiltersSatisfy (P (steps.countP Step.isDemanding))) ?_ ?_ h
  · intro _ v hv
    cases hv
  · intro steps t s t' _ _ hs ih hc
    have ht := ih fun s' hs' => hc s' (List.mem_append_left _ hs')
    rw [List.countP_append, List.countP_singleton]
    cases hd : s.isDemanding with
    | true => exact ht.takes (hP _) (hc s (by simp)) hs
    | false =>
        refine ht.takes (.of_none _) ?_ hs
        intro name e he
        have hsome := s.isSome_condition? name
        rw [he, hd] at hsome
        cases hsome

/-- Whole runs keep a property of all filters. -/
theorem filtersSatisfy_of_run (hP : Conjunctive P) {steps : List Step}
    (h : empty.run steps = .ok t) : t.FiltersSatisfy P :=
  filtersSatisfy_after_run (P := fun _ => P) (fun _ => hP.toExtends)
    (fun s _ name => hP.condition name s) h

end Trail

end DocWalk
