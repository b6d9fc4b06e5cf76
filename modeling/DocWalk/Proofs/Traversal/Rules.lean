import DocWalk.Proofs.Traversal.WellFormed

/-!
# Steps as rules

On a well-formed trail a step does exactly what one of five rules says. The
rules leave out every lookup that cannot fail, so what holds of a run is proved
from them, one case for each rule.
-/

namespace DocWalk

namespace Step

/-- Steps that only add a condition to the current variable. -/
def isFilter : Step → Bool
  | has .. => true
  | hasLabel _ => true
  | hasId _ => true
  | _ => false

/-- The labels that a step adds to the variable it is about. -/
def addedLabels : Step → List String
  | hop _ labels => labels
  | hopToEdge _ labels => labels
  | hasLabel labels => labels
  | _ => []

/-- The condition that a step puts on the variable it is about. -/
def condition? (name : String) : Step → Option Expr
  | vertices ids => oneOf name idProperty ids
  | hop _ labels => oneOf name labelProperty labels
  | hopToEdge _ labels => oneOf name labelProperty labels
  | toEnd _ => none
  | has key test => some (test.condition name key)
  | hasLabel labels => oneOf name labelProperty labels
  | hasId ids => oneOf name idProperty ids

end Step

namespace Trail

section Changes

variable {t : Trail} {name : String}

theorem update_of_mem (hn : t.aliases.Nodup) (h : name ∈ t.aliases) (f : Variable → Variable) :
    t.update name f = .ok { t with «variables» := Variable.alter name f t.variables } := by
  rw [aliases_eq] at hn h
  rw [update, Variable.updateFirst_of_mem f hn h]

theorem restrictAt_none (t : Trail) (name : String) : t.restrictAt name [] none = t := by
  simp [restrictAt, conjoinBy, Variable.alter]

theorem restrictAt_restrictAt (t : Trail) (name : String) (labels : List String)
    (c : Option Expr) :
    (t.restrictAt name labels none).restrictAt name [] c = t.restrictAt name labels c := by
  have ha : ∀ v : Variable, (v.addLabels labels).alias = v.alias := fun _ => rfl
  simp only [restrictAt, Variable.addLabels_nil, Variable.restrictBy_none,
    Variable.alter_alter name _ ha]
  rfl

theorem restrictBy_of_mem (hn : t.aliases.Nodup) (h : name ∈ t.aliases) (c : Option Expr) :
    t.restrictBy name c = .ok (t.restrictAt name [] c) := by
  cases c with
  | none => rw [restrictAt_none, restrictBy]
  | some e =>
      rw [restrictBy, restrict, update_of_mem hn h]
      simp only [restrictAt, Variable.addLabels_nil, Variable.restrictBy_some]
      rfl

theorem restrictLabels_of_mem (hn : t.aliases.Nodup) (h : name ∈ t.aliases)
    (labels : List String) :
    t.restrictLabels name labels =
      .ok (t.restrictAt name labels (oneOf name labelProperty labels)) := by
  have hal : (t.restrictAt name labels none).aliases = t.aliases := by
    rw [aliases, outline_restrictAt, aliases]
  have hr := restrictBy_of_mem (hal ▸ hn) (hal ▸ h) (oneOf name labelProperty labels)
  rw [restrictLabels, update_of_mem hn h]
  rw [restrictAt_restrictAt] at hr
  exact hr

theorem moveTo_of_mem (h : name ∈ t.aliases) : t.moveTo name = .ok (t.standOn name) := by
  obtain ⟨v, hv⟩ := exists_find? h
  rw [moveTo, hv]
  rfl

theorem require_of_current {v : Variable} (hv : t.currentVariable? = some v) (step : String) :
    t.require step = .ok v := by
  rw [require, hv]

theorem requireVertex_of_current {v : Variable} (hv : t.currentVariable? = some v)
    (hk : v.kind = .vertex) (step : String) : t.requireVertex step = .ok v.alias := by
  simp only [requireVertex, require_of_current hv, bind, Except.bind, hk]

theorem requireEdge_of_current {v : Variable} {d : Direction}
    (hv : t.currentVariable? = some v) (hk : v.kind = .edge d) (step : String) :
    t.requireEdge step = .ok v.alias := by
  simp only [requireEdge, require_of_current hv, bind, Except.bind, hk]

theorem directionOf?_of_current {v : Variable} {d : Direction}
    (hv : t.currentVariable? = some v) (hk : v.kind = .edge d) :
    t.directionOf? v.alias = some d := by
  obtain ⟨name, _, hf⟩ := Option.bind_eq_some_iff.mp hv
  obtain ⟨_, rfl⟩ := mem_of_find? hf
  rw [directionOf?, hf, Option.bind_some, hk]
  rfl

/-- In every trail, the direction of an edge that a step asks for is known: a step to an end of it
does not fail for want of a direction. -/
theorem exists_directionOf? {step edge : String} (h : t.requireEdge step = .ok edge) :
    ∃ d, t.directionOf? edge = some d := by
  obtain ⟨v, hr, hv⟩ := bind_eq_ok_iff.mp h
  cases hk : v.kind with
  | vertex =>
      rw [hk] at hv
      cases hv
  | edge d =>
      rw [hk] at hv
      cases hv
      cases hc : t.currentVariable? with
      | none =>
          rw [require, hc] at hr
          cases hr
      | some w =>
          rw [require_of_current hc] at hr
          cases hr
          exact ⟨d, directionOf?_of_current hc hk⟩

/-- A hop from a current vertex binds and links without failing. -/
theorem follow_of_current (ht : t.Layout) {v : Variable} (hv : t.currentVariable? = some v)
    (hk : v.kind = .vertex) (step : String) (d : Direction) (labels : List String) :
    t.follow step d labels =
      .ok (t.bindHop v.alias d labels,
        ⟨v.alias, edgeAlias t.edgeCount, vertexAlias t.vertexCount⟩) := by
  have hm : edgeAlias t.edgeCount ∈ (t.declare (.edge d)).aliases := by
    simp [aliases]
  rw [follow, requireVertex_of_current hv hk]
  change ((t.declare (.edge d)).restrictLabels (edgeAlias t.edgeCount) labels >>= _) = _
  rw [restrictLabels_of_mem (ht.nodup_declare (.edge d)) hm]
  rfl

end Changes

/-- What one step does to a well-formed trail. -/
inductive Takes (t : Trail) : Step → Trail → Prop where
  | source (ids : List String) :
      Takes t (.vertices ids)
        (((t.declare .vertex).restrictAt (vertexAlias t.vertexCount) []
          (oneOf (vertexAlias t.vertexCount) idProperty ids)).standOn
            (vertexAlias t.vertexCount))
  | hop {v : Variable} (hv : t.currentVariable? = some v) (hk : v.kind = .vertex)
      (d : Direction) (labels : List String) :
      Takes t (.hop d labels)
        ((t.bindHop v.alias d labels).standOn (vertexAlias t.vertexCount))
  | hopToEdge {v : Variable} (hv : t.currentVariable? = some v) (hk : v.kind = .vertex)
      (d : Direction) (labels : List String) :
      Takes t (.hopToEdge d labels)
        ((t.bindHop v.alias d labels).standOn (edgeAlias t.edgeCount))
  | toEnd {v : Variable} {d : Direction} {l : Link} {e : EdgeEnd} {name : String}
      (hv : t.currentVariable? = some v) (hk : v.kind = .edge d) (hl : l ∈ t.links)
      (he : l.edge = v.alias) (hn : e.vertex? l d = some name) :
      Takes t (.toEnd e) (t.standOn name)
  | filter {v : Variable} {s : Step} (hv : t.currentVariable? = some v)
      (hs : s.isFilter = true) :
      Takes t s (t.restrictAt v.alias s.addedLabels (s.condition? v.alias))

/-- The end of an edge that a step goes to is one of the two vertices of its link. -/
theorem vertex?_eq_source_or_sink {e : EdgeEnd} {l : Link} {d : Direction} {name : String}
    (h : e.vertex? l d = some name) : name = l.source ∨ name = l.sink := by
  cases e <;> cases d <;> simp_all [EdgeEnd.vertex?]

theorem Layout.vertex?_mem {t : Trail} (ht : t.Layout) {e : EdgeEnd} {l : Link} {d : Direction}
    {name : String} (hl : l ∈ t.links) (h : e.vertex? l d = some name) :
    (name, Kind.vertex) ∈ t.outline := by
  rcases vertex?_eq_source_or_sink h with rfl | rfl
  · exact (ht.spans l hl).source_mem
  · exact (ht.spans l hl).sink_mem

theorem apply_filter {t : Trail} (ht : t.WellFormed) {v : Variable}
    (hv : t.currentVariable? = some v) {s : Step} (hs : s.isFilter = true) :
    t.apply s = .ok (t.restrictAt v.alias s.addedLabels (s.condition? v.alias)) := by
  have hm : v.alias ∈ t.aliases := mem_aliases (mem_of_currentVariable? hv).1
  cases s with
  | vertices ids => cases hs
  | hop d labels => cases hs
  | hopToEdge d labels => cases hs
  | toEnd e => cases hs
  | has key test =>
      rw [apply, require_of_current hv]
      exact restrictBy_of_mem ht.nodup hm (some (test.condition v.alias key))
  | hasLabel labels =>
      rw [apply, require_of_current hv]
      exact restrictLabels_of_mem ht.nodup hm labels
  | hasId ids =>
      rw [apply, require_of_current hv]
      exact restrictBy_of_mem ht.nodup hm (oneOf v.alias idProperty ids)

/-- What a rule says is what the step does. -/
theorem Takes.apply_eq {t t' : Trail} {s : Step} (ht : t.WellFormed) (h : t.Takes s t') :
    t.apply s = .ok t' := by
  cases h with
  | source ids =>
      have hm : vertexAlias t.vertexCount ∈ (t.declare .vertex).aliases := by
        simp [aliases]
      rw [apply]
      change ((t.declare .vertex).restrictBy (vertexAlias t.vertexCount) _ >>= _) = _
      rw [restrictBy_of_mem (ht.nodup_declare .vertex) hm]
      apply moveTo_of_mem
      simp [aliases]
  | hop hv hk d labels =>
      rw [apply, follow_of_current ht.toLayout hv hk]
      apply moveTo_of_mem
      simp [aliases, outline_bindHop]
  | hopToEdge hv hk d labels =>
      rw [apply, follow_of_current ht.toLayout hv hk]
      apply moveTo_of_mem
      simp [aliases, outline_bindHop]
  | @toEnd v d l e name hv hk hl he hn =>
      have hd := directionOf?_of_current hv hk
      rw [← he] at hd
      simp only [apply, requireEdge_of_current hv hk, bind, Except.bind, ← he,
        ht.linkOf?_of_mem hl, hd, hn]
      exact moveTo_of_mem (List.mem_map_of_mem (ht.vertex?_mem hl hn))
  | filter hv hs => exact apply_filter ht hv hs

/-- Every rule keeps a trail well-formed. -/
theorem Takes.wellFormed {t t' : Trail} {s : Step} (ht : t.WellFormed) (h : t.Takes s t') :
    t'.WellFormed := by
  cases h with
  | source ids =>
      apply (ht.toLayout.declare_vertex.restrictAt _ _ _).standOn
      simp [aliases]
  | hop hv hk d labels =>
      have hm := hk ▸ mem_outline (mem_of_currentVariable? hv).1
      apply (ht.toLayout.bindHop hm d labels).standOn
      simp [aliases, outline_bindHop]
  | hopToEdge hv hk d labels =>
      have hm := hk ▸ mem_outline (mem_of_currentVariable? hv).1
      apply (ht.toLayout.bindHop hm d labels).standOn
      simp [aliases, outline_bindHop]
  | toEnd hv hk hl he hn =>
      exact ht.toLayout.standOn (List.mem_map_of_mem (ht.vertex?_mem hl hn))
  | filter hv hs => exact ht.restrictAt _ _ _

end Trail

end DocWalk
