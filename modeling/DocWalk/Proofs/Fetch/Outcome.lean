import DocWalk.Proofs.Fetch.Filter
import DocWalk.Proofs.Traversal.Conditions

/-!
# When a traversal has no fetch

A fetch reads the current variable and one neighbour of it at most. It is
refused for an edge that was followed in both directions, and for a filter on
a variable that it does not read. Nothing else stands in the way of a fetch
once the steps have been taken.

## Implementation notes

A variable has a filter exactly when one of the steps that were about it asked
for something, so the refusals are stated through the steps of the run and not
through the filters that the trail has gathered.
-/

namespace DocWalk

theorem isSome_conjoinBy (filter c : Option Expr) :
    (conjoinBy filter c).isSome = (filter.isSome || c.isSome) := by
  cases c with
  | none => simp [conjoinBy]
  | some e => simp [conjoinBy]

namespace Trail

/-- The filter of the variable with the given alias, if there is such a variable and it has one. -/
def filterOf? (t : Trail) (name : String) : Option Expr :=
  (t.find? name).bind (·.filter)

section Filters

variable {t t' : Trail} {s : Step}

theorem Layout.filterOf?_alias (ht : t.Layout) {v : Variable} (hv : v ∈ t.variables) :
    t.filterOf? v.alias = v.filter := by
  rw [filterOf?, ht.find?_of_mem hv, Option.bind_some]

/-- A new variable has no filter. -/
@[simp] theorem filterOf?_declare (t : Trail) (k : Kind) (name : String) :
    (t.declare k).filterOf? name = t.filterOf? name := by
  simp only [filterOf?, find?, variables_declare, List.find?_append]
  cases t.variables.find? (·.alias == name) with
  | some v => rfl
  | none =>
      by_cases h : t.nextAlias k = name <;> simp [h]

@[simp] theorem filterOf?_standOn (t : Trail) (name other : String) :
    (t.standOn name).filterOf? other = t.filterOf? other := rfl

@[simp] theorem filterOf?_addLink (t : Trail) (l : Link) (name : String) :
    (t.addLink l).filterOf? name = t.filterOf? name := rfl

theorem find?_restrictAt (t : Trail) (name : String) (labels : List String) (c : Option Expr)
    (other : String) :
    (t.restrictAt name labels c).find? other = (t.find? other).map fun v =>
      if v.alias = name then (v.addLabels labels).restrictBy c else v := by
  have hp : ((fun v : Variable => v.alias == other) ∘ fun v =>
      if v.alias = name then (v.addLabels labels).restrictBy c else v) =
        fun v => v.alias == other := by
    funext v
    by_cases h : v.alias = name <;> simp [h]
  rw [find?, restrictAt, Variable.alter, List.find?_map, hp, find?]

/-- A condition on a bound variable joins the filter of that variable and no other. -/
theorem filterOf?_restrictAt {name : String} (h : name ∈ t.aliases) (labels : List String)
    (c : Option Expr) (other : String) :
    (t.restrictAt name labels c).filterOf? other =
      if other = name then conjoinBy (t.filterOf? other) c else t.filterOf? other := by
  rw [filterOf?, find?_restrictAt, filterOf?]
  by_cases ho : other = name
  · subst ho
    obtain ⟨v, hv⟩ := exists_find? h
    simp [hv, (mem_of_find? hv).2, Variable.restrictBy]
  · rw [if_neg ho]
    cases hv : t.find? other with
    | none => rfl
    | some v =>
        have ha : v.alias ≠ name := (mem_of_find? hv).2 ▸ ho
        simp [ha]

theorem filterOf?_bindHop (t : Trail) (source : String) (d : Direction) (labels : List String)
    (other : String) :
    (t.bindHop source d labels).filterOf? other =
      if other = edgeAlias t.edgeCount then
        conjoinBy (t.filterOf? other) (oneOf (edgeAlias t.edgeCount) labelProperty labels)
      else t.filterOf? other := by
  have hm : edgeAlias t.edgeCount ∈ (t.declare (.edge d)).aliases := by
    simp [aliases]
  simp only [bindHop, filterOf?_addLink, filterOf?_declare, filterOf?_restrictAt hm]

/-- One step joins its condition to the filter of the variable it is about, and changes no other
filter. -/
theorem Takes.filterOf?_eq (h : t.Takes s t') :
    ∃ name, t.subject? s = some name ∧ ∀ other, t'.filterOf? other =
      if other = name then conjoinBy (t.filterOf? other) (s.condition? name)
      else t.filterOf? other := by
  cases h with
  | source ids =>
      have hm : vertexAlias t.vertexCount ∈ (t.declare .vertex).aliases := by
        simp [aliases]
      refine ⟨vertexAlias t.vertexCount, rfl, ?_⟩
      intro other
      rw [filterOf?_standOn, filterOf?_restrictAt hm, filterOf?_declare]
      rfl
  | @hop v hv hk d labels =>
      exact ⟨edgeAlias t.edgeCount, rfl, t.filterOf?_bindHop v.alias d labels⟩
  | @hopToEdge v hv hk d labels =>
      exact ⟨edgeAlias t.edgeCount, rfl, t.filterOf?_bindHop v.alias d labels⟩
  | toEnd hv hk hl he hn =>
      refine ⟨_, (mem_of_currentVariable? hv).2, ?_⟩
      intro other
      simp [Step.condition?, conjoinBy]
  | @filter v s hv hs =>
      obtain ⟨hm, hc⟩ := mem_of_currentVariable? hv
      refine ⟨v.alias, ?_, filterOf?_restrictAt (mem_aliases hm) _ _⟩
      cases s with
      | vertices ids => cases hs
      | hop d labels => cases hs
      | hopToEdge d labels => cases hs
      | _ => exact hc

end Filters

end Trail

/-- One of the steps was about the given variable and asked something of it. -/
def Filtered (steps : List Step) (name : String) : Prop :=
  ∃ before s after t, steps = before ++ s :: after ∧ trace before = .ok t ∧
    t.subject? s = some name ∧ s.isDemanding = true

theorem filtered_append_singleton (steps : List Step) (s : Step) (name : String) :
    Filtered (steps ++ [s]) name ↔ Filtered steps name ∨
      ∃ t, trace steps = .ok t ∧ t.subject? s = some name ∧ s.isDemanding = true := by
  constructor
  · rintro ⟨before, s', after, t, h, ht, hn, hd⟩
    rcases append_singleton_eq_split h with ⟨rfl, rfl, rfl⟩ | ⟨after', rfl, rfl⟩
    · exact Or.inr ⟨t, ht, hn, hd⟩
    · exact Or.inl ⟨before, s', after', t, rfl, ht, hn, hd⟩
  · rintro (⟨before, s', after, t, rfl, ht, hn, hd⟩ | ⟨t, ht, hn, hd⟩)
    · exact ⟨before, s', after ++ [s], t, by simp, ht, hn, hd⟩
    · exact ⟨steps, s, [], t, rfl, ht, hn, hd⟩

namespace Trail

/-- A run leaves a filter on exactly those variables of which one of its steps asked something. -/
theorem isSome_filterOf?_iff_of_run {steps : List Step} {t : Trail}
    (h : empty.run steps = .ok t) (name : String) :
    (t.filterOf? name).isSome = true ↔ Filtered steps name := by
  refine run_induction
    (motive := fun steps t => (t.filterOf? name).isSome = true ↔ Filtered steps name) ?_ ?_ h
  · constructor
    · intro hf
      cases hf
    · rintro ⟨before, s, after, _, hs, _⟩
      simp at hs
  · intro steps t s t' hr _ hs ih
    obtain ⟨subject, hn, hf⟩ := hs.filterOf?_eq
    have hlast : (∃ t, trace steps = .ok t ∧ t.subject? s = some name ∧ s.isDemanding = true) ↔
        name = subject ∧ s.isDemanding = true := by
      constructor
      · rintro ⟨t₁, hr', hn', hd⟩
        rw [trace_eq_ok_iff.mpr hr] at hr'
        cases hr'
        rw [hn] at hn'
        exact ⟨(Option.some.inj hn').symm, hd⟩
      · rintro ⟨rfl, hd⟩
        exact ⟨t, trace_eq_ok_iff.mpr hr, hn, hd⟩
    rw [filtered_append_singleton, ← ih, hlast, hf]
    by_cases he : name = subject
    · simp [he, isSome_conjoinBy, Step.isSome_condition?]
    · simp [he]

/-- The vertex that a fetch of a variable reads: the variable itself, or the vertex from which it
was reached. -/
inductive ReadsVertex (t : Trail) (v : Variable) : Variable → Prop where
  | itself (hk : v.kind = .vertex) : ReadsVertex t v v
  | source {source : Variable} {d : Direction} {l : Link} (hk : v.kind = .edge d)
      (hl : l ∈ t.links) (he : l.edge = v.alias) (hs : source ∈ t.variables)
      (hn : source.alias = l.source) : ReadsVertex t v source

/-- The edge that a fetch of a variable reads: the variable itself, or the edge over which it was
reached. -/
inductive ReadsEdge (t : Trail) (v : Variable) : Variable → Prop where
  | itself {d : Direction} (hk : v.kind = .edge d) : ReadsEdge t v v
  | reached {edge : Variable} {l : Link} (hk : v.kind = .vertex) (hl : l ∈ t.links)
      (hs : l.sink = v.alias) (he : edge ∈ t.variables) (hn : edge.alias = l.edge) :
      ReadsEdge t v edge

/-- A fetch of the first variable reads the second one. -/
def ReadsWith (t : Trail) (v w : Variable) : Prop :=
  t.ReadsVertex v w ∨ t.ReadsEdge v w

/-- The edge that a fetch of a variable reads, if any, was followed in one direction. -/
def Directed (t : Trail) (v : Variable) : Prop :=
  ∀ edge, t.ReadsEdge v edge → edge.kind ≠ .edge .both

section Readings

variable {t : Trail} {settings : CompilerSettings} {v : Variable}

theorem Layout.get_of_mem (ht : t.Layout) (hv : v ∈ t.variables) : t.get v.alias = .ok v := by
  rw [get, ht.find?_of_mem hv]

/-- The edge of a link is bound, and as an edge. -/
theorem Spans.exists_edge {l : Link} (h : Spans t.outline l) :
    ∃ edge ∈ t.variables, edge.alias = l.edge ∧ ∃ d, edge.kind = .edge d := by
  obtain ⟨before, d, after, ho, _⟩ := h
  have hm : (l.edge, Kind.edge d) ∈ t.outline := by
    simp [ho]
  obtain ⟨edge, he, hn, hk⟩ := exists_of_mem_outline hm
  exact ⟨edge, he, hn, d, hk⟩

/-- An edge followed in both directions cannot be read. -/
theorem Layout.reading_of_both (ht : t.Layout) {edge : Variable} (h : t.ReadsEdge v edge)
    (hv : v ∈ t.variables) (hb : edge.kind = .edge .both) :
    t.reading settings v = .error (.undirectedHop edge.alias) := by
  cases h with
  | itself hk =>
      obtain ⟨l, hl, he⟩ := ht.exists_link (mem_outline hv) (hb ▸ rfl)
      simp only [reading, hb, ← he, ht.linkOf?_of_mem hl]
  | @reached _ l hk hl hs he hn =>
      have hg : t.get l.edge = .ok edge := hn ▸ ht.get_of_mem he
      simp only [reading, hk, ← hs, ht.incoming?_of_mem hl, hg, bind, Except.bind, hb, hn]

/-- Every other variable can be read. -/
theorem Layout.exists_reading (ht : t.Layout) (settings : CompilerSettings)
    (hv : v ∈ t.variables) (h : t.Directed v) : ∃ r, t.reading settings v = .ok r := by
  cases hk : v.kind with
  | vertex =>
      cases hi : t.incoming? v.alias with
      | none => exact ⟨⟨v, none⟩, by simp only [reading, hk, hi]⟩
      | some l =>
          obtain ⟨hl, hs⟩ := mem_of_incoming? hi
          obtain ⟨edge, he, hn, d, hd⟩ := (ht.spans l hl).exists_edge
          have hg : t.get l.edge = .ok edge := hn ▸ ht.get_of_mem he
          have hne := h edge (.reached hk hl hs he hn)
          simp only [reading, hk, hi, hg, bind, Except.bind, hd]
          cases d with
          | outgoing => exact ⟨_, rfl⟩
          | incoming => exact ⟨_, rfl⟩
          | both => exact absurd hd hne
  | edge d =>
      obtain ⟨l, hl, he⟩ := ht.exists_link (mem_outline hv) (hk ▸ rfl)
      obtain ⟨source, hs, hn, _⟩ := exists_of_mem_outline (ht.spans l hl).source_mem
      have hg : t.get l.source = .ok source := hn ▸ ht.get_of_mem hs
      have hne := h v (.itself hk)
      simp only [reading, hk, ← he, ht.linkOf?_of_mem hl, hg, bind, Except.bind]
      cases d with
      | outgoing => exact ⟨_, rfl⟩
      | incoming => exact ⟨_, rfl⟩
      | both => exact absurd hk hne

/-- A reading has the vertex and the edge of its variable and nothing else. -/
theorem Reads.mem_members_iff (ht : t.Layout) {r : Reading} (h : t.Reads settings v r)
    (w : Variable) : w ∈ r.members ↔ t.ReadsWith v w := by
  rw [ReadsWith]
  cases h with
  | alone hk hl =>
      simp only [Reading.members, Option.map_none, Option.toList_none, List.mem_singleton]
      constructor
      · rintro rfl
        exact Or.inl (.itself hk)
      · rintro (h | h)
        · cases h with
          | itself _ => rfl
          | source hd => simp [hk] at hd
        · cases h with
          | itself hd => simp [hk] at hd
          | reached _ hl' hs => exact absurd hs (hl _ hl')
  | @reached edge l d field hk hl hs he hn hd hf =>
      simp only [Reading.members, Option.map_some, Option.toList_some, List.mem_cons,
        List.not_mem_nil, or_false]
      constructor
      · rintro (rfl | rfl)
        · exact Or.inl (.itself hk)
        · exact Or.inr (.reached hk hl hs he hn)
      · rintro (h | h)
        · cases h with
          | itself _ => exact Or.inl rfl
          | source hd => simp [hk] at hd
        · cases h with
          | itself hd => simp [hk] at hd
          | @reached _ l' _ hl' hs' he' hn' =>
              -- no vertex is the sink of two links, so both edges are that of one link
              have hi := ht.incoming?_of_mem hl'
              rw [hs', ← hs, ht.incoming?_of_mem hl] at hi
              cases hi
              exact Or.inr (ht.eq_of_alias_eq he' he (hn'.trans hn.symm))
  | @edge source l d field hk hl he hs hn hf =>
      simp only [Reading.members, Option.map_some, Option.toList_some, List.mem_cons,
        List.not_mem_nil, or_false]
      constructor
      · rintro (rfl | rfl)
        · exact Or.inl (.source hk hl he hs hn)
        · exact Or.inr (.itself hk)
      · rintro (h | h)
        · cases h with
          | itself hd => simp [hk] at hd
          | @source _ _ l' _ hl' he' hs' hn' =>
              have hi := ht.linkOf?_of_mem hl'
              rw [he', ← he, ht.linkOf?_of_mem hl] at hi
              cases hi
              exact Or.inl (ht.eq_of_alias_eq hs' hs (hn'.trans hn.symm))
        · cases h with
          | itself _ => exact Or.inr rfl
          | reached hd => simp [hk] at hd

/-- On a bound variable, covering its alias is reading it. -/
theorem Reads.covers_iff (ht : t.Layout) {r : Reading} (h : t.Reads settings v r)
    (hv : v ∈ t.variables) {w : Variable} (hw : w ∈ t.variables) :
    r.covers w.alias = true ↔ t.ReadsWith v w := by
  rw [← h.mem_members_iff ht, Reading.covers, List.any_eq_true]
  constructor
  · rintro ⟨u, hu, ha⟩
    have he : u = w := ht.eq_of_alias_eq (h.members_mem hv u hu) hw (by simpa using ha)
    exact he ▸ hu
  · intro hm
    exact ⟨w, hm, by simp⟩

end Readings

end Trail

/-- A variable of which a step asked something and that a fetch of another one leaves out. -/
def Stray (steps : List Step) (t : Trail) (v w : Variable) : Prop :=
  Filtered steps w.alias ∧ ¬ t.ReadsWith v w

/-- A variable that is left out, in the order of declaration before all others that are. -/
def FirstStray (steps : List Step) (t : Trail) (v w : Variable) : Prop :=
  Stray steps t v w ∧ ∃ before after, t.variables = before ++ w :: after ∧
    ∀ u ∈ before, ¬ Stray steps t v u

section Runs

variable {settings : CompilerSettings} {steps : List Step} {t : Trail} {v : Variable}
variable (hr : Trail.empty.run steps = .ok t)

include hr

theorem isStray_iff {r : Reading} (h : t.Reads settings v r) (hv : v ∈ t.variables)
    {w : Variable} (hw : w ∈ t.variables) :
    (w.filter.isSome && !r.covers w.alias) = true ↔ Stray steps t v w := by
  have ht := (Trail.empty_wellFormed.run hr).toLayout
  rw [Stray, ← Trail.isSome_filterOf?_iff_of_run hr, ht.filterOf?_alias hw,
    ← h.covers_iff ht hv hw]
  simp

theorem stray?_eq_some_iff {r : Reading} (h : t.Reads settings v r) (hv : v ∈ t.variables)
    (w : Variable) :
    Trail.stray? t.variables r = some w ↔ FirstStray steps t v w := by
  rw [Trail.stray?, List.find?_eq_some_iff_append, FirstStray]
  constructor
  · rintro ⟨hw, before, after, hs, hb⟩
    refine ⟨(isStray_iff hr h hv (by simp [hs])).mp hw, before, after, hs, ?_⟩
    intro u hu hstray
    have hn := hb u hu
    rw [(isStray_iff hr h hv (by simp [hs, hu])).mpr hstray] at hn
    cases hn
  · rintro ⟨hw, before, after, hs, hb⟩
    refine ⟨(isStray_iff hr h hv (by simp [hs])).mpr hw, before, after, hs, ?_⟩
    intro u hu
    have hn := mt (isStray_iff hr h hv (by simp [hs, hu])).mp (hb u hu)
    simpa only [Bool.not_eq_true', Bool.not_eq_true] using hn

theorem stray?_eq_none_iff {r : Reading} (h : t.Reads settings v r) (hv : v ∈ t.variables) :
    Trail.stray? t.variables r = none ↔ ∀ w ∈ t.variables, ¬ Stray steps t v w := by
  rw [Trail.stray?, List.find?_eq_none]
  constructor
  · intro hn w hw hstray
    exact hn w hw ((isStray_iff hr h hv hw).mpr hstray)
  · intro hn w hw hstray
    exact hn w hw ((isStray_iff hr h hv hw).mp hstray)

theorem compile_of_current (hv : t.currentVariable? = some v) :
    compile settings steps = (t.fetchWithin settings t.variables v).mapError .traversal := by
  rw [compile, trace_eq_ok_iff.mpr hr]
  change (t.fetch settings).mapError _ = _
  rw [Trail.fetch, Trail.require_of_current hv]
  rfl

theorem compile_of_both (hv : t.currentVariable? = some v) {edge : Variable}
    (he : t.ReadsEdge v edge) (hb : edge.kind = .edge .both) :
    compile settings steps = .error (.traversal (.undirectedHop edge.alias)) := by
  have ht := (Trail.empty_wellFormed.run hr).toLayout
  have hm := (Trail.mem_of_currentVariable? hv).1
  rw [compile_of_current hr hv, Trail.fetchWithin, ht.reading_of_both he hm hb]
  rfl

theorem compile_of_firstStray (hv : t.currentVariable? = some v) (hd : t.Directed v)
    {w : Variable} (hw : FirstStray steps t v w) :
    compile settings steps = .error (.traversal (.strayFilter w.alias v.alias)) := by
  have ht := (Trail.empty_wellFormed.run hr).toLayout
  have hm := (Trail.mem_of_currentVariable? hv).1
  obtain ⟨r, hread⟩ := ht.exists_reading settings hm hd
  have hs := (stray?_eq_some_iff hr (Trail.reads_of_reading hread) hm w).mpr hw
  simp only [compile_of_current hr hv, Trail.fetchWithin, hread, bind, Except.bind, hs,
    Except.mapError]

theorem compile_of_no_stray (hv : t.currentVariable? = some v) (hd : t.Directed v)
    (hn : ∀ w ∈ t.variables, ¬ Stray steps t v w) : ∃ q, compile settings steps = .ok q := by
  have ht := (Trail.empty_wellFormed.run hr).toLayout
  have hm := (Trail.mem_of_currentVariable? hv).1
  obtain ⟨r, hread⟩ := ht.exists_reading settings hm hd
  have hs := (stray?_eq_none_iff hr (Trail.reads_of_reading hread) hm).mpr hn
  refine ⟨Fetch.ofReading settings r v.alias, ?_⟩
  simp only [compile_of_current hr hv, Trail.fetchWithin, hread, bind, Except.bind, hs,
    Except.mapError]

/-- Once there is a step there is a current variable. -/
theorem exists_current_of_run (hne : steps ≠ []) : ∃ v, t.currentVariable? = some v := by
  obtain rfl | ⟨before, s, rfl⟩ := List.eq_nil_or_concat' steps
  · exact absurd rfl hne
  · obtain ⟨t₁, h₁, hs⟩ := Trail.exists_of_run_append_singleton hr
    have ht₁ := Trail.empty_wellFormed.run h₁
    have hstance := ((Trail.apply_eq_ok_iff ht₁).mp hs).stance_eq ht₁
    cases hv : t.currentVariable? with
    | some v => exact ⟨v, rfl⟩
    | none =>
        rw [Trail.stance_of_none hv] at hstance
        exact absurd hstance (t₁.stance.take_ne_nowhere s)

/-- What compiling comes to, in the order of the checks. -/
theorem compile_cases (settings : CompilerSettings) :
    (steps = [] ∧ compile settings steps = .error (.traversal (.noCurrent "lower"))) ∨
    (∃ v edge, t.currentVariable? = some v ∧ t.ReadsEdge v edge ∧ edge.kind = .edge .both ∧
      compile settings steps = .error (.traversal (.undirectedHop edge.alias))) ∨
    (∃ v w, t.currentVariable? = some v ∧ t.Directed v ∧ FirstStray steps t v w ∧
      compile settings steps = .error (.traversal (.strayFilter w.alias v.alias))) ∨
    (∃ v q, t.currentVariable? = some v ∧ t.Directed v ∧
      (∀ w ∈ t.variables, ¬ Stray steps t v w) ∧ compile settings steps = .ok q) := by
  by_cases hne : steps = []
  · subst hne
    exact Or.inl ⟨rfl, rfl⟩
  · obtain ⟨v, hv⟩ := exists_current_of_run hr hne
    by_cases hb : ∃ edge, t.ReadsEdge v edge ∧ edge.kind = .edge .both
    · obtain ⟨edge, he, hb⟩ := hb
      exact Or.inr (Or.inl ⟨v, edge, hv, he, hb, compile_of_both hr hv he hb⟩)
    · have ht := (Trail.empty_wellFormed.run hr).toLayout
      have hm := (Trail.mem_of_currentVariable? hv).1
      have hd : t.Directed v := fun edge he hk => hb ⟨edge, he, hk⟩
      obtain ⟨r, hread⟩ := ht.exists_reading settings hm hd
      have hreads := Trail.reads_of_reading hread
      cases hs : Trail.stray? t.variables r with
      | some w =>
          have hw := (stray?_eq_some_iff hr hreads hm w).mp hs
          exact Or.inr (Or.inr (Or.inl ⟨v, w, hv, hd, hw, compile_of_firstStray hr hv hd hw⟩))
      | none =>
          have hn := (stray?_eq_none_iff hr hreads hm).mp hs
          obtain ⟨q, hq⟩ := compile_of_no_stray hr hv hd hn
          exact Or.inr (Or.inr (Or.inr ⟨v, q, hv, hd, hn, hq⟩))

end Runs

/-- What comes out of compiling steps, told from the steps and the trail they lead to. -/
structure Outcome (settings : CompilerSettings) (steps : List Step) (t : Trail) : Prop where
  nothing : compile settings steps = .error (.traversal (.noCurrent "lower")) ↔ steps = []
  undirected : ∀ name, compile settings steps = .error (.traversal (.undirectedHop name)) ↔
    ∃ v edge, t.currentVariable? = some v ∧ t.ReadsEdge v edge ∧ edge.kind = .edge .both ∧
      edge.alias = name
  stray : ∀ name fetch,
    compile settings steps = .error (.traversal (.strayFilter name fetch)) ↔
      ∃ v w, t.currentVariable? = some v ∧ v.alias = fetch ∧ t.Directed v ∧
        FirstStray steps t v w ∧ w.alias = name
  fetched : (∃ q, compile settings steps = .ok q) ↔
    ∃ v, t.currentVariable? = some v ∧ t.Directed v ∧
      ∀ w ∈ t.variables, Filtered steps w.alias → t.ReadsWith v w
  /-- No lookup by alias fails. -/
  found : ∀ name, compile settings steps ≠ .error (.traversal (.unknownVariable name)) ∧
    compile settings steps ≠ .error (.traversal (.detachedEdge name))

/-- A fetch is refused for want of steps, for an edge that was followed in both directions or for
the first filter that it leaves out, in this order, and for nothing else. -/
theorem compile_outcome {steps : List Step} {t : Trail} (h : trace steps = .ok t)
    (settings : CompilerSettings) : Outcome settings steps t := by
  have hr := trace_eq_ok_iff.mp h
  have hcases := compile_cases hr settings
  constructor
  · constructor
    · intro hc
      rcases hcases with ⟨rfl, _⟩ | ⟨_, _, _, _, _, hc'⟩ | ⟨_, _, _, _, _, hc'⟩ |
        ⟨_, _, _, _, _, hc'⟩
      · rfl
      all_goals
        rw [hc'] at hc
        cases hc
    · rintro rfl
      rfl
  · intro name
    constructor
    · intro hc
      rcases hcases with ⟨_, hc'⟩ | ⟨v, edge, hv, he, hb, hc'⟩ | ⟨_, _, _, _, _, hc'⟩ |
        ⟨_, _, _, _, _, hc'⟩ <;> rw [hc'] at hc <;> cases hc
      exact ⟨v, edge, hv, he, hb, rfl⟩
    · rintro ⟨v, edge, hv, he, hb, rfl⟩
      exact compile_of_both hr hv he hb
  · intro name fetch
    constructor
    · intro hc
      rcases hcases with ⟨_, hc'⟩ | ⟨_, _, _, _, _, hc'⟩ | ⟨v, w, hv, hd, hw, hc'⟩ |
        ⟨_, _, _, _, _, hc'⟩ <;> rw [hc'] at hc <;> cases hc
      exact ⟨v, w, hv, rfl, hd, hw, rfl⟩
    · rintro ⟨v, w, hv, rfl, hd, hw, rfl⟩
      exact compile_of_firstStray hr hv hd hw
  · constructor
    · rintro ⟨q, hc⟩
      rcases hcases with ⟨_, hc'⟩ | ⟨_, _, _, _, _, hc'⟩ | ⟨_, _, _, _, _, hc'⟩ |
        ⟨v, q', hv, hd, hn, hc'⟩ <;> rw [hc'] at hc <;> cases hc
      exact ⟨v, hv, hd, fun w hw hf => not_not.mp fun hno => hn w hw ⟨hf, hno⟩⟩
    · rintro ⟨v, hv, hd, hall⟩
      exact compile_of_no_stray hr hv hd fun w hw hstray => hstray.2 (hall w hw hstray.1)
  · intro name
    rcases hcases with ⟨_, hc⟩ | ⟨_, _, _, _, _, hc⟩ | ⟨_, _, _, _, _, hc⟩ |
      ⟨_, _, _, _, _, hc⟩ <;> rw [hc] <;> exact ⟨nofun, nofun⟩

/-- Over a labelled edge, back to where it came from and on over another one. -/
def leavingLabelBehind : List Step :=
  [.vertices [], .hopToEdge .outgoing ["knows"], .toEnd .start, .hop .incoming []]

theorem compile_outcome_leavingLabelBehind :
    ∃ t, trace leavingLabelBehind = .ok t ∧ Outcome {} leavingLabelBehind t ∧
      compile {} leavingLabelBehind = .error (.traversal (.strayFilter "E_0" "N_2")) := by
  obtain ⟨t, h⟩ : ∃ t, trace leavingLabelBehind = .ok t := ⟨_, rfl⟩
  exact ⟨t, h, compile_outcome h {}, rfl⟩

end DocWalk
