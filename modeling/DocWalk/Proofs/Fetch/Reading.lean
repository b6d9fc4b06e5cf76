import DocWalk.Proofs.Traversal.Stance

/-!
# What a fetch reads

A fetch reads a vertex alone, a vertex with the edge it was reached over, or an
edge with the vertex it was reached from. The three cases are stated through
the links of the trail; on a well-formed trail no lookup chooses between two of
them.
-/

namespace DocWalk

namespace CompilerSettings

/-- The array that holds an edge at the vertex it was followed from. -/
def arrayAtSource? (settings : CompilerSettings) : Direction → Option String
  | .outgoing => some settings.edgeField
  | .incoming => some settings.reverseEdgeField
  | .both => none

/-- The array that holds an edge at the vertex it was followed to. -/
def arrayAtSink? (settings : CompilerSettings) : Direction → Option String
  | .outgoing => some settings.reverseEdgeField
  | .incoming => some settings.edgeField
  | .both => none

end CompilerSettings

namespace Trail

/-- What a fetch of a variable reads. -/
inductive Reads (t : Trail) (settings : CompilerSettings) : Variable → Reading → Prop where
  | alone {v : Variable} (hk : v.kind = .vertex) (hl : ∀ l ∈ t.links, l.sink ≠ v.alias) :
      Reads t settings v ⟨v, none⟩
  | reached {v edge : Variable} {l : Link} {d : Direction} {field : String}
      (hk : v.kind = .vertex) (hl : l ∈ t.links) (hs : l.sink = v.alias)
      (he : edge ∈ t.variables) (hn : edge.alias = l.edge) (hd : edge.kind = .edge d)
      (hf : settings.arrayAtSink? d = some field) :
      Reads t settings v ⟨v, some (edge, field)⟩
  | edge {v source : Variable} {l : Link} {d : Direction} {field : String}
      (hk : v.kind = .edge d) (hl : l ∈ t.links) (he : l.edge = v.alias)
      (hs : source ∈ t.variables) (hn : source.alias = l.source)
      (hf : settings.arrayAtSource? d = some field) :
      Reads t settings v ⟨source, some (v, field)⟩

theorem mem_of_get {t : Trail} {name : String} {v : Variable} (h : t.get name = .ok v) :
    v ∈ t.variables ∧ v.alias = name := by
  rw [get] at h
  cases hf : t.find? name with
  | none =>
      rw [hf] at h
      cases h
  | some w =>
      rw [hf] at h
      cases h
      exact mem_of_find? hf

theorem mem_of_linkOf? {t : Trail} {name : String} {l : Link} (h : t.linkOf? name = some l) :
    l ∈ t.links ∧ l.edge = name :=
  ⟨List.mem_of_find?_eq_some h, by simpa using List.find?_some h⟩

theorem mem_of_incoming? {t : Trail} {name : String} {l : Link}
    (h : t.incoming? name = some l) : l ∈ t.links ∧ l.sink = name :=
  ⟨List.mem_reverse.mp (List.mem_of_find?_eq_some h), by simpa using List.find?_some h⟩

theorem sink_ne_of_incoming? {t : Trail} {name : String} (h : t.incoming? name = none) :
    ∀ l ∈ t.links, l.sink ≠ name := by
  intro l hl
  have hf := List.find?_eq_none.mp h l (List.mem_reverse.mpr hl)
  simpa using hf

/-- A reading is one of the three kinds. -/
theorem reads_of_reading {t : Trail} {settings : CompilerSettings} {v : Variable} {r : Reading}
    (h : t.reading settings v = .ok r) : t.Reads settings v r := by
  unfold reading at h
  cases hk : v.kind with
  | vertex =>
      simp only [hk] at h
      cases hi : t.incoming? v.alias with
      | none =>
          simp only [hi] at h
          cases h
          exact .alone hk (sink_ne_of_incoming? hi)
      | some l =>
          simp only [hi] at h
          obtain ⟨hl, hs⟩ := mem_of_incoming? hi
          obtain ⟨edge, hg, h⟩ := bind_eq_ok_iff.mp h
          obtain ⟨he, hn⟩ := mem_of_get hg
          cases hd : edge.kind with
          | vertex =>
              simp only [hd] at h
              cases h
          | edge d =>
              simp only [hd] at h
              cases d with
              | outgoing =>
                  cases h
                  exact .reached hk hl hs he hn hd rfl
              | incoming =>
                  cases h
                  exact .reached hk hl hs he hn hd rfl
              | both => cases h
  | edge d =>
      simp only [hk] at h
      cases hi : t.linkOf? v.alias with
      | none =>
          simp only [hi] at h
          cases h
      | some l =>
          simp only [hi] at h
          obtain ⟨hl, he⟩ := mem_of_linkOf? hi
          cases d with
          | outgoing =>
              obtain ⟨source, hg, h⟩ := bind_eq_ok_iff.mp h
              obtain ⟨hs, hn⟩ := mem_of_get hg
              cases h
              exact .edge hk hl he hs hn rfl
          | incoming =>
              obtain ⟨source, hg, h⟩ := bind_eq_ok_iff.mp h
              obtain ⟨hs, hn⟩ := mem_of_get hg
              cases h
              exact .edge hk hl he hs hn rfl
          | both => cases h

/-- A fetch of a bound variable reads bound variables. -/
theorem Reads.members_mem {t : Trail} {settings : CompilerSettings} {v : Variable} {r : Reading}
    (h : t.Reads settings v r) (hv : v ∈ t.variables) : ∀ w ∈ r.members, w ∈ t.variables := by
  cases h with
  | alone hk hl => simpa [Reading.members] using hv
  | reached hk hl hs he hn hd hf => simpa [Reading.members] using ⟨hv, he⟩
  | edge hk hl he hs hn hf => simpa [Reading.members] using ⟨hs, hv⟩

/-- The only fetch of a variable is of what it reads, with no filter left out. -/
theorem fetchWithin_eq_ok {t : Trail} {settings : CompilerSettings} {scope : List Variable}
    {v : Variable} {q : Fetch} (h : t.fetchWithin settings scope v = .ok q) :
    ∃ r, t.Reads settings v r ∧ stray? scope r = none ∧
      q = Fetch.ofReading settings r v.alias := by
  obtain ⟨r, hr, h⟩ := bind_eq_ok_iff.mp h
  cases hs : stray? scope r with
  | some w =>
      simp only [hs] at h
      cases h
  | none =>
      simp only [hs] at h
      cases h
      exact ⟨r, reads_of_reading hr, hs, rfl⟩

end Trail

/-- The conjunction of the filters of what is read. -/
def Reading.filter? (r : Reading) : Option Expr :=
  r.members.foldl (fun filter v => conjoinBy filter v.filter) none

/-- What the filters of all members have and a conjunction keeps. -/
theorem Reading.forall_mem_filter? {Q : Expr → Prop}
    (hQ : ∀ l r, Q l → Q r → Q (.connect (.paren l) .and (.paren r))) {r : Reading}
    (h : ∀ w ∈ r.members, ∀ e ∈ w.filter, Q e) : ∀ e ∈ r.filter?, Q e := by
  have hfold : ∀ (vs : List Variable) (filter : Option Expr), (∀ e ∈ filter, Q e) →
      (∀ w ∈ vs, ∀ e ∈ w.filter, Q e) →
      ∀ e ∈ vs.foldl (fun filter v => conjoinBy filter v.filter) filter, Q e := by
    intro vs
    induction vs with
    | nil =>
        intro filter hf _
        exact hf
    | cons v vs ih =>
        intro filter hf hvs
        obtain ⟨hv, hvs⟩ := List.forall_mem_cons.mp hvs
        exact ih _ (forall_mem_conjoinBy (fun _ h => h) (fun _ h => h) hQ hf hv) hvs
  exact hfold r.members none (by simp) h

namespace Fetch

/-- The fetch of a reading, part by part. -/
theorem ofReading_eq (settings : CompilerSettings) (r : Reading) (target : String) :
    ofReading settings r target =
      { ofSettings settings with
        node := some r.vertex.alias
        edge := r.edge.map fun (p : Variable × String) => p.1.alias
        select := [⟨target, none⟩]
        joins := r.edge.toList.map fun (p : Variable × String) =>
          ⟨p.1.alias, r.vertex.alias ++ "." ++ p.2⟩
        filter := some (r.filter?.getD (Expr.truth true)) } := by
  obtain ⟨⟨_, _, _, filter⟩, edge⟩ := r
  cases edge with
  | none => cases filter <;> rfl
  | some p =>
      obtain ⟨⟨_, _, _, edgeFilter⟩, field⟩ := p
      cases filter <;> cases edgeFilter <;> rfl

/-- A fetch has a filter: that of what it reads, or else one that is always true. -/
theorem filter_ofReading (settings : CompilerSettings) (r : Reading) (target : String) :
    (ofReading settings r target).filter = some (r.filter?.getD (Expr.truth true)) := by
  rw [ofReading_eq]

end Fetch

theorem compile_eq_ok {settings : CompilerSettings} {steps : List Step} {q : Fetch}
    (h : compile settings steps = .ok q) :
    ∃ t v, Trail.empty.run steps = .ok t ∧ t.currentVariable? = some v ∧
      t.fetchWithin settings t.variables v = .ok q := by
  obtain ⟨t, ht, h⟩ := bind_eq_ok_iff.mp h
  obtain ⟨v, hv, h⟩ := bind_eq_ok_iff.mp (mapError_eq_ok_iff.mp h)
  refine ⟨t, v, trace_eq_ok_iff.mp ht, ?_, h⟩
  rw [Trail.require] at hv
  cases hc : t.currentVariable? with
  | none =>
      rw [hc] at hv
      cases hv
  | some w =>
      rw [hc] at hv
      cases hv
      rfl

theorem compileVariable_eq_ok {settings : CompilerSettings} {steps : List Step} {name : String}
    {q : Fetch} (h : compileVariable settings steps name = .ok q) :
    ∃ t v, Trail.empty.run steps = .ok t ∧ t.get name = .ok v ∧
      t.fetchWithin settings (t.scopeOf name) v = .ok q := by
  obtain ⟨t, ht, h⟩ := bind_eq_ok_iff.mp h
  obtain ⟨v, hv, h⟩ := bind_eq_ok_iff.mp (mapError_eq_ok_iff.mp h)
  exact ⟨t, v, trace_eq_ok_iff.mp ht, hv, h⟩

/-- The fetch at the end of a list of steps, or that of one of the variables along them. -/
def Compiled (settings : CompilerSettings) (steps : List Step) (q : Fetch) : Prop :=
  compile settings steps = .ok q ∨ ∃ name, compileVariable settings steps name = .ok q

/-- Either way a fetch reads bound variables of the trail and nothing else. -/
theorem Compiled.exists_reading {settings : CompilerSettings} {steps : List Step} {q : Fetch}
    (h : Compiled settings steps q) :
    ∃ t v r, Trail.empty.run steps = .ok t ∧ v ∈ t.variables ∧ t.Reads settings v r ∧
      q = Fetch.ofReading settings r v.alias := by
  rcases h with h | ⟨name, h⟩
  · obtain ⟨t, v, ht, hv, hq⟩ := compile_eq_ok h
    obtain ⟨r, hr, _, rfl⟩ := Trail.fetchWithin_eq_ok hq
    exact ⟨t, v, r, ht, (Trail.mem_of_currentVariable? hv).1, hr, rfl⟩
  · obtain ⟨t, v, ht, hv, hq⟩ := compileVariable_eq_ok h
    obtain ⟨r, hr, _, rfl⟩ := Trail.fetchWithin_eq_ok hq
    exact ⟨t, v, r, ht, (Trail.mem_of_get hv).1, hr, rfl⟩

end DocWalk
