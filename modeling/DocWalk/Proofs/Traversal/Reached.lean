import DocWalk.Proofs.Traversal.Stance

/-!
# Trails that steps lead to

What a trail looks like at the end of any run from the empty one, in terms of
its variables, its links and its current alias alone.
-/

namespace DocWalk

namespace Trail

/-- A trail whose aliases, numbers, links and current alias agree with each other. -/
structure Orderly (t : Trail) : Prop where
  distinct : (t.variables.map (·.alias)).Nodup
  /-- The vertices are named in the order of their declaration. -/
  vertices : (t.variables.filter (·.kind.isVertex)).map (·.alias) =
    (List.range t.vertexCount).map vertexAlias
  /-- The edges are named in the order of their declaration. -/
  edges : (t.variables.filter (·.kind.isEdge)).map (·.alias) =
    (List.range t.edgeCount).map edgeAlias
  vertexCount : t.vertexCount = (t.variables.filter (·.kind.isVertex)).length
  edgeCount : t.edgeCount = (t.variables.filter (·.kind.isEdge)).length
  current_none : t.current = none ↔ t.variables = []
  current_bound : ∀ name, t.current = some name → ∃ v ∈ t.variables, v.alias = name
  /-- The source of a link is bound before its edge, and its sink right after it. -/
  links : ∀ l ∈ t.links, ∃ (i j : Nat) (source edge sink : Variable), i < j ∧
    t.variables[i]? = some source ∧ t.variables[j]? = some edge ∧
    t.variables[j + 1]? = some sink ∧
    (source.alias = l.source ∧ source.kind = .vertex) ∧
    (edge.alias = l.edge ∧ edge.kind.isEdge = true) ∧
    (sink.alias = l.sink ∧ sink.kind = .vertex)
  /-- Every edge is on one link. -/
  edge_link : ∀ v ∈ t.variables, v.kind.isEdge = true →
    (t.links.filter (·.edge == v.alias)).length = 1
  /-- No vertex is the sink of two links. -/
  sink_link : ∀ v ∈ t.variables, v.kind.isVertex = true →
    (t.links.filter (·.sink == v.alias)).length ≤ 1
  /-- A lookup of a link finds the only one there is. -/
  lookups : ∀ l ∈ t.links, t.incoming? l.sink = some l ∧ t.linkOf? l.edge = some l

theorem vertexAliases_eq (t : Trail) :
    t.vertexAliases = (t.variables.filter (·.kind.isVertex)).map (·.alias) := by
  simp only [vertexAliases, outline, List.filter_map, List.map_map]
  rfl

theorem edgeAliases_eq (t : Trail) :
    t.edgeAliases = (t.variables.filter (·.kind.isEdge)).map (·.alias) := by
  simp only [edgeAliases, outline, List.filter_map, List.map_map]
  rfl

/-- Where a key tells the items of a list apart, at most one of them has a given key. -/
theorem length_filter_key_le_one {α : Type} (key : α → String) {xs : List α}
    (hn : (xs.map key).Nodup) (name : String) : (xs.filter (key · == name)).length ≤ 1 := by
  have hc : (xs.filter (key · == name)).length = (xs.map key).count name := by
    rw [List.count, List.countP_map, List.countP_eq_length_filter]
    rfl
  rw [hc]
  exact List.nodup_iff_count_le_one.mp hn name

theorem exists_of_getElem?_outline {t : Trail} {n : Nat} {name : String} {k : Kind}
    (h : t.outline[n]? = some (name, k)) :
    ∃ v, t.variables[n]? = some v ∧ v.alias = name ∧ v.kind = k := by
  rw [outline, List.getElem?_map] at h
  obtain ⟨v, hv, he⟩ := Option.map_eq_some_iff.mp h
  exact ⟨v, hv, congrArg Prod.fst he, congrArg Prod.snd he⟩

/-- The places of a link's variables in the order of their declaration. -/
theorem Spans.positions {t : Trail} {l : Link} (h : Spans t.outline l) :
    ∃ (i j : Nat) (source edge sink : Variable), i < j ∧
      t.variables[i]? = some source ∧ t.variables[j]? = some edge ∧
      t.variables[j + 1]? = some sink ∧
      (source.alias = l.source ∧ source.kind = .vertex) ∧
      (edge.alias = l.edge ∧ edge.kind.isEdge = true) ∧
      (sink.alias = l.sink ∧ sink.kind = .vertex) := by
  obtain ⟨before, d, after, ho, hs⟩ := h
  obtain ⟨i, hi⟩ := List.mem_iff_getElem?.mp hs
  have hlt : i < before.length := (List.getElem?_eq_some_iff.mp hi).1
  have hi : t.outline[i]? = some (l.source, .vertex) := by
    rw [ho, List.getElem?_append_left hlt, hi]
  have hj : t.outline[before.length]? = some (l.edge, .edge d) := by
    simp [ho]
  have hk : t.outline[before.length + 1]? = some (l.sink, .vertex) := by
    simp [ho]
  obtain ⟨source, hsource, hs₁, hs₂⟩ := exists_of_getElem?_outline hi
  obtain ⟨edge, hedge, he₁, he₂⟩ := exists_of_getElem?_outline hj
  obtain ⟨sink, hsink, hk₁, hk₂⟩ := exists_of_getElem?_outline hk
  exact ⟨i, before.length, source, edge, sink, hlt, hsource, hedge, hsink, ⟨hs₁, hs₂⟩,
    ⟨he₁, he₂ ▸ rfl⟩, ⟨hk₁, hk₂⟩⟩

theorem WellFormed.orderly {t : Trail} (ht : t.WellFormed) : t.Orderly where
  distinct := t.aliases_eq ▸ ht.nodup
  vertices := t.vertexAliases_eq ▸ ht.vertices
  edges := t.edgeAliases_eq ▸ ht.edges
  vertexCount := by
    have hl := congrArg List.length (t.vertexAliases_eq ▸ ht.vertices)
    simpa using hl.symm
  edgeCount := by
    have hl := congrArg List.length (t.edgeAliases_eq ▸ ht.edges)
    simpa using hl.symm
  current_none := by
    rw [ht.current_none, outline, List.map_eq_nil_iff]
  current_bound := by
    intro name hc
    obtain ⟨v, hv, he⟩ := List.mem_map.mp (t.aliases_eq ▸ ht.current_mem name hc)
    exact ⟨v, hv, he⟩
  links := fun l hl => (ht.spans l hl).positions
  edge_link := by
    intro v hv hk
    obtain ⟨l, hl, he⟩ := ht.exists_link (mem_outline hv) hk
    have hpos : 0 < (t.links.filter (·.edge == v.alias)).length :=
      List.length_pos_of_mem (List.mem_filter.mpr ⟨hl, by simpa using he⟩)
    have hle := length_filter_key_le_one Link.edge ht.edges_nodup v.alias
    omega
  sink_link := fun v _ _ => length_filter_key_le_one Link.sink ht.sinks v.alias
  lookups := fun l hl => ⟨ht.incoming?_of_mem hl, ht.linkOf?_of_mem hl⟩

/-- Every run from the empty trail ends in an orderly one. -/
theorem run_orderly {steps : List Step} {t : Trail} (h : empty.run steps = .ok t) : t.Orderly :=
  (empty_wellFormed.run h).orderly

/-- Back over an edge to the vertex it came from, and out of that vertex again. -/
def backAndOut : List Step :=
  [.vertices ["1"], .hopToEdge .outgoing ["knows"], .toEnd .start, .hop .incoming []]

theorem run_orderly_backAndOut : ∃ t, empty.run backAndOut = .ok t ∧ t.Orderly := by
  obtain ⟨t, h⟩ : ∃ t, empty.run backAndOut = .ok t := ⟨_, rfl⟩
  exact ⟨t, h, run_orderly h⟩

end Trail

end DocWalk
