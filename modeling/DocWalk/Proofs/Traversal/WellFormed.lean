import DocWalk.Proofs.Traversal.Variables

/-!
# Well-formed trails

A trail numbers its vertices and its edges apart, and every hop binds an edge,
the vertex behind it and the link between them at once. The aliases, the
numbers and the links therefore determine each other, and every lookup of a
trail has at most one answer.

## Implementation notes

Filters and labels play no part here, so the layout is stated for the outline
of a trail, its aliases with their kinds. What a step does with the current
alias is kept apart from the layout: between binding a variable and standing on
it a trail has a layout but may have no current variable.
-/

namespace DocWalk

namespace Trail

/-- The aliases in the order of their declaration, each with its kind. -/
def outline (t : Trail) : List (String × Kind) :=
  t.variables.map fun v => (v.alias, v.kind)

/-- Add labels and a condition to the variables with the given alias. -/
def restrictAt (t : Trail) (name : String) (labels : List String) (c : Option Expr) : Trail :=
  { t with
    «variables» := Variable.alter name (fun v => (v.addLabels labels).restrictBy c) t.variables
    filter := conjoinBy t.filter c }

/-- Make an alias the current one. -/
def standOn (t : Trail) (name : String) : Trail :=
  { t with current := some name }

@[simp] theorem outline_restrictAt (t : Trail) (name : String) (labels : List String)
    (c : Option Expr) : (t.restrictAt name labels c).outline = t.outline := by
  apply Variable.map_alter
  intro v
  rfl

@[simp] theorem outline_standOn (t : Trail) (name : String) :
    (t.standOn name).outline = t.outline := rfl

@[simp] theorem outline_addLink (t : Trail) (l : Link) : (t.addLink l).outline = t.outline := rfl

@[simp] theorem outline_declare (t : Trail) (k : Kind) :
    (t.declare k).outline = t.outline ++ [(t.nextAlias k, k)] := by
  cases k <;> simp [declare, outline, Kind.isVertex]

@[simp] theorem links_declare (t : Trail) (k : Kind) : (t.declare k).links = t.links := by
  cases k <;> rfl

@[simp] theorem variables_declare (t : Trail) (k : Kind) :
    (t.declare k).variables = t.variables ++ [Variable.fresh (t.nextAlias k) k] := by
  cases k <;> rfl

theorem mem_outline {t : Trail} {v : Variable} (h : v ∈ t.variables) :
    (v.alias, v.kind) ∈ t.outline :=
  List.mem_map_of_mem h

theorem exists_of_mem_outline {t : Trail} {name : String} {k : Kind}
    (h : (name, k) ∈ t.outline) : ∃ v ∈ t.variables, v.alias = name ∧ v.kind = k := by
  obtain ⟨v, hv, he⟩ := List.mem_map.mp h
  exact ⟨v, hv, congrArg Prod.fst he, congrArg Prod.snd he⟩

/-- The aliases that are bound. -/
def aliases (t : Trail) : List String :=
  t.outline.map Prod.fst

theorem aliases_eq (t : Trail) : t.aliases = t.variables.map (·.alias) := by
  simp only [aliases, outline, List.map_map]
  rfl

theorem mem_aliases {t : Trail} {v : Variable} (h : v ∈ t.variables) : v.alias ∈ t.aliases :=
  List.mem_map_of_mem (mem_outline h)

/-- The aliases of the vertices, in the order of their declaration. -/
def vertexAliases (t : Trail) : List String :=
  (t.outline.filter (·.2.isVertex)).map Prod.fst

/-- The aliases of the edges, in the order of their declaration. -/
def edgeAliases (t : Trail) : List String :=
  (t.outline.filter (·.2.isEdge)).map Prod.fst

theorem mem_vertexAliases {t : Trail} {name : String} {k : Kind} (h : (name, k) ∈ t.outline)
    (hk : k.isVertex = true) : name ∈ t.vertexAliases :=
  List.mem_map.mpr ⟨(name, k), List.mem_filter.mpr ⟨h, hk⟩, rfl⟩

theorem mem_edgeAliases {t : Trail} {name : String} {k : Kind} (h : (name, k) ∈ t.outline)
    (hk : k.isEdge = true) : name ∈ t.edgeAliases :=
  List.mem_map.mpr ⟨(name, k), List.mem_filter.mpr ⟨h, hk⟩, rfl⟩

@[simp] theorem vertexAliases_declare_vertex (t : Trail) :
    (t.declare .vertex).vertexAliases = t.vertexAliases ++ [vertexAlias t.vertexCount] := by
  rw [vertexAliases, outline_declare, List.filter_append, List.map_append]
  rfl

@[simp] theorem edgeAliases_declare_vertex (t : Trail) :
    (t.declare .vertex).edgeAliases = t.edgeAliases := by
  rw [edgeAliases, outline_declare, List.filter_append, List.map_append]
  exact List.append_nil _

/-- A link whose source is bound before its edge and whose sink is bound right after it. -/
def Spans (outline : List (String × Kind)) (l : Link) : Prop :=
  ∃ before d after, outline = before ++ (l.edge, .edge d) :: (l.sink, .vertex) :: after ∧
    (l.source, .vertex) ∈ before

theorem Spans.append {outline : List (String × Kind)} {l : Link} (h : Spans outline l)
    (more : List (String × Kind)) : Spans (outline ++ more) l := by
  obtain ⟨before, d, after, ho, hs⟩ := h
  exact ⟨before, d, after ++ more, by simp [ho], hs⟩

theorem Spans.source_mem {outline : List (String × Kind)} {l : Link} (h : Spans outline l) :
    (l.source, Kind.vertex) ∈ outline := by
  obtain ⟨before, d, after, ho, hs⟩ := h
  exact ho ▸ List.mem_append_left _ hs

theorem Spans.sink_mem {outline : List (String × Kind)} {l : Link} (h : Spans outline l) :
    (l.sink, Kind.vertex) ∈ outline := by
  obtain ⟨before, d, after, ho, hs⟩ := h
  simp [ho]

/-- How the variables and the links of a trail are laid out. -/
structure Layout (t : Trail) : Prop where
  nodup : t.aliases.Nodup
  vertices : t.vertexAliases = (List.range t.vertexCount).map vertexAlias
  edges : t.edgeAliases = (List.range t.edgeCount).map edgeAlias
  spans : ∀ l ∈ t.links, Spans t.outline l
  /-- Links are made in the order in which their edges are bound. -/
  linked : t.links.map (·.edge) = t.edgeAliases
  sinks : (t.links.map (·.sink)).Nodup

/-- A trail that is laid out and stands on one of its variables, if it has any. -/
structure WellFormed (t : Trail) : Prop extends Layout t where
  current_none : t.current = none ↔ t.outline = []
  current_mem : ∀ name, t.current = some name → name ∈ t.aliases

theorem Layout.congr {t t' : Trail} (ht : t.Layout) (ho : t'.outline = t.outline)
    (hl : t'.links = t.links) (hv : t'.vertexCount = t.vertexCount)
    (he : t'.edgeCount = t.edgeCount) : t'.Layout where
  nodup := by simpa only [aliases, ho] using ht.nodup
  vertices := by simpa only [vertexAliases, ho, hv] using ht.vertices
  edges := by simpa only [edgeAliases, ho, he] using ht.edges
  spans := by simpa only [ho, hl] using ht.spans
  linked := by simpa only [edgeAliases, ho, hl] using ht.linked
  sinks := by simpa only [hl] using ht.sinks

theorem Layout.restrictAt {t : Trail} (ht : t.Layout) (name : String) (labels : List String)
    (c : Option Expr) : (t.restrictAt name labels c).Layout :=
  ht.congr (outline_restrictAt t name labels c) rfl rfl rfl

theorem Layout.exists_vertexAlias {t : Trail} (ht : t.Layout) {name : String}
    (h : (name, Kind.vertex) ∈ t.outline) : ∃ n < t.vertexCount, name = vertexAlias n := by
  have hv := mem_vertexAliases h rfl
  rw [ht.vertices] at hv
  obtain ⟨n, hn, rfl⟩ := List.mem_map.mp hv
  exact ⟨n, List.mem_range.mp hn, rfl⟩

theorem Layout.exists_edgeAlias {t : Trail} (ht : t.Layout) {name : String} {d : Direction}
    (h : (name, Kind.edge d) ∈ t.outline) : ∃ n < t.edgeCount, name = edgeAlias n := by
  have he := mem_edgeAliases h rfl
  rw [ht.edges] at he
  obtain ⟨n, hn, rfl⟩ := List.mem_map.mp he
  exact ⟨n, List.mem_range.mp hn, rfl⟩

/-- A number that has been given out belongs to a bound vertex or edge. -/
theorem Layout.numbered {t : Trail} (ht : t.Layout) {name : String} (h : name ∈ t.aliases) :
    (∃ n < t.vertexCount, name = vertexAlias n) ∨ (∃ n < t.edgeCount, name = edgeAlias n) := by
  obtain ⟨⟨a, k⟩, hm, rfl⟩ := List.mem_map.mp h
  cases k with
  | vertex => exact Or.inl (ht.exists_vertexAlias hm)
  | edge d => exact Or.inr (ht.exists_edgeAlias hm)

theorem Layout.vertexAlias_notMem {t : Trail} (ht : t.Layout) :
    vertexAlias t.vertexCount ∉ t.aliases := by
  intro h
  rcases ht.numbered h with ⟨n, hn, he⟩ | ⟨n, _, he⟩
  · have := vertexAlias_injective he
    omega
  · exact vertexAlias_ne_edgeAlias _ _ he

theorem Layout.edgeAlias_notMem {t : Trail} (ht : t.Layout) :
    edgeAlias t.edgeCount ∉ t.aliases := by
  intro h
  rcases ht.numbered h with ⟨n, _, he⟩ | ⟨n, hn, he⟩
  · exact vertexAlias_ne_edgeAlias _ _ he.symm
  · have := edgeAlias_injective he
    omega

theorem Layout.nodup_declare {t : Trail} (ht : t.Layout) (k : Kind) :
    (t.declare k).aliases.Nodup := by
  have hnew : t.nextAlias k ∉ t.aliases := by
    cases k with
    | vertex => exact ht.vertexAlias_notMem
    | edge d => exact ht.edgeAlias_notMem
  simp only [aliases, outline_declare, List.map_append, List.map_cons, List.map_nil]
  apply List.nodup_append.mpr
  refine ⟨ht.nodup, by simp, ?_⟩
  intro a ha b hb
  rw [List.mem_singleton.mp hb]
  exact fun he => hnew (he ▸ ha)

/-- Binding a vertex alone keeps the layout. -/
theorem Layout.declare_vertex {t : Trail} (ht : t.Layout) : (t.declare .vertex).Layout where
  nodup := ht.nodup_declare .vertex
  vertices := by
    rw [vertexAliases_declare_vertex, ht.vertices]
    change _ = (List.range (t.vertexCount + 1)).map vertexAlias
    simp [List.range_succ]
  edges := by
    rw [edgeAliases_declare_vertex, ht.edges]
    rfl
  spans := by
    intro l hl
    rw [outline_declare]
    exact (ht.spans l (by simpa using hl)).append _
  linked := by simpa using ht.linked
  sinks := by simpa using ht.sinks

/-- Bind an edge with the given labels and the vertex behind it, linked to a source. -/
def bindHop (t : Trail) (source : String) (d : Direction) (labels : List String) : Trail :=
  let edge := edgeAlias t.edgeCount
  let bound := (t.declare (.edge d)).restrictAt edge labels (oneOf edge labelProperty labels)
  (bound.declare .vertex).addLink ⟨source, edge, vertexAlias t.vertexCount⟩

theorem outline_bindHop (t : Trail) (source : String) (d : Direction) (labels : List String) :
    (t.bindHop source d labels).outline =
      t.outline ++ [(edgeAlias t.edgeCount, .edge d), (vertexAlias t.vertexCount, .vertex)] := by
  simp [bindHop]
  rfl

theorem links_bindHop (t : Trail) (source : String) (d : Direction) (labels : List String) :
    (t.bindHop source d labels).links =
      t.links ++ [⟨source, edgeAlias t.edgeCount, vertexAlias t.vertexCount⟩] := by
  simp [bindHop, addLink, Trail.restrictAt]

/-- A hop from a bound vertex keeps the layout. -/
theorem Layout.bindHop {t : Trail} (ht : t.Layout) {source : String}
    (hs : (source, Kind.vertex) ∈ t.outline) (d : Direction) (labels : List String) :
    (t.bindHop source d labels).Layout where
  nodup := by
    have hal : (t.bindHop source d labels).aliases =
        t.aliases ++ [edgeAlias t.edgeCount, vertexAlias t.vertexCount] := by
      simp [aliases, outline_bindHop]
    have hne : edgeAlias t.edgeCount ≠ vertexAlias t.vertexCount :=
      (vertexAlias_ne_edgeAlias _ _).symm
    rw [hal]
    refine List.nodup_append.mpr ⟨ht.nodup, by simpa using hne, ?_⟩
    rintro a ha b hb rfl
    rcases List.mem_cons.mp hb with rfl | hb
    · exact ht.edgeAlias_notMem ha
    · rw [List.mem_singleton.mp hb] at ha
      exact ht.vertexAlias_notMem ha
  vertices := by
    change _ = (List.range (t.vertexCount + 1)).map vertexAlias
    have hv := ht.vertices
    simp only [vertexAliases, outline_bindHop, List.filter_append, List.map_append] at hv ⊢
    rw [hv, List.range_succ, List.map_append]
    rfl
  edges := by
    change _ = (List.range (t.edgeCount + 1)).map edgeAlias
    have he := ht.edges
    simp only [edgeAliases, outline_bindHop, List.filter_append, List.map_append] at he ⊢
    rw [he, List.range_succ, List.map_append]
    rfl
  spans := by
    intro l hl
    rw [links_bindHop] at hl
    rw [outline_bindHop]
    rcases List.mem_append.mp hl with hl | hl
    · exact (ht.spans l hl).append _
    · rw [List.mem_singleton.mp hl]
      exact ⟨t.outline, d, [], rfl, hs⟩
  linked := by
    have hl := ht.linked
    simp only [edgeAliases, outline_bindHop, links_bindHop, List.filter_append,
      List.map_append] at hl ⊢
    rw [hl]
    rfl
  sinks := by
    rw [links_bindHop, List.map_append]
    refine List.nodup_append.mpr ⟨ht.sinks, by simp, ?_⟩
    rintro a ha b hb rfl
    obtain ⟨l, hl, rfl⟩ := List.mem_map.mp ha
    -- every earlier sink is bound already, and the new one is not
    have hm : l.sink ∈ t.aliases := List.mem_map_of_mem (ht.spans l hl).sink_mem
    rw [List.mem_singleton.mp hb] at hm
    exact ht.vertexAlias_notMem hm

theorem Layout.standOn {t : Trail} (ht : t.Layout) {name : String} (h : name ∈ t.aliases) :
    (t.standOn name).WellFormed where
  toLayout := ht.congr rfl rfl rfl rfl
  current_none := by
    constructor
    · intro hc
      cases hc
    · intro ho
      have ho : t.outline = [] := ho
      simp [aliases, ho] at h
  current_mem := by
    intro a ha
    cases ha
    exact h

theorem WellFormed.restrictAt {t : Trail} (ht : t.WellFormed) (name : String)
    (labels : List String) (c : Option Expr) : (t.restrictAt name labels c).WellFormed where
  toLayout := ht.toLayout.restrictAt name labels c
  current_none := by
    rw [outline_restrictAt]
    exact ht.current_none
  current_mem := by
    intro a ha
    simpa only [aliases, outline_restrictAt] using ht.current_mem a ha

theorem empty_wellFormed : empty.WellFormed where
  nodup := List.nodup_nil
  vertices := rfl
  edges := rfl
  spans := by simp [empty]
  linked := rfl
  sinks := List.nodup_nil
  current_none := ⟨fun _ => rfl, fun _ => rfl⟩
  current_mem := by simp [empty]

section Lookup

variable {t : Trail}

theorem Layout.find?_of_mem (ht : t.Layout) {v : Variable} (h : v ∈ t.variables) :
    t.find? v.alias = some v :=
  find?_of_nodup_map Variable.alias (t.aliases_eq ▸ ht.nodup) h

theorem mem_of_find? {name : String} {v : Variable} (h : t.find? name = some v) :
    v ∈ t.variables ∧ v.alias = name :=
  ⟨List.mem_of_find?_eq_some h, by simpa using List.find?_some h⟩

theorem exists_find? {name : String} (h : name ∈ t.aliases) :
    ∃ v, t.find? name = some v := by
  rw [aliases_eq] at h
  obtain ⟨v, hv, rfl⟩ := List.mem_map.mp h
  apply Option.isSome_iff_exists.mp
  exact List.find?_isSome.mpr ⟨v, hv, by simp⟩

/-- Two bound variables with one alias are one variable. -/
theorem Layout.eq_of_alias_eq (ht : t.Layout) {v w : Variable} (hv : v ∈ t.variables)
    (hw : w ∈ t.variables) (h : v.alias = w.alias) : v = w := by
  have hf := ht.find?_of_mem hv
  rw [h, ht.find?_of_mem hw] at hf
  exact (Option.some.inj hf).symm

theorem mem_of_currentVariable? {v : Variable} (h : t.currentVariable? = some v) :
    v ∈ t.variables ∧ t.current = some v.alias := by
  obtain ⟨name, hc, hf⟩ := Option.bind_eq_some_iff.mp h
  obtain ⟨hv, rfl⟩ := mem_of_find? hf
  exact ⟨hv, hc⟩

theorem Layout.edges_nodup (ht : t.Layout) : (t.links.map (·.edge)).Nodup := by
  rw [ht.linked]
  exact ht.nodup.sublist (List.filter_sublist.map Prod.fst)

theorem Layout.linkOf?_of_mem (ht : t.Layout) {l : Link} (h : l ∈ t.links) :
    t.linkOf? l.edge = some l :=
  find?_of_nodup_map Link.edge ht.edges_nodup h

theorem Layout.incoming?_of_mem (ht : t.Layout) {l : Link} (h : l ∈ t.links) :
    t.incoming? l.sink = some l := by
  have hn : (t.links.reverse.map (·.sink)).Nodup := by
    rw [List.map_reverse]
    exact List.nodup_reverse.mpr ht.sinks
  exact find?_of_nodup_map Link.sink hn (List.mem_reverse.mpr h)

/-- Every bound edge is on a link. -/
theorem Layout.exists_link (ht : t.Layout) {name : String} {k : Kind}
    (h : (name, k) ∈ t.outline) (hk : k.isEdge = true) : ∃ l ∈ t.links, l.edge = name := by
  have he := mem_edgeAliases h hk
  rw [← ht.linked] at he
  exact List.mem_map.mp he

end Lookup

end Trail

end DocWalk
