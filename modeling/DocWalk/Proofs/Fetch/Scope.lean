import DocWalk.Proofs.Expr.Hoist
import DocWalk.Proofs.Fetch.Reading
import DocWalk.Proofs.Fetch.Text
import DocWalk.Proofs.Traversal.Conditions

/-!
# The names in a query text

The text of a fetch binds the vertex first, then one name for each array that
it joins, and uses these names in its projection, its condition and the
sources of the joins. The names come from three places: vertices and edges are
numbered by the trail, the variables of nested properties by the walk over the
condition. No two of them meet, and every name is bound once, before its use.

## Implementation notes

A binding keeps the name that its source starts from apart from the way that
follows. The texts of both dialects are given through bindings, so what is
said about the bindings is said about the text.
-/

namespace DocWalk

/-- A name for the items of an array, found by following a way from another name. -/
structure Binding where
  name : String
  root : String
  way : String
deriving DecidableEq, Repr

/-- Bindings that can be made one after the other: each starts from a name that is bound and binds
one that is not. -/
def Bindable : List String → List Binding → Prop
  | _, [] => True
  | bound, b :: bs => b.root ∈ bound ∧ b.name ∉ bound ∧ Bindable (bound ++ [b.name]) bs

/-- What a query text binds, in order, and which names it uses besides. -/
structure Scope where
  start : String
  bindings : List Binding
  uses : List String

/-- Every name is bound once, and before its use. -/
def Scope.Closed (s : Scope) : Prop :=
  Bindable [s.start] s.bindings ∧ ∀ name ∈ s.uses, name ∈ s.start :: s.bindings.map (·.name)

/-- Bindings that all start from one bound name can be made when their names are new. -/
theorem bindable_of_nodup {root : String} {bound : List String} {bs : List Binding}
    (hroot : root ∈ bound) (hbs : ∀ b ∈ bs, b.root = root)
    (hn : (bound ++ bs.map (·.name)).Nodup) : Bindable bound bs := by
  induction bs generalizing bound with
  | nil => trivial
  | cons b bs ih =>
      obtain ⟨hb, hbs⟩ := List.forall_mem_cons.mp hbs
      have hn' : (bound ++ [b.name] ++ bs.map (·.name)).Nodup := by
        simpa using hn
      refine ⟨hb ▸ hroot, ?_, ih (by simp [hroot]) hbs hn'⟩
      intro hm
      exact (List.nodup_append.mp hn).2.2 _ hm _ (by simp) rfl

/-- The conditions of steps speak of the variable they are about. -/
theorem tables_conjunctive : Conjunctive fun name e => ∀ c ∈ e.columns, c.table = name := by
  apply conjunctive_of_atoms
  · simp [Column.property]
  · simp [Column.property]
  · simp [Expr.truth]
  · intro name e key v he
    simpa [Expr.propertyIs, Column.property, or_imp, forall_and] using he
  · intro name l r hl hr
    simpa [or_imp, forall_and] using ⟨hl, hr⟩

namespace Reading

/-- The filter of what is read speaks of nothing else. -/
theorem tables_filter? {r : Reading}
    (h : ∀ w ∈ r.members, ∀ e ∈ w.filter, ∀ c ∈ e.columns, c.table = w.alias) :
    ∀ c ∈ (r.filter?.getD (Expr.truth true)).columns, ∃ w ∈ r.members, c.table = w.alias := by
  have hall : ∀ e ∈ r.filter?, ∀ c ∈ e.columns, ∃ w ∈ r.members, c.table = w.alias := by
    apply Reading.forall_mem_filter?
    · intro l r hl hr c hc
      rcases List.mem_append.mp hc with hc | hc
      · exact hl c hc
      · exact hr c hc
    · intro w hw e he c hc
      exact ⟨w, hw, h w hw e he c hc⟩
  cases hf : r.filter? with
  | none => simp [Expr.truth]
  | some e => exact hall e hf

/-- The names of what is read are those of the vertex and the edge. -/
theorem alias_of_mem {r : Reading} {w : Variable} (hw : w ∈ r.members) :
    w.alias = r.vertex.alias ∨
      r.edge.map (fun (p : Variable × String) => p.1.alias) = some w.alias := by
  obtain ⟨vertex, edge⟩ := r
  rcases List.mem_cons.mp hw with rfl | hw
  · exact Or.inl rfl
  · cases edge with
    | none => cases hw
    | some p =>
        cases List.mem_singleton.mp hw
        exact Or.inr rfl

end Reading

/-- What a fetch reads has the names that vertices and edges have, and a configured array. -/
structure Reading.Named (settings : CompilerSettings) (r : Reading) : Prop where
  vertex : ∃ n, r.vertex.alias = vertexAlias n
  edge : ∀ p ∈ r.edge, ∃ n, p.1.alias = edgeAlias n
  field : ∀ p ∈ r.edge, p.2 = settings.edgeField ∨ p.2 = settings.reverseEdgeField

theorem CompilerSettings.array_eq {settings : CompilerSettings} {d : Direction} {field : String}
    (h : settings.arrayAtSource? d = some field ∨ settings.arrayAtSink? d = some field) :
    field = settings.edgeField ∨ field = settings.reverseEdgeField := by
  cases d <;> simp [arrayAtSource?, arrayAtSink?] at h <;> tauto

namespace Trail

variable {t : Trail} {settings : CompilerSettings} {v : Variable} {r : Reading}

theorem Reads.named (ht : t.Layout) (h : t.Reads settings v r) (hv : v ∈ t.variables) :
    r.Named settings := by
  cases h with
  | alone hk hl =>
      obtain ⟨n, _, hn⟩ := ht.exists_vertexAlias (hk ▸ mem_outline hv)
      exact ⟨⟨n, hn⟩, by simp, by simp⟩
  | @reached edge l d field hk hl hs he hn hd hf =>
      obtain ⟨n, _, hn⟩ := ht.exists_vertexAlias (hk ▸ mem_outline hv)
      obtain ⟨m, _, hm⟩ := ht.exists_edgeAlias (hd ▸ mem_outline he)
      refine ⟨⟨n, hn⟩, ?_, ?_⟩
      · rintro p ⟨⟩
        exact ⟨m, hm⟩
      · rintro p ⟨⟩
        exact CompilerSettings.array_eq (.inr hf)
  | @edge source l d field hk hl he hs hn hf =>
      obtain ⟨n, _, hsource⟩ := ht.exists_vertexAlias (ht.spans l hl).source_mem
      obtain ⟨m, _, hm⟩ := ht.exists_edgeAlias (hk ▸ mem_outline hv)
      refine ⟨⟨n, hn.trans hsource⟩, ?_, ?_⟩
      · rintro p ⟨⟩
        exact ⟨m, hm⟩
      · rintro p ⟨⟩
        exact CompilerSettings.array_eq (.inl hf)

theorem Reads.self_mem (h : t.Reads settings v r) : v ∈ r.members := by
  cases h with
  | alone hk hl => simp [Reading.members]
  | reached hk hl hs he hn hd hf => simp [Reading.members]
  | edge hk hl he hs hn hf => simp [Reading.members]

end Trail

namespace Column

@[simp] theorem table_bracket (tables : List String) (c : Column) :
    (c.bracket tables).table = c.table := by
  unfold bracket
  split <;> rfl

@[simp] theorem table_unfold (s : Storage) (c : Column) : (c.unfold s).table = c.table := by
  unfold Column.unfold
  split <;> rfl

end Column

namespace Binding

def ofPropertyJoin (j : PropertyJoin) : Binding :=
  ⟨j.alias, j.table, "[" ++ Text.inSingle j.property ++ "]"⟩

/-- The binding of an edge, which is in an array of the vertex. -/
def ofEdge (node field edge : String) : Binding :=
  ⟨edge, node, "." ++ field⟩

def inDocumentDB (b : Binding) : String :=
  " JOIN " ++ b.name ++ " IN " ++ b.root ++ b.way

def inJsonServer (b : Binding) : String :=
  "FOR " ++ b.name ++ " IN " ++ b.root ++ b.way ++ ".*\n"

theorem map_name_ofPropertyJoin (joins : List PropertyJoin) :
    (joins.map ofPropertyJoin).map (·.name) = joins.map (·.alias) := by
  rw [List.map_map]
  rfl

theorem map_name_ofEdge (node field : String) (edges : List String) :
    (edges.map (ofEdge node field)).map (·.name) = edges := by
  rw [List.map_map]
  exact List.map_id edges

end Binding

namespace Fetch

theorem DocumentDB.adapt_eq (q : Fetch) (filter : Expr) :
    adapt q filter =
      ((filter.fold.mapColumns
        (Column.readFrom q.storage (q.storage.joinsOver [] filter.columns))).bracket q.edge.toList,
      q.storage.joinsOver [] filter.columns) := by
  rw [adapt, Expr.hoist_eq, Expr.columns_fold]

theorem DocumentDB.numbered_adapt (q : Fetch) (filter : Expr) :
    PropertyJoin.Numbered (adapt q filter).2 := by
  rw [adapt_eq]
  exact Storage.numbered_joinsOver PropertyJoin.numbered_nil _

/-- The names that the text of a fetch binds and uses. -/
def DocumentDB.scope (q : Fetch) (node target field : String) (filter : Expr) : Scope where
  start := node
  bindings := (adapt q filter).2.map Binding.ofPropertyJoin ++
    q.edge.toList.map (Binding.ofEdge node field)
  uses := target :: (adapt q filter).1.columns.map (·.table)

@[inherit_doc DocumentDB.scope]
def JsonServer.scope (q : Fetch) (node target field : String) (filter : Expr) : Scope where
  start := node
  bindings := q.edge.toList.map (Binding.ofEdge node field)
  uses := target :: (adapt q filter).columns.map (·.table)

/-- The parts of a fetch of one vertex and at most one of its edges. -/
structure Parts (settings : CompilerSettings) (q : Fetch) (node target field : String)
    (filter : Expr) : Prop where
  node_eq : q.node = some node
  select_eq : q.select = [⟨target, none⟩]
  target_eq : target = node ∨ q.edge = some target
  field_eq : field = settings.edgeField ∨ field = settings.reverseEdgeField
  joins_eq : q.joins = q.edge.toList.map fun edge => ⟨edge, node ++ "." ++ field⟩
  filter_eq : q.filter = some filter
  tables : ∀ c ∈ filter.columns, c.table = node ∨ q.edge = some c.table
  node_name : ∃ n, node = vertexAlias n
  edge_name : ∀ edge, q.edge = some edge → ∃ n, edge = edgeAlias n

namespace Parts

variable {settings : CompilerSettings} {q : Fetch} {node target field : String} {filter : Expr}
variable (h : q.Parts settings node target field filter)

include h

/-- Nested properties are those of the vertex. -/
theorem joined_table {j : PropertyJoin} (hj : j ∈ (DocumentDB.adapt q filter).2) :
    j.table = node := by
  rw [DocumentDB.adapt_eq] at hj
  rcases Storage.mem_joinsOver hj with hj | ⟨c, hc, hnest, ht⟩
  · cases hj
  · rcases h.tables c hc with hn | he
    · exact ht.trans hn
    · exact absurd (by simp [storage, he]) hnest.1

theorem adapted_table {c : Column} (hc : c ∈ (DocumentDB.adapt q filter).1.columns) :
    c.table = node ∨ q.edge = some c.table ∨
      ∃ j ∈ (DocumentDB.adapt q filter).2, c.table = j.alias := by
  rw [DocumentDB.adapt_eq] at hc ⊢
  simp only [Expr.bracket_eq, Expr.columns_mapColumns, Expr.columns_fold, List.map_map] at hc
  obtain ⟨c', hc', rfl⟩ := List.mem_map.mp hc
  simp only [Function.comp_apply, Column.table_bracket]
  cases hn : q.storage.nested? c' with
  | none =>
      rw [Column.readFrom_of_none hn]
      exact (h.tables c' hc').imp_right Or.inl
  | some p =>
      obtain ⟨j, hj⟩ := Storage.exists_find?_joinsOver [] hc' hn
      rw [Column.readFrom_of_some hn hj]
      exact Or.inr (Or.inr ⟨j, List.mem_of_find?_eq_some hj, rfl⟩)

theorem unfolded_table {c : Column} (hc : c ∈ (JsonServer.adapt q filter).columns) :
    c.table = node ∨ q.edge = some c.table := by
  rw [JsonServer.adapt, Expr.unfold_eq, Expr.columns_mapColumns, Expr.columns_fold] at hc
  obtain ⟨c', hc', rfl⟩ := List.mem_map.mp hc
  rw [Column.table_unfold]
  exact h.tables c' hc'

/-- A join variable carries the name of the vertex further. -/
theorem joined_name {j : PropertyJoin} (hj : j ∈ (DocumentDB.adapt q filter).2) :
    ∃ i, j.alias = node ++ "_" ++ Nat.repr i := by
  obtain ⟨i, hi⟩ := List.mem_iff_getElem?.mp hj
  refine ⟨i, ?_⟩
  rw [DocumentDB.numbered_adapt q filter i j hi, h.joined_table hj]

/-- Vertices begin with another letter than edges, and join variables are longer than the vertex
they begin with. -/
theorem distinct :
    (node :: ((DocumentDB.adapt q filter).2.map (·.alias) ++ q.edge.toList)).Nodup := by
  obtain ⟨n, hn⟩ := h.node_name
  rw [List.nodup_cons, List.nodup_append, List.mem_append]
  refine ⟨?_, (DocumentDB.numbered_adapt q filter).nodup, ?_, ?_⟩
  · rintro (hm | hm)
    · obtain ⟨j, hj, ha⟩ := List.mem_map.mp hm
      obtain ⟨i, hi⟩ := h.joined_name hj
      exact numbered_ne node i (hi.symm.trans ha)
    · obtain ⟨m, hm⟩ := h.edge_name node (Option.mem_toList.mp hm)
      exact vertexAlias_ne_edgeAlias n m (hn.symm.trans hm)
  · cases q.edge <;> simp
  · rintro a ha b hb rfl
    obtain ⟨j, hj, rfl⟩ := List.mem_map.mp ha
    obtain ⟨i, hi⟩ := h.joined_name hj
    obtain ⟨m, hm⟩ := h.edge_name _ (Option.mem_toList.mp hb)
    have hl := congrArg String.toList (hi.symm.trans hm)
    simp [hn, vertexAlias, edgeAlias] at hl

theorem documentDB_closed : (DocumentDB.scope q node target field filter).Closed := by
  have hnames : (DocumentDB.scope q node target field filter).bindings.map (·.name) =
      (DocumentDB.adapt q filter).2.map (·.alias) ++ q.edge.toList := by
    rw [DocumentDB.scope, List.map_append, Binding.map_name_ofPropertyJoin,
      Binding.map_name_ofEdge]
  constructor
  · apply bindable_of_nodup (List.mem_singleton.mpr rfl)
    · intro b hb
      rcases List.mem_append.mp hb with hb | hb
      · obtain ⟨j, hj, rfl⟩ := List.mem_map.mp hb
        exact h.joined_table hj
      · obtain ⟨edge, _, rfl⟩ := List.mem_map.mp hb
        rfl
    · rw [hnames]
      exact h.distinct
  · rw [hnames]
    intro name hname
    have hcases : name = node ∨ q.edge = some name ∨
        ∃ j ∈ (DocumentDB.adapt q filter).2, name = j.alias := by
      rcases List.mem_cons.mp hname with rfl | hname
      · exact h.target_eq.imp_right Or.inl
      · obtain ⟨c, hc, rfl⟩ := List.mem_map.mp hname
        exact h.adapted_table hc
    rcases hcases with rfl | he | ⟨j, hj, rfl⟩
    · exact List.mem_cons_self
    · simp [he]
    · exact List.mem_cons_of_mem _ (List.mem_append_left _ (List.mem_map_of_mem hj))

theorem jsonServer_closed : (JsonServer.scope q node target field filter).Closed := by
  have hnames : (JsonServer.scope q node target field filter).bindings.map (·.name) =
      q.edge.toList :=
    Binding.map_name_ofEdge node field q.edge.toList
  constructor
  · apply bindable_of_nodup (List.mem_singleton.mpr rfl)
    · intro b hb
      obtain ⟨edge, _, rfl⟩ := List.mem_map.mp hb
      rfl
    · rw [hnames]
      exact h.distinct.sublist ((List.sublist_append_right _ _).cons_cons node)
  · rw [hnames]
    intro name hname
    have hcases : name = node ∨ q.edge = some name := by
      rcases List.mem_cons.mp hname with rfl | hname
      · exact h.target_eq
      · obtain ⟨c, hc, rfl⟩ := List.mem_map.mp hname
        exact h.unfolded_table hc
    rcases hcases with rfl | he
    · exact List.mem_cons_self
    · simp [he]

/-- The names of vertices and edges are not the mark of the whole document. -/
theorem target_ne : target ≠ Column.wholeDocument := by
  intro he
  have hname : (∃ n, target = vertexAlias n) ∨ ∃ n, target = edgeAlias n := by
    rcases h.target_eq with rfl | hq
    · exact Or.inl h.node_name
    · exact Or.inr (h.edge_name target hq)
  rcases hname with ⟨n, rfl⟩ | ⟨n, rfl⟩
  · have hl := congrArg String.toList he
    simp [vertexAlias, Column.wholeDocument] at hl
  · have hl := congrArg String.toList he
    simp [edgeAlias, Column.wholeDocument] at hl

theorem documentDB_text :
    q.render .documentDB none = .ok ("SELECT " ++ target ++ "\nFROM " ++ node ++
      String.join
        ((DocumentDB.scope q node target field filter).bindings.map Binding.inDocumentDB) ++
      "\nWHERE (" ++ (DocumentDB.adapt q filter).1.inQuery .documentDB ++ ")") := by
  have hentry : q.select.mapM DocumentDB.entry = .ok [target] := by
    simp [h.select_eq, DocumentDB.entry, Projection.checkWildcard, pure, Except.pure, bind,
      Except.bind]
  have hp : (DocumentDB.adapt q filter).2.map DocumentDB.propertyJoin =
      ((DocumentDB.adapt q filter).2.map Binding.ofPropertyJoin).map Binding.inDocumentDB := by
    rw [List.map_map]
    apply List.map_congr_left
    intro j _
    simp [DocumentDB.propertyJoin, Binding.inDocumentDB, Binding.ofPropertyJoin,
      String.append_assoc]
  have he : q.joins.map DocumentDB.join =
      (q.edge.toList.map (Binding.ofEdge node field)).map Binding.inDocumentDB := by
    rw [h.joins_eq, List.map_map, List.map_map]
    apply List.map_congr_left
    intro edge _
    simp [DocumentDB.join, Binding.inDocumentDB, Binding.ofEdge, String.append_assoc]
  rw [render_documentDB_iff, DocumentDB.render_eq_ok_iff]
  refine ⟨by simp [h.select_eq], [target], node, filter, _, hentry, by simp [driving?, h.node_eq],
    h.filter_eq, rfl, ?_⟩
  rw [String.intercalate_singleton, hp, he, DocumentDB.scope, List.map_append,
    String.join_append]
  simp only [String.append_assoc]

theorem jsonServer_text {collection : String} (hcollection : q.collection = some collection) :
    q.render .jsonServer none = .ok ("FOR " ++ node ++ " IN (" ++ Text.inSingle collection ++
      ")\n" ++
      String.join
        ((JsonServer.scope q node target field filter).bindings.map Binding.inJsonServer) ++
      "WHERE " ++ (JsonServer.adapt q filter).inQuery .jsonServer ++
      "\n" ++ "SELECT " ++ (JsonServer.document target ++ " AS " ++ target)) := by
  have hprojection : JsonServer.projection node q.select =
      .ok (JsonServer.document target ++ " AS " ++ target) := by
    simp [h.select_eq, JsonServer.projection, JsonServer.entry, Projection.isWildcard, h.target_ne,
      Projection.checkWildcard, Projection.hasParts, pure, Except.pure, bind, Except.bind]
  have he : q.joins.map JsonServer.join =
      (q.edge.toList.map (Binding.ofEdge node field)).map Binding.inJsonServer := by
    rw [h.joins_eq, List.map_map, List.map_map]
    apply List.map_congr_left
    intro edge _
    simp [JsonServer.join, Binding.inJsonServer, Binding.ofEdge, String.append_assoc]
  rw [render_jsonServer_iff, JsonServer.render_eq_ok_iff]
  refine ⟨rfl, by simp [h.select_eq], node, _, collection, filter, by simp [driving?, h.node_eq],
    hprojection, hcollection, h.filter_eq, ?_⟩
  rw [he, JsonServer.scope]

end Parts

/-- A fetch of one vertex and at most one of its edges, in whose text, in either dialect, every
name is bound once and before its use. -/
structure WellScoped (settings : CompilerSettings) (q : Fetch) (node target field : String)
    (filter : Expr) : Prop extends Parts settings q node target field filter where
  adapted_table : ∀ c ∈ (DocumentDB.adapt q filter).1.columns,
    c.table = node ∨ q.edge = some c.table ∨
      ∃ j ∈ (DocumentDB.adapt q filter).2, c.table = j.alias
  joined_table : ∀ j ∈ (DocumentDB.adapt q filter).2, j.table = node
  distinct : (node :: ((DocumentDB.adapt q filter).2.map (·.alias) ++ q.edge.toList)).Nodup
  documentDB_closed : (DocumentDB.scope q node target field filter).Closed
  documentDB_text : q.render .documentDB none = .ok ("SELECT " ++ target ++ "\nFROM " ++ node ++
    String.join
      ((DocumentDB.scope q node target field filter).bindings.map Binding.inDocumentDB) ++
    "\nWHERE (" ++ (DocumentDB.adapt q filter).1.inQuery .documentDB ++ ")")
  jsonServer_closed : (JsonServer.scope q node target field filter).Closed
  jsonServer_text : ∀ collection, q.collection = some collection →
    q.render .jsonServer none = .ok ("FOR " ++ node ++ " IN (" ++ Text.inSingle collection ++
      ")\n" ++
      String.join
        ((JsonServer.scope q node target field filter).bindings.map Binding.inJsonServer) ++
      "WHERE " ++ (JsonServer.adapt q filter).inQuery .jsonServer ++
      "\n" ++ "SELECT " ++ (JsonServer.document target ++ " AS " ++ target))

end Fetch

theorem Compiled.exists_parts {settings : CompilerSettings} {steps : List Step} {q : Fetch}
    (h : Compiled settings steps q) :
    ∃ node target field filter, q.Parts settings node target field filter := by
  obtain ⟨t, v, r, ht, hv, hr, rfl⟩ := h.exists_reading
  have hnamed := hr.named (Trail.empty_wellFormed.run ht).toLayout hv
  have htarget := Reading.alias_of_mem hr.self_mem
  have htables : ∀ c ∈ (r.filter?.getD (Expr.truth true)).columns, c.table = r.vertex.alias ∨
      r.edge.map (fun (p : Variable × String) => p.1.alias) = some c.table := by
    intro c hc
    have hfilters : ∀ w ∈ r.members, ∀ e ∈ w.filter, ∀ c ∈ e.columns, c.table = w.alias :=
      fun w hw => Trail.filtersSatisfy_of_run tables_conjunctive ht w (hr.members_mem hv w hw)
    obtain ⟨w, hw, hcw⟩ := Reading.tables_filter? hfilters c hc
    rw [hcw]
    exact Reading.alias_of_mem hw
  rw [Fetch.ofReading_eq]
  obtain ⟨vertex, edge⟩ := r
  cases edge with
  | none =>
      exact ⟨vertex.alias, v.alias, settings.edgeField, _, rfl, rfl, htarget, Or.inl rfl, rfl, rfl,
        htables, hnamed.vertex, nofun⟩
  | some p =>
      refine ⟨vertex.alias, v.alias, p.2, _, rfl, rfl, htarget, hnamed.field p rfl, rfl, rfl,
        htables, hnamed.vertex, ?_⟩
      rintro edge ⟨⟩
      exact hnamed.edge p rfl

/-- Every name in the text of a compiled fetch is bound once and before its use: joins read from
the vertex, and no join variable has the name of another one, of a vertex or of an edge. -/
theorem compiled_wellScoped {settings : CompilerSettings} {steps : List Step} {q : Fetch}
    (h : Compiled settings steps q) :
    ∃ node target field filter, q.WellScoped settings node target field filter := by
  obtain ⟨node, target, field, filter, hp⟩ := h.exists_parts
  refine ⟨node, target, field, filter, ?_⟩
  exact
    { toParts := hp
      adapted_table := fun _ hc => hp.adapted_table hc
      joined_table := fun _ hj => hp.joined_table hj
      distinct := hp.distinct
      documentDB_closed := hp.documentDB_closed
      documentDB_text := hp.documentDB_text
      jsonServer_closed := hp.jsonServer_closed
      jsonServer_text := fun _ hc => hp.jsonServer_text hc }

/-- To a vertex of which two nested properties are asked, over an edge with properties of its
own. -/
def toNestedProperties : List Step :=
  [.vertices [], .hopToEdge .outgoing ["knows"], .has "age" (.compare .less (.int 3)),
    .toEnd .finish, .has "age" (.compare .greater (.int 20)), .has "name" .present,
    .has "age" (.compare .less (.int 40))]

theorem compiled_wellScoped_toNestedProperties :
    ∃ q, compile { collection := some "people" } toNestedProperties = .ok q ∧
      ∃ node target field filter,
        q.WellScoped { collection := some "people" } node target field filter := by
  obtain ⟨q, h⟩ : ∃ q, compile { collection := some "people" } toNestedProperties = .ok q :=
    ⟨_, rfl⟩
  exact ⟨q, h, compiled_wellScoped (.inl h)⟩

end DocWalk
