import DocWalk.Proofs.Fetch.Scope
import DocWalk.Proofs.Text.Line

/-!
# The clauses of a query text

Each clause of a query text has a line of its own. What a traversal carries
is quoted wherever it is written, the names of variables and functions are not
but have no line break, so a query text has as many lines as it has clauses,
whatever was asked for. Only the arrays that the settings name are written as
they are.
-/

namespace DocWalk

open Text

namespace Expr

mutual

/-- The functions that an expression calls, from left to right. -/
def functions : Expr → List String
  | literal _ => []
  | column _ => []
  | paren e => e.functions
  | compare l _ r => l.functions ++ r.functions
  | connect l _ r => l.functions ++ r.functions
  | call name args => name :: functionsAll args

def functionsAll : List Expr → List String
  | [] => []
  | e :: es => e.functions ++ functionsAll es

end

theorem functionsAll_eq_flatten (es : List Expr) :
    functionsAll es = (es.map functions).flatten := by
  induction es with
  | nil => rfl
  | cons e es ih => rw [functionsAll, ih, List.map_cons, List.flatten_cons]

theorem functions_compositional : Compositional functions where
  paren := id
  compare op hl hr := by simp only [functions, hl, hr]
  connect op hl hr := by simp only [functions, hl, hr]
  call name h := by simp only [functions, functionsAll_eq_flatten, h]

/-- Replacing columns changes no call. -/
theorem functions_mapColumns (f : Column → Column) (e : Expr) :
    (e.mapColumns f).functions = e.functions :=
  functions_compositional.mapColumns_eq f (fun _ => rfl) e

/-- Folding changes no call. -/
theorem functions_fold (e : Expr) : e.fold.functions = e.functions :=
  functions_compositional.fold_eq (fun _ _ _ _ _ => rfl) e

theorem oneLine_comparator (op : Comparator) : OneLine op.symbol := by
  cases op <;> decide

theorem oneLine_connective (op : Connective) : OneLine op.symbol := by
  cases op <;> decide

/-- Two operands with an operator between them. -/
theorem oneLine_between {l op r : String} (hl : OneLine l) (hop : OneLine op) (hr : OneLine r) :
    OneLine (l ++ " " ++ op ++ " " ++ r) := by
  have hspace : OneLine " " := by decide
  simp only [oneLine_append]
  exact ⟨⟨⟨⟨hl, hspace⟩, hop⟩, hspace⟩, hr⟩

mutual

/-- Where the tables and the functions have names without a line break, an expression stays on one
line. -/
theorem oneLine_inQuery (d : Dialect) {e : Expr} (ht : ∀ c ∈ e.columns, OneLine c.table)
    (hf : ∀ f ∈ e.functions, OneLine f) : OneLine (e.inQuery d) := by
  have hopen : OneLine "(" := by decide
  have hclose : OneLine ")" := by decide
  cases e with
  | literal v => exact v.oneLine_inQuery d
  | column c => exact Column.oneLine_inQuery d (ht c (by simp))
  | paren e =>
      have he : OneLine (e.inQuery d) := oneLine_inQuery d ht hf
      simp only [inQuery, oneLine_append]
      exact ⟨⟨hopen, he⟩, hclose⟩
  | compare l op r =>
      obtain ⟨htl, htr⟩ := List.forall_mem_append.mp ht
      obtain ⟨hfl, hfr⟩ := List.forall_mem_append.mp hf
      exact oneLine_between (oneLine_inQuery d htl hfl) (oneLine_comparator op)
        (oneLine_inQuery d htr hfr)
  | connect l op r =>
      obtain ⟨htl, htr⟩ := List.forall_mem_append.mp ht
      obtain ⟨hfl, hfr⟩ := List.forall_mem_append.mp hf
      exact oneLine_between (oneLine_inQuery d htl hfl) (oneLine_connective op)
        (oneLine_inQuery d htr hfr)
  | call name args =>
      obtain ⟨hname, hargs⟩ := List.forall_mem_cons.mp hf
      have hall : OneLine (", ".intercalate (inQueryAll d args)) :=
        oneLine_intercalate (by decide) (oneLine_inQueryAll d ht hargs)
      simp only [inQuery, oneLine_append]
      exact ⟨⟨⟨hname, hopen⟩, hall⟩, hclose⟩

theorem oneLine_inQueryAll (d : Dialect) {es : List Expr}
    (ht : ∀ c ∈ columnsAll es, OneLine c.table) (hf : ∀ f ∈ functionsAll es, OneLine f) :
    ∀ s ∈ inQueryAll d es, OneLine s := by
  cases es with
  | nil => simp [inQueryAll]
  | cons e es =>
      obtain ⟨hte, htes⟩ := List.forall_mem_append.mp ht
      obtain ⟨hfe, hfes⟩ := List.forall_mem_append.mp hf
      rw [inQueryAll, List.forall_mem_cons]
      exact ⟨oneLine_inQuery d hte hfe, oneLine_inQueryAll d htes hfes⟩

end

end Expr

/-- Steps call no function but the one that tells whether a property is there. -/
theorem functions_conjunctive : Conjunctive fun _ e => ∀ f ∈ e.functions, f = definedFunction := by
  apply conjunctive_of_atoms
  · simp [Expr.functions]
  · simp [Expr.functions, Expr.functionsAll]
  · simp [Expr.functions, Expr.truth]
  · intro name e key v he
    simpa [Expr.functions, Expr.propertyIs] using he
  · intro name l r hl hr
    simpa [Expr.functions, or_imp, forall_and] using ⟨hl, hr⟩

theorem Compiled.functions {settings : CompilerSettings} {steps : List Step} {q : Fetch}
    (h : Compiled settings steps q) : ∀ e ∈ q.filter, ∀ f ∈ e.functions, f = definedFunction := by
  obtain ⟨t, v, r, ht, hv, hr, rfl⟩ := h.exists_reading
  have hall : ∀ e ∈ r.filter?, ∀ f ∈ e.functions, f = definedFunction := by
    apply Reading.forall_mem_filter?
    · exact functions_conjunctive.conjoin ""
    · intro w hw
      exact Trail.filtersSatisfy_of_run functions_conjunctive ht w (hr.members_mem hv w hw)
  intro e he
  rw [Fetch.filter_ofReading] at he
  cases he
  cases hf : r.filter? with
  | none => simp [Expr.functions, Expr.truth]
  | some e => exact hall e hf

theorem oneLine_vertexAlias (n : Nat) : OneLine (vertexAlias n) :=
  oneLine_append.mpr ⟨by decide, oneLine_repr n⟩

theorem oneLine_edgeAlias (n : Nat) : OneLine (edgeAlias n) :=
  oneLine_append.mpr ⟨by decide, oneLine_repr n⟩

/-- The line of a join in either dialect, without what the dialect puts around it. -/
def Binding.clause (b : Binding) : String :=
  b.name ++ " IN " ++ b.root ++ b.way

theorem Binding.inDocumentDB_eq (b : Binding) : b.inDocumentDB = " JOIN " ++ b.clause := by
  simp [inDocumentDB, clause, String.append_assoc]

theorem Binding.inJsonServer_eq (b : Binding) :
    b.inJsonServer = "FOR " ++ b.clause ++ ".*" ++ "\n" := by
  have hend : ".*\n" = ".*" ++ "\n" := rfl
  simp [inJsonServer, clause, hend, String.append_assoc]

theorem Binding.oneLine_clause {b : Binding} (hn : OneLine b.name) (hr : OneLine b.root)
    (hw : OneLine b.way) : OneLine b.clause := by
  have hin : OneLine " IN " := by decide
  simp only [clause, oneLine_append]
  exact ⟨⟨⟨hn, hin⟩, hr⟩, hw⟩

namespace Fetch

theorem DocumentDB.functions_adapt (q : Fetch) (filter : Expr) :
    (adapt q filter).1.functions = filter.functions := by
  rw [adapt_eq, Expr.bracket_eq, Expr.functions_mapColumns, Expr.functions_mapColumns,
    Expr.functions_fold]

theorem JsonServer.functions_adapt (q : Fetch) (filter : Expr) :
    (adapt q filter).functions = filter.functions := by
  rw [adapt, Expr.unfold_eq, Expr.functions_mapColumns, Expr.functions_fold]

namespace Parts

variable {settings : CompilerSettings} {q : Fetch} {node target field : String} {filter : Expr}
variable (h : q.Parts settings node target field filter)

include h

theorem oneLine_node : OneLine node := by
  obtain ⟨n, rfl⟩ := h.node_name
  exact oneLine_vertexAlias n

theorem oneLine_edge {edge : String} (he : q.edge = some edge) : OneLine edge := by
  obtain ⟨n, rfl⟩ := h.edge_name edge he
  exact oneLine_edgeAlias n

theorem oneLine_target : OneLine target := by
  rcases h.target_eq with rfl | he
  · exact h.oneLine_node
  · exact h.oneLine_edge he

theorem oneLine_joined {j : PropertyJoin} (hj : j ∈ (DocumentDB.adapt q filter).2) :
    OneLine j.alias := by
  obtain ⟨i, hi⟩ := h.joined_name hj
  have hmark : OneLine "_" := by decide
  rw [hi]
  simp only [oneLine_append]
  exact ⟨⟨h.oneLine_node, hmark⟩, oneLine_repr i⟩

/-- The array that holds the edge is the only thing that is written as the settings have it. -/
theorem oneLine_ofEdge (hfield : OneLine field) {edge : String} (he : q.edge = some edge) :
    OneLine (Binding.ofEdge node field edge).clause := by
  apply Binding.oneLine_clause (h.oneLine_edge he) h.oneLine_node
  exact oneLine_append.mpr ⟨by decide, hfield⟩

theorem oneLine_ofPropertyJoin {j : PropertyJoin} (hj : j ∈ (DocumentDB.adapt q filter).2) :
    OneLine (Binding.ofPropertyJoin j).clause := by
  apply Binding.oneLine_clause (h.oneLine_joined hj)
  · rw [Binding.ofPropertyJoin, h.joined_table hj]
    exact h.oneLine_node
  · have hopen : OneLine "[" := by decide
    have hclose : OneLine "]" := by decide
    simp only [Binding.ofPropertyJoin, oneLine_append]
    exact ⟨⟨hopen, oneLine_inSingle j.property⟩, hclose⟩

section Conditions

variable (hf : ∀ f ∈ filter.functions, f = definedFunction)

include hf

theorem oneLine_documentDB :
    OneLine ((DocumentDB.adapt q filter).1.inQuery .documentDB) := by
  apply Expr.oneLine_inQuery
  · intro c hc
    rcases h.adapted_table hc with hn | he | ⟨j, hj, hn⟩
    · rw [hn]
      exact h.oneLine_node
    · exact h.oneLine_edge he
    · rw [hn]
      exact h.oneLine_joined hj
  · intro f hm
    rw [DocumentDB.functions_adapt] at hm
    rw [hf f hm]
    decide

theorem oneLine_jsonServer : OneLine ((JsonServer.adapt q filter).inQuery .jsonServer) := by
  apply Expr.oneLine_inQuery
  · intro c hc
    rcases h.unfolded_table hc with hn | he
    · rw [hn]
      exact h.oneLine_node
    · exact h.oneLine_edge he
  · intro f hm
    rw [JsonServer.functions_adapt] at hm
    rw [hf f hm]
    decide

/-- One line for the projection, one for all joins and one for the condition. -/
theorem documentDB_lines (hfield : OneLine field) :
    ∃ (text : String) (joins : List String) (condition : String),
      q.render .documentDB none = .ok text ∧
      lines text = ["SELECT " ++ target,
        "FROM " ++ node ++ String.join (joins.map (" JOIN " ++ ·)),
        "WHERE (" ++ condition ++ ")"] := by
  let joins := (DocumentDB.scope q node target field filter).bindings.map Binding.clause
  let condition := (DocumentDB.adapt q filter).1.inQuery .documentDB
  have hjoins : ∀ s ∈ joins.map (" JOIN " ++ ·), OneLine s := by
    intro s hs
    obtain ⟨c, hc, rfl⟩ := List.mem_map.mp hs
    obtain ⟨b, hb, rfl⟩ := List.mem_map.mp hc
    apply oneLine_append.mpr
    refine ⟨by decide, ?_⟩
    rcases List.mem_append.mp hb with hb | hb
    · obtain ⟨j, hj, rfl⟩ := List.mem_map.mp hb
      exact h.oneLine_ofPropertyJoin hj
    · obtain ⟨edge, he, rfl⟩ := List.mem_map.mp hb
      exact h.oneLine_ofEdge hfield (Option.mem_toList.mp he)
  have hselect : OneLine ("SELECT " ++ target) :=
    oneLine_append.mpr ⟨by decide, h.oneLine_target⟩
  have hfrom : OneLine ("FROM " ++ node ++ String.join (joins.map (" JOIN " ++ ·))) := by
    simp only [oneLine_append]
    exact ⟨⟨by decide, h.oneLine_node⟩, oneLine_join hjoins⟩
  have hwhere : OneLine ("WHERE (" ++ condition ++ ")") := by
    simp only [oneLine_append]
    exact ⟨⟨by decide, h.oneLine_documentDB hf⟩, by decide⟩
  have htext : q.render .documentDB none = .ok ("SELECT " ++ target ++ "\n" ++
      ("FROM " ++ node ++ String.join (joins.map (" JOIN " ++ ·)) ++ "\n" ++
        ("WHERE (" ++ condition ++ ")"))) := by
    have hfromMark : "\nFROM " = "\n" ++ "FROM " := rfl
    have hwhereMark : "\nWHERE (" = "\n" ++ "WHERE (" := rfl
    have hbindings : (DocumentDB.scope q node target field filter).bindings.map
        Binding.inDocumentDB = joins.map (" JOIN " ++ ·) := by
      rw [List.map_map]
      exact List.map_congr_left fun b _ => b.inDocumentDB_eq
    rw [h.documentDB_text, hbindings, hfromMark, hwhereMark]
    simp only [String.append_assoc, condition]
  refine ⟨_, joins, condition, htext, ?_⟩
  rw [lines_append hselect, lines_append hfrom, lines_of_oneLine hwhere]

/-- One line for the vertex and one for each join, then the condition and the projection. -/
theorem jsonServer_lines (hfield : OneLine field) {collection : String}
    (hc : q.collection = some collection) :
    ∃ text condition projection : String, q.render .jsonServer none = .ok text ∧
      lines text = ("FOR " ++ node ++ " IN (" ++ inSingle collection ++ ")") ::
        (q.joins.map fun j => "FOR " ++ j.alias ++ " IN " ++ j.source ++ ".*") ++
        ["WHERE " ++ condition, "SELECT " ++ projection] := by
  let joins := q.joins.map fun j => "FOR " ++ j.alias ++ " IN " ++ j.source ++ ".*"
  let condition := (JsonServer.adapt q filter).inQuery .jsonServer
  let projection := JsonServer.document target ++ " AS " ++ target
  have hedges : joins = q.edge.toList.map fun edge =>
      "FOR " ++ (Binding.ofEdge node field edge).clause ++ ".*" := by
    simp only [joins, h.joins_eq, List.map_map]
    apply List.map_congr_left
    intro edge _
    simp [Binding.clause, Binding.ofEdge, String.append_assoc]
  have hjoins : ∀ s ∈ joins, OneLine s := by
    rw [hedges]
    intro s hs
    obtain ⟨edge, he, rfl⟩ := List.mem_map.mp hs
    simp only [oneLine_append]
    exact ⟨⟨by decide, h.oneLine_ofEdge hfield (Option.mem_toList.mp he)⟩, by decide⟩
  have hfor : OneLine ("FOR " ++ node ++ " IN (" ++ inSingle collection ++ ")") := by
    simp only [oneLine_append]
    exact ⟨⟨⟨⟨by decide, h.oneLine_node⟩, by decide⟩, oneLine_inSingle collection⟩, by decide⟩
  have hwhere : OneLine ("WHERE " ++ condition) :=
    oneLine_append.mpr ⟨by decide, h.oneLine_jsonServer hf⟩
  have hselect : OneLine ("SELECT " ++ projection) := by
    simp only [projection, JsonServer.document, oneLine_append]
    exact ⟨by decide, ⟨⟨⟨by decide, h.oneLine_target⟩, by decide⟩, by decide⟩, h.oneLine_target⟩
  have htext : q.render .jsonServer none = .ok
      ("FOR " ++ node ++ " IN (" ++ inSingle collection ++ ")" ++ "\n" ++
        (String.join (joins.map (· ++ "\n")) ++
          ("WHERE " ++ condition ++ "\n" ++ ("SELECT " ++ projection)))) := by
    have hmark : ")\n" = ")" ++ "\n" := rfl
    have hbindings : (JsonServer.scope q node target field filter).bindings.map
        Binding.inJsonServer = joins.map (· ++ "\n") := by
      rw [hedges, JsonServer.scope, List.map_map, List.map_map]
      apply List.map_congr_left
      intro edge _
      exact (Binding.ofEdge node field edge).inJsonServer_eq
    rw [h.jsonServer_text hc, hbindings, hmark]
    simp only [String.append_assoc, condition, projection]
  refine ⟨_, condition, projection, htext, ?_⟩
  rw [lines_append hfor, lines_join hjoins, lines_append hwhere, lines_of_oneLine hselect]
  rfl

end Conditions

/-- Without a collection there is no text in this dialect. -/
theorem exists_jsonServer_iff :
    (∃ text, q.render .jsonServer none = .ok text) ↔
      ∃ collection, q.collection = some collection := by
  constructor
  · rintro ⟨text, hr⟩
    obtain ⟨_, _, hr⟩ := render_jsonServer_iff.mp hr
    obtain ⟨_, _, collection, _, _, _, hc, _⟩ := JsonServer.render_eq_ok_iff.mp hr
    exact ⟨collection, hc⟩
  · rintro ⟨collection, hc⟩
    exact ⟨_, h.jsonServer_text hc⟩

end Parts

/-- A fetch whose text has one line for each clause, in either dialect. The dialect that names a
collection has a text exactly when there is one. -/
structure LinePerClause (q : Fetch) (driving : String) : Prop where
  documentDB : ∃ (text projection : String) (joins : List String) (condition : String),
    q.render .documentDB none = .ok text ∧
    lines text = ["SELECT " ++ projection,
      "FROM " ++ driving ++ String.join (joins.map (" JOIN " ++ ·)),
      "WHERE (" ++ condition ++ ")"]
  jsonServer_iff : (∃ text, q.render .jsonServer none = .ok text) ↔
    ∃ collection, q.collection = some collection
  jsonServer : ∀ collection, q.collection = some collection →
    ∃ text condition projection : String, q.render .jsonServer none = .ok text ∧
    lines text = ("FOR " ++ driving ++ " IN (" ++ inSingle collection ++ ")") ::
      (q.joins.map fun j => "FOR " ++ j.alias ++ " IN " ++ j.source ++ ".*") ++
      ["WHERE " ++ condition, "SELECT " ++ projection]

end Fetch

/-- Nothing that a traversal carries changes the clauses of its text: whatever identifiers, labels,
properties and values its steps have, and whatever the collection is called, each clause stands on
a line of its own. -/
theorem compiled_linePerClause {settings : CompilerSettings} {steps : List Step} {q : Fetch}
    (h : Compiled settings steps q) (hout : OneLine settings.edgeField)
    (hin : OneLine settings.reverseEdgeField) :
    ∃ driving, q.driving? = some driving ∧ q.LinePerClause driving := by
  obtain ⟨node, target, field, filter, hp⟩ := h.exists_parts
  have hf := h.functions filter hp.filter_eq
  have hfield : OneLine field := by
    rcases hp.field_eq with rfl | rfl
    · exact hout
    · exact hin
  refine ⟨node, by simp [Fetch.driving?, hp.node_eq], ?_, hp.exists_jsonServer_iff, ?_⟩
  · obtain ⟨text, joins, condition, hr, hl⟩ := hp.documentDB_lines hf hfield
    exact ⟨text, target, joins, condition, hr, hl⟩
  · intro collection hc
    exact hp.jsonServer_lines hf hfield hc

/-- A traversal with a line break in every text it has. -/
def throughBreaks : List Step :=
  [.vertices [], .hop .outgoing ["\nWHERE (true)"], .has "a\nb" (.within [.text "\n", .int 1]),
    .has "\n" .present]

theorem compiled_linePerClause_throughBreaks :
    ∃ q, compile { collection := some "\x27)\nSELECT *" } throughBreaks = .ok q ∧
      ∃ driving, q.driving? = some driving ∧ q.LinePerClause driving := by
  obtain ⟨q, h⟩ : ∃ q, compile { collection := some "\x27)\nSELECT *" } throughBreaks = .ok q :=
    ⟨_, rfl⟩
  exact ⟨q, h, compiled_linePerClause (.inl h) (by decide) (by decide)⟩

end DocWalk
