import Mathlib.Data.List.Permutation
import DocWalk.Proofs.Expr.Discovery
import DocWalk.Proofs.Fetch.Grouping
import DocWalk.Proofs.Fetch.Scope

/-!
# The order of the passes

A filter is folded, and its columns are adapted to the dialect. Folding looks
at literals only and takes no column away, so it may come before or after any
other pass. Hoisting leaves the columns of flat tables alone, and bracketing
leaves all others alone. They get into each other's way only where a join
variable has the name of a flat table: a column that is read from it is in
brackets when bracketing comes last, and is not when hoisting does.

## Implementation notes

The passes are those of `Expr.Pass`. A list of them is run on an expression
together with the joins that were made, which are the last thing hoisting has
found.
-/

namespace DocWalk

/-- The orders of three items. -/
theorem eq_of_perm_triple {α : Type} {a b c : α} {order : List α} (h : order.Perm [a, b, c]) :
    order = [a, b, c] ∨ order = [b, a, c] ∨ order = [b, c, a] ∨ order = [a, c, b] ∨
      order = [c, a, b] ∨ order = [c, b, a] := by
  rw [← List.mem_permutations'] at h
  simpa [List.permutations'] using h

namespace Expr

section Folding

variable {f : Column → Column}

theorem mapColumns_eq_literal_iff {e : Expr} {v : Value} :
    e.mapColumns f = literal v ↔ e = literal v := by
  cases e <;> simp [mapColumns]

/-- Whether literals decide a comparison does not depend on its columns. -/
theorem foldComparison_mapColumns (l : Expr) (op : Comparator) (r : Expr) :
    (foldComparison (l.mapColumns f) op (r.mapColumns f)).1 =
      (foldComparison l op r).1.mapColumns f := by
  rcases foldComparison_cases l op r with ⟨a, b, t, rfl, rfl, _, h⟩ | ⟨hnone, h⟩
  · rw [mapColumns, mapColumns, h]
    rfl
  · rcases foldComparison_cases (l.mapColumns f) op (r.mapColumns f) with
      ⟨a, b, t, ha, hb, ht, _⟩ | ⟨_, h'⟩
    · rw [mapColumns_eq_literal_iff] at ha hb
      rw [hnone a b ha hb] at ht
      cases ht
    · rw [h, h', mapColumns]

/-- Folding and a replacement of columns can be done in either order. -/
theorem fold_mapColumns (f : Column → Column) (e : Expr) :
    (e.mapColumns f).fold = e.fold.mapColumns f := by
  induction e using Expr.induction with
  | literal v => rfl
  | column c => rfl
  | paren e ih => exact congrArg paren ih
  | compare l op r ihl ihr =>
      rw [mapColumns, fold_compare, fold_compare, ihl, ihr, foldComparison_mapColumns]
  | connect l op r ihl ihr => rw [mapColumns, fold_connect, fold_connect, ihl, ihr, mapColumns]
  | call name args ih =>
      rw [mapColumns, mapColumnsAll_eq_map, fold_call, fold_call, mapColumns, mapColumnsAll_eq_map,
        List.map_map, List.map_map]
      exact congrArg (call name) (List.map_congr_left ih)

end Folding

/-- Run a pass over an expression that has joins; only hoisting makes others. -/
def Pass.runWith : Pass → Expr × List PropertyJoin → Expr × List PropertyJoin
  | hoist s joins, found => found.1.hoistFrom s joins
  | p, found => (p.run found.1, found.2)

/-- Run passes one after another over an expression without joins. -/
def runAll (e : Expr) (passes : List Pass) : Expr × List PropertyJoin :=
  passes.foldl (fun found p => p.runWith found) (e, [])

/-- Folding may come before or after any pass. -/
theorem Pass.fold_runWith (p : Pass) (found : Expr × List PropertyJoin) :
    Pass.fold.runWith (p.runWith found) = p.runWith (Pass.fold.runWith found) := by
  obtain ⟨e, joins⟩ := found
  cases p with
  | fold => rfl
  | hoist s made =>
      have hafter : e.fold.hoistFrom s made =
          (e.fold.mapColumns (Column.readFrom s (s.joinsOver made e.columns)),
            s.joinsOver made e.columns) := by
        rw [← columns_fold e]
        exact hoistFrom_eq (List.prefix_refl _)
      simp only [runWith, run]
      rw [hafter, hoistFrom_eq (List.prefix_refl _), fold_mapColumns]
  | unfold s =>
      simp only [runWith, run, unfold_eq]
      rw [fold_mapColumns]
  | bracket tables =>
      simp only [runWith, run, bracket_eq]
      rw [fold_mapColumns]

end Expr

section Bracketing

variable {s : Storage} {c : Column}

theorem Column.bracket_of_notMem {tables : List String} (h : c.table ∉ tables) :
    c.bracket tables = c := by
  simp [bracket, h]

theorem Column.bracket_member_eq_self_iff {table name : String} {rest : List Segment}
    {tables : List String} :
    (⟨table, .member name :: rest⟩ : Column).bracket tables = ⟨table, .member name :: rest⟩ ↔
      table ∉ tables := by
  by_cases h : table ∈ tables <;> simp [bracket, h]

/-- Columns in brackets have a flat table, so they have no nested property with or without. -/
theorem Storage.nested?_bracket (s : Storage) (c : Column) :
    s.nested? (c.bracket s.flatTables) = s.nested? c := by
  by_cases h : c.table ∈ s.flatTables
  · simp [nested?, h]
  · rw [Column.bracket_of_notMem h]

/-- Bracketing first does not change which joins a walk makes. -/
theorem Storage.joinsOver_map_bracket (s : Storage) (joins : List PropertyJoin)
    (cs : List Column) :
    s.joinsOver joins (cs.map (Column.bracket s.flatTables)) = s.joinsOver joins cs := by
  have hhoist (joins : List PropertyJoin) (c : Column) :
      ((c.bracket s.flatTables).hoist s joins).2 = (c.hoist s joins).2 := by
    cases h : s.nested? c with
    | none => rw [Column.hoist_of_none h, Column.hoist_of_none ((s.nested?_bracket c).trans h)]
    | some p => rw [Column.bracket_of_notMem (Storage.nests_of_nested? h).1]
  simp only [joinsOver, List.foldl_map, hhoist]

end Bracketing

namespace Expr

/-- Hoisting and bracketing can change places exactly where no join variable has the name of a flat
table. -/
theorem bracket_hoist_iff (s : Storage) (e : Expr) :
    (e.bracket s.flatTables).hoist s =
        ((e.hoist s).1.bracket s.flatTables, (e.hoist s).2) ↔
      ∀ j ∈ (e.hoist s).2, j.alias ∉ s.flatTables := by
  rw [hoist_eq, hoist_eq, bracket_eq, bracket_eq, columns_mapColumns, Storage.joinsOver_map_bracket,
    mapColumns_mapColumns, mapColumns_mapColumns, Prod.mk.injEq, and_iff_left rfl, mapColumns_inj]
  constructor
  · intro h j hj
    obtain ⟨c, hc, hnest, _, hread⟩ := Storage.exists_reader hj
    have hc := h c hc
    rw [Column.bracket_of_notMem hnest.1, hread] at hc
    exact Column.bracket_member_eq_self_iff.mp hc.symm
  · intro h c hc
    by_cases hnest : s.Nests c
    · obtain ⟨j, hj, _, hread⟩ := Storage.exists_serving hc hnest
      rw [Column.bracket_of_notMem hnest.1, hread]
      exact (Column.bracket_member_eq_self_iff.mpr (h j hj)).symm
    · have hn : s.nested? c = none := Storage.nested?_eq_none_iff.mpr hnest
      rw [Column.readFrom_of_none hn,
        Column.readFrom_of_none ((s.nested?_bracket c).trans hn)]

/-- Folding, hoisting and bracketing give the same in every order exactly where no join variable
has the name of a flat table. -/
theorem runAll_perm_iff (s : Storage) (e : Expr) :
    (∀ order : List Pass, order.Perm [.fold, .hoist s [], .bracket s.flatTables] →
        e.runAll order = e.runAll [.fold, .hoist s [], .bracket s.flatTables]) ↔
      ∀ j ∈ (e.hoist s).2, j.alias ∉ s.flatTables := by
  have hjoins : (e.fold.hoist s).2 = (e.hoist s).2 := by
    rw [hoist_eq, hoist_eq, columns_fold]
  rw [← hjoins, ← bracket_hoist_iff]
  constructor
  · intro h
    exact h [.fold, .bracket s.flatTables, .hoist s []] (.cons _ (.swap _ _ _))
  · intro h order horder
    have hswap : (Pass.hoist s []).runWith ((Pass.bracket s.flatTables).runWith
        (Pass.fold.runWith (e, []))) = (Pass.bracket s.flatTables).runWith
          ((Pass.hoist s []).runWith (Pass.fold.runWith (e, []))) := h
    -- folding is moved to the front first, and then two orders are left
    rcases eq_of_perm_triple horder with rfl | rfl | rfl | rfl | rfl | rfl <;>
      simp only [runAll, List.foldl_cons, List.foldl_nil, Pass.fold_runWith, hswap]

/-- Folding and unfolding give the same in either order. -/
theorem runAll_perm_unfold (s : Storage) (e : Expr) {order : List Pass}
    (h : order.Perm [.fold, .unfold s]) : e.runAll order = (e.fold.unfold s, []) := by
  rw [← List.mem_permutations'] at h
  have horder : order = [.fold, .unfold s] ∨ order = [.unfold s, .fold] := by
    simpa [List.permutations'] using h
  rcases horder with rfl | rfl
  · rfl
  · exact Pass.fold_runWith (.unfold s) (e, [])

end Expr

namespace Fetch

/-- The passes that prepare a filter, in the order in which they are run. -/
def DocumentDB.passes (q : Fetch) : List Expr.Pass :=
  [.fold, .hoist q.storage [], .bracket q.edge.toList]

@[inherit_doc DocumentDB.passes]
def JsonServer.passes (q : Fetch) : List Expr.Pass :=
  [.fold, .unfold q.storage]

theorem DocumentDB.runAll_perm_iff (q : Fetch) (e : Expr) :
    (∀ order : List Expr.Pass, order.Perm (passes q) → e.runAll order = adapt q e) ↔
      ∀ j ∈ (e.hoist q.storage).2, q.edge ≠ some j.alias := by
  have hflat (name : String) : q.edge ≠ some name ↔ name ∉ q.storage.flatTables := by
    rw [storage, Option.mem_toList]
  simp only [hflat]
  exact Expr.runAll_perm_iff q.storage e

/-- The order of the passes does not matter. In the first dialect every order prepares a filter in
the same way and with the same joins, exactly where no join variable has the name of the edge; in
the second dialect every order does. -/
theorem adapt_eq_in_any_order (q : Fetch) (e : Expr) :
    ((∀ order, order.Perm (DocumentDB.passes q) → e.runAll order = DocumentDB.adapt q e) ↔
        ∀ j ∈ (e.hoist q.storage).2, q.edge ≠ some j.alias) ∧
      ∀ order, order.Perm (JsonServer.passes q) → e.runAll order = (JsonServer.adapt q e, []) := by
  refine ⟨DocumentDB.runAll_perm_iff q e, ?_⟩
  intro order h
  exact Expr.runAll_perm_unfold q.storage e h

/-- A fetch of an edge, given its name. -/
def ofEdge (name : String) : Fetch :=
  { edge := some name, flat := .ofList ["id"] }

/-- No variable is called `E_0`, but one is called `N_1_0`. -/
theorem adapt_eq_in_any_order_acrossTables :
    Expr.acrossTables.runAll [.bracket ["E_0"], .hoist ⟨["id"], ["E_0"]⟩ [], .fold] =
        DocumentDB.adapt (ofEdge "E_0") Expr.acrossTables ∧
      Expr.acrossTables.runAll [.unfold ⟨["id"], ["E_0"]⟩, .fold] =
        (JsonServer.adapt (ofEdge "E_0") Expr.acrossTables, []) ∧
      ¬ ∀ order, order.Perm (DocumentDB.passes (ofEdge "N_1_0")) →
        Expr.acrossTables.runAll order = DocumentDB.adapt (ofEdge "N_1_0") Expr.acrossTables := by
  obtain ⟨horders, hboth⟩ := adapt_eq_in_any_order (ofEdge "E_0") Expr.acrossTables
  refine ⟨horders.mpr (by decide) _ ?_, hboth _ (.swap _ _ _), ?_⟩
  · exact (List.reverse_perm _).symm
  · rw [(adapt_eq_in_any_order (ofEdge "N_1_0") Expr.acrossTables).1]
    decide

end Fetch

/-- In a compiled fetch no join variable has the name of the edge, so the passes that prepare its
filter can be run in any order. -/
theorem Compiled.runAll_perm {settings : CompilerSettings} {steps : List Step} {q : Fetch}
    (h : Compiled settings steps q) {e : Expr} (he : q.filter = some e) {order : List Expr.Pass}
    (horder : order.Perm (Fetch.DocumentDB.passes q)) :
    e.runAll order = Fetch.DocumentDB.adapt q e := by
  obtain ⟨node, target, field, filter, hp⟩ := h.exists_parts
  cases he.symm.trans hp.filter_eq
  have hdistinct := (List.nodup_append.mp (List.nodup_cons.mp hp.distinct).2).2.2
  apply (Fetch.DocumentDB.runAll_perm_iff q e).mpr ?_ order horder
  intro j hj hedge
  rw [Expr.hoist_eq] at hj
  rw [Fetch.DocumentDB.adapt_eq] at hdistinct
  exact hdistinct j.alias (List.mem_map_of_mem hj) j.alias (by simp [hedge]) rfl

end DocWalk
