import DocWalk.Proofs.Expr.Hoist

/-!
# Which joins a walk makes

A walk joins exactly the nested properties that the columns of an expression
read, each once, in the order in which it first meets them. It puts the join
variables in place of these columns and changes nothing else, so it makes no
join exactly where it leaves the expression as it is. A hoister can be used
again, and what it was run on before has no part in any of this.

## Implementation notes

A property is told from others by its table and its name. Both are read off a
join, so the joins of a walk are compared with the columns through
`PropertyJoin.served` and `Column.leading?`.
-/

namespace DocWalk

/-- The property that a join serves, after the table that has it. -/
def PropertyJoin.served (j : PropertyJoin) : String × String :=
  (j.table, j.property)

/-- The property that the path of a column begins with, after the table. -/
def Column.leading? : Column → Option (String × String)
  | ⟨table, .member name :: _⟩ => some (table, name)
  | _ => none

theorem Column.table_of_leading? {c : Column} {p : String × String} (h : c.leading? = some p) :
    c.table = p.1 := by
  unfold leading? at h
  split at h
  · cases h
    rfl
  · cases h

namespace PropertyJoin

variable {joins : List PropertyJoin} {table property : String}

theorem serves_iff_served {j : PropertyJoin} :
    j.serves table property = true ↔ j.served = (table, property) := by
  rw [serves_iff, served, Prod.mk.injEq]

theorem served_of_find? {j : PropertyJoin} (h : joins.find? (·.serves table property) = some j) :
    j.served = (table, property) := by
  rw [← serves_iff_served]
  simpa using List.find?_some h

theorem find?_eq_none_iff_served :
    joins.find? (·.serves table property) = none ↔ (table, property) ∉ joins.map served := by
  simp only [List.find?_eq_none, serves_iff_served, List.mem_map, not_exists, not_and]

/-- One request adds its property to those that are served, unless it is among them. -/
theorem map_served_request {met : List (String × String)} (h : joins.map served = met.eraseDups)
    (table property : String) :
    (request joins table property).2.map served = (met ++ [(table, property)]).eraseDups := by
  have hmem : (table, property) ∈ joins.map served ↔ (table, property) ∈ met := by
    rw [h, List.mem_eraseDups]
  rcases request_cases joins table property with ⟨j, hj, hr⟩ | ⟨hn, hr⟩
  · have hmet : (table, property) ∈ met := by
      rw [← hmem, ← served_of_find? hj]
      exact List.mem_map_of_mem (List.mem_of_find?_eq_some hj)
    rw [hr, eraseDups_append_of_mem hmet, h]
  · rw [find?_eq_none_iff_served, hmem] at hn
    rw [hr, eraseDups_append_of_notMem hn, List.map_append, h]
    rfl

end PropertyJoin

namespace Storage

variable {s : Storage} {joins : List PropertyJoin} {c : Column} {cs : List Column}

/-- The nested properties that columns read, one for each column that reads one. -/
def nestedIn (s : Storage) (cs : List Column) : List (String × String) :=
  (cs.filter fun c => s.Nests c).filterMap Column.leading?

theorem leading?_of_nested? {name : String} {rest : List Segment}
    (h : s.nested? c = some (name, rest)) : c.leading? = some (c.table, name) := by
  obtain ⟨table, path⟩ := c
  obtain ⟨_, hp, _⟩ := nested?_eq_some_iff.mp h
  cases hp
  rfl

theorem nestedIn_cons_of_none (h : s.nested? c = none) : s.nestedIn (c :: cs) = s.nestedIn cs := by
  simp [nestedIn, nested?_eq_none_iff.mp h]

theorem nestedIn_cons_of_some {name : String} {rest : List Segment}
    (h : s.nested? c = some (name, rest)) :
    s.nestedIn (c :: cs) = (c.table, name) :: s.nestedIn cs := by
  simp [nestedIn, nests_of_nested? h, leading?_of_nested? h]

/-- A walk adds the properties it meets to those that are served, without repetition. -/
theorem map_served_joinsOver {met : List (String × String)}
    (h : joins.map PropertyJoin.served = met.eraseDups) (cs : List Column) :
    (s.joinsOver joins cs).map PropertyJoin.served = (met ++ s.nestedIn cs).eraseDups := by
  induction cs generalizing joins met with
  | nil => simpa [nestedIn, joinsOver] using h
  | cons c cs ih =>
      rw [joinsOver_cons]
      cases hn : s.nested? c with
      | none =>
          rw [Column.hoist_of_none hn, nestedIn_cons_of_none hn]
          exact ih h
      | some p =>
          rw [Column.hoist_of_some hn, nestedIn_cons_of_some hn, List.append_cons]
          exact ih (PropertyJoin.map_served_request h c.table p.1)

theorem map_served_joinsOver_nil (s : Storage) (cs : List Column) :
    (s.joinsOver [] cs).map PropertyJoin.served = (s.nestedIn cs).eraseDups := by
  have hnone : ([] : List PropertyJoin).map PropertyJoin.served =
      ([] : List (String × String)).eraseDups := rfl
  exact map_served_joinsOver hnone cs

/-- A nested property is read from the variable that serves it. -/
theorem exists_serving (hc : c ∈ cs) (h : s.Nests c) :
    ∃ j ∈ s.joinsOver [] cs, c.leading? = some j.served ∧
      c.readFrom s (s.joinsOver [] cs) = ⟨j.alias, .member valueField :: c.path.tail⟩ := by
  obtain ⟨ht, name, rest, hp, hname⟩ := h
  have hn : s.nested? c = some (name, rest) := nested?_eq_some_iff.mpr ⟨ht, hp, hname⟩
  obtain ⟨j, hj⟩ := exists_find?_joinsOver [] hc hn
  refine ⟨j, List.mem_of_find?_eq_some hj, ?_, ?_⟩
  · rw [leading?_of_nested? hn, PropertyJoin.served_of_find? hj]
  · rw [Column.readFrom_of_some hn hj, hp, List.tail_cons]

/-- Every join of a walk is read by a column that was met. -/
theorem exists_reader {j : PropertyJoin} (hj : j ∈ s.joinsOver [] cs) :
    ∃ c ∈ cs, s.Nests c ∧ c.leading? = some j.served ∧
      c.readFrom s (s.joinsOver [] cs) = ⟨j.alias, .member valueField :: c.path.tail⟩ := by
  have hserved := map_served_joinsOver_nil s cs
  have hmem : j.served ∈ s.nestedIn cs := by
    rw [← List.mem_eraseDups, ← hserved]
    exact List.mem_map_of_mem hj
  obtain ⟨c, hc, hlead⟩ := List.mem_filterMap.mp hmem
  obtain ⟨hc, hnest⟩ := List.mem_filter.mp hc
  have hnest : s.Nests c := of_decide_eq_true hnest
  obtain ⟨j', hj', hlead', hread⟩ := exists_serving hc hnest
  -- no two joins serve one property, so the variable that serves this column is `j`
  have hnodup : ((s.joinsOver [] cs).map PropertyJoin.served).Nodup := by
    rw [hserved]
    exact nodup_eraseDups _
  have heq : j' = j := by
    apply List.inj_on_of_nodup_map hnodup hj' hj
    exact Option.some.inj (hlead'.symm.trans hlead)
  subst heq
  exact ⟨c, hc, hnest, hlead, hread⟩

end Storage

namespace Expr

/-- What a walk over an expression finds and what it leaves. -/
structure Discovers (s : Storage) (e : Expr) (found : Expr × List PropertyJoin) : Prop where
  /-- The joins serve the nested properties, without repetition and as they were first met. -/
  served : found.2.map PropertyJoin.served = (s.nestedIn e.columns).eraseDups
  numbered : PropertyJoin.Numbered found.2
  distinct : (found.2.map (·.alias)).Nodup
  /-- Nested properties are read from their variables, and all else is as it was. -/
  replaced : ∃ f : Column → Column, found.1 = e.mapColumns f ∧ ∀ c ∈ e.columns,
    (¬ s.Nests c → f c = c) ∧
      (s.Nests c → ∃ j ∈ found.2, c.leading? = some j.served ∧
        f c = ⟨j.alias, .member valueField :: c.path.tail⟩)
  unchanged_iff : found.2 = [] ↔ found.1 = e

/-- A walk makes no join exactly where it leaves the expression as it is: a join variable never has
the name of the table that it is read for. -/
theorem joinsOver_eq_nil_iff (s : Storage) (e : Expr) :
    s.joinsOver [] e.columns = [] ↔
      e.mapColumns (Column.readFrom s (s.joinsOver [] e.columns)) = e := by
  rw [mapColumns_eq_self_iff]
  constructor
  · intro hnil c hc
    apply Column.readFrom_of_none
    rw [Storage.nested?_eq_none_iff]
    intro hnest
    obtain ⟨j, hj, _⟩ := Storage.exists_serving hc hnest
    rw [hnil] at hj
    cases hj
  · intro hself
    rw [List.eq_nil_iff_forall_not_mem]
    intro j hj
    obtain ⟨c, hc, _, hlead, hread⟩ := Storage.exists_reader hj
    have hname : j.alias = c.table := congrArg Column.table (hread.symm.trans (hself c hc))
    have htable : c.table = j.table := Column.table_of_leading? hlead
    obtain ⟨i, hi⟩ := List.mem_iff_getElem?.mp hj
    have hnumber := Storage.numbered_joinsOver PropertyJoin.numbered_nil e.columns i j hi
    exact numbered_ne j.table i (hnumber.symm.trans (hname.trans htable))

theorem discovers_hoist (s : Storage) (e : Expr) : Discovers s e (e.hoist s) := by
  have hnumbered := s.numbered_joinsOver PropertyJoin.numbered_nil e.columns
  rw [hoist_eq]
  exact
    { served := s.map_served_joinsOver_nil e.columns
      numbered := hnumbered
      distinct := hnumbered.nodup
      replaced := by
        refine ⟨_, rfl, ?_⟩
        intro c hc
        constructor
        · intro hnest
          exact Column.readFrom_of_none (Storage.nested?_eq_none_iff.mpr hnest)
        · exact Storage.exists_serving hc
      unchanged_iff := joinsOver_eq_nil_iff s e }

end Expr

namespace Hoister

/-- The hoister after runs over expressions. -/
def afterRuns (h : Hoister) (es : List Expr) : Hoister :=
  es.foldl (fun h e => (h.run e).2) h

theorem storage_afterRuns (h : Hoister) (es : List Expr) :
    (h.afterRuns es).storage = h.storage := by
  induction es generalizing h with
  | nil => rfl
  | cons e es ih => exact (ih _).trans (h.storage_run e)

/-- Whatever joins and variables a hoister holds, and whatever it is run on before, a run joins
exactly the nested properties of its expression, each once and as first met, under variables of
different names; it puts these in place of the columns that read the properties, and it makes no
join exactly where it changes nothing. -/
theorem run_discovers (h : Hoister) (before : List Expr) (e : Expr) :
    Expr.Discovers h.storage e ((h.afterRuns before).run e).1 := by
  rw [run_fst, storage_afterRuns]
  exact Expr.discovers_hoist h.storage e

/-- The second run numbers its joins from zero, although the first has left its variables. -/
example :
    let h : Hoister := { storage := ⟨["id"], []⟩ }
    let age (table : String) : Expr := .column ⟨table, [.member "age"]⟩
    let first := h.run (age "N")
    first.2.names = [(("N", "age"), "N_0")] ∧
      (first.2.run (.call "f" [age "M", age "N"])).1.2 =
        [⟨"M_0", "M", "age"⟩, ⟨"N_1", "N", "age"⟩] := by
  decide

end Hoister

end DocWalk
