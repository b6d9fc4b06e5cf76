import DocWalk.Proofs.Expr.Columns
import DocWalk.Proofs.Prelude

/-!
# Join variables of nested properties

A walk over an expression meets its columns one by one and joins each nested
property when it is first met. Later columns only add to the joins, so every
column is read from the list that the whole walk leaves, as if that list had
been there from the start. Both ways of reaching a nested property come down
to one replacement of columns then, and they can be compared column by column.

## Implementation notes

A hoister finds the variable of a property in a table beside its joins. The
joins alone would tell it as well, and what follows is proved about them:
`Hoister.Shows` says that the table has the variables of the joins and no
others. A run begins like this, whatever an earlier one has left in the table,
and every column keeps it so.

`Column.readFrom` replaces a column by means of a finished list of joins, and
`hoistFrom_eq` says that this is what the walk does.
-/

namespace DocWalk

namespace PropertyJoin

variable {joins : List PropertyJoin} {table property : String}

/-- Whether a join serves the given property of the given table. -/
def serves (j : PropertyJoin) (table property : String) : Bool :=
  j.table == table && j.property == property

/-- The variable for a property, and the joins with that property's among them. -/
def request (joins : List PropertyJoin) (table property : String) : String × List PropertyJoin :=
  match joins.find? (·.serves table property) with
  | some j => (j.alias, joins)
  | none =>
      let name := table ++ "_" ++ Nat.repr joins.length
      (name, joins ++ [⟨name, table, property⟩])

theorem serves_iff {j : PropertyJoin} :
    j.serves table property = true ↔ j.table = table ∧ j.property = property := by
  simp [serves]

/-- A request finds a join, or makes one and numbers it. -/
theorem request_cases (joins : List PropertyJoin) (table property : String) :
    (∃ j, joins.find? (·.serves table property) = some j ∧
      request joins table property = (j.alias, joins)) ∨
    (joins.find? (·.serves table property) = none ∧
      request joins table property = (table ++ "_" ++ Nat.repr joins.length,
        joins ++ [⟨table ++ "_" ++ Nat.repr joins.length, table, property⟩])) := by
  rw [request]
  cases h : joins.find? (·.serves table property) with
  | none => exact Or.inr ⟨rfl, rfl⟩
  | some j => exact Or.inl ⟨j, rfl, rfl⟩

theorem prefix_request (joins : List PropertyJoin) (table property : String) :
    joins <+: (request joins table property).2 := by
  rcases request_cases joins table property with ⟨j, _, h⟩ | ⟨_, h⟩
  · rewrite [h]
    exact List.prefix_refl _
  · rw [h]
    exact List.prefix_append _ _

/-- After a request the property is joined under the variable that was returned. -/
theorem find?_request (joins : List PropertyJoin) (table property : String) :
    ∃ j, (request joins table property).2.find? (·.serves table property) = some j ∧
      (request joins table property).1 = j.alias := by
  rcases request_cases joins table property with ⟨j, hj, h⟩ | ⟨hn, h⟩
  · rw [h]
    exact ⟨j, hj, rfl⟩
  · rw [h]
    refine ⟨⟨table ++ "_" ++ Nat.repr joins.length, table, property⟩, ?_, rfl⟩
    rw [List.find?_append, hn]
    simp [serves]

theorem mem_request {j : PropertyJoin} (h : j ∈ (request joins table property).2) :
    j ∈ joins ∨ j.table = table ∧ j.property = property := by
  rcases request_cases joins table property with ⟨j', _, hr⟩ | ⟨_, hr⟩
  · rw [hr] at h
    exact Or.inl h
  · rw [hr] at h
    rcases List.mem_append.mp h with h | h
    · exact Or.inl h
    · cases List.mem_singleton.mp h
      exact Or.inr ⟨rfl, rfl⟩

/-- Every join variable is named for its table and its place in the list. -/
def Numbered (joins : List PropertyJoin) : Prop :=
  ∀ (i : Nat) (j : PropertyJoin), joins[i]? = some j → j.alias = j.table ++ "_" ++ Nat.repr i

theorem numbered_nil : Numbered [] := by
  intro i j h
  simp at h

theorem Numbered.request (h : Numbered joins) (table property : String) :
    Numbered (request joins table property).2 := by
  rcases request_cases joins table property with ⟨j, _, hr⟩ | ⟨_, hr⟩
  · rw [hr]
    exact h
  · rw [hr]
    intro i j hj
    by_cases hi : i < joins.length
    · rw [List.getElem?_append_left hi] at hj
      exact h i j hj
    · rw [List.getElem?_append_right (Nat.le_of_not_lt hi)] at hj
      have hlen : i - joins.length < 1 := (List.getElem?_eq_some_iff.mp hj).1
      have heq : i = joins.length := by omega
      subst heq
      rw [Nat.sub_self] at hj
      cases hj
      rfl

/-- No two join variables have one name, whatever their tables are called. -/
theorem Numbered.nodup (h : Numbered joins) : (joins.map (·.alias)).Nodup := by
  rw [List.nodup_iff_getElem?_ne_getElem?]
  intro m n hmn hn heq
  rw [List.length_map] at hn
  have hm : m < joins.length := Nat.lt_trans hmn hn
  rw [List.getElem?_map, List.getElem?_map, List.getElem?_eq_getElem hm,
    List.getElem?_eq_getElem hn] at heq
  have ha : joins[m].alias = joins[n].alias := Option.some.inj heq
  rw [h m _ (List.getElem?_eq_getElem hm), h n _ (List.getElem?_eq_getElem hn)] at ha
  have := (numbered_injective ha).2
  omega

end PropertyJoin

namespace Storage

variable {s : Storage}

/-- A column of a nested property: its table is not flat, and its path begins with a property that
is not. -/
def Nests (s : Storage) (c : Column) : Prop :=
  c.table ∉ s.flatTables ∧ ∃ name rest, c.path = .member name :: rest ∧ name ∉ s.flat

theorem nested?_eq_some_iff {c : Column} {name : String} {rest : List Segment} :
    s.nested? c = some (name, rest) ↔
      c.table ∉ s.flatTables ∧ c.path = .member name :: rest ∧ name ∉ s.flat := by
  obtain ⟨table, path⟩ := c
  by_cases ht : table ∈ s.flatTables
  · simp [nested?, ht]
  · cases path with
    | nil => simp [nested?]
    | cons segment tail =>
        cases segment with
        | member first =>
            have hn : s.nested? ⟨table, .member first :: tail⟩ =
                if first ∈ s.flat then none else some (first, tail) := by
              simp [nested?, ht]
            rw [hn]
            by_cases hf : first ∈ s.flat
            · rw [if_pos hf]
              refine ⟨nofun, ?_⟩
              rintro ⟨_, h, hname⟩
              cases h
              exact absurd hf hname
            · rw [if_neg hf]
              constructor
              · intro h
                cases h
                exact ⟨ht, rfl, hf⟩
              · rintro ⟨_, h, _⟩
                cases h
                rfl
        | key first => simp [nested?]
        | wildcard => simp [nested?]

theorem nests_of_nested? {c : Column} {name : String} {rest : List Segment}
    (h : s.nested? c = some (name, rest)) : s.Nests c := by
  obtain ⟨ht, hp, hn⟩ := nested?_eq_some_iff.mp h
  exact ⟨ht, name, rest, hp, hn⟩

theorem nested?_eq_none_iff {c : Column} : s.nested? c = none ↔ ¬ s.Nests c := by
  rw [← Option.not_isSome_iff_eq_none, Option.isSome_iff_exists]
  simp only [Prod.exists, nested?_eq_some_iff, Nests, exists_and_left]

instance (s : Storage) : DecidablePred s.Nests := fun _ =>
  decidable_of_iff (¬ _) (not_congr nested?_eq_none_iff |>.trans not_not)

end Storage

/-- Read a nested property from its join variable, given the joins made so far. -/
def Column.hoist (s : Storage) (joins : List PropertyJoin) (c : Column) :
    Column × List PropertyJoin :=
  match s.nested? c with
  | none => (c, joins)
  | some (name, rest) =>
      let (joined, joins) := PropertyJoin.request joins c.table name
      (⟨joined, .member valueField :: rest⟩, joins)

namespace Storage

/-- The joins after a walk over columns, given those made before it. -/
def joinsOver (s : Storage) (joins : List PropertyJoin) (cs : List Column) : List PropertyJoin :=
  cs.foldl (fun joins c => (c.hoist s joins).2) joins

end Storage

namespace Column

variable {s : Storage} {joins : List PropertyJoin} {c : Column}

/-- Read a nested property from its variable in a list of joins. -/
def readFrom (s : Storage) (joins : List PropertyJoin) (c : Column) : Column :=
  match s.nested? c with
  | none => c
  | some (name, rest) =>
      match joins.find? (·.serves c.table name) with
      | none => c
      | some j => ⟨j.alias, .member valueField :: rest⟩

theorem hoist_of_none (h : s.nested? c = none) : c.hoist s joins = (c, joins) := by
  simp only [hoist, h]

theorem hoist_of_some {name : String} {rest : List Segment}
    (h : s.nested? c = some (name, rest)) :
    c.hoist s joins = (⟨(PropertyJoin.request joins c.table name).1, .member valueField :: rest⟩,
      (PropertyJoin.request joins c.table name).2) := by
  simp only [hoist, h]

theorem readFrom_of_none (h : s.nested? c = none) : c.readFrom s joins = c := by
  simp only [readFrom, h]

theorem readFrom_of_some {name : String} {rest : List Segment} {j : PropertyJoin}
    (h : s.nested? c = some (name, rest)) (hj : joins.find? (·.serves c.table name) = some j) :
    c.readFrom s joins = ⟨j.alias, .member valueField :: rest⟩ := by
  simp only [readFrom, h, hj]

theorem prefix_hoist (s : Storage) (joins : List PropertyJoin) (c : Column) :
    joins <+: (c.hoist s joins).2 := by
  cases h : s.nested? c with
  | none =>
      rewrite [hoist_of_none h]
      exact List.prefix_refl joins
  | some p =>
      rw [hoist_of_some h]
      exact PropertyJoin.prefix_request joins c.table p.1

/-- A column is read as from any list that its joins grow into. -/
theorem hoist_eq_readFrom {final : List PropertyJoin} (h : (c.hoist s joins).2 <+: final) :
    c.hoist s joins = (c.readFrom s final, (c.hoist s joins).2) := by
  cases hn : s.nested? c with
  | none => rw [hoist_of_none hn, readFrom_of_none hn]
  | some p =>
      rw [hoist_of_some hn] at h ⊢
      obtain ⟨j, hj, ha⟩ := PropertyJoin.find?_request joins c.table p.1
      rw [readFrom_of_some hn (h.find?_eq_some hj), ha]

end Column

namespace Storage

variable {s : Storage} {joins : List PropertyJoin}

theorem joinsOver_cons (s : Storage) (joins : List PropertyJoin) (c : Column) (cs : List Column) :
    s.joinsOver joins (c :: cs) = s.joinsOver (c.hoist s joins).2 cs := rfl

theorem prefix_joinsOver (s : Storage) (joins : List PropertyJoin) (cs : List Column) :
    joins <+: s.joinsOver joins cs := by
  induction cs generalizing joins with
  | nil => exact List.prefix_refl joins
  | cons c cs ih => exact (c.prefix_hoist s joins).trans (ih _)

theorem numbered_joinsOver (hj : PropertyJoin.Numbered joins) (cs : List Column) :
    PropertyJoin.Numbered (s.joinsOver joins cs) := by
  induction cs generalizing joins with
  | nil => exact hj
  | cons c cs ih =>
      rw [joinsOver_cons]
      apply ih
      cases h : s.nested? c with
      | none => rwa [Column.hoist_of_none h]
      | some p =>
          rw [Column.hoist_of_some h]
          exact hj.request c.table p.1

/-- Every join of a walk serves a column that was met. -/
theorem mem_joinsOver {cs : List Column} {j : PropertyJoin} (hj : j ∈ s.joinsOver joins cs) :
    j ∈ joins ∨ ∃ c ∈ cs, s.Nests c ∧ j.table = c.table := by
  induction cs generalizing joins with
  | nil => exact Or.inl hj
  | cons c cs ih =>
      rw [joinsOver_cons] at hj
      rcases ih hj with hj | ⟨c', hc, hnest, ht⟩
      · cases h : s.nested? c with
        | none =>
            rw [Column.hoist_of_none h] at hj
            exact Or.inl hj
        | some p =>
            rw [Column.hoist_of_some h] at hj
            rcases PropertyJoin.mem_request hj with hj | ⟨ht, _⟩
            · exact Or.inl hj
            · exact Or.inr ⟨c, List.mem_cons_self, nests_of_nested? h, ht⟩
      · exact Or.inr ⟨c', List.mem_cons_of_mem c hc, hnest, ht⟩

/-- Every nested property that was met is joined. -/
theorem exists_find?_joinsOver (joins : List PropertyJoin) {cs : List Column} {c : Column}
    (hc : c ∈ cs) {name : String} {rest : List Segment} (h : s.nested? c = some (name, rest)) :
    ∃ j, (s.joinsOver joins cs).find? (·.serves c.table name) = some j := by
  induction cs generalizing joins with
  | nil => cases hc
  | cons c' cs ih =>
      rcases List.mem_cons.mp hc with rfl | hc
      · obtain ⟨j, hj, _⟩ := PropertyJoin.find?_request joins c.table name
        rw [joinsOver_cons, Column.hoist_of_some h]
        exact ⟨j, (prefix_joinsOver s _ cs).find?_eq_some hj⟩
      · exact ih _ hc

end Storage

namespace Hoister

/-- A hoister that knows about storage and has made joins, with their variables in its table. -/
structure Shows (h : Hoister) (s : Storage) (made : List PropertyJoin) : Prop where
  storage : h.storage = s
  joins : h.joins = made
  names : ∀ table property, h.names.lookup (table, property) =
    (made.find? (·.serves table property)).map (·.alias)

variable {h : Hoister} {s : Storage} {joins : List PropertyJoin}

/-- A request is answered from the table as from the joins. -/
theorem Shows.request (hh : h.Shows s joins) (table property : String) :
    (h.request table property).1 = (PropertyJoin.request joins table property).1 ∧
      (h.request table property).2.Shows s (PropertyJoin.request joins table property).2 := by
  have hnames := hh.names table property
  rcases PropertyJoin.request_cases joins table property with ⟨j, hj, hr⟩ | ⟨hn, hr⟩
  · rw [hj, Option.map_some] at hnames
    simp only [Hoister.request, hnames, hr]
    exact ⟨trivial, hh⟩
  · rw [hn, Option.map_none] at hnames
    simp only [Hoister.request, hnames, hr, hh.joins]
    refine ⟨trivial, hh.storage, rfl, ?_⟩
    intro table' property'
    by_cases hkey : (table', property') = (table, property)
    · cases hkey
      rw [List.lookup_cons_self, List.find?_append, hn]
      simp [PropertyJoin.serves]
    · have hlookup : ((table', property') == (table, property)) = false :=
        beq_eq_false_iff_ne.mpr hkey
      have hserves : PropertyJoin.serves
          ⟨table ++ "_" ++ Nat.repr joins.length, table, property⟩ table' property' = false := by
        rw [Bool.eq_false_iff, Ne, PropertyJoin.serves_iff]
        rintro ⟨rfl, rfl⟩
        exact hkey rfl
      rw [List.lookup_cons, hlookup, List.find?_append, List.find?_singleton, hserves]
      simpa using hh.names table' property'

/-- A column is read, and joined where it is nested, as by the joins alone. -/
theorem Shows.onColumn (hh : h.Shows s joins) (c : Column) :
    (onColumn c h).1 = (c.hoist s joins).1 ∧ (onColumn c h).2.Shows s (c.hoist s joins).2 := by
  cases hn : s.nested? c with
  | none =>
      rw [Column.hoist_of_none hn]
      simp only [Hoister.onColumn, hh.storage, hn]
      exact ⟨trivial, hh⟩
  | some p =>
      obtain ⟨hname, hshows⟩ := hh.request c.table p.1
      rw [Column.hoist_of_some hn]
      simp only [Hoister.onColumn, hh.storage, hn, hname]
      exact ⟨trivial, hshows⟩

theorem Shows.after (hh : h.Shows s joins) (cs : List Column) :
    (rewriter.after h cs).Shows s (s.joinsOver joins cs) := by
  induction cs generalizing h joins with
  | nil => exact hh
  | cons c cs ih =>
      rw [Rewriter.after_cons, Storage.joinsOver_cons]
      exact ih (hh.onColumn c).2

/-- Columns are read as from the joins that a walk leaves, or any that they grow into. -/
theorem Shows.maps (hh : h.Shows s joins) {cs : List Column} {final : List PropertyJoin}
    (hf : s.joinsOver joins cs <+: final) : rewriter.Maps (Column.readFrom s final) h cs := by
  induction cs generalizing h joins with
  | nil => trivial
  | cons c cs ih =>
      obtain ⟨hread, hshows⟩ := hh.onColumn c
      rw [Storage.joinsOver_cons] at hf
      refine ⟨?_, ih hshows hf⟩
      rw [Column.hoist_eq_readFrom ((s.prefix_joinsOver _ cs).trans hf)] at hread
      exact hread

theorem rewriter_onlyColumns : rewriter.OnlyColumns :=
  fun _ _ => rfl

/-- A hoister that has made the given joins. -/
def ofJoins (s : Storage) (joins : List PropertyJoin) : Hoister :=
  { storage := s
    joins := joins
    names := joins.map fun j => ((j.table, j.property), j.alias) }

theorem shows_ofJoins (s : Storage) (joins : List PropertyJoin) :
    (ofJoins s joins).Shows s joins where
  storage := rfl
  joins := rfl
  names table property := by
    simp only [ofJoins]
    induction joins with
    | nil => rfl
    | cons j joins ih =>
        rw [List.map_cons, List.lookup_cons, List.find?_cons, ih]
        by_cases hs : j.serves table property = true
        · obtain ⟨rfl, rfl⟩ := PropertyJoin.serves_iff.mp hs
          simp [hs]
        · have hkey : ((table, property) == (j.table, j.property)) = false := by
            rw [beq_eq_false_iff_ne, Ne, Prod.mk.injEq]
            rintro ⟨rfl, rfl⟩
            exact hs (PropertyJoin.serves_iff.mpr ⟨rfl, rfl⟩)
          simp [hs, hkey]

end Hoister

namespace Expr

variable {s : Storage} {final : List PropertyJoin}

/-- Read every nested property from a join variable, given the joins made so far. -/
def hoistFrom (s : Storage) (e : Expr) (joins : List PropertyJoin) : Expr × List PropertyJoin :=
  let (e, h) := e.rewrite Hoister.rewriter (.ofJoins s joins)
  (e, h.joins)

/-- A walk reads every column as from the joins that it leaves, or any that they grow into. -/
theorem hoistFrom_eq {e : Expr} {joins : List PropertyJoin}
    (h : s.joinsOver joins e.columns <+: final) :
    e.hoistFrom s joins =
      (e.mapColumns (Column.readFrom s final), s.joinsOver joins e.columns) := by
  have hshows := Hoister.shows_ofJoins s joins
  have hjoins := (hshows.after e.columns).joins
  rw [hoistFrom, rewrite_eq Hoister.rewriter_onlyColumns (hshows.maps h)]
  exact congrArg (Prod.mk _) hjoins

/-- Hoisting is one walk over the columns and one replacement by what the walk has found. -/
theorem hoist_eq (s : Storage) (e : Expr) :
    e.hoist s = (e.mapColumns (Column.readFrom s (s.joinsOver [] e.columns)),
      s.joinsOver [] e.columns) :=
  hoistFrom_eq (List.prefix_refl _)

end Expr

namespace Hoister

/-- A run finds what a new hoister would find. -/
theorem run_fst (h : Hoister) (e : Expr) : (h.run e).1 = e.hoist h.storage := rfl

theorem storage_run (h : Hoister) (e : Expr) : (h.run e).2.storage = h.storage := by
  have hshows := shows_ofJoins h.storage []
  have hwalk := Expr.rewrite_eq rewriter_onlyColumns
    (hshows.maps (List.prefix_refl (h.storage.joinsOver [] e.columns)))
  have hstate : (h.run e).2.storage = (e.rewrite rewriter (ofJoins h.storage [])).2.storage := rfl
  rw [hstate, hwalk]
  exact (hshows.after e.columns).storage

end Hoister

namespace Column

/-- Write the way through an array back in place of the variable it is joined under. -/
def inline (joins : List PropertyJoin) (c : Column) : Column :=
  match joins.find? (·.alias == c.table), c.path with
  | some j, .member name :: rest =>
      if name = valueField then
        ⟨j.table, .member j.property :: .wildcard :: .member valueField :: rest⟩
      else c
  | _, _ => c

theorem inline_of_ne {joins : List PropertyJoin} {c : Column}
    (h : ∀ j ∈ joins, j.alias ≠ c.table) : c.inline joins = c := by
  have hn : joins.find? (·.alias == c.table) = none := by
    simpa using h
  simp only [inline, hn]

theorem inline_of_mem {joins : List PropertyJoin} (hn : PropertyJoin.Numbered joins)
    {j : PropertyJoin} (hj : j ∈ joins) (rest : List Segment) :
    inline joins ⟨j.alias, .member valueField :: rest⟩ =
      ⟨j.table, .member j.property :: .wildcard :: .member valueField :: rest⟩ := by
  simp only [inline, find?_of_nodup_map PropertyJoin.alias hn.nodup hj, if_true]

/-- Reading a nested property from its variable and writing the way back in is unfolding it. -/
theorem inline_readFrom {s : Storage} {joins : List PropertyJoin} (hn : PropertyJoin.Numbered joins)
    {c : Column} {name : String} {rest : List Segment} (hc : s.nested? c = some (name, rest))
    {j : PropertyJoin} (hj : joins.find? (·.serves c.table name) = some j) :
    (c.readFrom s joins).inline joins = c.unfold s := by
  have hs : j.serves c.table name = true := by
    simpa using List.find?_some hj
  obtain ⟨ht, hp⟩ := PropertyJoin.serves_iff.mp hs
  rw [readFrom_of_some hc hj, inline_of_mem hn (List.mem_of_find?_eq_some hj), ht, hp]
  simp only [Column.unfold, hc]

end Column

namespace Expr

/-- Both ways of reaching nested properties say the same: with the way through each array written
back in place of its variable, an expression that reads its properties from join variables is the
one that has the ways written out. -/
theorem inline_hoist_eq_unfold (s : Storage) (e : Expr)
    (h : ∀ c ∈ e.columns, ¬ s.Nests c → ∀ j ∈ (e.hoist s).2, j.alias ≠ c.table) :
    (e.hoist s).1.mapColumns (Column.inline (e.hoist s).2) = e.unfold s := by
  rw [hoist_eq] at h ⊢
  rw [mapColumns_mapColumns, unfold_eq]
  apply mapColumns_congr
  intro c hc
  cases hn : s.nested? c with
  | none =>
      have hne := h c hc (Storage.nested?_eq_none_iff.mp hn)
      rw [Column.readFrom_of_none hn, Column.inline_of_ne hne]
      simp only [Column.unfold, hn]
  | some p =>
      obtain ⟨j, hj⟩ := Storage.exists_find?_joinsOver [] hc hn
      exact Column.inline_readFrom (Storage.numbered_joinsOver PropertyJoin.numbered_nil _) hn hj

/-- A condition over two vertex tables and an edge table. The second property of the one table is
joined under the name of the other. -/
def acrossTables : Expr :=
  .connect (.paren (.compare (.column ⟨"N_1", [.member "age"]⟩) .less (.literal (.int 40)))) .and
    (.paren (.connect
      (.call "IS_DEFINED" [.column ⟨"N", [.member "home", .key "city"]⟩,
        .column ⟨"N_1", [.member "age"]⟩])
      .or (.compare (.column ⟨"E_0", [.member "weight"]⟩) .equal (.column ⟨"N", [.member "id"]⟩))))

theorem inline_hoist_eq_unfold_acrossTables :
    (acrossTables.hoist ⟨["id"], ["E_0"]⟩).2.map (·.alias) = ["N_1_0", "N_1"] ∧
      (acrossTables.hoist ⟨["id"], ["E_0"]⟩).1.mapColumns
        (Column.inline (acrossTables.hoist ⟨["id"], ["E_0"]⟩).2) =
          acrossTables.unfold ⟨["id"], ["E_0"]⟩ :=
  ⟨by decide, inline_hoist_eq_unfold _ _ (by decide)⟩

end Expr

end DocWalk
