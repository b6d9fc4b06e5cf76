import Mathlib.Data.List.DropRight
import DocWalk.Fetch.Basic
import DocWalk.Proofs.Prelude

/-!
# The entries of a fetch

Projections and joins stand in the order in which their names were first
written, and each is as it was last written. Clearing forgets all projections,
so their order begins anew, and no join. An edit is about one clause of a fetch
and leaves the others alone.

## Implementation notes

Both lists are written in the same way, so what one write does is proved once,
for entries of any kind that have a name. What a list of writes leaves is then
followed write by write, the last one being taken off the end.
-/

namespace DocWalk

section Entries

variable {α : Type} {name : α → String} {writes entries : List α} {x y : α}

/-- Write an entry in the place of the one with its name, or else at the end. -/
def putEntry (name : α → String) (x : α) : List α → List α
  | [] => [x]
  | y :: ys => if name y = name x then x :: ys else y :: putEntry name x ys

theorem map_name_putEntry_of_mem (h : name x ∈ entries.map name) :
    (putEntry name x entries).map name = entries.map name := by
  induction entries with
  | nil => cases h
  | cons z zs ih =>
      rw [putEntry]
      split
      next hz => rw [List.map_cons, List.map_cons, hz]
      next hz =>
        have hrest := (List.mem_cons.mp h).resolve_left (Ne.symm hz)
        rw [List.map_cons, List.map_cons, ih hrest]

theorem map_name_putEntry_of_notMem (h : name x ∉ entries.map name) :
    (putEntry name x entries).map name = entries.map name ++ [name x] := by
  induction entries with
  | nil => rfl
  | cons z zs ih =>
      obtain ⟨hz, hrest⟩ : name x ≠ name z ∧ name x ∉ zs.map name := by
        simpa only [List.map_cons, List.mem_cons, not_or] using h
      rw [putEntry, if_neg (Ne.symm hz), List.map_cons, List.map_cons, ih hrest, List.cons_append]

/-- No other entry with the name of the one that was written is left. -/
theorem mem_putEntry (hn : (entries.map name).Nodup) (h : y ∈ putEntry name x entries) :
    y = x ∨ y ∈ entries ∧ name y ≠ name x := by
  induction entries with
  | nil => exact Or.inl (List.mem_singleton.mp h)
  | cons z zs ih =>
      obtain ⟨hz, hzs⟩ : name z ∉ zs.map name ∧ (zs.map name).Nodup := by
        simpa only [List.map_cons, List.nodup_cons] using hn
      rw [putEntry] at h
      split at h
      next heq =>
        apply (List.mem_cons.mp h).imp_right
        intro hy
        refine ⟨List.mem_cons_of_mem z hy, ?_⟩
        rw [← heq]
        intro hyz
        exact hz (hyz ▸ List.mem_map_of_mem hy)
      next hne =>
        rcases List.mem_cons.mp h with rfl | hy
        · exact Or.inr ⟨List.mem_cons_self, hne⟩
        · exact (ih hzs hy).imp_right (And.imp_left (List.mem_cons_of_mem z))

/-- What writes leave: one entry for each name that was written, in the order of the first writes
and as in the last one. -/
structure Records (name : α → String) (writes entries : List α) : Prop where
  distinct : (entries.map name).Nodup
  inOrder : entries.map name = (writes.map name).eraseDups
  latest : ∀ x ∈ entries, ∃ before after, writes = before ++ x :: after ∧
    ∀ y ∈ after, name y ≠ name x

theorem records_nil : Records name [] [] where
  distinct := List.nodup_nil
  inOrder := rfl
  latest := by
    intro x hx
    cases hx

/-- One more write is recorded by putting its entry. -/
theorem Records.put (h : Records name writes entries) (x : α) :
    Records name (writes ++ [x]) (putEntry name x entries) := by
  have hmem : name x ∈ entries.map name ↔ name x ∈ writes.map name := by
    rw [h.inOrder, List.mem_eraseDups]
  have horder : (putEntry name x entries).map name = ((writes ++ [x]).map name).eraseDups := by
    rw [List.map_append, List.map_singleton]
    by_cases hx : name x ∈ writes.map name
    · rw [map_name_putEntry_of_mem (hmem.mpr hx), eraseDups_append_of_mem hx, h.inOrder]
    · rw [map_name_putEntry_of_notMem (mt hmem.mp hx), eraseDups_append_of_notMem hx, h.inOrder]
  refine ⟨horder ▸ nodup_eraseDups _, horder, ?_⟩
  intro y hy
  rcases mem_putEntry h.distinct hy with rfl | ⟨hy, hne⟩
  · exact ⟨writes, [], rfl, nofun⟩
  · obtain ⟨before, after, rfl, hafter⟩ := h.latest y hy
    refine ⟨before, after ++ [x], by simp, ?_⟩
    intro z hz
    rcases List.mem_append.mp hz with hz | hz
    · exact hafter z hz
    · cases List.mem_singleton.mp hz
      exact Ne.symm hne

end Entries

namespace Fetch

/-- A clause of a fetch that edits change. -/
inductive Clause where
  | select
  | joins
  | filter
deriving DecidableEq, Repr

/-- An edit of a fetch. -/
inductive Edit where
  | select (name : String) (parts : Option (List Expr))
  | clearSelect
  | join (name source : String)
  | restrict (op : Connective) (e : Expr)

namespace Edit

/-- The clause that an edit is about. -/
def clause : Edit → Clause
  | select _ _ => .select
  | clearSelect => .select
  | join _ _ => .joins
  | restrict _ _ => .filter

def clears : Edit → Bool
  | clearSelect => true
  | _ => false

/-- The projection that an edit writes. -/
def projection? : Edit → Option Projection
  | select name parts => some ⟨name, parts⟩
  | _ => none

/-- The join that an edit writes. -/
def join? : Edit → Option Join
  | join name source => some ⟨name, source⟩
  | _ => none

/-- The projections that were written since they were last cleared. -/
def projections (edits : List Edit) : List Projection :=
  (edits.rtakeWhile fun e => !e.clears).filterMap projection?

/-- The joins that were written. -/
def joins (edits : List Edit) : List Join :=
  edits.filterMap join?

end Edit

def edit (q : Fetch) : Edit → Fetch
  | .select name parts => q.addSelect name parts
  | .clearSelect => q.clearSelect
  | .join name source => q.addJoin name source
  | .restrict op e => q.restrict op e

/-- Two fetches that differ in one clause at most. -/
def SameBut (q q' : Fetch) : Clause → Prop
  | .select => q' = { q with select := q'.select }
  | .joins => q' = { q with joins := q'.joins }
  | .filter => q' = { q with filter := q'.filter }

theorem sameBut_edit (q : Fetch) (e : Edit) : q.SameBut (q.edit e) e.clause := by
  cases e <;> rfl

theorem putSelect_eq (name : String) (parts : Option (List Expr)) (ps : List Projection) :
    putSelect name parts ps = putEntry Projection.name ⟨name, parts⟩ ps := by
  induction ps with
  | nil => rfl
  | cons p ps ih => rw [putSelect, putEntry, ih]

theorem putJoin_eq (name source : String) (js : List Join) :
    putJoin name source js = putEntry Join.alias ⟨name, source⟩ js := by
  induction js with
  | nil => rfl
  | cons j js ih => rw [putJoin, putEntry, ih]

namespace Edit

variable (edits : List Edit)

theorem projections_select (name : String) (parts : Option (List Expr)) :
    projections (edits ++ [select name parts]) = projections edits ++ [⟨name, parts⟩] := by
  rw [projections, List.rtakeWhile_concat_pos _ _ _ rfl, List.filterMap_append]
  rfl

theorem projections_clearSelect : projections (edits ++ [clearSelect]) = [] := by
  rw [projections, List.rtakeWhile_concat_neg _ _ _ (by decide)]
  rfl

theorem projections_of_clause_ne {e : Edit} (h : e.clause ≠ .select) :
    projections (edits ++ [e]) = projections edits := by
  have hkeep : (!e.clears) = true ∧ e.projection? = none := by
    cases e <;> simp_all [clause, clears, projection?]
  rw [projections, List.rtakeWhile_concat_pos (fun e => !e.clears) edits e hkeep.1,
    List.filterMap_append]
  simp [projections, hkeep.2]

theorem joins_join (name source : String) :
    joins (edits ++ [join name source]) = joins edits ++ [⟨name, source⟩] := by
  rw [joins, List.filterMap_append]
  rfl

theorem joins_of_clause_ne {e : Edit} (h : e.clause ≠ .joins) :
    joins (edits ++ [e]) = joins edits := by
  have hnone : e.join? = none := by
    cases e <;> simp_all [clause, join?]
  simp [joins, hnone]

end Edit

/-- Both lists of a fetch record what edits have written. -/
structure Reflects (edits : List Edit) (q : Fetch) : Prop where
  select : Records Projection.name (Edit.projections edits) q.select
  joins : Records Join.alias (Edit.joins edits) q.joins

/-- One more edit is recorded. -/
theorem Reflects.edit {edits : List Edit} {q : Fetch} (h : Reflects edits q) (e : Edit) :
    Reflects (edits ++ [e]) (q.edit e) := by
  cases e with
  | select name parts =>
      constructor
      · rw [Edit.projections_select, Fetch.edit, addSelect, putSelect_eq]
        exact h.select.put ⟨name, parts⟩
      · rw [Edit.joins_of_clause_ne edits (by simp [Edit.clause])]
        exact h.joins
  | clearSelect =>
      constructor
      · rw [Edit.projections_clearSelect]
        exact records_nil
      · rw [Edit.joins_of_clause_ne edits (by simp [Edit.clause])]
        exact h.joins
  | join name source =>
      constructor
      · rw [Edit.projections_of_clause_ne edits (by simp [Edit.clause])]
        exact h.select
      · rw [Edit.joins_join, Fetch.edit, addJoin, putJoin_eq]
        exact h.joins.put ⟨name, source⟩
  | restrict op e =>
      constructor
      · rw [Edit.projections_of_clause_ne edits (by simp [Edit.clause])]
        exact h.select
      · rw [Edit.joins_of_clause_ne edits (by simp [Edit.clause])]
        exact h.joins

/-- The edits of an empty fetch are recorded. -/
theorem reflects_foldl_edit (edits : List Edit) : Reflects edits (edits.foldl edit {}) := by
  induction edits using List.reverseRecOn with
  | nil => exact ⟨records_nil, records_nil⟩
  | append_singleton edits e ih =>
      rw [List.foldl_append]
      exact ih.edit e

/-- Projections and joins are ordered maps. Whatever the edits of an empty fetch, each list has one
entry for each name written to it, projections counting from the last clearing, in the order of
the first writes and as in the last; and an edit of any fetch changes only the clause that it is
about. -/
theorem edits_keep_order :
    (∀ edits, Reflects edits (edits.foldl edit {})) ∧
      ∀ (q : Fetch) (e : Edit), q.SameBut (q.edit e) e.clause :=
  ⟨reflects_foldl_edit, sameBut_edit⟩

/-- A name that is written again keeps its place, but not over a clearing; joins are not cleared. -/
example :
    let q := [Edit.select "b" none, .join "E_0" "N_1._edge", .clearSelect, .select "a" none,
      .select "b" none, .select "a" (some []), .join "E_1" "N_1._edge",
      .join "E_0" "N_1._reverse_edge"].foldl edit {}
    q.select.map (fun p => (p.name, p.parts.isSome)) = [("a", true), ("b", false)] ∧
      q.joins = [⟨"E_0", "N_1._reverse_edge"⟩, ⟨"E_1", "N_1._edge"⟩] := by
  decide

end Fetch

end DocWalk
