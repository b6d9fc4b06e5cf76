import DocWalk.Json.Fetch
import DocWalk.Proofs.Json.Decode

/-!
# Fetches that are shipped

A fetch without floating-point literals is received as it was shipped, exactly
where its text nests no deeper than the limit. Strings carry any characters,
and a fetch is refused for no other reason.
-/

namespace DocWalk

open Json

namespace NameSet

theorem names_insertAll (s : NameSet) {names : List String} (hn : names.Nodup)
    (hd : ∀ name ∈ names, name ∉ s.names) : (s.insertAll names).names = s.names ++ names := by
  induction names generalizing s with
  | nil => simp [insertAll]
  | cons name names ih =>
      obtain ⟨hfresh, hn⟩ := List.nodup_cons.mp hn
      have hname := hd name (by simp)
      have hinsert : (s.insert name).names = s.names ++ [name] := by
        simp [insert, hname]
      have hrest : ∀ x ∈ names, x ∉ (s.insert name).names := by
        intro x hx hmem
        rw [hinsert, List.mem_append, List.mem_singleton] at hmem
        rcases hmem with hmem | rfl
        · exact hd x (by simp [hx]) hmem
        · exact hfresh hx
      rw [insertAll, List.foldl_cons]
      exact (ih (s.insert name) hn hrest).trans (by simp [hinsert])

theorem eq_of_names_eq {s t : NameSet} (h : s.names = t.names) : s = t := by
  cases s
  cases t
  cases h
  rfl

/-- A set is rebuilt from its names. -/
theorem ofList_names (s : NameSet) : ofList s.names = s :=
  eq_of_names_eq (names_insertAll empty s.nodup (by simp [empty]))

end NameSet

namespace Projection

def literals (p : Projection) : List Value :=
  p.parts.elim [] Expr.literalsAll

/-- The expressions of an entry are written as one array. -/
theorem readsBack_parts {es : List Expr} (h : ∀ v ∈ Expr.literalsAll es, v.isFloat = false) :
    ReadsBack ofJson?.readParts (fun es => array (Expr.toJsonAll es)) es := by
  intro limit b
  simp only [Expr.toJsonAll_eq_map]
  exact items?_readsBack (Expr.readsBack_of_mem es h) limit b

theorem readsBack {p : Projection} (h : ∀ v ∈ p.literals, v.isFloat = false) :
    ReadsBack ofJson? toJson p := by
  refine ReadsBack.of_record _ rfl rfl fun limit b => ?_
  have hrecord : p.toJson.record? ["name", "expressions"] (limit + 1) = some (limit,
      [some (ofString p.name), some (ofOption (fun es => array (Expr.toJsonAll es)) p.parts)]) :=
    record?_record _ (by simp) limit
  have hparts : ∀ es ∈ p.parts,
      ReadsBack ofJson?.readParts (fun es => array (Expr.toJsonAll es)) es := by
    intro es hes
    apply readsBack_parts
    simpa [literals, Option.mem_def.mp hes] using h
  have hread := bind_eq_some_iff_of_unique (optional?_ofOption (by simp) hparts limit)
    (fun parts => some (Projection.mk p.name parts)) b
  simp only [ofJson?, hrecord]
  simpa [string?, ofString, depthItems, depth] using hread

end Projection

theorem Join.readsBack (j : Join) : ReadsBack ofJson? toJson j := by
  intro limit b
  have hpair := fun l => strings?_ofStrings [j.alias, j.source] l limit
  simp only [ofJson?, toJson]
  exact (bind_eq_some_iff_of_unique hpair _ b).trans (by simp)

namespace Fetch

theorem optional?_ofString (o : Option String) :
    optional? string? (some (ofOption ofString o)) = some o := by
  cases o <;> rfl

theorem depth_ofOption_ofString (o : Option String) : (ofOption ofString o).depth = 0 := by
  cases o <;> rfl

/-- The depth of a fetch comes from its result, its joins and its condition. -/
theorem depth_toJson (q : Fetch) :
    q.toJson.depth = max (array (q.select.map Projection.toJson)).depth
      (max 1 (max (array (q.joins.map Join.toJson)).depth (ofOption Expr.toJson q.filter).depth)) +
        1 := by
  rw [toJson, depth_record]
  simp [depthItems, depth_ofOption_ofString, depth_ofStrings]

/-- The values that a fetch holds, in its result and in its condition. -/
def literals (q : Fetch) : List Value :=
  q.select.flatMap Projection.literals ++ q.filter.elim [] Expr.literals

theorem readsBack {q : Fetch} (h : ∀ v ∈ q.literals, v.isFloat = false) :
    ReadsBack ofJson? toJson q := by
  refine ReadsBack.of_record _ rfl rfl fun limit b => ?_
  have hrecord : q.toJson.record? ["node_alias", "edge_alias", "select", "flat_properties", "joins",
      "predicate", "collection_name"] (limit + 1) = some (limit,
      [some (ofOption ofString q.node), some (ofOption ofString q.edge),
        some (array (q.select.map Projection.toJson)), some (ofStrings q.flat.names),
        some (array (q.joins.map Join.toJson)), some (ofOption Expr.toJson q.filter),
        some (ofOption ofString q.collection)]) :=
    record?_record _ (by simp) limit
  have hparts : ∀ p ∈ q.select, ∀ v ∈ p.literals, v.isFloat = false := by
    intro p hp v hv
    exact h v (List.mem_append_left _ (List.mem_flatMap.mpr ⟨p, hp, hv⟩))
  have hvalues : ∀ e ∈ q.filter, ∀ v ∈ e.literals, v.isFloat = false := by
    intro e he v hv
    exact h v (by simp [literals, Option.mem_def.mp he, hv])
  simp only [ofJson?, hrecord, Option.bind_eq_bind, Option.bind_some, optional?_ofString]
  cases limit with
  | zero => simp [items?, depthItems, depth]
  | succ limit =>
      have hselect := mapM_readsBack (fun p hp => Projection.readsBack (hparts p hp)) limit
      have hflat := fun l => strings?_ofStrings q.flat.names l (limit + 1)
      have hjoins := mapM_readsBack (fun j (_ : j ∈ q.joins) => j.readsBack) limit
      have hfilter := optional?_ofOption Expr.toJson_ne_null
        (fun e he => Expr.readsBack e (hvalues e he)) (limit + 1)
      simp only [items?, Option.bind_some, bind_eq_some_iff_of_unique hselect,
        bind_eq_some_iff_of_unique hflat, bind_eq_some_iff_of_unique hjoins,
        bind_eq_some_iff_of_unique hfilter]
      rw [NameSet.ofList_names]
      simp only [List.map_cons, List.map_nil, depthItems, depth, depth_ofStrings,
        depth_ofOption_ofString, Nat.max_le, Nat.zero_le, Nat.add_le_add_iff_right, true_and,
        and_true, and_assoc, Option.pure_def, Option.some.injEq]

section Shipping

variable {q : Fetch} (h : ∀ v ∈ q.literals, v.isFloat = false)

include h

/-- A shipped fetch is received as itself or not at all, as the nesting of its text decides. -/
theorem receive?_ship_eq_some_iff (q' : Fetch) :
    receive? q.ship = some q' ↔ nesting q.ship ≤ nestingLimit ∧ q = q' := by
  rw [receive?, ship, parse?_write, Option.bind_some, nesting_write]
  exact readsBack h nestingLimit q'

theorem receive?_ship_of_le (hle : nesting q.ship ≤ nestingLimit) : receive? q.ship = some q :=
  (receive?_ship_eq_some_iff h q).mpr ⟨hle, rfl⟩

theorem receive?_ship_of_lt (hlt : nestingLimit < nesting q.ship) : receive? q.ship = none := by
  rw [Option.eq_none_iff_forall_ne_some]
  intro q' hq'
  exact Nat.not_le_of_lt hlt ((receive?_ship_eq_some_iff h q').mp hq').1

end Shipping

/-- A fetch without floating-point literals is received as it was shipped if its text nests at
most 127 deep, and is refused if it nests deeper. -/
theorem ship_roundTrip {q : Fetch} (h : ∀ v ∈ q.literals, v.isFloat = false) :
    (nesting q.ship ≤ 127 → receive? q.ship = some q) ∧
      (127 < nesting q.ship → receive? q.ship = none) :=
  ⟨receive?_ship_of_le h, receive?_ship_of_lt h⟩

/-- A condition in parentheses; its string has characters that open levels elsewhere. -/
def groupedCondition : Nat → Expr
  | 0 => .literal (.text "[\x7b\"\\")
  | n + 1 => .paren (groupedCondition n)

def groupedFetch (n : Nat) : Fetch :=
  { filter := some (groupedCondition n) }

theorem literals_groupedFetch (n : Nat) :
    (groupedFetch n).literals = [.text "[\x7b\"\\"] := by
  have h : (groupedCondition n).literals = [.text "[\x7b\"\\"] := by
    induction n with
    | zero => rfl
    | succ n ih => exact ih
  exact h

theorem nesting_groupedFetch (n : Nat) : nesting (groupedFetch n).ship = n + 3 := by
  have h : (groupedCondition n).toJson.depth = n + 2 := by
    induction n with
    | zero => rfl
    | succ n ih => rw [groupedCondition, Expr.toJson, depth_tagged, ih]
  rw [ship, nesting_write, depth_toJson]
  simp [groupedFetch, depthItems, ofOption, depth, h]

theorem ship_roundTrip_groupedFetch :
    (∀ v ∈ (groupedFetch 124).literals, v.isFloat = false) ∧
      receive? (groupedFetch 124).ship = some (groupedFetch 124) ∧
      (∀ v ∈ (groupedFetch 125).literals, v.isFloat = false) ∧
      receive? (groupedFetch 125).ship = none := by
  have hfree : ∀ n, ∀ v ∈ (groupedFetch n).literals, v.isFloat = false := by
    intro n
    simp [literals_groupedFetch, Value.isFloat]
  refine ⟨hfree 124, ?_, hfree 125, ?_⟩
  · exact (ship_roundTrip (hfree 124)).1 (by simp [nesting_groupedFetch])
  · exact (ship_roundTrip (hfree 125)).2 (by simp [nesting_groupedFetch])

end Fetch

end DocWalk
