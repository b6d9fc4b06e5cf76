import DocWalk.Proofs.Prelude
import DocWalk.Traversal.Step

/-!
# Looking variables up by alias

A trail finds and changes its variables through the first match of an alias.
Where the aliases are distinct the first match is the only one, so a change
touches exactly the variables of that alias and a lookup returns the variable
that was bound under it.

## Implementation notes

`alter` changes every variable with the given alias. It is the form in which
changes are reasoned about; `updateFirst_of_mem` says when it is the change
that a trail makes.
-/

namespace DocWalk

/-- The filter after one more condition, where there is one. -/
def conjoinBy (filter : Option Expr) : Option Expr → Option Expr
  | none => filter
  | some e => some (Expr.conjoin filter .and e)

/-- What follows for a filter from what it had and what the new condition has. -/
theorem forall_mem_conjoinBy {P C Q : Expr → Prop} (hP : ∀ e, P e → Q e) (hC : ∀ e, C e → Q e)
    (hQ : ∀ l r, P l → C r → Q (.connect (.paren l) .and (.paren r))) {filter c : Option Expr}
    (hf : ∀ e ∈ filter, P e) (hc : ∀ e ∈ c, C e) : ∀ e ∈ conjoinBy filter c, Q e := by
  intro e he
  cases c with
  | none => exact hP e (hf e he)
  | some r =>
      cases filter with
      | none => exact hC e (hc e he)
      | some l =>
          cases he
          exact hQ l r (hf l rfl) (hc r rfl)

namespace Variable

/-- A variable with one more condition, where there is one. -/
def restrictBy (v : Variable) (c : Option Expr) : Variable :=
  { v with filter := conjoinBy v.filter c }

@[simp] theorem restrictBy_none (v : Variable) : v.restrictBy none = v := rfl

theorem restrictBy_some (v : Variable) (e : Expr) :
    v.restrictBy (some e) = v.restrict .and e := rfl

@[simp] theorem restrictBy_alias (v : Variable) (c : Option Expr) :
    (v.restrictBy c).alias = v.alias := rfl

@[simp] theorem restrictBy_kind (v : Variable) (c : Option Expr) :
    (v.restrictBy c).kind = v.kind := rfl

@[simp] theorem addLabels_alias (v : Variable) (labels : List String) :
    (v.addLabels labels).alias = v.alias := rfl

@[simp] theorem addLabels_kind (v : Variable) (labels : List String) :
    (v.addLabels labels).kind = v.kind := rfl

@[simp] theorem addLabels_filter (v : Variable) (labels : List String) :
    (v.addLabels labels).filter = v.filter := rfl

@[simp] theorem addLabels_nil (v : Variable) : v.addLabels [] = v := by
  simp [addLabels]

@[simp] theorem fresh_alias (name : String) (k : Kind) : (fresh name k).alias = name := rfl

@[simp] theorem fresh_kind (name : String) (k : Kind) : (fresh name k).kind = k := rfl

@[simp] theorem fresh_filter (name : String) (k : Kind) : (fresh name k).filter = none := rfl

/-- Change the variables with the given alias. -/
def alter (name : String) (f : Variable → Variable) (vs : List Variable) : List Variable :=
  vs.map fun v => if v.alias = name then f v else v

theorem alter_cons (name : String) (f : Variable → Variable) (v : Variable)
    (vs : List Variable) :
    alter name f (v :: vs) = (if v.alias = name then f v else v) :: alter name f vs := rfl

theorem alter_of_notMem {name : String} {vs : List Variable} (f : Variable → Variable)
    (h : name ∉ vs.map (·.alias)) : alter name f vs = vs := by
  induction vs with
  | nil => rfl
  | cons v vs ih =>
      obtain ⟨hv, hvs⟩ : ¬ name = v.alias ∧ name ∉ vs.map (·.alias) := by
        simpa only [List.map_cons, List.mem_cons, not_or] using h
      rw [alter_cons, if_neg (Ne.symm hv), ih hvs]

/-- A change that a reading of variables does not see. -/
theorem map_alter {β : Type} (g : Variable → β) (name : String) {f : Variable → Variable}
    (hf : ∀ v, g (f v) = g v) (vs : List Variable) : (alter name f vs).map g = vs.map g := by
  simp only [alter, List.map_map]
  apply List.map_congr_left
  intro v _
  by_cases h : v.alias = name <;> simp [h, hf]

theorem alter_alter (name : String) {f : Variable → Variable} (g : Variable → Variable)
    (hf : ∀ v, (f v).alias = v.alias) (vs : List Variable) :
    alter name g (alter name f vs) = alter name (fun v => g (f v)) vs := by
  simp only [alter, List.map_map]
  apply List.map_congr_left
  intro v _
  by_cases h : v.alias = name <;> simp [h, hf]

theorem updateFirst_of_mem {name : String} {vs : List Variable} (f : Variable → Variable)
    (hn : (vs.map (·.alias)).Nodup) (h : name ∈ vs.map (·.alias)) :
    updateFirst name f vs = some (alter name f vs) := by
  induction vs with
  | nil => cases h
  | cons v vs ih =>
      obtain ⟨hv, hn⟩ : v.alias ∉ vs.map (·.alias) ∧ (vs.map (·.alias)).Nodup := by
        simpa only [List.map_cons, List.nodup_cons] using hn
      by_cases he : v.alias = name
      · subst he
        simp only [updateFirst, alter_cons, if_pos, alter_of_notMem f hv]
      · have hvs : name ∈ vs.map (·.alias) := by
          rcases List.mem_cons.mp h with h | h
          · exact absurd h.symm he
          · exact h
        simp only [updateFirst, if_neg he, ih hn hvs, Option.map_some, alter_cons]

end Variable

/-- The alias of the vertex that is bound after `n` others. -/
def vertexAlias (n : Nat) : String :=
  "N_" ++ Nat.repr n

/-- The alias of the edge that is bound after `n` others. -/
def edgeAlias (n : Nat) : String :=
  "E_" ++ Nat.repr n

theorem vertexAlias_injective {m n : Nat} (h : vertexAlias m = vertexAlias n) : m = n :=
  (numbered_injective (a := "N") (b := "N") h).2

theorem edgeAlias_injective {m n : Nat} (h : edgeAlias m = edgeAlias n) : m = n :=
  (numbered_injective (a := "E") (b := "E") h).2

/-- Vertices and edges begin with different letters. -/
theorem vertexAlias_ne_edgeAlias (m n : Nat) : vertexAlias m ≠ edgeAlias n := by
  intro h
  have hl := congrArg String.toList h
  simp [vertexAlias, edgeAlias] at hl

namespace Trail

@[simp] theorem nextAlias_vertex (t : Trail) : t.nextAlias .vertex = vertexAlias t.vertexCount :=
  rfl

@[simp] theorem nextAlias_edge (t : Trail) (d : Direction) :
    t.nextAlias (.edge d) = edgeAlias t.edgeCount :=
  rfl

end Trail

end DocWalk
