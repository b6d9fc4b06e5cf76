import DocWalk.Json.Expr
import DocWalk.Proofs.Json.Nesting
import Mathlib.Data.List.Nodup

/-!
# Data read back from documents

Data that was turned into a document is read back from it, exactly where the
limit on nesting allows the depth of the document, and is refused elsewhere.
The law is lifted from strings to lists, optional fields, records and choices,
and from there to expressions without floating-point literals.

## Implementation notes

`ReadsBack` says for every limit which results a reader can have. A record is
read field by field, so the law of the record is the conjunction of the laws of
its fields, and its depth is their maximum.
-/

namespace DocWalk

namespace Json

variable {α : Type} {read : Nat → Json → Option α} {write : α → Json}

/-- Written data is read back as itself where the limit allows its depth, and refused elsewhere. -/
def ReadsBack (read : Nat → Json → Option α) (write : α → Json) (a : α) : Prop :=
  ∀ limit b, read limit (write a) = some b ↔ (write a).depth ≤ limit ∧ a = b

theorem readsBack_ofString (s : String) : ReadsBack (fun _ => string?) ofString s := by
  intro limit b
  simp [ofString, string?, depth]

section Options

variable {β γ : Type} {x : Option β} {p : Prop} {b : β}

/-- A computation with one possible result, which it has under one condition, goes on from it. -/
theorem bind_eq_some_iff_of_unique (h : ∀ b', x = some b' ↔ p ∧ b = b') (f : β → Option γ) (c : γ) :
    x.bind f = some c ↔ p ∧ f b = some c := by
  simp [Option.bind_eq_some_iff, h, and_assoc]

theorem map_eq_some_iff_of_unique (h : ∀ b', x = some b' ↔ p ∧ b = b') (f : β → γ) (c : γ) :
    x.map f = some c ↔ p ∧ f b = c := by
  simp [h, and_assoc]

end Options

section Lists

theorem mapM_eq_some_map {β : Type} {as : List α} {f : α → Option β} {g : α → β}
    (h : ∀ a ∈ as, f a = some (g a)) : as.mapM f = some (as.map g) := by
  induction as with
  | nil => rfl
  | cons a as ih =>
      have ha := h a (by simp)
      have has := ih fun a' ha' => h a' (by simp [ha'])
      simp [ha, has]

theorem mapM_readsBack {as : List α} (h : ∀ a ∈ as, ReadsBack read write a) (limit : Nat)
    (bs : List α) :
    (as.map write).mapM (read limit) = some bs ↔ depthItems (as.map write) ≤ limit ∧ as = bs := by
  induction as generalizing bs with
  | nil => simp [depthItems, eq_comm]
  | cons a as ih =>
      have ha := h a (by simp) limit
      have has := ih fun a' ha' => h a' (by simp [ha'])
      rw [List.map_cons, List.mapM_cons, depthItems, Nat.max_le]
      simp only [Option.bind_eq_bind, Option.bind_eq_some_iff, ha, has, Option.pure_def,
        Option.some.injEq]
      constructor
      · rintro ⟨_, ⟨hd, rfl⟩, _, ⟨hds, rfl⟩, rfl⟩
        exact ⟨⟨hd, hds⟩, rfl⟩
      · rintro ⟨⟨hd, hds⟩, rfl⟩
        exact ⟨a, ⟨hd, rfl⟩, as, ⟨hds, rfl⟩, rfl⟩

/-- A list takes one level more than its items. -/
theorem items?_readsBack {as : List α} (h : ∀ a ∈ as, ReadsBack read write a) (limit : Nat)
    (bs : List α) :
    (((array (as.map write)).items? limit).bind fun p => p.2.mapM (read p.1)) = some bs ↔
      (array (as.map write)).depth ≤ limit ∧ as = bs := by
  cases limit with
  | zero => simp [items?, depth]
  | succ limit =>
      rw [depth, Nat.add_le_add_iff_right]
      exact mapM_readsBack h limit bs

theorem depth_array_le {as : List α} {n : Nat} (h : ∀ a ∈ as, (write a).depth ≤ n) :
    (array (as.map write)).depth ≤ n + 1 := by
  rw [depth, Nat.add_le_add_iff_right]
  induction as with
  | nil => exact Nat.zero_le n
  | cons a as ih =>
      obtain ⟨ha, has⟩ := List.forall_mem_cons.mp h
      rw [List.map_cons, depthItems]
      exact Nat.max_le.mpr ⟨ha, ih has⟩

theorem depth_ofStrings (l : List String) : (ofStrings l).depth = 1 := by
  apply Nat.le_antisymm
  · exact depth_array_le fun _ _ => Nat.le_refl 0
  · rw [ofStrings, depth]
    exact Nat.le_add_left 1 _

theorem strings?_ofStrings (l l' : List String) (limit : Nat) :
    (ofStrings l).strings? limit = some l' ↔ (ofStrings l).depth ≤ limit ∧ l = l' :=
  items?_readsBack (fun s _ => readsBack_ofString s) limit l'

end Lists

/-- An optional field, of data that is never written `null`. -/
theorem optional?_ofOption (hnull : ∀ a, write a ≠ null) {o : Option α}
    (h : ∀ a ∈ o, ReadsBack read write a) (limit : Nat) (o' : Option α) :
    optional? (read limit) (some (ofOption write o)) = some o' ↔
      (ofOption write o).depth ≤ limit ∧ o = o' := by
  cases o with
  | none => simp [ofOption, optional?, depth]
  | some a =>
      have hread := h a rfl limit
      have hoptional : optional? (read limit) (some (write a)) =
          (read limit (write a)).map some := by
        unfold optional?
        split
        · contradiction
        · next heq => exact absurd (Option.some.inj heq) (hnull a)
        · next heq => rw [Option.some.inj heq]
      simp [ofOption, hoptional, hread, and_assoc]

section Records

theorem depth_record (members : List (String × Json)) :
    (record members).depth = depthItems (members.map Prod.snd) + 1 := by
  have h : depthMembers (members.map fun m => (some m.1, m.2)) =
      depthItems (members.map Prod.snd) := by
    induction members with
    | nil => rfl
    | cons m ms ih => simp only [List.map_cons, depthMembers, depthItems, ih]
  rw [record, depth, h]

theorem depth_tagged (tag : String) (j : Json) : (tagged tag j).depth = j.depth + 1 := by
  simp [tagged, depth_record, depthItems]

theorem filter_eq_singleton {members : List (String × Json)} {m : String × Json}
    (h : (members.map Prod.fst).Nodup) (hm : m ∈ members) :
    members.filter (·.1 == m.1) = [m] := by
  induction members with
  | nil => cases hm
  | cons m' ms ih =>
      obtain ⟨hne, hnodup⟩ : m'.1 ∉ ms.map Prod.fst ∧ (ms.map Prod.fst).Nodup := by
        simpa only [List.map_cons, List.nodup_cons] using h
      rcases List.mem_cons.mp hm with rfl | hm
      · have hnil : ms.filter (·.1 == m.1) = [] := by
          rw [List.filter_eq_nil_iff]
          intro m' hm' heq
          exact hne (beq_iff_eq.mp heq ▸ List.mem_map_of_mem hm')
        simp [hnil]
      · have hother : m'.1 ≠ m.1 := fun heq => hne (heq ▸ List.mem_map_of_mem hm)
        simp [hother, ih hnodup hm]

/-- A record is read by the names that it was written with. -/
theorem fields?_record (members : List (String × Json)) (h : (members.map Prod.fst).Nodup) :
    (record members).fields? (members.map Prod.fst) = some (members.map fun m => some m.2) := by
  have hmembers : (members.map fun m => (some m.1, m.2)).mapM
      (fun m => m.1.map fun k => (k, m.2)) = some members := by
    rw [List.mapM_map]
    exact (mapM_eq_some_map (g := id) fun m _ => rfl).trans (by rw [List.map_id])
  have hfields : (members.map Prod.fst).mapM (member? members) =
      some (members.map fun m => some m.2) := by
    rw [List.mapM_map]
    apply mapM_eq_some_map
    intro m hm
    simp [member?, filter_eq_singleton h hm]
  simp only [record, fields?, hmembers]
  exact hfields

theorem record?_record (members : List (String × Json)) (h : (members.map Prod.fst).Nodup)
    (limit : Nat) :
    (record members).record? (members.map Prod.fst) (limit + 1) =
      some (limit, members.map fun m => some m.2) := by
  rw [record?, fields?_record members h]
  rfl

/-- The law of a record, given what its reader does once it is inside. -/
theorem ReadsBack.of_record {a : α} (members : List (String × Json)) (hw : write a = record members)
    (hzero : read 0 (write a) = none)
    (hsucc : ∀ limit b, read (limit + 1) (write a) = some b ↔
      depthItems (members.map Prod.snd) ≤ limit ∧ a = b) :
    ReadsBack read write a := by
  intro limit b
  have hdepth : (write a).depth = depthItems (members.map Prod.snd) + 1 := by
    rw [hw, depth_record]
  cases limit with
  | zero => simp [hzero, hdepth]
  | succ limit => rw [hsucc, hdepth, Nat.add_le_add_iff_right]

/-- The law of a choice, given what its reader does with what the choice carries. -/
theorem ReadsBack.of_tagged {a : α} {tag : String} {payload : Json}
    (hw : write a = tagged tag payload) (hzero : read 0 (write a) = none)
    (hsucc : ∀ limit b, read (limit + 1) (write a) = some b ↔ payload.depth ≤ limit ∧ a = b) :
    ReadsBack read write a := by
  refine ReadsBack.of_record [(tag, payload)] hw hzero ?_
  simpa [depthItems] using hsucc

end Records

end Json

open Json

namespace Numeral

theorem toInt64?_ofInt (n : Int64) : (ofInt n.toInt).toInt64? = some n := by
  have hlow := Int64.le_toInt n
  have hhigh := Int64.toInt_lt n
  have hpow : Nat.pow 2 63 = 9223372036854775808 := rfl
  by_cases hneg : n.toInt < 0
  · have hrange : 1 ≤ n.toInt.natAbs ∧ n.toInt.natAbs ≤ Nat.pow 2 63 := by omega
    have habs : -(n.toInt.natAbs : Int) = n.toInt := by omega
    simp only [ofInt, toInt64?, hneg, hrange, habs, Int64.ofInt_toInt]
    rfl
  · have hrange : n.toInt.natAbs < Nat.pow 2 63 := by omega
    have habs : (n.toInt.natAbs : Int) = n.toInt := by omega
    simp only [ofInt, toInt64?, hneg, hrange, habs, Int64.ofInt_toInt]
    rfl

end Numeral

namespace Value

def isFloat : Value → Bool
  | float _ => true
  | _ => false

theorem readsBack {v : Value} (h : v.isFloat = false) : ReadsBack ofJson? toJson v := by
  cases v with
  | null =>
      intro limit b
      simp [toJson, ofJson?, ofString, choice?, depth]
  | bool b =>
      refine ReadsBack.of_tagged rfl rfl fun limit b' => ?_
      simp [toJson, ofJson?, tagged, record, choice?, depth]
  | int n =>
      refine ReadsBack.of_tagged rfl rfl fun limit b' => ?_
      simp [toJson, ofJson?, tagged, record, choice?, depth, Numeral.toInt64?_ofInt]
  | float x => cases h
  | text s =>
      refine ReadsBack.of_tagged rfl rfl fun limit b' => ?_
      simp [toJson, ofJson?, tagged, record, choice?, depth, ofString]

end Value

theorem Segment.readsBack (s : Segment) : ReadsBack ofJson? toJson s := by
  cases s with
  | member name =>
      refine ReadsBack.of_tagged rfl rfl fun limit b => ?_
      simp [toJson, ofJson?, tagged, record, choice?, depth, ofString]
  | key name =>
      refine ReadsBack.of_tagged rfl rfl fun limit b => ?_
      simp [toJson, ofJson?, tagged, record, choice?, depth, ofString]
  | wildcard =>
      intro limit b
      simp [toJson, ofJson?, ofString, choice?, depth]

theorem Column.readsBack (c : Column) : ReadsBack ofJson? toJson c := by
  refine ReadsBack.of_record _ rfl rfl fun limit b => ?_
  have hrecord : c.toJson.record? ["table", "path"] (limit + 1) =
      some (limit, [some (ofString c.table), some (array (c.path.map Segment.toJson))]) :=
    record?_record _ (by simp) limit
  simp only [ofJson?, hrecord]
  cases limit with
  | zero => simp [items?, depthItems, depth]
  | succ limit =>
      have hpath := mapM_readsBack (fun s (_ : s ∈ c.path) => Segment.readsBack s) limit
      have hread := bind_eq_some_iff_of_unique hpath (fun path => some (Column.mk c.table path)) b
      simpa [items?, string?, ofString, depthItems, depth] using hread

theorem Comparator.ofJson?_tag (op : Comparator) (limit : Nat) :
    ofJson? limit (.ofString op.tag) = some op := by
  cases op <;> rfl

theorem Connective.ofJson?_tag (op : Connective) (limit : Nat) :
    ofJson? limit (.ofString op.tag) = some op := by
  cases op <;> rfl

namespace Expr

mutual

/-- The values that an expression holds, from left to right. -/
def literals : Expr → List Value
  | literal v => [v]
  | column _ => []
  | paren e => e.literals
  | compare l _ r => l.literals ++ r.literals
  | connect l _ r => l.literals ++ r.literals
  | call _ args => literalsAll args

def literalsAll : List Expr → List Value
  | [] => []
  | e :: es => e.literals ++ literalsAll es

end

theorem toJsonAll_eq_map (es : List Expr) : toJsonAll es = es.map toJson := by
  induction es with
  | nil => rfl
  | cons e es ih => rw [toJsonAll, ih, List.map_cons]

theorem toJson_ne_null (e : Expr) : e.toJson ≠ .null := by
  cases e <;> simp [toJson, Json.tagged, Json.record]

section Sides

-- A comparison and a connective are both read as two sides with an operator between them.
variable {ω : Type} {make : Expr → ω → Expr → Expr} {tag : String} {op? : Nat → Json → Option ω}
  (hread : ∀ limit payload l op r,
    payload.fields? ["left", "op", "right"] = some [some l, some op, some r] →
    ofJson? (limit + 2) (object [(some tag, payload)]) = do
      return make (← ofJson? limit l) (← op? limit op) (← ofJson? limit r))
include hread

theorem ofJson?_sides (l r : Expr) {op : ω} {name : String} {limit : Nat}
    (hop : op? limit (ofString name) = some op) :
    ofJson? (limit + 2)
        (tagged tag (record [("left", l.toJson), ("op", ofString name), ("right", r.toJson)])) =
      (ofJson? limit l.toJson).bind fun l' =>
        (ofJson? limit r.toJson).bind fun r' => some (make l' op r') := by
  have hfields : (record [("left", l.toJson), ("op", ofString name), ("right", r.toJson)]).fields?
      ["left", "op", "right"] = some [some l.toJson, some (ofString name), some r.toJson] :=
    fields?_record _ (by simp)
  rw [tagged, record, List.map_cons, List.map_nil, hread limit _ _ _ _ hfields]
  simp [hop]

theorem readsBack_of_sides {l r : Expr} {op : ω} {name : String}
    (hw : (make l op r).toJson =
      tagged tag (record [("left", l.toJson), ("op", ofString name), ("right", r.toJson)]))
    (hone : ofJson? 1 (make l op r).toJson = none)
    (hop : ∀ limit, op? limit (ofString name) = some op)
    (hl : ReadsBack ofJson? toJson l) (hr : ReadsBack ofJson? toJson r) :
    ReadsBack ofJson? toJson (make l op r) := by
  refine ReadsBack.of_tagged hw rfl fun limit b => ?_
  cases limit with
  | zero => simp [hone, depth_record]
  | succ limit =>
      rw [hw, ofJson?_sides hread l r (hop limit), bind_eq_some_iff_of_unique (hl limit),
        bind_eq_some_iff_of_unique (hr limit), depth_record, Nat.add_le_add_iff_right]
      simp only [List.map_cons, List.map_nil, depthItems, ofString, depth, Nat.max_le,
        Nat.zero_le, true_and, and_true, and_assoc, Option.some.injEq]

end Sides

theorem ofJson?_call (name : String) (args : List Expr) (limit : Nat) :
    ofJson? (limit + 3) (call name args).toJson =
      ((args.map toJson).mapM (ofJson? limit)).bind fun args' => some (call name args') := by
  have hfields : (record [("name", ofString name), ("args", array (args.map toJson))]).fields?
      ["name", "args"] = some [some (ofString name), some (array (args.map toJson))] :=
    fields?_record _ (by simp)
  rw [toJson, toJsonAll_eq_map]
  generalize record [("name", ofString name), ("args", array (args.map toJson))] = payload
    at hfields
  rw [tagged, record, List.map_cons, List.map_nil, ofJson?]
  case heq => exact hfields
  simp [string?, ofString]

mutual

theorem readsBack (e : Expr) (h : ∀ v ∈ e.literals, v.isFloat = false) :
    ReadsBack ofJson? toJson e := by
  cases e with
  | literal v =>
      refine ReadsBack.of_tagged rfl rfl fun limit b => ?_
      have hv := Value.readsBack (h v (by simp [literals])) limit
      exact map_eq_some_iff_of_unique hv literal b
  | column c =>
      refine ReadsBack.of_tagged rfl rfl fun limit b => ?_
      exact map_eq_some_iff_of_unique (c.readsBack limit) column b
  | paren e =>
      refine ReadsBack.of_tagged rfl rfl fun limit b => ?_
      exact map_eq_some_iff_of_unique (readsBack e h limit) paren b
  | compare l op r =>
      obtain ⟨hl, hr⟩ := List.forall_mem_append.mp h
      refine readsBack_of_sides ?_ rfl rfl op.ofJson?_tag (readsBack l hl) (readsBack r hr)
      intro _ _ _ _ _ hfields
      rw [ofJson?]
      exact hfields
  | connect l op r =>
      obtain ⟨hl, hr⟩ := List.forall_mem_append.mp h
      refine readsBack_of_sides ?_ rfl rfl op.ofJson?_tag (readsBack l hl) (readsBack r hr)
      intro _ _ _ _ _ hfields
      rw [ofJson?]
      exact hfields
  | call name args =>
      have hargs := readsBack_of_mem args h
      refine ReadsBack.of_tagged rfl rfl fun limit b => ?_
      match limit with
      | 0 =>
          have hnone : ofJson? 1 (call name args).toJson = none := rfl
          simp [hnone, depth_record]
      | 1 =>
          have hnone : ofJson? 2 (call name args).toJson = none := rfl
          simp [hnone, depth_record, depthItems, depth]
      | limit + 2 =>
          rw [ofJson?_call, bind_eq_some_iff_of_unique (mapM_readsBack hargs limit), depth_record]
          simp [depthItems, depth, ofString, toJsonAll_eq_map]

theorem readsBack_of_mem (es : List Expr) (h : ∀ v ∈ literalsAll es, v.isFloat = false) :
    ∀ e ∈ es, ReadsBack ofJson? toJson e := by
  cases es with
  | nil => simp
  | cons e es =>
      simp only [literalsAll, List.mem_append, or_imp, forall_and] at h
      rw [List.forall_mem_cons]
      exact ⟨readsBack e h.1, readsBack_of_mem es h.2⟩

end

end Expr

end DocWalk
