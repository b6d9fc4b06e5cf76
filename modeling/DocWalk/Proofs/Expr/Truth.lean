import DocWalk.Proofs.Traversal.Rules

/-!
# Truth of conditions

Comparisons and function calls are the atoms of a condition. Under a truth
assignment to atoms a condition is a Boolean combination of them, and the
conditions that traversal steps make say what the steps ask for.
-/

namespace DocWalk

namespace Expr

/-- The truth of a condition under an assignment to its atoms. -/
def holds (σ : Expr → Bool) : Expr → Bool
  | literal (.bool b) => b
  | paren e => e.holds σ
  | connect l .and r => l.holds σ && r.holds σ
  | connect l .or r => l.holds σ || r.holds σ
  | e => σ e

variable (σ : Expr → Bool)

@[simp] theorem holds_truth (b : Bool) : (truth b).holds σ = b := by
  simp [truth, holds]

@[simp] theorem holds_paren (e : Expr) : (paren e).holds σ = e.holds σ := by
  simp [holds]

@[simp] theorem holds_and (l r : Expr) :
    (connect l .and r).holds σ = (l.holds σ && r.holds σ) := by
  simp [holds]

@[simp] theorem holds_or (l r : Expr) :
    (connect l .or r).holds σ = (l.holds σ || r.holds σ) := by
  simp [holds]

@[simp] theorem holds_compare (l : Expr) (op : Comparator) (r : Expr) :
    (compare l op r).holds σ = σ (compare l op r) := by
  simp [holds]

@[simp] theorem holds_call (name : String) (args : List Expr) :
    (call name args).holds σ = σ (call name args) := by
  simp [holds]

@[simp] theorem holds_propertyIs (table name : String) (v : Value) :
    (propertyIs table name v).holds σ = σ (propertyIs table name v) :=
  holds_compare σ _ _ _

theorem holds_foldl_or (e : Expr) (es : List Expr) :
    (es.foldl (fun acc next => connect acc .or next) e).holds σ =
      (e.holds σ || es.any (·.holds σ)) := by
  induction es generalizing e with
  | nil => simp
  | cons e' es ih => simp [ih, Bool.or_assoc]

/-- The truth of a condition that need not be there. -/
def filterHolds : Option Expr → Bool
  | none => true
  | some e => e.holds σ

@[simp] theorem filterHolds_none : filterHolds σ none = true := rfl

@[simp] theorem filterHolds_some (e : Expr) : filterHolds σ (some e) = e.holds σ := rfl

@[simp] theorem filterHolds_conjoinBy (filter c : Option Expr) :
    filterHolds σ (conjoinBy filter c) = (filterHolds σ filter && filterHolds σ c) := by
  cases c with
  | none => simp [conjoinBy]
  | some e => cases filter <;> simp [conjoinBy, conjoin]

theorem filterHolds_anyOf (es : List Expr) :
    filterHolds σ (anyOf es) = true ↔ es = [] ∨ ∃ e ∈ es, e.holds σ = true := by
  cases es with
  | nil => simp [anyOf]
  | cons e es => simp [anyOf, holds_foldl_or]

theorem filterHolds_oneOf (name property : String) (values : List String) :
    filterHolds σ (oneOf name property values) = true ↔
      values = [] ∨ ∃ s ∈ values, σ (propertyIs name property (.text s)) = true := by
  simp [oneOf, filterHolds_anyOf]

end Expr

/-- What a step asks of the variable it is about. -/
def Step.Passes (σ : Expr → Bool) (name : String) : Step → Prop
  | vertices ids => ids = [] ∨ ∃ id ∈ ids, σ (.propertyIs name idProperty (.text id))
  | hop _ labels => labels = [] ∨ ∃ l ∈ labels, σ (.propertyIs name labelProperty (.text l))
  | hopToEdge _ labels => labels = [] ∨ ∃ l ∈ labels, σ (.propertyIs name labelProperty (.text l))
  | toEnd _ => True
  | has key (.compare op value) => σ (.compare (.column (.property name key)) op (.literal value))
  | has key (.within values) => ∃ v ∈ values, σ (.propertyIs name key v)
  | has key .present => σ (.call definedFunction [.column (.property name key)])
  | hasLabel labels => labels = [] ∨ ∃ l ∈ labels, σ (.propertyIs name labelProperty (.text l))
  | hasId ids => ids = [] ∨ ∃ id ∈ ids, σ (.propertyIs name idProperty (.text id))

theorem Test.holds_within (σ : Expr → Bool) (name key : String) (values : List Value) :
    (condition name key (.within values)).holds σ = true ↔
      ∃ v ∈ values, σ (.propertyIs name key v) = true := by
  cases values with
  | nil => simp [condition, Expr.anyOf]
  | cons v values => simp [condition, Expr.anyOf, Expr.holds_foldl_or]

/-- The condition of a step is true exactly when the step's demand is met. -/
theorem Step.condition?_holds_iff (σ : Expr → Bool) (name : String) (s : Step) :
    Expr.filterHolds σ (s.condition? name) = true ↔ s.Passes σ name := by
  cases s with
  | vertices ids => exact Expr.filterHolds_oneOf σ name idProperty ids
  | hop d labels => exact Expr.filterHolds_oneOf σ name labelProperty labels
  | hopToEdge d labels => exact Expr.filterHolds_oneOf σ name labelProperty labels
  | toEnd e => simp [condition?, Passes]
  | has key test =>
      cases test with
      | compare op value => simp [condition?, Passes, Test.condition]
      | within values => exact Test.holds_within σ name key values
      | present => simp [condition?, Passes, Test.condition]
  | hasLabel labels => exact Expr.filterHolds_oneOf σ name labelProperty labels
  | hasId ids => exact Expr.filterHolds_oneOf σ name idProperty ids

end DocWalk
