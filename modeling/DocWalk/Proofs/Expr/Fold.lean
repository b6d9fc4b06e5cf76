import DocWalk.Expr.Fold

/-!
# What folding keeps and what it settles

Folding replaces a comparison by its truth value only where two literals decide
it. Whatever is put together from the parts of an expression and does not tell
such a comparison from its truth value is therefore the same before and after;
the value of an expression is one case of this. One run leaves no comparison
that literals decide, so a second run finds nothing to do.

## Implementation notes

A value is optional, and nothing is assumed of what has none: a column, a call
or a connective may give any result, and so may a comparison with an operand
that has no value.
-/

namespace DocWalk

namespace Comparator

/-- The comparators that ask for an order. -/
def orderings : List Comparator :=
  [less, lessOrEqual, greater, greaterOrEqual]

theorem decide?_eq_none_iff {op : Comparator} {a b : Value} :
    op.decide? a b = none ↔ op ∈ orderings ∧ a.compare? b = none := by
  cases h : a.compare? b with
  | none => cases op <;> simp [decide?, h, orderings]
  | some o => simp [decide?, h]

end Comparator

namespace Expr

/-- Induction over an expression, the arguments of a call being the members of a list. -/
@[elab_as_elim]
theorem induction {motive : Expr → Prop} (literal : ∀ v, motive (literal v))
    (column : ∀ c, motive (column c)) (paren : ∀ e, motive e → motive (paren e))
    (compare : ∀ l op r, motive l → motive r → motive (compare l op r))
    (connect : ∀ l op r, motive l → motive r → motive (connect l op r))
    (call : ∀ name args, (∀ e ∈ args, motive e) → motive (call name args)) (e : Expr) :
    motive e := by
  refine @Expr.rec motive (fun args => ∀ e ∈ args, motive e) literal column paren compare connect
    call ?_ ?_ e
  · simp
  · intro e es he hes
    exact List.forall_mem_cons.mpr ⟨he, hes⟩

section Folding

/-- A comparison is replaced where two literals decide it, and stays as it is elsewhere. -/
theorem foldComparison_cases (l : Expr) (op : Comparator) (r : Expr) :
    (∃ a b t, l = literal a ∧ r = literal b ∧ op.decide? a b = some t ∧
      foldComparison l op r = (truth t, 1)) ∨
    ((∀ a b, l = literal a → r = literal b → op.decide? a b = none) ∧
      foldComparison l op r = (compare l op r, 0)) := by
  unfold foldComparison
  split
  · next a b =>
      cases h : op.decide? a b with
      | some t => exact Or.inl ⟨a, b, t, rfl, rfl, h, rfl⟩
      | none =>
          refine Or.inr ⟨?_, rfl⟩
          rintro _ _ ⟨⟩ ⟨⟩
          exact h
  · next hne => exact Or.inr ⟨fun a b ha hb => (hne a b ha hb).elim, rfl⟩

/-- The folded expressions of a list and the number of comparisons that were replaced in them. -/
def foldCountingAll (es : List Expr) : List Expr × Nat :=
  let (es, f) := rewriteAll Folder.rewriter es {}
  (es, f.folded)

mutual

/-- What a walk has counted before does not change what it finds, and is added to. -/
theorem rewrite_folder_add (e : Expr) (m n : Nat) :
    e.rewrite Folder.rewriter ⟨m + n⟩ =
      ((e.rewrite Folder.rewriter ⟨n⟩).1, ⟨m + (e.rewrite Folder.rewriter ⟨n⟩).2.folded⟩) := by
  cases e with
  | literal v => rfl
  | column c => rfl
  | paren e =>
      rw [rewrite, rewrite_folder_add e m n]
      rfl
  | compare l op r =>
      rw [rewrite, rewrite_folder_add l m n]
      simp only [rewrite_folder_add r m]
      rw [rewrite]
      simp only [Folder.rewriter, Folder.onNode, Nat.add_assoc]
  | connect l op r =>
      rw [rewrite, rewrite_folder_add l m n]
      simp only [rewrite_folder_add r m]
      rfl
  | call name args =>
      rw [rewrite, rewriteAll_folder_add args m n]
      rfl

theorem rewriteAll_folder_add (es : List Expr) (m n : Nat) :
    rewriteAll Folder.rewriter es ⟨m + n⟩ =
      ((rewriteAll Folder.rewriter es ⟨n⟩).1,
        ⟨m + (rewriteAll Folder.rewriter es ⟨n⟩).2.folded⟩) := by
  cases es with
  | nil => rfl
  | cons e es =>
      rw [rewriteAll, rewrite_folder_add e m n]
      simp only [rewriteAll_folder_add es m]
      rfl

end

theorem rewrite_folder (e : Expr) (n : Nat) :
    e.rewrite Folder.rewriter ⟨n⟩ = (e.fold, ⟨n + e.foldCounting.2⟩) :=
  rewrite_folder_add e n 0

theorem rewriteAll_folder (es : List Expr) (n : Nat) :
    rewriteAll Folder.rewriter es ⟨n⟩ =
      ((foldCountingAll es).1, ⟨n + (foldCountingAll es).2⟩) :=
  rewriteAll_folder_add es n 0

/-- A folder finds the same whatever it has counted before. -/
theorem run_folder (f : Folder) (e : Expr) :
    f.run e = (e.foldCounting, ⟨e.foldCounting.2⟩) := rfl

theorem foldCounting_paren (e : Expr) :
    (paren e).foldCounting = (paren e.fold, e.foldCounting.2) := rfl

/-- The right side of an expression is walked over with what was counted in the left one. -/
theorem rewrite_folder_right (l r : Expr) :
    r.rewrite Folder.rewriter (l.rewrite Folder.rewriter {}).2 =
      (r.fold, ⟨l.foldCounting.2 + r.foldCounting.2⟩) :=
  rewrite_folder r l.foldCounting.2

theorem foldCounting_compare (l : Expr) (op : Comparator) (r : Expr) :
    (compare l op r).foldCounting = ((foldComparison l.fold op r.fold).1,
      l.foldCounting.2 + r.foldCounting.2 + (foldComparison l.fold op r.fold).2) := by
  rw [foldCounting, Folder.run, rewrite]
  simp only [rewrite_folder_right l r]
  rfl

theorem foldCounting_connect (l : Expr) (op : Connective) (r : Expr) :
    (connect l op r).foldCounting =
      (connect l.fold op r.fold, l.foldCounting.2 + r.foldCounting.2) := by
  rw [foldCounting, Folder.run, rewrite]
  simp only [rewrite_folder_right l r]
  rfl

theorem foldCounting_call (name : String) (args : List Expr) :
    (call name args).foldCounting =
      (call name (foldCountingAll args).1, (foldCountingAll args).2) := rfl

theorem foldCountingAll_cons (e : Expr) (es : List Expr) :
    foldCountingAll (e :: es) =
      (e.fold :: (foldCountingAll es).1, e.foldCounting.2 + (foldCountingAll es).2) := by
  have hes : rewriteAll Folder.rewriter es (e.rewrite Folder.rewriter {}).2 =
      ((foldCountingAll es).1, ⟨e.foldCounting.2 + (foldCountingAll es).2⟩) :=
    rewriteAll_folder es e.foldCounting.2
  rw [foldCountingAll, rewriteAll]
  simp only [hes]
  rfl

theorem foldCountingAll_fst (es : List Expr) : (foldCountingAll es).1 = es.map fold := by
  induction es with
  | nil => rfl
  | cons e es ih => rw [foldCountingAll_cons, List.map_cons, ih]

theorem foldCountingAll_of_forall {es : List Expr} (h : ∀ e ∈ es, e.foldCounting = (e, 0)) :
    foldCountingAll es = (es, 0) := by
  induction es with
  | nil => rfl
  | cons e es ih =>
      obtain ⟨he, hes⟩ := List.forall_mem_cons.mp h
      simp [foldCountingAll_cons, fold, he, ih hes]

theorem fold_compare (l : Expr) (op : Comparator) (r : Expr) :
    (compare l op r).fold = (foldComparison l.fold op r.fold).1 := by
  rw [fold, foldCounting_compare]

theorem fold_connect (l : Expr) (op : Connective) (r : Expr) :
    (connect l op r).fold = connect l.fold op r.fold := by
  rw [fold, foldCounting_connect]

theorem fold_call (name : String) (args : List Expr) :
    (call name args).fold = call name (args.map fold) := by
  rw [fold, foldCounting_call, foldCountingAll_fst]

end Folding

section Compositional

variable {α : Type} {f : Expr → α}

/-- What is put together from the same of the parts of an expression. -/
structure Compositional (f : Expr → α) : Prop where
  paren {e e' : Expr} : f e = f e' → f (paren e) = f (paren e')
  compare {l l' r r' : Expr} (op : Comparator) : f l = f l' → f r = f r' →
    f (compare l op r) = f (compare l' op r')
  connect {l l' r r' : Expr} (op : Connective) : f l = f l' → f r = f r' →
    f (connect l op r) = f (connect l' op r')
  call {args args' : List Expr} (name : String) : args.map f = args'.map f →
    f (call name args) = f (call name args')

/-- Folding keeps what does not tell a decided comparison from its truth value. -/
theorem Compositional.fold_eq (hf : Compositional f)
    (hdecided : ∀ op a b t, op.decide? a b = some t →
      f (truth t) = f (Expr.compare (literal a) op (literal b))) (e : Expr) : f e.fold = f e := by
  induction e using Expr.induction with
  | literal v => rfl
  | column c => rfl
  | paren e ih => exact hf.paren ih
  | compare l op r ihl ihr =>
      rw [fold_compare]
      -- the sides are folded before the comparison of them is looked at
      rcases foldComparison_cases l.fold op r.fold with ⟨a, b, t, hl, hr, ht, h⟩ | ⟨-, h⟩
      · rw [h, hdecided op a b t ht, ← hl, ← hr]
        exact hf.compare op ihl ihr
      · rw [h]
        exact hf.compare op ihl ihr
  | connect l op r ihl ihr =>
      rw [fold_connect]
      exact hf.connect op ihl ihr
  | call name args ih =>
      rw [fold_call]
      apply hf.call name
      rw [List.map_map]
      exact List.map_congr_left ih

end Compositional

/-- What the parts of an expression mean where its own text does not say. -/
structure Meaning where
  column : Column → Option Value
  call : String → List (Option Value) → Option Value
  connect : Connective → Option Value → Option Value → Option Value
  /-- A comparison in which at least one operand has no value. -/
  unvalued : Comparator → Option Value → Option Value → Option Value

namespace Meaning

/-- The value of a comparison. Two values in some order are compared by it; two values without an
order are different, and nothing else is known of them. -/
def compare (m : Meaning) (op : Comparator) : Option Value → Option Value → Option Value
  | some a, some b =>
      match a.compare? b with
      | some o => some (.bool (op.admits o))
      | none =>
          match op with
          | .equal => some (.bool false)
          | .notEqual => some (.bool true)
          | _ => none
  | x, y => m.unvalued op x y

mutual

/-- The value of an expression, if it has one. -/
def eval (m : Meaning) : Expr → Option Value
  | .literal v => some v
  | .column c => m.column c
  | .paren e => m.eval e
  | .compare l op r => m.compare op (m.eval l) (m.eval r)
  | .connect l op r => m.connect op (m.eval l) (m.eval r)
  | .call name args => m.call name (m.evalAll args)

def evalAll (m : Meaning) : List Expr → List (Option Value)
  | [] => []
  | e :: es => m.eval e :: m.evalAll es

end

variable (m : Meaning)

theorem evalAll_eq_map (es : List Expr) : m.evalAll es = es.map m.eval := by
  induction es with
  | nil => rfl
  | cons e es ih => rw [evalAll, ih, List.map_cons]

theorem eval_compositional : Compositional m.eval where
  paren := id
  compare op hl hr := by simp only [eval, hl, hr]
  connect op hl hr := by simp only [eval, hl, hr]
  call name h := by simp only [eval, evalAll_eq_map, h]

theorem compare_of_decide? {op : Comparator} {a b : Value} {t : Bool}
    (h : op.decide? a b = some t) : m.compare op (some a) (some b) = some (.bool t) := by
  cases ho : a.compare? b with
  | some o =>
      have ht : op.admits o = t := by simpa [Comparator.decide?, ho] using h
      simp [compare, ho, ht]
  | none => cases op <;> simp_all [Comparator.decide?, compare]

/-- An expression has the same value after folding, whatever its columns, calls and connectives
mean. -/
theorem eval_fold (e : Expr) : m.eval e.fold = m.eval e := by
  apply m.eval_compositional.fold_eq
  intro op a b t ht
  exact (m.compare_of_decide? ht).symm

end Meaning

section Settled

mutual

/-- The comparisons of an expression at any depth, each with its two sides. -/
def comparisons : Expr → List (Expr × Comparator × Expr)
  | literal _ => []
  | column _ => []
  | paren e => e.comparisons
  | compare l op r => (l, op, r) :: (l.comparisons ++ r.comparisons)
  | connect l _ r => l.comparisons ++ r.comparisons
  | call _ args => comparisonsAll args

def comparisonsAll : List Expr → List (Expr × Comparator × Expr)
  | [] => []
  | e :: es => e.comparisons ++ comparisonsAll es

end

theorem comparisonsAll_eq_flatMap (es : List Expr) :
    comparisonsAll es = es.flatMap comparisons := by
  induction es with
  | nil => rfl
  | cons e es ih => rw [comparisonsAll, ih, List.flatMap_cons]

/-- Two literals are compared only for an order that their values do not have. -/
def Settled (e : Expr) : Prop :=
  ∀ op a b, (literal a, op, literal b) ∈ e.comparisons →
    op ∈ Comparator.orderings ∧ a.compare? b = none

theorem settled_literal (v : Value) : (literal v).Settled := by
  intro op a b h
  cases h

theorem settled_compare_iff {l r : Expr} {op : Comparator} :
    (compare l op r).Settled ↔
      (∀ a b, l = literal a → r = literal b → op.decide? a b = none) ∧ l.Settled ∧ r.Settled := by
  simp only [Settled, ← Comparator.decide?_eq_none_iff, comparisons, List.mem_cons,
    List.mem_append, Prod.mk.injEq]
  constructor
  · intro h
    refine ⟨?_, ?_, ?_⟩
    · rintro a b rfl rfl
      exact h op a b (Or.inl ⟨rfl, rfl, rfl⟩)
    · exact fun op a b hmem => h op a b (Or.inr (Or.inl hmem))
    · exact fun op a b hmem => h op a b (Or.inr (Or.inr hmem))
  · rintro ⟨h, hl, hr⟩ op' a b (⟨ha, rfl, hb⟩ | hmem | hmem)
    · exact h a b ha.symm hb.symm
    · exact hl op' a b hmem
    · exact hr op' a b hmem

theorem settled_connect_iff {l r : Expr} {op : Connective} :
    (connect l op r).Settled ↔ l.Settled ∧ r.Settled := by
  simp only [Settled, comparisons, List.mem_append]
  constructor
  · intro h
    refine ⟨?_, ?_⟩
    · exact fun op a b hmem => h op a b (Or.inl hmem)
    · exact fun op a b hmem => h op a b (Or.inr hmem)
  · rintro ⟨hl, hr⟩ op a b (hmem | hmem)
    · exact hl op a b hmem
    · exact hr op a b hmem

theorem settled_call_iff {name : String} {args : List Expr} :
    (call name args).Settled ↔ ∀ e ∈ args, e.Settled := by
  simp only [Settled, comparisons, comparisonsAll_eq_flatMap, List.mem_flatMap]
  constructor
  · exact fun h e he op a b hmem => h op a b ⟨e, he, hmem⟩
  · rintro h op a b ⟨e, he, hmem⟩
    exact h e he op a b hmem

theorem settled_fold (e : Expr) : e.fold.Settled := by
  induction e using Expr.induction with
  | literal v => exact settled_literal v
  | column c =>
      intro op a b h
      cases h
  | paren e ih => exact ih
  | compare l op r ihl ihr =>
      rw [fold_compare]
      rcases foldComparison_cases l.fold op r.fold with ⟨_, _, t, -, -, -, h⟩ | ⟨hnone, h⟩
      · rw [h]
        exact settled_literal (.bool t)
      · rw [h]
        exact settled_compare_iff.mpr ⟨hnone, ihl, ihr⟩
  | connect l op r ihl ihr =>
      rw [fold_connect]
      exact settled_connect_iff.mpr ⟨ihl, ihr⟩
  | call name args ih =>
      rw [fold_call, settled_call_iff]
      exact List.forall_mem_map.mpr ih

/-- Folding leaves a settled expression alone. -/
theorem Settled.foldCounting_eq {e : Expr} (h : e.Settled) : e.foldCounting = (e, 0) := by
  induction e using Expr.induction with
  | literal v => rfl
  | column c => rfl
  | paren e ih => simp [foldCounting_paren, fold, ih h]
  | compare l op r ihl ihr =>
      obtain ⟨hnone, hl, hr⟩ := settled_compare_iff.mp h
      rcases foldComparison_cases l op r with ⟨a, b, t, ha, hb, ht, -⟩ | ⟨-, hsame⟩
      · rw [hnone a b ha hb] at ht
        cases ht
      · simp [foldCounting_compare, fold, ihl hl, ihr hr, hsame]
  | connect l op r ihl ihr =>
      obtain ⟨hl, hr⟩ := settled_connect_iff.mp h
      simp [foldCounting_connect, fold, ihl hl, ihr hr]
  | call name args ih =>
      have hargs := foldCountingAll_of_forall fun e he => ih e he (settled_call_iff.mp h e he)
      simp [foldCounting_call, hargs]

/-- A comparison that is replaced has no comparisons in its sides. -/
theorem length_comparisons_foldComparison (l : Expr) (op : Comparator) (r : Expr) :
    (foldComparison l op r).1.comparisons.length + (foldComparison l op r).2 =
      l.comparisons.length + r.comparisons.length + 1 := by
  rcases foldComparison_cases l op r with ⟨a, b, t, rfl, rfl, -, h⟩ | ⟨-, h⟩
  · rw [h]
    rfl
  · simp [h, comparisons]

theorem length_comparisonsAll_fold {es : List Expr}
    (h : ∀ e ∈ es, e.fold.comparisons.length + e.foldCounting.2 = e.comparisons.length) :
    (comparisonsAll (foldCountingAll es).1).length + (foldCountingAll es).2 =
      (comparisonsAll es).length := by
  induction es with
  | nil => rfl
  | cons e es ih =>
      obtain ⟨he, hes⟩ := List.forall_mem_cons.mp h
      have hrest := ih hes
      rw [foldCountingAll_cons, comparisonsAll, comparisonsAll, List.length_append,
        List.length_append]
      omega

/-- Every comparison that is gone was counted, and nothing else was. -/
theorem length_comparisons_fold (e : Expr) :
    e.fold.comparisons.length + e.foldCounting.2 = e.comparisons.length := by
  induction e using Expr.induction with
  | literal v => rfl
  | column c => rfl
  | paren e ih => exact ih
  | compare l op r ihl ihr =>
      have hnode := length_comparisons_foldComparison l.fold op r.fold
      rw [fold_compare, foldCounting_compare, comparisons, List.length_cons, List.length_append]
      omega
  | connect l op r ihl ihr =>
      rw [fold_connect, foldCounting_connect, comparisons, comparisons, List.length_append,
        List.length_append]
      omega
  | call name args ih => exact length_comparisonsAll_fold ih

/-- One run of folding leaves no comparison that literals decide, counts the comparisons that are
gone, and leaves nothing to a second run. -/
theorem fold_settles (e : Expr) :
    e.fold.Settled ∧
      e.fold.comparisons.length + e.foldCounting.2 = e.comparisons.length ∧
      e.fold.foldCounting = (e.fold, 0) :=
  ⟨settled_fold e, length_comparisons_fold e, (settled_fold e).foldCounting_eq⟩

/-- A comparison takes part in the one around it once it is a truth value; an order that the two
values do not have keeps its place. -/
example :
    (connect (compare (compare (literal .null) .equal (literal (.text ""))) .notEqual (truth true))
      .and (compare (truth true) .less (literal .null))).foldCounting =
    (connect (truth true) .and (compare (truth true) .less (literal .null)), 2) := rfl

end Settled

end Expr

end DocWalk
