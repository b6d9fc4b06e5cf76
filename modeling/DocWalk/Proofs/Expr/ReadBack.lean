import DocWalk.Proofs.Expr.Hoist
import DocWalk.Proofs.Expr.Operand

/-!
# Reading a written condition back

The text of a condition has only the parentheses of its tree. A condition
*fits* a place when no operand in it binds looser than the operator that takes
it, so that the text is read back as the tree. The passes that a condition
goes through before it is written keep it fitting.

## Implementation notes

`Fits` also asks that every table and every function has a name that is one
operand. Values and properties need no such demand.
-/

namespace DocWalk

open Text Parsed

namespace Expr

mutual

/-- The form of a condition, each leaf being its own text. -/
def form (d : Dialect) : Expr → Parsed
  | literal v => .leaf (v.inQuery d)
  | column c => .leaf (c.inQuery d)
  | paren e => .paren (e.form d)
  | compare l op r => .compare (l.form d) op (r.form d)
  | connect l op r => .connect (l.form d) op (r.form d)
  | call name args => .call name (formAll d args)

def formAll (d : Dialect) : List Expr → List Parsed
  | [] => []
  | e :: es => e.form d :: formAll d es

end

mutual

/-- The tokens of a condition's text. -/
def tokens (d : Dialect) : Expr → List Token
  | literal v => [.word (v.inQuery d)]
  | column c => [.word (c.inQuery d)]
  | paren e => .opening :: e.tokens d ++ [.closing]
  | compare l op r => l.tokens d ++ .word op.symbol :: r.tokens d
  | connect l op r => l.tokens d ++ .word op.symbol :: r.tokens d
  | call name args =>
      .word name :: .opening :: [Token.comma].intercalate (tokensAll d args) ++ [.closing]

def tokensAll (d : Dialect) : List Expr → List (List Token)
  | [] => []
  | e :: es => e.tokens d :: tokensAll d es

end

theorem formAll_eq_map (d : Dialect) (es : List Expr) : formAll d es = es.map (form d) := by
  induction es with
  | nil => rfl
  | cons e es ih => simp [formAll, ih]

theorem tokensAll_eq_map (d : Dialect) (es : List Expr) : tokensAll d es = es.map (tokens d) := by
  induction es with
  | nil => rfl
  | cons e es ih => simp [tokensAll, ih]

theorem inQueryAll_eq_map (d : Dialect) (es : List Expr) :
    inQueryAll d es = es.map (inQuery d) := by
  induction es with
  | nil => rfl
  | cons e es ih => simp [inQueryAll, ih]

/-- A condition that can stand where an operator of precedence `p` takes it, as it is written. -/
inductive Fits : Nat → Expr → Prop where
  | literal (p : Nat) (v : Value) : Fits p (literal v)
  | column (p : Nat) {c : Column} (hc : IsOperand c.table) : Fits p (column c)
  | paren (p : Nat) {e : Expr} (he : Fits 0 e) : Fits p (paren e)
  | compare {p : Nat} {l r : Expr} {op : Comparator}
      (hp : p ≤ (Operator.compare op).precedence) (hl : Fits (Operator.compare op).precedence l)
      (hr : Fits ((Operator.compare op).precedence + 1) r) : Fits p (compare l op r)
  | connect {p : Nat} {l r : Expr} {op : Connective}
      (hp : p ≤ (Operator.connect op).precedence) (hl : Fits (Operator.connect op).precedence l)
      (hr : Fits ((Operator.connect op).precedence + 1) r) : Fits p (connect l op r)
  | call (p : Nat) {name : String} {args : List Expr} (hn : IsOperand name)
      (ha : ∀ e ∈ args, Fits 0 e) : Fits p (call name args)

/-- Two operands with an operator between them, as text. -/
theorem spells_between {l r : String} {ts us : List Token} (o : Operator)
    (hl : Spells l.toList ts) (hr : Spells r.toList us) :
    Spells (l ++ " " ++ o.symbol ++ " " ++ r).toList (ts ++ .word o.symbol :: us) := by
  have hspace : Token.Mode.plain.cut? ' ' = some [] := rfl
  have ho : Spells o.symbol.toList [.word o.symbol] := by
    have hplain : o.symbol.toList.all isPlain = true ∧ o.symbol.toList ≠ [] := by
      rcases o with op | op <;> cases op <;> decide
    exact (solid_of_all hplain.1).spells hplain.2
  have hall := hl.append ((ho.append (hr.cons hspace) (cuts_cons hspace _)).cons hspace)
    (cuts_cons hspace _)
  simpa using hall

/-- What is between two parentheses contributes its tokens between theirs. -/
theorem spells_parens {cs : List Char} {ts : List Token} (h : Spells cs ts) :
    Spells ('(' :: cs ++ [')']) (.opening :: ts ++ [.closing]) := by
  have hopen : Token.Mode.plain.cut? '(' = some [.opening] := rfl
  have hclose : Token.Mode.plain.cut? ')' = some [.closing] := rfl
  have hall := (h.append (spells_nil.cons hclose) (cuts_cons hclose _)).cons hopen
  simpa using hall

/-- The text of a fitting condition is cut into its tokens. -/
theorem Fits.spells (d : Dialect) {p : Nat} {e : Expr} (h : Fits p e) :
    Spells (e.inQuery d).toList (e.tokens d) := by
  induction h with
  | literal p v => exact (v.isOperand_inQuery d).spells
  | column p hc => exact (Column.isOperand_inQuery d hc).spells
  | paren p he ih => simpa [inQuery, tokens] using spells_parens ih
  | compare hp hl hr ihl ihr => exact spells_between (.compare _) ihl ihr
  | connect hp hl hr ihl ihr => exact spells_between (.connect _) ihl ihr
  | call p hn ha ih =>
      have hargs := spells_parens (spells_intercalate _ ih)
      have hall := hn.spells.append hargs (cuts_cons rfl _)
      simpa [inQuery, tokens, inQueryAll_eq_map, tokensAll_eq_map] using hall

/-- The tokens of a fitting condition are read as its form. -/
theorem Fits.reads (d : Dialect) {p : Nat} {e : Expr} (h : Fits p e) :
    Reads (e.tokens d) p (e.form d) := by
  induction h with
  | literal p v => exact reads_leaf (v.isOperand_inQuery d).notOperator p
  | column p hc => exact reads_leaf (Column.isOperand_inQuery d hc).notOperator p
  | paren p he ih => exact ih.paren p
  | compare hp hl hr ihl ihr => exact Reads.join hp ihl ihr
  | connect hp hl hr ihl ihr => exact Reads.join hp ihl ihr
  | @call p name args hn ha ih =>
      have hcall := reads_call (tokens d) (form d) hn.notOperator args ih p
      simpa [tokens, form, tokensAll_eq_map, formAll_eq_map] using hcall

/-- The text of a fitting condition is read back as the condition. -/
theorem Fits.ofText?_inQuery (d : Dialect) {e : Expr} (h : Fits 0 e) :
    ofText? (e.inQuery d) = some (e.form d) := by
  rw [ofText?, (h.spells d).ofText_eq, Option.bind_some, (h.reads d).ofTokens?_eq]

-- a disjunction under a conjunction does not fit, and is read as something else
example : ofText? "a OR b AND c = 1" =
    some (.connect (.leaf "a") .or
      (.connect (.leaf "b") .and (.compare (.leaf "c") .equal (.leaf "1")))) := rfl

section Passes

variable {p : Nat} {e : Expr}

/-- Replacing columns changes no operator. -/
theorem Fits.mapColumns {f : Column → Column}
    (hf : ∀ c : Column, IsOperand c.table → IsOperand (f c).table) (h : Fits p e) :
    Fits p (e.mapColumns f) := by
  induction h with
  | literal p v => exact .literal p v
  | column p hc => exact .column p (hf _ hc)
  | paren p he ih => exact .paren p ih
  | compare hp hl hr ihl ihr => exact .compare hp ihl ihr
  | connect hp hl hr ihl ihr => exact .connect hp ihl ihr
  | call p hn ha ih =>
      apply Fits.call p hn
      rw [mapColumnsAll_eq_map]
      simpa using ih

theorem Fits.unfold (h : Fits p e) (s : Storage) : Fits p (e.unfold s) := by
  rw [unfold_eq]
  apply h.mapColumns
  intro c hc
  unfold Column.unfold
  split <;> exact hc

theorem Fits.bracket (h : Fits p e) (tables : List String) : Fits p (e.bracket tables) := by
  rw [bracket_eq]
  apply h.mapColumns
  intro c hc
  unfold Column.bracket
  split <;> exact hc

/-- A comparison that is folded away leaves a literal, which fits everywhere. -/
theorem Fits.foldComparison {l r : Expr} {op : Comparator} (h : Fits p (Expr.compare l op r)) :
    Fits p (foldComparison l op r).1 := by
  unfold Expr.foldComparison
  split
  · split
    · exact .literal p _
    · exact h
  · exact h

theorem Fits.fold (h : Fits p e) : Fits p e.fold := by
  induction h with
  | literal p v => exact .literal p v
  | column p hc => exact .column p hc
  | paren p he ih => exact .paren p ih
  | compare hp hl hr ihl ihr =>
      rw [fold_compare]
      exact Fits.foldComparison (.compare hp ihl ihr)
  | connect hp hl hr ihl ihr =>
      rw [fold_connect]
      exact .connect hp ihl ihr
  | call p hn ha ih =>
      rw [fold_call]
      apply Fits.call p hn
      simpa using ih

/-- Join variables take the name of their table further. -/
theorem isOperand_joinVariable {table : String} (h : IsOperand table) (n : Nat) :
    IsOperand (table ++ "_" ++ Nat.repr n) := by
  have hmark : Solid ['_'] := solid_singleton rfl
  have hsolid : Solid (table ++ "_").toList := by
    simpa using h.solid.append hmark
  exact isOperand_numbered hsolid (by simp) n

theorem Fits.isOperand_table (h : Fits p e) : ∀ c ∈ e.columns, IsOperand c.table := by
  induction h with
  | literal p v => simp
  | column p hc => simpa using hc
  | paren p he ih => simpa using ih
  | compare hp hl hr ihl ihr =>
      simp only [columns_compare, List.forall_mem_append]
      exact ⟨ihl, ihr⟩
  | connect hp hl hr ihl ihr =>
      simp only [columns_connect, List.forall_mem_append]
      exact ⟨ihl, ihr⟩
  | @call p name args hn ha ih =>
      clear ha
      rw [columns_call]
      induction args with
      | nil => simp
      | cons e es ihes =>
          obtain ⟨he, hes⟩ := List.forall_mem_cons.mp ih
          rw [columnsAll_cons, List.forall_mem_append]
          exact ⟨he, ihes hes⟩

/-- Reading nested properties from join variables changes no operator. -/
theorem Fits.hoist (h : Fits p e) (s : Storage) : Fits p (e.hoist s).1 := by
  have hjoins : ∀ j ∈ s.joinsOver [] e.columns, IsOperand j.alias := by
    intro j hj
    obtain ⟨i, hi⟩ := List.mem_iff_getElem?.mp hj
    rw [Storage.numbered_joinsOver PropertyJoin.numbered_nil e.columns i j hi]
    rcases Storage.mem_joinsOver hj with hj | ⟨c, hc, _, ht⟩
    · cases hj
    · rw [ht]
      exact isOperand_joinVariable (h.isOperand_table c hc) i
  rw [hoist_eq]
  apply h.mapColumns
  intro c hc
  unfold Column.readFrom
  split
  · exact hc
  · split
    · exact hc
    next j hj => exact hjoins j (List.mem_of_find?_eq_some hj)

end Passes

end Expr

end DocWalk
