import DocWalk.Expr.Operator
import DocWalk.Proofs.Text.Token

/-!
# Reading conditions by precedence

The tokens of a condition are read from left to right. Comparisons bind
tighter than `AND` and `AND` tighter than `OR`; operators of one precedence
take their operands from the left. An operand waits until the operator after
it is known, and a parenthesis puts aside everything that waits outside it.

## Implementation notes

The reader keeps one list of waiting operands for each open parenthesis and
looks at every token once. `Reads` states what a run of tokens leaves behind
without fixing which operands are still waiting: only that an operator of the
given precedence would find the operand it needs.
-/

namespace DocWalk

/-- An operator between two operands. -/
inductive Operator where
  | compare (op : Comparator)
  | connect (op : Connective)
deriving DecidableEq, Repr

namespace Operator

def symbol : Operator → String
  | compare op => op.symbol
  | connect op => op.symbol

/-- The operator of higher precedence binds tighter. -/
def precedence : Operator → Nat
  | connect .or => 0
  | connect .and => 1
  | compare _ => 2

def all : List Operator :=
  [compare .equal, compare .notEqual, compare .less, compare .lessOrEqual, compare .greater,
    compare .greaterOrEqual, connect .and, connect .or]

/-- The operator that a word stands for. -/
def ofWord? (w : String) : Option Operator :=
  all.find? fun o => o.symbol == w

theorem ofWord?_symbol (o : Operator) : ofWord? o.symbol = some o := by
  rcases o with op | op <;> cases op <;> rfl

/-- The characters that operators are written with. -/
def letters : List Char :=
  ['=', '!', '<', '>', 'A', 'N', 'D', 'O', 'R']

theorem symbol_subset_letters (o : Operator) : o.symbol.toList ⊆ letters := by
  rcases o with op | op <;> cases op <;> decide

/-- A word with any other character in it is no operator. -/
theorem ofWord?_eq_none {w : String} {c : Char} (hc : c ∈ w.toList) (h : c ∉ letters) :
    ofWord? w = none := by
  cases ho : ofWord? w with
  | none => rfl
  | some o =>
      have hw : o.symbol = w := by
        simpa using List.find?_some ho
      exact absurd (symbol_subset_letters o (hw ▸ hc)) h

end Operator

/-- The form of a condition, with a text at each leaf. -/
inductive Parsed where
  | leaf (text : String)
  | paren (x : Parsed)
  | compare (l : Parsed) (op : Comparator) (r : Parsed)
  | connect (l : Parsed) (op : Connective) (r : Parsed)
  | call (name : String) (args : List Parsed)
deriving Repr

def Operator.join (l : Parsed) : Operator → Parsed → Parsed
  | compare op, r => .compare l op r
  | connect op, r => .connect l op r

namespace Parsed

/-- Operands that wait for the right side of the operator after them, the latest first. -/
abbrev Pending := List (Parsed × Operator)

/-- Give an operand to the waiting operators that bind at least as tightly as `p`. -/
def reduce (p : Nat) : Parsed → Pending → Parsed × Pending
  | x, [] => (x, [])
  | x, (l, o) :: rest =>
      if p ≤ o.precedence then reduce p (o.join l x) rest else (x, (l, o) :: rest)

/-- Give an operand to all operators that wait for it. -/
def settle (x : Parsed) (pending : Pending) : Parsed :=
  (reduce 0 x pending).1

/-- An open parenthesis: what waits outside it and, for the arguments of a call, the name and the
arguments that are complete. -/
structure Bracket where
  pending : Pending
  call : Option (String × List Parsed)

/-- What has been read of a condition. -/
structure State where
  pending : Pending
  operand : Option Parsed
  outside : List Bracket

/-- Read one token. A name in front of a parenthesis is the name of a call. -/
def read : State → Token → Option State
  | ⟨pending, none, outside⟩, .word w =>
      match Operator.ofWord? w with
      | none => some ⟨pending, some (leaf w), outside⟩
      | some _ => none
  | ⟨pending, some x, outside⟩, .word w =>
      match Operator.ofWord? w with
      | none => none
      | some o =>
          let (l, rest) := reduce o.precedence x pending
          some ⟨(l, o) :: rest, none, outside⟩
  | ⟨pending, none, outside⟩, .opening => some ⟨[], none, ⟨pending, none⟩ :: outside⟩
  | ⟨pending, some (leaf name), outside⟩, .opening =>
      some ⟨[], none, ⟨pending, some (name, [])⟩ :: outside⟩
  | ⟨pending, some x, ⟨waiting, none⟩ :: outside⟩, .closing =>
      some ⟨waiting, some (paren (settle x pending)), outside⟩
  | ⟨pending, some x, ⟨waiting, some (name, args)⟩ :: outside⟩, .closing =>
      some ⟨waiting, some (call name (args ++ [settle x pending])), outside⟩
  | ⟨[], none, ⟨waiting, some (name, [])⟩ :: outside⟩, .closing =>
      some ⟨waiting, some (call name []), outside⟩
  | ⟨pending, some x, ⟨waiting, some (name, args)⟩ :: outside⟩, .comma =>
      some ⟨[], none, ⟨waiting, some (name, args ++ [settle x pending])⟩ :: outside⟩
  | _, _ => none

def readAll (s : State) (ts : List Token) : Option State :=
  ts.foldlM read s

/-- The condition that the tokens make up. -/
def ofTokens? (ts : List Token) : Option Parsed :=
  match readAll ⟨[], none, []⟩ ts with
  | some ⟨pending, some x, []⟩ => some (settle x pending)
  | _ => none

/-- The condition that a text says. -/
def ofText? (s : String) : Option Parsed :=
  (Token.ofText s).bind ofTokens?

theorem readAll_cons (s : State) (t : Token) (ts : List Token) :
    readAll s (t :: ts) = (read s t).bind (readAll · ts) := rfl

theorem readAll_append (s : State) (ts us : List Token) :
    readAll s (ts ++ us) = (readAll s ts).bind (readAll · us) := by
  simp only [readAll, List.foldlM_append]
  rfl

/-- The latest of the waiting operators binds looser than `p`. -/
def Looser (p : Nat) (pending : Pending) : Prop :=
  ∀ w ∈ pending.head?, w.2.precedence < p

theorem looser_nil (p : Nat) : Looser p [] := by
  intro w hw
  cases hw

theorem looser_cons {p : Nat} {o : Operator} (h : o.precedence < p) (l : Parsed)
    (pending : Pending) : Looser p ((l, o) :: pending) := by
  intro w hw
  cases hw
  exact h

theorem Looser.mono {p q : Nat} {pending : Pending} (h : Looser p pending) (hpq : p ≤ q) :
    Looser q pending :=
  fun w hw => Nat.lt_of_lt_of_le (h w hw) hpq

theorem reduce_of_looser {p : Nat} {pending : Pending} (h : Looser p pending) (x : Parsed) :
    reduce p x pending = (x, pending) := by
  cases pending with
  | nil => rfl
  | cons w rest =>
      have hlt := h w rfl
      rw [reduce, if_neg (Nat.not_le.mpr hlt)]

/-- What a tighter operator takes first, a looser one finds done. -/
theorem reduce_reduce {p q : Nat} (h : q ≤ p) (x : Parsed) (pending : Pending) :
    reduce q (reduce p x pending).1 (reduce p x pending).2 = reduce q x pending := by
  induction pending generalizing x with
  | nil => rfl
  | cons w rest ih =>
      by_cases hp : p ≤ w.2.precedence
      · simp only [reduce, if_pos hp, if_pos (Nat.le_trans h hp), ih]
      · simp only [reduce, if_neg hp]

/-- The tokens are read as an operand for an operator of precedence `p`, and what waited before
them still waits. -/
def Reads (ts : List Token) (p : Nat) (x : Parsed) : Prop :=
  ∀ pending outside, Looser p pending →
    ∃ y pending', readAll ⟨pending, none, outside⟩ ts = some ⟨pending', some y, outside⟩ ∧
      reduce p y pending' = (x, pending)

/-- Behind a parenthesis or a comma nothing waits, so what is read can be settled. -/
theorem Reads.exists_settle {ts : List Token} {x : Parsed} (h : Reads ts 0 x)
    (outside : List Bracket) :
    ∃ y pending, readAll ⟨[], none, outside⟩ ts = some ⟨pending, some y, outside⟩ ∧
      settle y pending = x := by
  obtain ⟨y, pending, hr, hx⟩ := h [] outside (looser_nil 0)
  exact ⟨y, pending, hr, by rw [settle, hx]⟩

theorem Reads.ofTokens?_eq {ts : List Token} {x : Parsed} (h : Reads ts 0 x) :
    ofTokens? ts = some x := by
  obtain ⟨y, pending, hr, rfl⟩ := h.exists_settle []
  simp only [ofTokens?, hr]

theorem reads_leaf {w : String} (h : Operator.ofWord? w = none) (p : Nat) :
    Reads [.word w] p (.leaf w) := by
  intro pending outside hp
  refine ⟨.leaf w, pending, ?_, reduce_of_looser hp _⟩
  simp [readAll, read, h]

/-- Operands of an operator: the left one may hold operators of the same precedence, the right one
only tighter ones. -/
theorem Reads.join {o : Operator} {p : Nat} (hp : p ≤ o.precedence) {ts us : List Token}
    {x y : Parsed} (hl : Reads ts o.precedence x) (hr : Reads us (o.precedence + 1) y) :
    Reads (ts ++ .word o.symbol :: us) p (o.join x y) := by
  intro pending outside hlooser
  obtain ⟨l, pending₁, hts, hx⟩ := hl pending outside (hlooser.mono hp)
  have ho : read ⟨pending₁, some l, outside⟩ (.word o.symbol) =
      some ⟨(x, o) :: pending, none, outside⟩ := by
    simp only [read, Operator.ofWord?_symbol, hx]
  obtain ⟨r, pending₂, hus, hy⟩ :=
    hr ((x, o) :: pending) outside (looser_cons (Nat.lt_succ_self _) x pending)
  refine ⟨r, pending₂, ?_, ?_⟩
  · rw [readAll_append, hts, Option.bind_some, readAll_cons, ho, Option.bind_some, hus]
  · calc reduce p r pending₂
        = reduce p y ((x, o) :: pending) := by
          rw [← reduce_reduce (Nat.le_succ_of_le hp) r pending₂, hy]
      _ = reduce p (o.join x y) pending := by rw [reduce, if_pos hp]
      _ = (o.join x y, pending) := reduce_of_looser hlooser _

/-- A parenthesis closes around what has been read since it was opened. -/
theorem Reads.paren {ts : List Token} {x : Parsed} (h : Reads ts 0 x) (p : Nat) :
    Reads (.opening :: ts ++ [.closing]) p (.paren x) := by
  intro pending outside hp
  refine ⟨.paren x, pending, ?_, reduce_of_looser hp _⟩
  obtain ⟨y, pending', hts, rfl⟩ := h.exists_settle (⟨pending, none⟩ :: outside)
  simp only [List.cons_append, readAll_cons, read, Option.bind_some, readAll_append, hts]
  rfl

/-- A comma completes the argument in front of it. -/
theorem Reads.argument {ts : List Token} {x : Parsed} (h : Reads ts 0 x) (pending : Pending)
    (outside : List Bracket) (name : String) (complete : List Parsed) :
    readAll ⟨[], none, ⟨pending, some (name, complete)⟩ :: outside⟩ (ts ++ [.comma]) =
      some ⟨[], none, ⟨pending, some (name, complete ++ [x])⟩ :: outside⟩ := by
  obtain ⟨y, pending', hts, rfl⟩ :=
    h.exists_settle (⟨pending, some (name, complete)⟩ :: outside)
  rw [readAll_append, hts]
  rfl

/-- A parenthesis completes the last argument and the call. -/
theorem Reads.lastArgument {ts : List Token} {x : Parsed} (h : Reads ts 0 x) (pending : Pending)
    (outside : List Bracket) (name : String) (complete : List Parsed) :
    readAll ⟨[], none, ⟨pending, some (name, complete)⟩ :: outside⟩ (ts ++ [.closing]) =
      some ⟨pending, some (.call name (complete ++ [x])), outside⟩ := by
  obtain ⟨y, pending', hts, rfl⟩ :=
    h.exists_settle (⟨pending, some (name, complete)⟩ :: outside)
  rw [readAll_append, hts]
  rfl

section Calls

variable {α : Type} (tokens : α → List Token) (form : α → Parsed)

/-- The arguments that are still to come join those that are complete. -/
theorem readAll_arguments (pending : Pending) (outside : List Bracket) (name : String)
    (complete : List Parsed) (a : α) (as : List α)
    (h : ∀ b ∈ a :: as, Reads (tokens b) 0 (form b)) :
    readAll ⟨[], none, ⟨pending, some (name, complete)⟩ :: outside⟩
        ([Token.comma].intercalate ((a :: as).map tokens) ++ [.closing]) =
      some ⟨pending, some (.call name (complete ++ (a :: as).map form)), outside⟩ := by
  have ha := h a List.mem_cons_self
  induction as generalizing a complete with
  | nil =>
      rw [List.map_singleton, List.map_singleton, List.intercalate_singleton]
      exact ha.lastArgument pending outside name complete
  | cons b bs ih =>
      have hbs : ∀ c ∈ b :: bs, Reads (tokens c) 0 (form c) :=
        fun c hc => h c (List.mem_cons_of_mem a hc)
      have hrest := ih (complete ++ [form a]) b hbs (hbs b List.mem_cons_self)
      rw [List.append_assoc, List.singleton_append] at hrest
      rw [List.map_cons, List.map_cons, List.intercalate_cons_cons, List.append_assoc,
        readAll_append, ha.argument pending outside name complete, Option.bind_some]
      exact hrest

theorem reads_call {name : String} (hn : Operator.ofWord? name = none) (as : List α)
    (h : ∀ a ∈ as, Reads (tokens a) 0 (form a)) (p : Nat) :
    Reads (.word name :: .opening :: [Token.comma].intercalate (as.map tokens) ++ [.closing]) p
      (.call name (as.map form)) := by
  intro pending outside hp
  refine ⟨.call name (as.map form), pending, ?_, reduce_of_looser hp _⟩
  simp only [List.cons_append, readAll_cons, read, hn, Option.bind_some]
  cases as with
  | nil => rfl
  | cons a as => exact readAll_arguments tokens form pending outside name [] a as h

end Calls

end Parsed

end DocWalk
