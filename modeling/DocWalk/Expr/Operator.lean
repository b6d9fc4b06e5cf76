import DocWalk.Value

/-!
# Operators of conditions

Comparators relate two values, connectives join two conditions.
-/

namespace DocWalk

/-- A comparison between two values. -/
inductive Comparator where
  | equal
  | notEqual
  | less
  | lessOrEqual
  | greater
  | greaterOrEqual
deriving DecidableEq, Repr, Inhabited

namespace Comparator

/-- Whether two values in the given order satisfy the comparison. -/
def admits : Comparator → Ordering → Bool
  | equal, o => o == .eq
  | notEqual, o => o != .eq
  | less, o => o == .lt
  | lessOrEqual, o => o != .gt
  | greater, o => o == .gt
  | greaterOrEqual, o => o != .lt

def symbol : Comparator → String
  | equal => "="
  | notEqual => "!="
  | less => "<"
  | lessOrEqual => "<="
  | greater => ">"
  | greaterOrEqual => ">="

/-- The truth of a comparison of two values. Values without an order are different, and an
ordering comparison of them is left undecided. -/
def decide? (op : Comparator) (a b : Value) : Option Bool :=
  match a.compare? b, op with
  | some o, _ => some (op.admits o)
  | none, equal => some false
  | none, notEqual => some true
  | none, _ => none

end Comparator

/-- A connective between two conditions. -/
inductive Connective where
  | and
  | or
deriving DecidableEq, Repr, Inhabited

namespace Connective

def symbol : Connective → String
  | and => "AND"
  | or => "OR"

end Connective

end DocWalk
