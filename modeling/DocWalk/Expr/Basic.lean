import DocWalk.Expr.Operator

/-!
# Conditions over document columns

A column is a table alias followed by a path into its document. Expressions
are literals, columns, comparisons, connectives and function calls; grouping
is part of the tree, so a printed expression has exactly the parentheses that
its tree has.

## Implementation notes

Every recursion over expressions comes with its companion over argument lists.
-/

namespace DocWalk

/-- One step of a path into a document. -/
inductive Segment where
  /-- A property, written after a dot where its name allows it. -/
  | member (name : String)
  /-- A property, always written in brackets. -/
  | key (name : String)
  /-- Every element of an array. -/
  | wildcard
deriving DecidableEq, Repr, Inhabited

/-- The property a segment names. -/
def Segment.name? : Segment → Option String
  | member name => some name
  | key name => some name
  | wildcard => none

/-- A place in the document of a table alias; the empty path is the whole document. -/
structure Column where
  table : String
  path : List Segment
deriving DecidableEq, Repr, Inhabited

namespace Column

/-- The property that stands for the whole document. -/
def wholeDocument : String := "*"

/-- A property of a table's document. -/
def property (table name : String) : Column :=
  { table := table, path := if name = wholeDocument then [] else [.member name] }

end Column

/-- A condition or an operand of one. -/
inductive Expr where
  | literal (v : Value)
  | column (c : Column)
  | paren (e : Expr)
  | compare (l : Expr) (op : Comparator) (r : Expr)
  | connect (l : Expr) (op : Connective) (r : Expr)
  | call (name : String) (args : List Expr)
deriving Repr, Inhabited

namespace Expr

def truth (b : Bool) : Expr :=
  literal (.bool b)

/-- An equality between a property and a value. -/
def propertyIs (table name : String) (v : Value) : Expr :=
  compare (column (.property table name)) .equal (literal v)

/-- The disjunction of a list of conditions, nested to the left; none for an empty list. -/
def anyOf : List Expr → Option Expr
  | [] => none
  | e :: es => some (es.foldl (fun acc next => connect acc .or next) e)

/-- Join a condition to an existing one, grouping both; a first condition stays bare. -/
def conjoin : Option Expr → Connective → Expr → Expr
  | none, _, e => e
  | some existing, op, e => connect (paren existing) op (paren e)

/-- Literals and columns, the expressions that a projection can hold. -/
def isPrimary : Expr → Bool
  | literal _ => true
  | column _ => true
  | _ => false

/-- The name of the outermost form. -/
def kindName : Expr → String
  | literal _ => "Literal"
  | column _ => "ColumnRef"
  | paren _ => "Parenthesis"
  | compare .. => "Comparison"
  | connect .. => "BooleanBinary"
  | call .. => "Function"

/-- The direct parts of an expression, from left to right. -/
def children : Expr → List Expr
  | literal _ => []
  | column _ => []
  | paren e => [e]
  | compare l _ r => [l, r]
  | connect l _ r => [l, r]
  | call _ args => args

def isParen : Expr → Bool
  | paren _ => true
  | _ => false

mutual

/-- Every conjunction, at any depth, has both of its sides in parentheses. -/
def conjunctsGrouped : Expr → Bool
  | literal _ => true
  | column _ => true
  | paren e => e.conjunctsGrouped
  | compare l _ r => l.conjunctsGrouped && r.conjunctsGrouped
  | connect l .and r => l.isParen && r.isParen && l.conjunctsGrouped && r.conjunctsGrouped
  | connect l .or r => l.conjunctsGrouped && r.conjunctsGrouped
  | call _ args => conjunctsGroupedAll args

def conjunctsGroupedAll : List Expr → Bool
  | [] => true
  | e :: es => e.conjunctsGrouped && conjunctsGroupedAll es

end

mutual

/-- Equality of trees, literals being compared with `Value.equals`. -/
def equals : Expr → Expr → Bool
  | literal a, literal b => a.equals b
  | column a, column b => a == b
  | paren a, paren b => a.equals b
  | compare l op r, compare l' op' r' => l.equals l' && op == op' && r.equals r'
  | connect l op r, connect l' op' r' => l.equals l' && op == op' && r.equals r'
  | call name args, call name' args' => name == name' && equalsAll args args'
  | _, _ => false

def equalsAll : List Expr → List Expr → Bool
  | [], [] => true
  | a :: as, b :: bs => a.equals b && equalsAll as bs
  | _, _ => false

end

end Expr

end DocWalk
