import DocWalk.Text.Quoted
import DocWalk.Expr.Basic

/-!
# Query dialects

The two query languages differ in the quotes of their text literals and in
how a bracketed property follows its table. Everything else about the text of
an expression is common.
-/

namespace DocWalk

/-- A target query language. -/
inductive Dialect where
  | documentDB
  | jsonServer
deriving DecidableEq, Repr, Inhabited

namespace Dialect

def name : Dialect → String
  | documentDB => "DocumentDB"
  | jsonServer => "JsonServer"

/-- A text literal. -/
def quote : Dialect → String → String
  | documentDB, s => Text.inDouble s
  | jsonServer, s => Text.inSingle s

/-- A property in brackets. -/
def bracketed : Dialect → String → String
  | documentDB, name => "[" ++ Text.inDouble name ++ "]"
  | jsonServer, name => ".[" ++ Text.inDouble name ++ "]"

end Dialect

/-- The text of a value in a query. -/
def Value.inQuery (d : Dialect) : Value → String
  | .text s => d.quote s
  | v => v.plainText

/-- The text of one path segment. -/
def Segment.inQuery (d : Dialect) : Segment → String
  | .member name => if Text.isName name then "." ++ name else d.bracketed name
  | .key name => d.bracketed name
  | .wildcard => ".*"

/-- The text of a column. -/
def Column.inQuery (d : Dialect) (c : Column) : String :=
  c.table ++ String.join (c.path.map (Segment.inQuery d))

namespace Expr

mutual

/-- The text of an expression; parentheses are written where the tree has them. -/
def inQuery (d : Dialect) : Expr → String
  | literal v => v.inQuery d
  | column c => c.inQuery d
  | paren e => "(" ++ e.inQuery d ++ ")"
  | compare l op r => l.inQuery d ++ " " ++ op.symbol ++ " " ++ r.inQuery d
  | connect l op r => l.inQuery d ++ " " ++ op.symbol ++ " " ++ r.inQuery d
  | call name args => name ++ "(" ++ ", ".intercalate (inQueryAll d args) ++ ")"

def inQueryAll (d : Dialect) : List Expr → List String
  | [] => []
  | e :: es => e.inQuery d :: inQueryAll d es

end

end Expr

end DocWalk
