import DocWalk.Expr.Basic
import DocWalk.Json.Decode

/-!
# Expressions as JSON
-/

namespace DocWalk

namespace Value

/-- A NaN or an infinity has no number in JSON and is written `null`. -/
def toJson : Value → Json
  | null => .ofString "Null"
  | bool b => .tagged "Bool" (.bool b)
  | int n => .tagged "Int" (.number (.ofInt n.toInt))
  | float x =>
      .tagged "Float"
        (if x.isFinite then .number (.interchange x.negative (x.shortest .even)) else .null)
  | text s => .tagged "String" (.ofString s)

def ofJson? (limit : Nat) (j : Json) : Option Value :=
  match j.choice? limit with
  | some ("Null", none) => some null
  | some ("Null", some (_, .null)) => some null
  | some ("Bool", some (_, .bool b)) => some (bool b)
  | some ("Int", some (_, .number n)) => n.toInt64?.map int
  | some ("Float", some (_, .number n)) => n.toBinary64?.map float
  | some ("String", some (_, .text s)) => s.map text
  | _ => none

end Value

namespace Comparator

def tag : Comparator → String
  | equal => "Equal"
  | notEqual => "NotEqual"
  | less => "LessThan"
  | lessOrEqual => "LessThanOrEqual"
  | greater => "GreaterThan"
  | greaterOrEqual => "GreaterThanOrEqual"

def ofTag? : String → Option Comparator
  | "Equal" => some equal
  | "NotEqual" => some notEqual
  | "LessThan" => some less
  | "LessThanOrEqual" => some lessOrEqual
  | "GreaterThan" => some greater
  | "GreaterThanOrEqual" => some greaterOrEqual
  | _ => none

def ofJson? (limit : Nat) (j : Json) : Option Comparator :=
  (j.tag? limit).bind ofTag?

end Comparator

namespace Connective

def tag : Connective → String
  | and => "And"
  | or => "Or"

def ofTag? : String → Option Connective
  | "And" => some and
  | "Or" => some or
  | _ => none

def ofJson? (limit : Nat) (j : Json) : Option Connective :=
  (j.tag? limit).bind ofTag?

end Connective

namespace Segment

def toJson : Segment → Json
  | member name => .tagged "Member" (.ofString name)
  | key name => .tagged "Key" (.ofString name)
  | wildcard => .ofString "Wildcard"

def ofJson? (limit : Nat) (j : Json) : Option Segment :=
  match j.choice? limit with
  | some ("Member", some (_, .text s)) => s.map member
  | some ("Key", some (_, .text s)) => s.map key
  | some ("Wildcard", none) => some wildcard
  | some ("Wildcard", some (_, .null)) => some wildcard
  | _ => none

end Segment

namespace Column

def toJson (c : Column) : Json :=
  .record [("table", .ofString c.table), ("path", .array (c.path.map Segment.toJson))]

def ofJson? (limit : Nat) (j : Json) : Option Column := do
  match ← j.record? ["table", "path"] limit with
  | (limit, [some table, some path]) =>
      let table ← table.string?
      let (limit, path) ← path.items? limit
      let path ← path.mapM (Segment.ofJson? limit)
      return ⟨table, path⟩
  | _ => none

end Column

namespace Expr

mutual

def toJson : Expr → Json
  | literal v => .tagged "Literal" v.toJson
  | column c => .tagged "ColumnRef" c.toJson
  | paren e => .tagged "Parenthesis" e.toJson
  | compare l op r =>
      .tagged "Comparison"
        (.record [("left", l.toJson), ("op", .ofString op.tag), ("right", r.toJson)])
  | connect l op r =>
      .tagged "BooleanBinary"
        (.record [("left", l.toJson), ("op", .ofString op.tag), ("right", r.toJson)])
  | call name args =>
      .tagged "Function" (.record [("name", .ofString name), ("args", .array (toJsonAll args))])

def toJsonAll : List Expr → List Json
  | [] => []
  | e :: es => e.toJson :: toJsonAll es

end

/-- Every expression is a choice that carries something, so each one enters an object. -/
def ofJson? : Nat → Json → Option Expr
  | limit + 1, .object [(some tag, payload)] =>
      match tag with
      | "Literal" => (Value.ofJson? limit payload).map literal
      | "ColumnRef" => (Column.ofJson? limit payload).map column
      | "Parenthesis" => (ofJson? limit payload).map paren
      | "Comparison" =>
          match limit, payload.fields? ["left", "op", "right"] with
          | limit + 1, some [some l, some op, some r] => do
              return compare (← ofJson? limit l) (← Comparator.ofJson? limit op) (← ofJson? limit r)
          | _, _ => none
      | "BooleanBinary" =>
          match limit, payload.fields? ["left", "op", "right"] with
          | limit + 1, some [some l, some op, some r] => do
              return connect (← ofJson? limit l) (← Connective.ofJson? limit op) (← ofJson? limit r)
          | _, _ => none
      | "Function" =>
          match limit, payload.fields? ["name", "args"] with
          | limit + 2, some [some name, some (.array args)] => do
              return call (← name.string?) (← args.mapM (ofJson? limit))
          | _, _ => none
      | _ => none
  | _, _ => none

end Expr

end DocWalk
