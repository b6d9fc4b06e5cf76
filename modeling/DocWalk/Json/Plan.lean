import DocWalk.Json.Decode
import DocWalk.Json.Reader
import DocWalk.Json.Writer
import DocWalk.Partition.Plan

/-!
# Partition plans as JSON
-/

namespace DocWalk

namespace Bounds

def tag : Bounds → String
  | includeBoth => "IncludeBoth"
  | includeLeft => "IncludeLeft"
  | includeRight => "IncludeRight"
  | excludeBoth => "ExcludeBoth"
  | greater => "Greater"
  | greaterOrEqual => "GreaterOrEqual"
  | less => "Less"
  | lessOrEqual => "LessOrEqual"

def ofTag? : String → Option Bounds
  | "IncludeBoth" => some includeBoth
  | "IncludeLeft" => some includeLeft
  | "IncludeRight" => some includeRight
  | "ExcludeBoth" => some excludeBoth
  | "Greater" => some greater
  | "GreaterOrEqual" => some greaterOrEqual
  | "Less" => some less
  | "LessOrEqual" => some lessOrEqual
  | _ => none

end Bounds

namespace Rule

def toJson : Rule → Json
  | equal letter => .tagged "Equal" (.ofString letter)
  | oneOf letters => .tagged "In" (.ofStrings letters)
  | between lower upper bounds =>
      .tagged "Between"
        (.record [("lower", .ofString lower), ("upper", .ofString upper),
          ("kind", .ofString bounds.tag)])

def ofJson? (limit : Nat) (j : Json) : Option Rule := do
  match ← j.choice? limit with
  | ("Equal", some (_, payload)) => payload.string?.map equal
  | ("In", some (limit, payload)) => (payload.strings? limit).map oneOf
  | ("Between", some (limit, payload)) =>
      match ← payload.record? ["lower", "upper", "kind"] limit with
      | (limit, [some lower, some upper, some kind]) =>
          return between (← lower.string?) (← upper.string?)
            (← (kind.tag? limit).bind Bounds.ofTag?)
      | _ => none
  | _ => none

end Rule

namespace Plan

def toJson (p : Plan) : Json :=
  .record
    [("key", .ofString p.key), ("method", .ofString methodName), ("compare", p.rule.toJson)]

/-- The key is not checked: a plan that was written once is read as it is. -/
def ofJson? (limit : Nat) (j : Json) : Option Plan := do
  match ← j.record? ["key", "method", "compare"] limit with
  | (limit, [some key, some method, some rule]) =>
      let key ← key.string?
      let method ← method.tag? limit
      let rule ← Rule.ofJson? limit rule
      if method = methodName then some ⟨key, rule⟩ else none
  | _ => none

/-- The text of a list of plans. -/
def writeAll (plans : List Plan) : String :=
  (Json.array (plans.map toJson)).write

/-- The plans that a text lists. -/
def readAll? (s : String) : Option (List Plan) := do
  let j ← Json.parse? s
  let (limit, items) ← j.items? Json.nestingLimit
  items.mapM (ofJson? limit)

end Plan

end DocWalk
