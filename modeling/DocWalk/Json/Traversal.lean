import DocWalk.Json.Expr
import DocWalk.Traversal.Step

/-!
# Traversals from JSON

Steps and trails that were written elsewhere. A trail is taken as it stands:
its aliases need not be distinct, and its links need not lead anywhere.
-/

namespace DocWalk

namespace Direction

def ofTag? : String → Option Direction
  | "Out" => some outgoing
  | "In" => some incoming
  | "Both" => some both
  | _ => none

def ofJson? (limit : Nat) (j : Json) : Option Direction :=
  (j.tag? limit).bind ofTag?

end Direction

def Kind.ofJson? (limit : Nat) (j : Json) : Option Kind :=
  match j.choice? limit with
  | some ("Vertex", none) => some .vertex
  | some ("Vertex", some (_, .null)) => some .vertex
  | some ("Edge", some (limit, payload)) => (Direction.ofJson? limit payload).map .edge
  | _ => none

def Variable.ofJson? (limit : Nat) (j : Json) : Option Variable := do
  match ← j.record? ["alias", "kind", "labels", "predicate"] limit with
  | (limit, [some name, some kind, some labels, filter]) =>
      let name ← name.string?
      let kind ← Kind.ofJson? limit kind
      let labels ← labels.strings? limit
      let filter ← Json.optional? (Expr.ofJson? limit) filter
      return ⟨name, kind, labels, filter⟩
  | _ => none

def Link.ofJson? (limit : Nat) (j : Json) : Option Link := do
  match ← j.record? ["source", "edge", "sink"] limit with
  | (_, [some source, some edge, some sink]) =>
      return ⟨← source.string?, ← edge.string?, ← sink.string?⟩
  | _ => none

def Trail.ofJson? (limit : Nat) (j : Json) : Option Trail := do
  match ← j.record? ["variables", "paths", "predicate", "current", "vertex_count", "edge_count"]
      limit with
  | (limit, [some vs, some links, filter, current, some vertexCount, some edgeCount]) =>
      let (inner, vs) ← vs.items? limit
      let vs ← vs.mapM (Variable.ofJson? inner)
      let (inner, links) ← links.items? limit
      let links ← links.mapM (Link.ofJson? inner)
      let filter ← Json.optional? (Expr.ofJson? limit) filter
      let current ← Json.optional? Json.string? current
      return ⟨vs, links, filter, current, ← vertexCount.count?, ← edgeCount.count?⟩
  | _ => none

def Test.ofJson? (limit : Nat) (j : Json) : Option Test := do
  match ← j.choice? limit with
  | ("Compare", some (limit, payload)) =>
      match ← payload.items? limit with
      | (limit, [op, value]) =>
          return .compare (← Comparator.ofJson? limit op) (← Value.ofJson? limit value)
      | _ => none
  | ("Within", some (limit, payload)) =>
      let (limit, values) ← payload.items? limit
      return .within (← values.mapM (Value.ofJson? limit))
  | ("Exists", none) => some .present
  | ("Exists", some (_, .null)) => some .present
  | _ => none

def EdgeEnd.ofTag? : String → Option EdgeEnd
  | "OutV" => some .start
  | "InV" => some .finish
  | "OtherV" => some .far
  | _ => none

namespace Step

/-- The direction and the labels of a hop. -/
def readHop (limit : Nat) (j : Json) : Option (Direction × List String) := do
  match ← j.record? ["direction", "labels"] limit with
  | (limit, [some direction, some labels]) =>
      return (← Direction.ofJson? limit direction, ← labels.strings? limit)
  | _ => none

/-- A record whose only field is a list of strings. -/
def readNames (name : String) (limit : Nat) (j : Json) : Option (List String) := do
  match ← j.record? [name] limit with
  | (limit, [some names]) => names.strings? limit
  | _ => none

def ofJson? (limit : Nat) (j : Json) : Option Step := do
  match ← j.choice? limit with
  | ("Vertex", some (limit, payload)) => (readNames "ids" limit payload).map .vertices
  | ("VertexHop", some (limit, payload)) =>
      (readHop limit payload).map fun (direction, labels) => .hop direction labels
  | ("EdgeHop", some (limit, payload)) =>
      (readHop limit payload).map fun (direction, labels) => .hopToEdge direction labels
  | ("EdgeVertex", some (limit, payload)) =>
      match ← payload.record? ["end"] limit with
      | (limit, [some which]) => ((which.tag? limit).bind EdgeEnd.ofTag?).map .toEnd
      | _ => none
  | ("Has", some (limit, payload)) =>
      match ← payload.record? ["key", "predicate"] limit with
      | (limit, [some key, some test]) => return .has (← key.string?) (← Test.ofJson? limit test)
      | _ => none
  | ("HasLabel", some (limit, payload)) => (readNames "labels" limit payload).map .hasLabel
  | ("HasId", some (limit, payload)) => (readNames "ids" limit payload).map .hasId
  | _ => none

end Step

end DocWalk
