import DocWalk.Fetch.Basic
import DocWalk.Json.Expr
import DocWalk.Json.Reader
import DocWalk.Json.Writer

/-!
# Fetches as JSON

A fetch is shipped to where it is run as one JSON document.
-/

namespace DocWalk

namespace Projection

def toJson (p : Projection) : Json :=
  .record
    [("name", .ofString p.name),
      ("expressions", .ofOption (fun es => .array (Expr.toJsonAll es)) p.parts)]

def ofJson? (limit : Nat) (j : Json) : Option Projection := do
  match ← j.record? ["name", "expressions"] limit with
  | (limit, [some name, parts]) =>
      let name ← name.string?
      let parts ← Json.optional? (readParts limit) parts
      return ⟨name, parts⟩
  | _ => none
where
  readParts (limit : Nat) (j : Json) : Option (List Expr) := do
    let (limit, items) ← j.items? limit
    items.mapM (Expr.ofJson? limit)

end Projection

namespace Join

/-- A join is written as a pair. -/
def toJson (j : Join) : Json :=
  .ofStrings [j.alias, j.source]

def ofJson? (limit : Nat) (j : Json) : Option Join := do
  match ← j.strings? limit with
  | [name, source] => some ⟨name, source⟩
  | _ => none

end Join

namespace Fetch

def toJson (q : Fetch) : Json :=
  .record
    [("node_alias", .ofOption .ofString q.node),
      ("edge_alias", .ofOption .ofString q.edge),
      ("select", .array (q.select.map Projection.toJson)),
      ("flat_properties", .ofStrings q.flat.names),
      ("joins", .array (q.joins.map Join.toJson)),
      ("predicate", .ofOption Expr.toJson q.filter),
      ("collection_name", .ofOption .ofString q.collection)]

def ofJson? (limit : Nat) (j : Json) : Option Fetch := do
  match ← j.record? ["node_alias", "edge_alias", "select", "flat_properties", "joins", "predicate",
      "collection_name"] limit with
  | (limit, [node, edge, some select, some flat, some joins, filter, collection]) =>
      let node ← Json.optional? Json.string? node
      let edge ← Json.optional? Json.string? edge
      let (inner, select) ← select.items? limit
      let select ← select.mapM (Projection.ofJson? inner)
      let flat ← flat.strings? limit
      let (inner, joins) ← joins.items? limit
      let joins ← joins.mapM (Join.ofJson? inner)
      let filter ← Json.optional? (Expr.ofJson? limit) filter
      let collection ← Json.optional? Json.string? collection
      return {
        node := node, edge := edge, select := select, flat := NameSet.ofList flat,
        joins := joins, filter := filter, collection := collection }
  | _ => none

/-- The text of a fetch for shipping. -/
def ship (q : Fetch) : String :=
  q.toJson.write

/-- The fetch that a shipped text holds. -/
def receive? (s : String) : Option Fetch :=
  (Json.parse? s).bind (ofJson? Json.nestingLimit)

end Fetch

end DocWalk
