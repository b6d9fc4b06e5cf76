import DocWalk.Fetch.Basic
import DocWalk.Settings.Basic
import DocWalk.Traversal.Step

/-!
# The fetch at the end of a trail

A vertex document stores the edges at it, outgoing and incoming ones in two
arrays. One fetch therefore reads a vertex and at most one of its edges: for a
vertex reached by a hop, the edge of that hop; for an edge, the vertex it was
reached from. A filter on any other variable cannot be applied by this fetch,
and the fetch is refused rather than made without it.
-/

namespace DocWalk

/-- What one fetch reads: a vertex, and an edge with the array that holds it. -/
structure Reading where
  vertex : Variable
  edge : Option (Variable × String)

namespace Reading

/-- The variables that are read. -/
def members (r : Reading) : List Variable :=
  r.vertex :: (r.edge.map Prod.fst).toList

/-- Whether the variable of the given alias is read. -/
def covers (r : Reading) (name : String) : Bool :=
  r.members.any (·.alias == name)

end Reading

namespace Trail

/-- The vertex and the edge that a fetch of the given variable reads. An edge that a hop followed
outwards is among the incoming edges of the vertex it reached. -/
def reading (t : Trail) (settings : CompilerSettings) (v : Variable) :
    Except TraversalError Reading :=
  match v.kind with
  | .vertex =>
      match t.incoming? v.alias with
      | none => .ok ⟨v, none⟩
      | some l => do
          let edge ← t.get l.edge
          match edge.kind with
          | .edge .outgoing => .ok ⟨v, some (edge, settings.reverseEdgeField)⟩
          | .edge .incoming => .ok ⟨v, some (edge, settings.edgeField)⟩
          | _ => .error (.undirectedHop l.edge)
  | .edge d =>
      match t.linkOf? v.alias with
      | none => .error (.detachedEdge v.alias)
      | some l =>
          match d with
          | .both => .error (.undirectedHop v.alias)
          | .outgoing => do
              let source ← t.get l.source
              .ok ⟨source, some (v, settings.edgeField)⟩
          | .incoming => do
              let source ← t.get l.source
              .ok ⟨source, some (v, settings.reverseEdgeField)⟩

/-- The first variable with a filter that a reading leaves out. -/
def stray? (scope : List Variable) (r : Reading) : Option Variable :=
  scope.find? fun w => w.filter.isSome && !r.covers w.alias

end Trail

namespace Fetch

/-- A fetch with nothing in it but what the settings say. -/
def ofSettings (settings : CompilerSettings) : Fetch :=
  { flat := NameSet.ofList (idProperty :: labelProperty :: settings.flatProperties)
    collection := settings.collection }

/-- Add the filter of a variable. -/
def restrictTo (q : Fetch) (v : Variable) : Fetch :=
  match v.filter with
  | none => q
  | some e => q.restrict .and e

/-- The fetch that returns one variable of a reading. -/
def ofReading (settings : CompilerSettings) (r : Reading) (target : String) : Fetch :=
  let q := ofSettings settings
  let q := match r.edge with
    | none => q
    | some (edge, field) => q.addJoin edge.alias (r.vertex.alias ++ "." ++ field)
  let q := { q with
    node := some r.vertex.alias
    edge := r.edge.map fun (p : Variable × String) => p.1.alias }
  let q := q.addSelect target none
  let q := r.members.foldl restrictTo q
  if q.filter.isNone then q.restrict .and (Expr.truth true) else q

end Fetch

namespace Trail

/-- The fetch of a variable, when none of the variables in scope has a filter it leaves out. -/
def fetchWithin (t : Trail) (settings : CompilerSettings) (scope : List Variable) (v : Variable) :
    Except TraversalError Fetch := do
  let r ← t.reading settings v
  match stray? scope r with
  | some w => .error (.strayFilter w.alias v.alias)
  | none => .ok (Fetch.ofReading settings r v.alias)

/-- The fetch of the current variable; every filter of the trail has to be applied by it. -/
def fetch (t : Trail) (settings : CompilerSettings) : Except TraversalError Fetch := do
  let v ← t.require "lower"
  t.fetchWithin settings t.variables v

/-- The variables up to and including the first with the given alias. -/
def scopeOf (t : Trail) (name : String) : List Variable :=
  let before := t.variables.takeWhile fun v => v.alias != name
  t.variables.take (before.length + 1)

/-- The fetch of a given variable; filters of later variables do not matter to it. -/
def fetchOf (t : Trail) (settings : CompilerSettings) (name : String) :
    Except TraversalError Fetch := do
  let v ← t.get name
  t.fetchWithin settings (t.scopeOf name) v

end Trail

end DocWalk
