import DocWalk.Traversal.Trail

/-!
# Traversal steps

Source steps bind a vertex, hops bind an edge and the vertex behind it, end
steps go from an edge to a vertex it already has, and filters add a condition
to the variable the traversal stands on.

## Implementation notes

A hop to an edge binds the vertex behind that edge as well. The end steps
therefore never bind anything.
-/

namespace DocWalk

/-- A condition on one property. -/
inductive Test where
  | compare (op : Comparator) (value : Value)
  | within (values : List Value)
  | present
deriving DecidableEq, Repr

/-- The function that tells whether a property is there. -/
def definedFunction : String := "IS_DEFINED"

/-- A test as a condition on a property of a variable. No value lies within an empty list. -/
def Test.condition (name key : String) : Test → Expr
  | compare op value => .compare (.column (.property name key)) op (.literal value)
  | within values =>
      (Expr.anyOf (values.map (Expr.propertyIs name key))).getD (Expr.truth false)
  | present => .call definedFunction [.column (.property name key)]

/-- An end of an edge. -/
inductive EdgeEnd where
  /-- Where the edge starts. -/
  | start
  /-- Where the edge points to. -/
  | finish
  /-- Opposite to where the traversal came from. -/
  | far
deriving DecidableEq, Repr

namespace EdgeEnd

def stepName : EdgeEnd → String
  | start => "outV"
  | finish => "inV"
  | far => "otherV"

/-- The vertex at an end of a link's edge. An edge followed in both directions has no known
start and finish. -/
def vertex? (l : Link) : EdgeEnd → Direction → Option String
  | far, _ => some l.sink
  | start, .outgoing => some l.source
  | finish, .incoming => some l.source
  | finish, .outgoing => some l.sink
  | start, .incoming => some l.sink
  | _, .both => none

end EdgeEnd

/-- One step of a traversal. -/
inductive Step where
  /-- Start from the vertices with the given identifiers, or from all. -/
  | vertices (ids : List String)
  /-- Follow edges with the given labels to the vertices behind them. -/
  | hop (direction : Direction) (labels : List String)
  /-- Go to the edges with the given labels. -/
  | hopToEdge (direction : Direction) (labels : List String)
  /-- Go from an edge to one of its ends. -/
  | toEnd (which : EdgeEnd)
  | has (key : String) (test : Test)
  | hasLabel (labels : List String)
  | hasId (ids : List String)
deriving DecidableEq, Repr

def Step.name : Step → String
  | vertices _ => "V"
  | hop d _ => d.name
  | hopToEdge d _ => d.name ++ "E"
  | toEnd e => e.stepName
  | has .. => "has"
  | hasLabel _ => "hasLabel"
  | hasId _ => "hasId"

namespace Trail

/-- Bind an edge with the given labels and the vertex behind it, and link them to the current
vertex. -/
def follow (t : Trail) (step : String) (d : Direction) (labels : List String) :
    Except TraversalError (Trail × Link) := do
  let source ← t.requireVertex step
  let edge := t.nextAlias (.edge d)
  let t ← (t.declare (.edge d)).restrictLabels edge labels
  let l : Link := { source := source, edge := edge, sink := t.nextAlias .vertex }
  return ((t.declare .vertex).addLink l, l)

/-- The trail after one more step. -/
def apply (t : Trail) (s : Step) : Except TraversalError Trail :=
  match s with
  | .vertices ids => do
      let name := t.nextAlias .vertex
      let t ← (t.declare .vertex).restrictBy name (oneOf name idProperty ids)
      t.moveTo name
  | .hop d labels => do
      let (t, l) ← t.follow s.name d labels
      t.moveTo l.sink
  | .hopToEdge d labels => do
      let (t, l) ← t.follow s.name d labels
      t.moveTo l.edge
  | .toEnd e => do
      let edge ← t.requireEdge s.name
      match t.linkOf? edge, t.directionOf? edge with
      | none, _ => .error (.detachedEdge edge)
      | some _, none => .error (.unknownVariable edge)
      | some l, some d =>
          match e.vertex? l d with
          | none => .error (.undirectedHop edge)
          | some name => t.moveTo name
  | .has key test => do
      let v ← t.require s.name
      t.restrict v.alias .and (test.condition v.alias key)
  | .hasLabel labels => do
      let v ← t.require s.name
      t.restrictLabels v.alias labels
  | .hasId ids => do
      let v ← t.require s.name
      t.restrictBy v.alias (oneOf v.alias idProperty ids)

/-- The trail after a list of steps, up to the first that fails. -/
def run (t : Trail) (steps : List Step) : Except TraversalError Trail :=
  steps.foldlM apply t

end Trail

end DocWalk
