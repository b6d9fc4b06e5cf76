import DocWalk.Traversal.Error

/-!
# The trail of a traversal

A trail records the variables a traversal has bound, the links it has
followed, the filters it has gathered and the variable it stands on.

## Implementation notes

Vertices and edges are numbered apart, each from zero. A filter is recorded
twice, on its variable and on the whole trail: a fetch reads only some of the
variables, and their own filters are what it has to apply.
-/

namespace DocWalk

/-- The state of a traversal. -/
structure Trail where
  /-- Variables in the order of their declaration. -/
  «variables» : List Variable
  links : List Link
  /-- The filter over all variables. -/
  filter : Option Expr
  /-- The alias of the variable that the next step starts from. -/
  current : Option String
  vertexCount : Nat
  edgeCount : Nat
deriving Repr, Inhabited

namespace Trail

def empty : Trail :=
  ⟨[], [], none, none, 0, 0⟩

/-- The alias that the next variable of a kind gets. -/
def nextAlias (t : Trail) (k : Kind) : String :=
  k.initial ++ "_" ++ Nat.repr (if k.isVertex then t.vertexCount else t.edgeCount)

/-- Bind a new variable. -/
def declare (t : Trail) (k : Kind) : Trail :=
  let vs := t.variables ++ [Variable.fresh (t.nextAlias k) k]
  if k.isVertex then { t with «variables» := vs, vertexCount := t.vertexCount + 1 }
  else { t with «variables» := vs, edgeCount := t.edgeCount + 1 }

/-- The first variable with the given alias. -/
def find? (t : Trail) (name : String) : Option Variable :=
  t.variables.find? (·.alias == name)

/-- The first variable with the given alias, which has to exist. -/
def get (t : Trail) (name : String) : Except TraversalError Variable :=
  match t.find? name with
  | some v => .ok v
  | none => .error (.unknownVariable name)

def addLink (t : Trail) (l : Link) : Trail :=
  { t with links := t.links ++ [l] }

/-- The latest link into a vertex. -/
def incoming? (t : Trail) (vertex : String) : Option Link :=
  t.links.reverse.find? (·.sink == vertex)

/-- The first link over an edge. -/
def linkOf? (t : Trail) (edge : String) : Option Link :=
  t.links.find? (·.edge == edge)

/-- The variable that the traversal stands on. -/
def currentVariable? (t : Trail) : Option Variable :=
  t.current.bind t.find?

/-- The direction in which an edge was followed. -/
def directionOf? (t : Trail) (edge : String) : Option Direction :=
  (t.find? edge).bind (·.kind.direction?)

/-- Stand on a variable that is already bound. -/
def moveTo (t : Trail) (name : String) : Except TraversalError Trail :=
  match t.find? name with
  | some _ => .ok { t with current := some name }
  | none => .error (.unknownVariable name)

/-- The current variable, for a step that needs one. -/
def require (t : Trail) (step : String) : Except TraversalError Variable :=
  match t.currentVariable? with
  | some v => .ok v
  | none => .error (.noCurrent step)

/-- The alias of the current variable, for a step that needs a vertex. -/
def requireVertex (t : Trail) (step : String) : Except TraversalError String := do
  let v ← t.require step
  match v.kind with
  | .vertex => .ok v.alias
  | .edge _ => .error (.wrongKind step .vertex v.alias v.kind)

/-- The alias of the current variable, for a step that needs an edge. -/
def requireEdge (t : Trail) (step : String) : Except TraversalError String := do
  let v ← t.require step
  match v.kind with
  | .edge _ => .ok v.alias
  | .vertex => .error (.wrongKind step .edge v.alias v.kind)

/-- Change the first variable with the given alias, which has to exist. -/
def update (t : Trail) (name : String) (f : Variable → Variable) : Except TraversalError Trail :=
  match Variable.updateFirst name f t.variables with
  | some vs => .ok { t with «variables» := vs }
  | none => .error (.unknownVariable name)

/-- Add a condition to the filter of a variable and to the filter of the trail. -/
def restrict (t : Trail) (name : String) (op : Connective) (e : Expr) :
    Except TraversalError Trail := do
  let t ← t.update name (·.restrict op e)
  return { t with filter := some (Expr.conjoin t.filter op e) }

/-- Add a condition where there is one. -/
def restrictBy (t : Trail) (name : String) : Option Expr → Except TraversalError Trail
  | none => .ok t
  | some e => t.restrict name .and e

/-- Add labels to a variable, and the condition that its label is one of them. -/
def restrictLabels (t : Trail) (name : String) (labels : List String) :
    Except TraversalError Trail := do
  let t ← t.update name (·.addLabels labels)
  t.restrictBy name (oneOf name labelProperty labels)

end Trail

end DocWalk
