import DocWalk.Expr.Basic

/-!
# Traversal variables

A traversal binds a variable to every vertex and every edge it passes, and
links each edge to the vertices at its ends.
-/

namespace DocWalk

/-- The way a hop follows its edge. -/
inductive Direction where
  | outgoing
  | incoming
  | both
deriving DecidableEq, Repr, Inhabited

def Direction.name : Direction → String
  | outgoing => "out"
  | incoming => "in"
  | both => "both"

/-- What a variable stands for. -/
inductive Kind where
  | vertex
  | edge (direction : Direction)
deriving DecidableEq, Repr, Inhabited

namespace Kind

def isVertex : Kind → Bool
  | vertex => true
  | edge _ => false

def isEdge (k : Kind) : Bool :=
  !k.isVertex

/-- The direction of an edge. -/
def direction? : Kind → Option Direction
  | vertex => none
  | edge d => some d

/-- The letter that aliases of this kind begin with. -/
def initial : Kind → String
  | vertex => "N"
  | edge _ => "E"

def describe : Kind → String
  | vertex => "vertex"
  | edge d => d.name ++ " edge"

end Kind

/-- The property that holds a document's identifier. -/
def idProperty : String := "id"

/-- The property that holds a document's label. -/
def labelProperty : String := "label"

/-- A variable with the labels and the filter it has gathered. -/
structure Variable where
  «alias» : String
  kind : Kind
  labels : List String
  filter : Option Expr
deriving Repr, Inhabited

namespace Variable

/-- A variable without labels and filter. -/
def fresh (name : String) (kind : Kind) : Variable :=
  ⟨name, kind, [], none⟩

def restrict (v : Variable) (op : Connective) (e : Expr) : Variable :=
  { v with filter := some (Expr.conjoin v.filter op e) }

def addLabels (v : Variable) (labels : List String) : Variable :=
  { v with labels := v.labels ++ labels }

/-- Change the first variable with the given alias; none when there is no such variable. -/
def updateFirst (name : String) (f : Variable → Variable) : List Variable → Option (List Variable)
  | [] => none
  | v :: vs => if v.alias = name then some (f v :: vs) else (updateFirst name f vs).map (v :: ·)

end Variable

/-- The condition that a property has one of the given texts; none for an empty list. -/
def oneOf (name property : String) (values : List String) : Option Expr :=
  Expr.anyOf (values.map fun s => Expr.propertyIs name property (.text s))

/-- An edge between the vertex a hop left and the vertex it reached. -/
structure Link where
  source : String
  edge : String
  sink : String
deriving DecidableEq, Repr, Inhabited

end DocWalk
