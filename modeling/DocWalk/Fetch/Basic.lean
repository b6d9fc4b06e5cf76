import DocWalk.Fetch.NameSet
import DocWalk.Expr.Basic

/-!
# Fetches

A fetch is one read from the document store, free of any dialect: the document
it starts from, what it returns, the arrays it joins and the condition it
applies.

## Implementation notes

Projections and joins are ordered maps. Writing a name again keeps its place
and replaces what it carries.
-/

namespace DocWalk

/-- One entry of a fetch's result: a name, and the expressions that make it up if it is not the
plain document of that name. -/
structure Projection where
  name : String
  parts : Option (List Expr)
deriving Repr, Inhabited

namespace Projection

/-- Whether the entry stands for the whole document. -/
def isWildcard (p : Projection) : Bool :=
  p.name == Column.wholeDocument

/-- Whether the entry is made up of expressions. -/
def hasParts (p : Projection) : Bool :=
  match p.parts with
  | some (_ :: _) => true
  | _ => false

def equals (p q : Projection) : Bool :=
  p.name == q.name &&
    match p.parts, q.parts with
    | none, none => true
    | some es, some es' => Expr.equalsAll es es'
    | _, _ => false

end Projection

/-- An array of a document, joined under an alias. -/
structure Join where
  «alias» : String
  source : String
deriving DecidableEq, Repr, Inhabited

/-- One read from the document store. -/
structure Fetch where
  node : Option String := none
  edge : Option String := none
  select : List Projection := []
  /-- Properties that are stored as plain values. -/
  flat : NameSet := .empty
  joins : List Join := []
  filter : Option Expr := none
  collection : Option String := none
deriving Repr, Inhabited

namespace Fetch

/-- The alias that the fetch starts from: the vertex, or else the edge. -/
def driving? (q : Fetch) : Option String :=
  q.node.or q.edge

/-- Write an entry of the result. -/
def putSelect (name : String) (parts : Option (List Expr)) : List Projection → List Projection
  | [] => [⟨name, parts⟩]
  | p :: ps => if p.name = name then ⟨name, parts⟩ :: ps else p :: putSelect name parts ps

def addSelect (q : Fetch) (name : String) (parts : Option (List Expr)) : Fetch :=
  { q with select := putSelect name parts q.select }

def clearSelect (q : Fetch) : Fetch :=
  { q with select := [] }

/-- Write a join. -/
def putJoin (name source : String) : List Join → List Join
  | [] => [⟨name, source⟩]
  | j :: js => if j.alias = name then ⟨name, source⟩ :: js else j :: putJoin name source js

def addJoin (q : Fetch) (name source : String) : Fetch :=
  { q with joins := putJoin name source q.joins }

/-- Add a condition to the filter. -/
def restrict (q : Fetch) (op : Connective) (e : Expr) : Fetch :=
  { q with filter := some (Expr.conjoin q.filter op e) }

def addFlat (q : Fetch) (names : List String) : Fetch :=
  { q with flat := q.flat.insertAll names }

/-- Equality of fetches, literals being compared with `Value.equals`. -/
def equals (q r : Fetch) : Bool :=
  q.node == r.node && q.edge == r.edge && selectEquals q.select r.select &&
    q.flat.equals r.flat && q.joins == r.joins && filterEquals q.filter r.filter &&
    q.collection == r.collection
where
  selectEquals : List Projection → List Projection → Bool
    | [], [] => true
    | p :: ps, p' :: ps' => p.equals p' && selectEquals ps ps'
    | _, _ => false
  filterEquals : Option Expr → Option Expr → Bool
    | none, none => true
    | some e, some e' => e.equals e'
    | _, _ => false

end Fetch

end DocWalk
