import DocWalk.Expr.Rewriter

/-!
# Multi-valued properties

A vertex document stores a property as an array of objects, each with its
value in one field. A condition on such a property has to reach into the
array. One dialect joins the array under a variable of its own and reads the
value there; the other writes the way through the array into the path.
Properties known to be flat, and tables known to hold none, are left alone.

## Implementation notes

Join variables are numbered over the whole expression, across tables, in the
order of a left-to-right walk. A property that occurs again gets the variable
of its first occurrence.
-/

namespace DocWalk

/-- The field that holds the value of an array element. -/
def valueField : String := "_value"

/-- What is known about how properties are stored. -/
structure Storage where
  /-- Properties that are stored as plain values. -/
  flat : List String := []
  /-- Tables whose properties are all stored as plain values. -/
  flatTables : List String := []

namespace Storage

def addFlat (s : Storage) (names : List String) : Storage :=
  { s with flat := s.flat ++ names }

def addFlatTable (s : Storage) (table : Option String) : Storage :=
  { s with flatTables := s.flatTables ++ table.toList }

/-- The property that a column reads from an array, with the rest of its path. -/
def nested? (s : Storage) (c : Column) : Option (String × List Segment) :=
  if s.flatTables.contains c.table then none
  else
    match c.path with
    | .member name :: rest => if s.flat.contains name then none else some (name, rest)
    | _ => none

end Storage

/-- A join of a property's array under a variable. -/
structure PropertyJoin where
  «alias» : String
  table : String
  property : String
deriving DecidableEq, Repr

/-- Reads nested properties from join variables, and lists the joins as it finds them. -/
structure Hoister where
  storage : Storage := {}
  joins : List PropertyJoin := []
  /-- The variables, by table and property. -/
  names : List ((String × String) × String) := []

namespace Hoister

def addFlat (h : Hoister) (names : List String) : Hoister :=
  { h with storage := h.storage.addFlat names }

def addFlatTable (h : Hoister) (table : Option String) : Hoister :=
  { h with storage := h.storage.addFlatTable table }

/-- The variable for a property, which is joined when it is first asked for. -/
def request (h : Hoister) (table property : String) : String × Hoister :=
  match h.names.lookup (table, property) with
  | some name => (name, h)
  | none =>
      let name := table ++ "_" ++ Nat.repr h.joins.length
      (name, { h with
        joins := h.joins ++ [⟨name, table, property⟩]
        names := ((table, property), name) :: h.names })

def onColumn (c : Column) (h : Hoister) : Column × Hoister :=
  match h.storage.nested? c with
  | none => (c, h)
  | some (name, rest) =>
      let (joined, h) := h.request c.table name
      (⟨joined, .member valueField :: rest⟩, h)

def rewriter : Rewriter Hoister :=
  { onColumn := onColumn }

/-- Hoist the nested properties of an expression, beginning without joins. The joins are handed
over and not kept. -/
def run (h : Hoister) (e : Expr) : (Expr × List PropertyJoin) × Hoister :=
  let (e, h) := e.rewrite rewriter { h with joins := [], names := [] }
  ((e, h.joins), { h with joins := [] })

end Hoister

/-- Write the way through a nested property's array into the path. -/
def Column.unfold (s : Storage) (c : Column) : Column :=
  match s.nested? c with
  | none => c
  | some (name, rest) => ⟨c.table, .member name :: .wildcard :: .member valueField :: rest⟩

/-- Writes the ways through nested properties' arrays into the paths. -/
structure Unfolder where
  storage : Storage := {}

namespace Unfolder

def ofFlat (names : List String) : Unfolder :=
  { storage := Storage.addFlat {} names }

def addFlatTable (u : Unfolder) (table : Option String) : Unfolder :=
  { u with storage := u.storage.addFlatTable table }

def rewriter : Rewriter Unfolder :=
  { onColumn := fun c u => (c.unfold u.storage, u) }

def run (u : Unfolder) (e : Expr) : Expr × Unfolder :=
  e.rewrite rewriter u

end Unfolder

/-- Put the properties of the given tables in brackets. -/
def Column.bracket (tables : List String) (c : Column) : Column :=
  if tables.contains c.table then
    { c with path := c.path.map fun
        | .member name => .key name
        | s => s }
  else c

/-- Puts the properties of its tables in brackets. -/
structure Bracketer where
  tables : List String := []

namespace Bracketer

def addTable (b : Bracketer) (table : String) : Bracketer :=
  { b with tables := b.tables ++ [table] }

def rewriter : Rewriter Bracketer :=
  { onColumn := fun c b => (c.bracket b.tables, b) }

/-- Without tables there is nothing to walk for. -/
def run (b : Bracketer) (e : Expr) : Expr × Bracketer :=
  if b.tables.isEmpty then (e, b) else e.rewrite rewriter b

end Bracketer

namespace Expr

/-- Read every nested property from a join variable; the joins are listed as they are found. -/
def hoist (s : Storage) (e : Expr) : Expr × List PropertyJoin :=
  (({ storage := s } : Hoister).run e).1

/-- Write the way through every nested property's array into its path. -/
def unfold (s : Storage) (e : Expr) : Expr :=
  (({ storage := s } : Unfolder).run e).1

/-- Put the properties of the given tables in brackets. -/
def bracket (tables : List String) (e : Expr) : Expr :=
  (({ tables := tables } : Bracketer).run e).1

end Expr

end DocWalk
