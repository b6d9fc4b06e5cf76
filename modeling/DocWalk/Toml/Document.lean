import DocWalk.Toml.Basic

/-!
# Assembling TOML documents

A document is a list of statements: a header opens a table, an assignment
gives a value to a key of the open table. A table is defined once. It can be
implied first, by the header of a table inside it, and opened later; and a
table made by a key with dots can be extended by such keys only.
-/

namespace DocWalk.Toml

/-- A line of a document that defines something. -/
inductive Statement where
  | header (path : List String)
  | arrayHeader (path : List String)
  /-- A key, as the names before its last one and the last one, and its value. -/
  | assign (before : List String) (key : String) (value : Toml)
deriving Repr

/-- How a table came to be. -/
inductive Origin where
  /-- By a header of its own. -/
  | header
  /-- By the header of a table inside it. -/
  | implied
  /-- By a key with dots. -/
  | dotted
deriving DecidableEq, Repr

/-- A part of a document that is being assembled. -/
inductive Node where
  | leaf (value : Toml)
  | table (origin : Origin) (entries : List (String × Node))
  | tables (elements : List (List (String × Node)))
deriving Inhabited

/-- The keys of a table and what they hold. -/
abbrev Entries := List (String × Node)

/-- Change what a key holds; a new key comes last. -/
def alter (key : String) (f : Option Node → Option Node) : Entries → Option Entries
  | [] => (f none).map fun n => [(key, n)]
  | (k, n) :: rest =>
      if k = key then (f (some n)).map fun n => (k, n) :: rest
      else (alter key f rest).map ((k, n) :: ·)

/-- Change the last element of an array of tables. -/
def alterLast (f : Entries → Option Entries) : List Entries → Option (List Entries)
  | [] => none
  | [es] => (f es).map fun es => [es]
  | es :: rest => (alterLast f rest).map (es :: ·)

/-- Act on the table at a path of headers; an array of tables stands for its last element. -/
def within (act : Entries → Option Entries) : List String → Entries → Option Entries
  | [], es => act es
  | key :: path, es =>
      alter key (fun
        | none => (within act path []).map (.table .implied)
        | some (.table origin es) => (within act path es).map (.table origin)
        | some (.tables els) => (alterLast (within act path) els).map .tables
        | some (.leaf _) => none) es

/-- Give a value to a new key. -/
def define (key : String) (value : Toml) (es : Entries) : Option Entries :=
  alter key (fun
    | none => some (.leaf value)
    | some _ => none) es

/-- Give a value to a key behind dots. The table that receives it is one made by dots. -/
def defineBehind (key : String) (value : Toml) (dotted : Bool) :
    List String → Entries → Option Entries
  | [], es => if dotted then define key value es else none
  | name :: path, es =>
      alter name (fun
        | none => (defineBehind key value true path []).map (.table .dotted)
        | some (.table .header _) => none
        | some (.table .implied es) => (defineBehind key value false path es).map (.table .implied)
        | some (.table .dotted es) => (defineBehind key value true path es).map (.table .dotted)
        | some (.tables els) => (alterLast (defineBehind key value false path) els).map .tables
        | some (.leaf _) => none) es

/-- Give a value to a key, with or without dots. -/
def assignIn (before : List String) (key : String) (value : Toml) (es : Entries) :
    Option Entries :=
  match before with
  | [] => define key value es
  | path => defineBehind key value false path es

/-- Open a table, which must not have been opened before. -/
def openTable (key : String) (es : Entries) : Option Entries :=
  alter key (fun
    | none => some (.table .header [])
    | some (.table .implied es) => some (.table .header es)
    | _ => none) es

/-- Open a new element of an array of tables. -/
def openElement (key : String) (es : Entries) : Option Entries :=
  alter key (fun
    | none => some (.tables [[]])
    | some (.tables els) => some (.tables (els ++ [[]]))
    | _ => none) es

/-- Act on the table that holds the last name of a path. -/
def atLast (act : String → Entries → Option Entries) (path : List String) (es : Entries) :
    Option Entries := do
  let key ← path.getLast?
  within (act key) path.dropLast es

/-- The document and its open table after one more statement. -/
def Statement.apply : Statement → Entries × List String → Option (Entries × List String)
  | header path, (es, _) => (atLast openTable path es).map fun es => (es, path)
  | arrayHeader path, (es, _) => (atLast openElement path es).map fun es => (es, path)
  | assign before key value, (es, current) =>
      (within (assignIn before key value) current es).map fun es => (es, current)

mutual

/-- The value of a finished part. -/
def Node.value : Node → Toml
  | .leaf v => v
  | .table _ es => .table (entryValues es)
  | .tables els => .array (elementValues els)

def entryValues : List (String × Node) → List (String × Toml)
  | [] => []
  | (k, n) :: es => (k, n.value) :: entryValues es

def elementValues : List (List (String × Node)) → List Toml
  | [] => []
  | es :: els => .table (entryValues es) :: elementValues els

end

/-- The table that a list of assignments makes. -/
def inlineTable? (assignments : List (List String × String × Toml)) : Option Toml := do
  let es ← assignments.foldlM (fun es (before, key, value) => assignIn before key value es) []
  return .table (entryValues es)

/-- The table that a list of statements makes. -/
def assemble? (statements : List Statement) : Option Toml := do
  let (es, _) ← statements.foldlM (fun state s => s.apply state) ([], [])
  return .table (entryValues es)

end DocWalk.Toml
