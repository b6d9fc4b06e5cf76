import DocWalk.Dialect
import DocWalk.Expr.Fold
import DocWalk.Expr.Property
import DocWalk.Fetch.Basic
import DocWalk.Partition.Plan

/-!
# The text of a fetch

A fetch is written in one of two dialects:

* `SELECT … FROM … JOIN … WHERE (…)`, in three lines;
* `FOR … IN (…)`, a line for each join, then `WHERE …` and `SELECT …`.

Constant comparisons of the filter are folded, and nested properties are made
readable in the way of the dialect. Only the first dialect can be partitioned.
-/

namespace DocWalk

inductive RenderError where
  | emptyProjection
  /-- The whole document, together with expressions that make it up. -/
  | wildcardWithAlias
  /-- The whole document beside other entries. -/
  | wildcardNotAlone
  /-- An expression in a projection that is neither a literal nor a column. -/
  | unsupportedExpression (kind : String)
  | missingAlias
  | missingFilter
  | missingCollection
  | partitionUnsupported (dialect : Dialect)
  | partition (cause : PartitionError)
deriving DecidableEq, Repr

def RenderError.message : RenderError → String
  | emptyProjection => "SELECT 子句为空，没有任何可选择的内容"
  | wildcardWithAlias => "`*` 不能与 AS 一起使用"
  | wildcardNotAlone => "`*` 只能单独出现在 SELECT 子句中"
  | unsupportedExpression kind => "不支持的 SELECT 子句表达式: " ++ kind
  | missingAlias => "查询缺少节点别名和边别名"
  | missingFilter => "查询尚未设置 WHERE 谓词"
  | missingCollection => "JsonServer 查询需要集合名称"
  | partitionUnsupported d => d.name ++ " 方言不支持分区谓词"
  | partition cause => "分区谓词错误: " ++ cause.message

/-- A part of a fetch that has to be there. -/
def demand {α : Type} (e : RenderError) : Option α → Except RenderError α
  | some a => .ok a
  | none => .error e

/-- The text of an expression in a projection; a whole document is written by `document`. -/
def Expr.inProjection (d : Dialect) (document : String → String) : Expr → Except RenderError String
  | .column ⟨table, []⟩ => .ok (document table)
  | .literal v => .ok (v.inQuery d)
  | .column c => .ok (c.inQuery d)
  | e => .error (.unsupportedExpression e.kindName)

/-- The whole document is not made up of expressions, not even of none. -/
def Projection.checkWildcard (p : Projection) : Except RenderError Unit :=
  if p.isWildcard && p.parts.isSome then .error .wildcardWithAlias else .ok ()

namespace Fetch

/-- What the fetch knows about how properties are stored; edges store theirs flat. -/
def storage (q : Fetch) : Storage :=
  { flat := q.flat.names, flatTables := q.edge.toList }

namespace DocumentDB

/-- One entry of the projection. -/
def entry (p : Projection) : Except RenderError String := do
  p.checkWildcard
  match p.parts with
  | none => return p.name
  | some [] => return p.name
  | some es =>
      let parts ← es.mapM (Expr.inProjection .documentDB id)
      match parts with
      | [part] => return part ++ " AS " ++ p.name
      | parts => return "CONCAT(" ++ ", ".intercalate parts ++ ") AS " ++ p.name

/-- The filter as it is written, and the joins of nested properties that it reads. -/
def adapt (q : Fetch) (filter : Expr) : Expr × List PropertyJoin :=
  let (e, joins) := filter.fold.hoist q.storage
  (e.bracket q.edge.toList, joins)

/-- The text of a join of a nested property. -/
def propertyJoin (j : PropertyJoin) : String :=
  " JOIN " ++ j.alias ++ " IN " ++ j.table ++ "[" ++ Text.inSingle j.property ++ "]"

/-- The text of a join. -/
def join (j : Join) : String :=
  " JOIN " ++ j.alias ++ " IN " ++ j.source

/-- The condition of the last line, narrowed to a plan. -/
def narrowed (plan : Option Plan) (driving filter : String) : Except RenderError String :=
  match plan with
  | none => .ok filter
  | some p => (p.narrow driving filter).mapError .partition

def render (q : Fetch) (plan : Option Plan) : Except RenderError String := do
  let entries ← q.select.mapM entry
  let driving ← demand .missingAlias q.driving?
  let filter ← demand .missingFilter q.filter
  let (e, propertyJoins) := adapt q filter
  let condition ← narrowed plan driving (e.inQuery .documentDB)
  return "SELECT " ++ ", ".intercalate entries ++
    "\nFROM " ++ driving ++ String.join (propertyJoins.map propertyJoin) ++
      String.join (q.joins.map join) ++
    "\nWHERE (" ++ condition ++ ")"

end DocumentDB

namespace JsonServer

/-- The text of a whole document. -/
def document (name : String) : String :=
  "Doc(" ++ name ++ ")"

/-- One entry of the projection, among others or not the whole document. -/
def entry (p : Projection) : Except RenderError String := do
  p.checkWildcard
  if p.hasParts then
    let parts ← (p.parts.getD []).mapM (Expr.inProjection .jsonServer document)
    return "StringConcatenate(" ++ ", ".intercalate parts ++ ") AS " ++ p.name
  else if p.isWildcard then .error .wildcardNotAlone
  else return document p.name ++ " AS " ++ p.name

/-- The projection; a whole document alone is the driving one. -/
def projection (driving : String) (select : List Projection) : Except RenderError String :=
  match select with
  | [p] =>
      if p.isWildcard then do
        p.checkWildcard
        return document driving
      else entry p
  | ps => do
      let entries ← ps.mapM entry
      return ", ".intercalate entries

/-- The filter as it is written. -/
def adapt (q : Fetch) (filter : Expr) : Expr :=
  filter.fold.unfold q.storage

/-- The line of a join. -/
def join (j : Join) : String :=
  "FOR " ++ j.alias ++ " IN " ++ j.source ++ ".*\n"

def render (q : Fetch) : Except RenderError String := do
  let driving ← demand .missingAlias q.driving?
  let select ← projection driving q.select
  let collection ← demand .missingCollection q.collection
  let filter ← demand .missingFilter q.filter
  return "FOR " ++ driving ++ " IN (" ++ Text.inSingle collection ++ ")\n" ++
    String.join (q.joins.map join) ++
    "WHERE " ++ (adapt q filter).inQuery .jsonServer ++ "\n" ++
    "SELECT " ++ select

end JsonServer

/-- The text of a fetch in a dialect, narrowed to a plan where one is given. -/
def render (q : Fetch) (d : Dialect) (plan : Option Plan) : Except RenderError String :=
  if q.select.isEmpty then .error .emptyProjection
  else
    match d, plan with
    | .documentDB, plan => DocumentDB.render q plan
    | .jsonServer, none => JsonServer.render q
    | .jsonServer, some _ => .error (.partitionUnsupported .jsonServer)

end Fetch

end DocWalk
