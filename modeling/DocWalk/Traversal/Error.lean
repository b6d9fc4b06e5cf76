import DocWalk.Traversal.Variable

/-!
# Failures of a traversal

Why a step cannot be taken, or why a trail cannot be read in one fetch.
-/

namespace DocWalk

/-- What a step needs its current variable to be. -/
inductive Role where
  | vertex
  | edge
deriving DecidableEq, Repr

def Role.text : Role → String
  | vertex => "顶点"
  | edge => "边"

inductive TraversalError where
  /-- A step needs a current variable and there is none. -/
  | noCurrent (step : String)
  /-- A step needs a current variable of another kind. -/
  | wrongKind (step : String) (expected : Role) (name : String) (found : Kind)
  | unknownVariable (name : String)
  /-- An edge that no link mentions. -/
  | detachedEdge (edge : String)
  /-- A hop in both directions, which no single fetch can follow. -/
  | undirectedHop (edge : String)
  /-- A filter on a variable that the fetch of another one does not read. -/
  | strayFilter (name fetch : String)
deriving DecidableEq, Repr

def TraversalError.message : TraversalError → String
  | noCurrent step => "步骤 " ++ step ++ " 需要当前变量，但上下文中还没有任何变量"
  | wrongKind step expected name found =>
      "步骤 " ++ step ++ " 需要" ++ expected.text ++ "变量，但当前变量 " ++ name ++ " 是" ++
        found.describe
  | unknownVariable name => "未声明的变量: " ++ name
  | detachedEdge edge => "边 " ++ edge ++ " 不在任何连接路径上"
  | undirectedHop edge => "无法用单次读取表达双向跳转: " ++ edge
  | strayFilter name fetch =>
      "变量 " ++ name ++ " 上的过滤条件无法并入以 " ++ fetch ++
        " 结尾的单次读取，需先单独读取 " ++ name

end DocWalk
