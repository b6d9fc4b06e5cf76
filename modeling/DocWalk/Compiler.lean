import DocWalk.Fetch.OfTrail
import DocWalk.Fetch.Render
import DocWalk.Partition.Session

/-!
# Compiling traversals

From steps to the fetch at their end, and from there to text. A session's plan
is applied to the first text that is made, and stays pending while making one
fails.
-/

namespace DocWalk

inductive CompileError where
  | traversal (cause : TraversalError)
  | render (cause : RenderError)
deriving DecidableEq, Repr

def CompileError.message : CompileError → String
  | traversal cause => "遍历上下文错误: " ++ cause.message
  | render cause => "渲染错误: " ++ cause.message

/-- The trail of a list of steps. -/
def trace (steps : List Step) : Except CompileError Trail :=
  (Trail.empty.run steps).mapError .traversal

/-- The fetch at the end of a list of steps. -/
def compile (settings : CompilerSettings) (steps : List Step) : Except CompileError Fetch := do
  let t ← trace steps
  (t.fetch settings).mapError .traversal

/-- The fetch of one variable along a list of steps. -/
def compileVariable (settings : CompilerSettings) (steps : List Step) (name : String) :
    Except CompileError Fetch := do
  let t ← trace steps
  (t.fetchOf settings name).mapError .traversal

def Fetch.text (q : Fetch) (d : Dialect) (plan : Option Plan) : Except CompileError String :=
  (q.render d plan).mapError .render

/-- The text of the fetch at the end of a list of steps, with the session after it. -/
def compileText (settings : CompilerSettings) (steps : List Step) (d : Dialect) (s : Session) :
    Except CompileError String × Session :=
  let result := do
    let q ← compile settings steps
    q.text d s.pending?
  match result with
  | .ok text => (.ok text, s.commit)
  | .error e => (.error e, s)

/-- The texts of a fetch for each of a list of plans. -/
def partitionTexts (q : Fetch) (plans : List Plan) : Except CompileError (List String) :=
  plans.mapM fun p => q.text .documentDB (some p)

end DocWalk
