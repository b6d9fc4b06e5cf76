import DocWalk.Partition.Plan
import DocWalk.Settings.Basic

/-!
# Partition sessions

Only the first fetch of a run is partitioned: what follows starts from what
the first fetch has found. A session holds the plan of one worker and whether
the first fetch has been made.
-/

namespace DocWalk

/-- The plan of one worker and its use so far. -/
structure Session where
  plan : Option Plan := none
  /-- Whether the first fetch of this run has been made. -/
  spent : Bool := false
deriving DecidableEq, Repr, Inhabited

namespace Session

def ofPlan (plan : Option Plan) : Session :=
  { plan := plan }

/-- The session of the worker that an environment setting names; a run with one worker is not
partitioned. -/
def forWorker (settings : PartitionSettings) (index : Option String) :
    Except PartitionError Session :=
  if settings.parallelism ≤ 1 then .ok {}
  else do
    let plans ← Plan.splitAlphabet settings.key settings.parallelism
    return ofPlan (Plan.forWorker plans (workerIndex index))

/-- The plan that the next fetch has to apply. -/
def pending? (s : Session) : Option Plan :=
  if s.spent then none else s.plan

/-- Note that the first fetch has been made; nothing changes when no plan is pending. -/
def commit (s : Session) : Session :=
  if s.pending?.isSome then { s with spent := true } else s

/-- Take the pending plan, which is then spent. -/
def take (s : Session) : Option Plan × Session :=
  (s.pending?, s.commit)

/-- Begin a new run. -/
def reset (s : Session) : Session :=
  { s with spent := false }

end Session

end DocWalk
