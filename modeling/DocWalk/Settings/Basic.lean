/-!
# Settings

What a deployment can choose: where its documents keep edges, which properties
are stored flat, how a run is partitioned, and where it logs.
-/

namespace DocWalk

/-- Where and how much to log. -/
structure LogSettings where
  level : String := "info"
  dir : String := "logs"
  file : String := "graphview"
  maxFileSize : Nat := 104857600
  maxFiles : Nat := 5
deriving DecidableEq, Repr

/-- How documents are laid out. -/
structure CompilerSettings where
  /-- The field of a vertex document that holds its outgoing edges. -/
  edgeField : String := "_edge"
  /-- The field of a vertex document that holds its incoming edges. -/
  reverseEdgeField : String := "_reverse_edge"
  /-- Flat properties besides the identifier and the label. -/
  flatProperties : List String := []
  collection : Option String := none
deriving DecidableEq, Repr

/-- How a run is split over workers. -/
structure PartitionSettings where
  key : String := "name"
  parallelism : Nat := 1
  /-- The environment variable that tells a worker its index. -/
  workerIndexVariable : String := "AZ_BATCH_TASK_ID"
deriving DecidableEq, Repr

structure Settings where
  log : LogSettings := {}
  compiler : CompilerSettings := {}
  partition : PartitionSettings := {}
deriving DecidableEq, Repr

end DocWalk
