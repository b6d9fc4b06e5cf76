import DocWalk.Text.Blank
import DocWalk.Text.Quoted
import DocWalk.Expr.Operator

/-!
# Partition plans

A run can be split over workers by the first letter of a key. A plan says
which letters one worker reads; the alphabet is split into consecutive ranges.

## Implementation notes

All ranges but the last leave out their upper bound, which is where the next
one begins. Only ranges can be written as a condition; the other rules are
accepted as plans and refused when a condition is needed.
-/

namespace DocWalk

/-- Which bounds of a range apply, and whether they belong to it. -/
inductive Bounds where
  | includeBoth
  | includeLeft
  | includeRight
  | excludeBoth
  | greater
  | greaterOrEqual
  | less
  | lessOrEqual
deriving DecidableEq, Repr, Inhabited

namespace Bounds

/-- How the lower bound compares to a value in the range, where it applies. -/
def atLower : Bounds → Option Comparator
  | includeBoth | includeLeft | greaterOrEqual => some .lessOrEqual
  | includeRight | excludeBoth | greater => some .less
  | less | lessOrEqual => none

/-- How a value in the range compares to the upper bound, where it applies. -/
def atUpper : Bounds → Option Comparator
  | includeBoth | includeRight | lessOrEqual => some .lessOrEqual
  | includeLeft | excludeBoth | less => some .less
  | greater | greaterOrEqual => none

end Bounds

/-- What a plan asks of the first letter. -/
inductive Rule where
  | equal (letter : String)
  | oneOf (letters : List String)
  | between (lower upper : String) (bounds : Bounds)
deriving DecidableEq, Repr, Inhabited

def Rule.name : Rule → String
  | equal _ => "Equal"
  | oneOf _ => "In"
  | between .. => "Between"

inductive PartitionError where
  /-- A rule that has no condition text. -/
  | notImplemented (method compare : String)
  | invalidParallelism (parallelism max : Nat)
  | emptyKey
deriving DecidableEq, Repr

def PartitionError.message : PartitionError → String
  | notImplemented method compare => "分区方法 " ++ method ++ " 尚未实现 " ++ compare ++ " 比较"
  | invalidParallelism parallelism max =>
      "并行度必须在 1 到 " ++ Nat.repr max ++ " 之间，实际为 " ++ Nat.repr parallelism
  | emptyKey => "分区键不能为空"

/-- The part of a run that one worker reads. -/
structure Plan where
  key : String
  rule : Rule
deriving DecidableEq, Repr, Inhabited

namespace Plan

/-- The one way of partitioning: compare the first letter, without regard to case. -/
def methodName : String := "CompareFirstChar"

/-- A plan on a key, which must not be empty. -/
def create (key : String) (rule : Rule) : Except PartitionError Plan :=
  if key = "" then .error .emptyKey else .ok ⟨key, rule⟩

/-- The letters that plans range over. -/
def alphabetSize : Nat := 26

/-- The letter at an offset from the first. -/
def letter (offset : Nat) : String :=
  String.singleton (Char.ofNat (97 + offset))

/-- One of `n` consecutive ranges of `span` letters; the last one reaches to the end. -/
def piece (n span i : Nat) : Rule :=
  if i + 1 = n then .between (letter (i * span)) "z" .includeBoth
  else .between (letter (i * span)) (letter (i * span + span)) .includeLeft

/-- Split the alphabet into `n` consecutive ranges. -/
def splitAlphabet (key : String) (n : Nat) : Except PartitionError (List Plan) :=
  if n = 0 || alphabetSize < n then .error (.invalidParallelism n alphabetSize)
  else (List.range n).mapM fun i => create key (piece n (alphabetSize / n) i)

/-- The text of the first letter of a plan's key. -/
def firstLetter (p : Plan) (name : String) : String :=
  "LOWER(LEFT(" ++ name ++ "." ++ p.key ++ ", 1))"

/-- The text of a plan's condition on the document of an alias. -/
def condition (p : Plan) (name : String) : Except PartitionError String :=
  match p.rule with
  | .between lower upper bounds =>
      let x := p.firstLetter name
      let fromLower := bounds.atLower.map fun op =>
        Text.inDouble lower ++ " " ++ op.symbol ++ " " ++ x
      let toUpper := bounds.atUpper.map fun op =>
        x ++ " " ++ op.symbol ++ " " ++ Text.inDouble upper
      .ok (" AND ".intercalate (fromLower.toList ++ toUpper.toList))
  | rule => .error (.notImplemented methodName rule.name)

/-- A condition text, narrowed to a plan. -/
def narrow (p : Plan) (name filter : String) : Except PartitionError String := do
  let condition ← p.condition name
  return "(" ++ filter ++ ") AND " ++ condition

/-- The plan of the worker with the given index. -/
def forWorker (plans : List Plan) (index : Nat) : Option Plan :=
  plans[index]?

end Plan

/-- The count that a text writes, between blanks and after at most one plus sign, if it is a
64-bit count. -/
def readCount? (s : String) : Option Nat :=
  let digits := match Text.trimBlank s.toList with
    | '+' :: rest => rest
    | cs => cs
  if !digits.isEmpty && digits.all Char.isDigit then
    let n := Nat.ofDigitChars 10 digits 0
    if n < Nat.pow 2 64 then some n else none
  else none

/-- The index of a worker, as its environment tells it; zero when it tells none. -/
def workerIndex (setting : Option String) : Nat :=
  ((setting.bind readCount?).getD 0)

end DocWalk
