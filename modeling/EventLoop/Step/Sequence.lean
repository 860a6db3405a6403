/-
  Step sequences: steps in order, with a ceiling on their number.
-/
import EventLoop.Fault
import EventLoop.Step.Basic

namespace EventLoop

/-- Steps in the order in which they were added, at most `limit` of them. -/
structure StepSequence where
  limit : Nat
  steps : Array Step := #[]
  deriving Inhabited

namespace StepSequence

/-- The usual ceiling. -/
def defaultLimit : Nat := 10000

/-- The number of steps. -/
def size (q : StepSequence) : Nat := q.steps.size

/-- The steps as a list. -/
def toList (q : StepSequence) : List Step := q.steps.toList

/-- Whether the ceiling is reached. -/
def isFull (q : StepSequence) : Bool := q.limit ≤ q.steps.size

/-- Adds a step at the end. -/
def push (q : StepSequence) (s : Step) : StepSequence := { q with steps := q.steps.push s }

/-- Adds steps one by one, up to the ceiling, and says whether all of them fitted. -/
def extend (q : StepSequence) : List Step → StepSequence × Bool
  | [] => (q, true)
  | s :: rest =>
    if q.isFull then (q, false) else (q.push s).extend rest

/-- The step at an index, where negative ones count from the end. -/
def get? (q : StepSequence) (index : Int) : Option Step :=
  let i := if index < 0 then index + q.steps.size else index
  if i < 0 then none else q.steps[i.toNat]?

@[simp] theorem toList_push (q : StepSequence) (s : Step) :
    (q.push s).toList = q.toList ++ [s] := by
  simp [toList, push]

end StepSequence

end EventLoop
