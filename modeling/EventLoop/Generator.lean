/-
  From the source of a program to the steps that show its run. The program is read and walked once;
  then microtasks, animation frames and timers have their turns, until nothing is left that fires.
-/
import EventLoop.Machine.Drain
import EventLoop.Script.Parser
import EventLoop.Text.Blank

namespace EventLoop

open Script

/-! ## Sources -/

/-- The limit on the length of a source, in characters. -/
def maxSourceLength : Nat := 50000

/-- The program of a source; what is no text at all is given as none. -/
def readProgram : Option String → Except Fault Program
  | none => .error .invalidSource
  | some source =>
    if Text.allBlank source then .error .invalidSource
    else if source.length > maxSourceLength then .error .sourceTooLong
    else
      match parse? source with
      | some p => .ok p
      | none => .error .malformedSource

/-! ## Programs -/

/-- A node of a program. -/
inductive Script.Node where
  | expr (e : Expr)
  | stmt (s : Stmt)

namespace Run

/-- Runs the statements of a program. -/
def runProgram (p : Program) : Run Outcome := do
  hoist p.body
  withCalls fun call => execAll call p.body

/-- Evaluates a node, which must be an expression. -/
def evaluateNode : Node → Run Value
  | .expr e => withCalls fun call => eval call false e
  | .stmt s => throw (.unsupportedExpression s.nodeName)

/-- Executes a node, which must be a statement. -/
def executeNode : Node → Run Outcome
  | .stmt s => withCalls fun call => exec call s
  | .expr e => throw (.unsupportedStatement e.nodeName)

end Run

/-! ## Generation -/

/-- The phases of a generation. -/
inductive Phase where
  | parse
  | synchronousWalk
  | drainMicrotasks
  | drainFrames
  | drainTimers
  | done
  | error
  deriving DecidableEq, Repr, Inhabited

/-- The name of a phase. -/
def Phase.name : Phase → String
  | .parse => "parse"
  | .synchronousWalk => "synchronous_walk"
  | .drainMicrotasks => "drain_microtasks"
  | .drainFrames => "drain_animation_frames"
  | .drainTimers => "drain_tasks"
  | .done => "done"
  | .error => "error"

/-- What a generation gives: the steps, or a report of the failure; and the warnings in any case. -/
structure Generation where
  result : Except Report (List Step)
  warnings : List String := []
  deriving Inhabited

namespace Generation

/-- The steps; a generation that failed has none. -/
def steps (g : Generation) : List Step := (g.result.toOption).getD []

/-- Whether the generation succeeded. -/
def succeeded (g : Generation) : Bool := g.result.isOk

/-- The report of a generation that failed. -/
def report? (g : Generation) : Option Report :=
  match g.result with
  | .ok _ => none
  | .error r => some r

end Generation

namespace Run

/-- Notes that a phase begins. -/
def enter (p : Phase) : Run Unit := note 1 ("phase " ++ p.name)

/-- Reads a program and runs its statements. -/
def walkSource (source : Option String) : Run Outcome := do
  enter .parse
  let p ← lift (readProgram source)
  enter .synchronousWalk
  runProgram p

/-- Reads and runs a program, up to the end of the first microtasks. -/
def runSource (source : Option String) : Run Unit := do
  let _ ← walkSource source
  enter .drainMicrotasks
  drainMicrotasks

/-- Runs a program and all that it leaves to do. -/
def generate (source : Option String) : Run Unit := do
  runSource source
  enter .drainFrames
  drainFrames
  enter .drainTimers
  drainTimers
  enter .done

end Run

/-- Generates steps for one program after another. -/
structure Generator where
  /-- The limit on the number of steps. -/
  limit : Nat := StepSequence.defaultLimit
  /-- Whether a generation is going on. -/
  active : Bool := false
  /-- The last phase that was entered. -/
  phase : Option Phase := none
  /-- The state of the last run. -/
  machine : Machine := Machine.start StepSequence.defaultLimit {}
  deriving Inhabited

namespace Generator

/-- A generator with a limit on steps, and with a log of the given level of detail. -/
def new (limit : Nat) (logLevel : Nat) : Generator :=
  { limit, machine := Machine.start limit { level := logLevel } }

/-- A generator with the usual limit that goes on with a log. -/
def withLog (log : Log) : Generator := { machine := Machine.start StepSequence.defaultLimit log }

/-- Forgets the last run, except for its log. -/
def reset (g : Generator) : Generator :=
  { g with phase := none, machine := Machine.start g.limit g.machine.log }

/-- Writes a line to the debug log. -/
def note (g : Generator) (line : String) : Generator :=
  { g with machine := { g.machine with log := g.machine.log.write 1 line } }

/-- Generates the steps of a program. A generation while another one is going on is refused. -/
def generate (g : Generator) (source : Option String) : Generation × Generator :=
  if g.active then
    let report := Fault.generationActive.report
    ({ result := .error report }, g.note ("refused: " ++ report.text))
  else
    match Run.generate source g.reset.machine with
    | .ok _ m =>
      let steps := m.steps.toList
      let g := { g with phase := some .done, machine := m }
      ({ result := .ok steps, warnings := m.warnings.toList },
        g.note ("generated " ++ toString steps.length ++ " steps"))
    | .error fault m =>
      let report := fault.report
      let g := { g with phase := some .error, machine := m }
      ({ result := .error report, warnings := m.warnings.toList },
        g.note ("error: " ++ report.text))

end Generator

end EventLoop
