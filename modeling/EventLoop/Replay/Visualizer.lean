/-
  Programs played on an engine: a program is generated and its steps are replayed, all at once or
  step by step. A failed generation is shown on the console.

  What the engine is asked to do is a job. Like a run of the engine, a job is given as what it
  does from one wait to the next.
-/
import EventLoop.Generator
import EventLoop.Replay.Engine

namespace EventLoop

/-- A program that was generated to be played. -/
structure Prepared where
  /-- The source. Data that is no text can be given too, and is no program. -/
  source : Json
  generation : Generation
  deriving Inhabited

/-- An engine with the program that is played on it. -/
structure Visualizer where
  engine : Engine := {}
  prepared : Option Prepared := none
  deriving Inhabited

/-! ## Jobs -/

/-- What the engine can be asked to do, at a given speed. -/
inductive Job where
  /-- Replays the steps that are left. -/
  | run (speed : Speed)
  /-- Replays the next step. -/
  | advance (speed : Speed)
  /-- Generates a program and replays it. -/
  | play (source : Json) (speed : Speed)
  /-- Replays the next step of a program, which is generated first if it is not the last one. -/
  | step (source : Json) (speed : Speed)
  deriving Inhabited

/-- What a job gives. -/
inductive JobResult where
  /-- Of a run: whether no step was left. -/
  | run (finished : Bool)
  /-- Of a program that was played. -/
  | play (generation : Generation)
  /-- Of a single step: whether no step is left, and the step. -/
  | progress (isDone : Bool) (step : Option Step)
  | failed (fault : ReplayFault)
  deriving Inhabited

/-- A job that waits. -/
inductive JobState where
  | run (run : Engine.RunState)
  | advance (step : Step)
  | play (generation : Generation) (run : Engine.RunState)
  deriving Inhabited

/-- What a job comes to: a wait of some milliseconds, or its end. -/
inductive JobProgress where
  | waits (ms : Float) (job : JobState)
  | ended (result : JobResult)

namespace Visualizer

/-- Forgets the program and resets the engine. -/
def reset (v : Visualizer) : Visualizer := { engine := v.engine.reset, prepared := none }

/-- Generates a program. Its steps are loaded; if there are none because it failed, the failure is
shown. -/
def prepare (v : Visualizer) (source : Json) : Generation × Visualizer :=
  let (generation, generator) := (Generator.withLog v.engine.log).generate source.text?
  let engine := { v.engine with log := generator.machine.log }
  let engine := match generation.result with
    | .ok steps => engine.load steps
    | .error report => engine.print ("Error: " ++ report.message)
  (generation, { engine, prepared := some { source, generation } })

/-- Takes the next step. -/
def advance (v : Visualizer) (speed : Speed) : Visualizer × JobProgress :=
  match v.engine.take speed with
  | (engine, .nothing) => ({ v with engine }, .ended (.progress true none))
  | (engine, .failed f) => ({ v with engine }, .ended (.failed f))
  | (engine, .applied s ms) => ({ v with engine }, .waits ms (.advance s))

/-- Whether a source is that of the program which is played. -/
def isPrepared (v : Visualizer) (source : Json) : Bool :=
  match v.prepared with
  | none => false
  | some p => p.source.same source

/-- A job that goes on as a run. -/
def viaRun (v : Visualizer) (step : Engine × Engine.RunProgress)
    (wait : Engine.RunState → JobState) (result : Bool → JobResult) : Visualizer × JobProgress :=
  match step with
  | (engine, .waits ms r) => ({ v with engine }, .waits ms (wait r))
  | (engine, .ended finished) => ({ v with engine }, .ended (result finished))

/-- Starts a job. -/
def startJob (v : Visualizer) : Job → Visualizer × JobProgress
  | .run speed => v.viaRun (v.engine.startRun speed) .run .run
  | .advance speed => v.advance speed
  | .play source speed =>
    let (generation, v) := v.reset.prepare source
    if generation.succeeded then
      v.viaRun (v.engine.startRun speed) (.play generation) (fun _ => .play generation)
    else (v, .ended (.play generation))
  | .step source speed =>
    if v.isPrepared source then v.advance speed
    else
      let (generation, v) := v.reset.prepare source
      if generation.succeeded then v.advance speed else (v, .ended (.progress true none))

/-- Goes on with a job that has waited. -/
def continueJob (v : Visualizer) : JobState → Visualizer × JobProgress
  | .run r => v.viaRun (v.engine.continueRun r) .run .run
  | .advance s => (v, .ended (.progress v.engine.isDone (some s)))
  | .play generation r =>
    v.viaRun (v.engine.continueRun r) (.play generation) (fun _ => .play generation)

end Visualizer

end EventLoop
