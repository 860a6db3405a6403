/-
  Replay of a step sequence against a store. A run applies one step after another and waits for
  the scaled duration of each; it can be held, stopped and reset from outside while it waits. A
  run is therefore given as what it does from one wait to the next, and between these anything may
  happen.

  Stopping begins a new epoch. A run belongs to the epoch in which it was started, and ends as
  soon as it sees another one.
-/
import EventLoop.Machine.State
import EventLoop.Store

namespace EventLoop

/-! ## Failures -/

/-- Why a step could not be replayed. -/
inductive ReplayFault where
  /-- The store cannot show steps of this kind. -/
  | unknownKind (label : String)
  /-- The listener failed. -/
  | listener (message : String)
  /-- The duration or the speed has no double near it. -/
  | numberTooLarge
  /-- The scaled duration has no double near it. -/
  | waitTooLarge
  /-- There is no speed to scale the duration by. -/
  | speedMissing
  /-- There is no speed, and the duration is beyond all counting. -/
  | countTooLarge
  deriving DecidableEq, Repr, Inhabited

/-- The text of a failure. -/
def ReplayFault.message : ReplayFault → String
  | .unknownKind label => "Unknown step type: " ++ label
  | .listener message => message
  | .numberTooLarge => "int too large to convert to float"
  | .waitTooLarge => "integer division result too large for a float"
  | .speedMissing => "unsupported operand type(s) for /: 'list' and 'int'"
  | .countTooLarge => "cannot fit 'int' into an index-sized integer"

/-- How a failed replay is reported. -/
def ReplayFault.report (f : ReplayFault) : Report := ⟨.replay, f.message⟩

/-! ## Engines -/

/-- The speed of a replay: the real milliseconds that a unit of nominal time lasts. None stands for
a speed that was announced and not given: a step can be applied then, but not waited for. -/
abbrev Speed := Option Number

/-- What a listener hears: lines of the console, and the steps that were applied. -/
inductive Signal where
  | line (message : Json)
  | step (s : Step)
  deriving Inhabited

/-- A listener: what it has heard, and the number of the step at which it fails, if it does. -/
structure Listener where
  heard : Array Signal := #[]
  stepCount : Nat := 0
  failure : Option (Nat × String) := none
  deriving Inhabited

/-- The steps that were heard. -/
def Listener.steps (l : Listener) : List Step :=
  l.heard.toList.filterMap fun
    | .step s => some s
    | .line _ => none

/-- Hears a line of the console. -/
def Listener.hearLine (l : Listener) (message : Json) : Listener :=
  { l with heard := l.heard.push (.line message) }

/-- Hears a step, and fails if it is the one to fail at. -/
def Listener.hearStep (l : Listener) (s : Step) : Listener × Option ReplayFault :=
  let count := l.stepCount + 1
  let l := { l with heard := l.heard.push (.step s), stepCount := count }
  match l.failure with
  | some (n, message) => (l, if n = count then some (.listener message) else none)
  | none => (l, none)

/-- A replay engine. -/
structure Engine where
  store : Store := {}
  steps : Array Step := #[]
  /-- How many steps were taken. -/
  cursor : Nat := 0
  running : Bool := false
  paused : Bool := false
  stopped : Bool := false
  epoch : Nat := 0
  listener : Listener := {}
  log : Log := {}
  deriving Inhabited

namespace Engine

/-- Loads steps to replay from the first one on. -/
def load (e : Engine) (steps : List Step) : Engine := { e with steps := steps.toArray, cursor := 0 }

/-- Whether no step is left. -/
def isDone (e : Engine) : Bool := e.steps.size ≤ e.cursor

/-- Writes a line to the debug log. -/
def note (e : Engine) (level : Nat) (line : String) : Engine :=
  { e with log := e.log.write level line }

/-- Writes a line to the console. -/
def print (e : Engine) (message : String) : Engine :=
  { e with
    store := e.store.addToConsole (.str message)
    listener := e.listener.hearLine (.str message) }

/-- Holds a run before its next step. -/
def pause (e : Engine) : Engine := { e with paused := true, store := e.store.setPaused true }

/-- Lets a run go on. -/
def resume (e : Engine) : Engine := { e with paused := false, store := e.store.setPaused false }

/-- Ends all runs and cuts their waits short. -/
def stop (e : Engine) : Engine := { e with stopped := true, epoch := e.epoch + 1 }

/-- Ends all runs and forgets steps and picture. -/
def reset (e : Engine) : Engine :=
  { e.stop with
    steps := #[], cursor := 0, running := false, paused := false, stopped := false, store := {} }

/-! ## Steps -/

/-- Applies a step to the store and lets the listener hear it. -/
def apply (e : Engine) (s : Step) : Engine × Option ReplayFault :=
  match e.store.show? s with
  | none => (e, some (.unknownKind s.kind.name))
  | some store =>
    let listener := if s.kind = .consoleOutput then e.listener.hearLine s.message else e.listener
    let (listener, fault) := listener.hearStep s
    ({ e with store, listener }.note 3 ("apply " ++ s.describe), fault)

/-- The nominal time, in milliseconds, that lasts as many real milliseconds as the speed says. -/
def speedUnit : Nat := 500

/-- The product of two numbers, divided by `speedUnit`: the double nearest to it for integers. -/
def scaledBy (a b : Number) : Except ReplayFault Float :=
  match a, b with
  | .int m, .int n =>
    match Binary64.ofRatio? (m * n < 0) (m * n).natAbs speedUnit with
    | some ms => .ok ms
    | none => .error .waitTooLarge
  | a, b =>
    match a.toFloat, b.toFloat with
    | .ok x, .ok y => .ok (x * y / speedUnit.toFloat)
    | _, _ => .error .numberTooLarge

/-- What can be counted lies below this number. -/
def countLimit : Int := Int.pow 2 63

/-- The milliseconds to wait after a step, at a given speed. -/
def scaled (d : Duration) : Speed → Except ReplayFault Float
  | some speed => scaledBy d.number speed
  | none =>
    match d.number with
    | .int n => .error (if n < countLimit then .speedMissing else .countTooLarge)
    | .float _ => .error .speedMissing

/-- What comes of taking the next step. -/
inductive Taken where
  /-- No step was left. -/
  | nothing
  /-- The step was applied, and its time is to be waited for. -/
  | applied (s : Step) (ms : Float)
  | failed (f : ReplayFault)

/-- Takes the next step. -/
def take (e : Engine) (speed : Speed) : Engine × Taken :=
  match e.steps[e.cursor]? with
  | none => (e, .nothing)
  | some s =>
    let (e, fault) := { e with cursor := e.cursor + 1 }.apply s
    match fault, scaled s.duration speed with
    | some f, _ => (e, .failed f)
    | none, .error f => (e, .failed f)
    | none, .ok ms => (e, .applied s ms)

/-! ## Runs -/

/-- How often a held run looks whether it may go on, in milliseconds. -/
def holdTime : Nat := 50

/-- What a run waits for. -/
inductive RunWait where
  /-- It is held. -/
  | hold
  /-- The last step has to last its time. -/
  | step
  deriving DecidableEq, Repr, Inhabited

/-- A run that waits. -/
structure RunState where
  speed : Speed
  /-- The epoch in which the run was started. -/
  epoch : Nat
  wait : RunWait
  deriving Inhabited

/-- What a run comes to: a wait of some milliseconds, or its end. It is finished if no step is left.
-/
inductive RunProgress where
  | waits (ms : Float) (run : RunState)
  | ended (finished : Bool)

/-- Whether a run of the given epoch was stopped. -/
def isOver (e : Engine) (epoch : Nat) : Bool := e.stopped || e.epoch != epoch

/-- The end of a run. The run clears the flags, unless they are those of a later epoch. -/
def finishRun (e : Engine) (epoch : Nat) (finished : Bool) : Engine × RunProgress :=
  let e :=
    if e.epoch = epoch || e.stopped then
      { e with
        running := false, paused := false, store := (e.store.setRunning false).setPaused false }
    else e
  (e, .ended finished)

/-- The end of a run that failed. -/
def failRun (e : Engine) (epoch : Nat) (f : ReplayFault) : Engine × RunProgress :=
  let e := e.note 1 ("replay error: " ++ f.report.text)
  (e.print ("Error: " ++ f.message)).finishRun epoch false

/-- A run before its next step: it waits as long as it is held. -/
def runHeld (e : Engine) (speed : Speed) (epoch : Nat) : Engine × RunProgress :=
  if e.isOver epoch then e.finishRun epoch false
  else if e.paused then (e, .waits holdTime.toFloat { speed, epoch, wait := .hold })
  else
    match e.take speed with
    | (e, .nothing) => e.finishRun epoch true
    | (e, .failed f) => e.failRun epoch f
    | (e, .applied _ ms) => (e, .waits ms { speed, epoch, wait := .step })

/-- A run that looks whether a step is left. -/
def runNext (e : Engine) (speed : Speed) (epoch : Nat) : Engine × RunProgress :=
  if e.isDone then e.finishRun epoch true else e.runHeld speed epoch

/-- Starts a run, unless there is one already. -/
def startRun (e : Engine) (speed : Speed) : Engine × RunProgress :=
  if e.running then
    (e.note 1 "replay already running; run refused", .ended false)
  else
    let started := { e with running := true, stopped := false, store := e.store.setRunning true }
    started.runNext speed e.epoch

/-- Goes on with a run that has waited. -/
def continueRun (e : Engine) (r : RunState) : Engine × RunProgress :=
  match r.wait with
  | .hold => e.runHeld r.speed r.epoch
  | .step => if e.isOver r.epoch then e.finishRun r.epoch false else e.runNext r.speed r.epoch

end Engine

end EventLoop
