/-
  Jobs that run side by side in virtual time. They take turns: a job has its turn until it waits.
  What is ready has its turn in order of arrival, in passes, and when nothing is ready the clock
  jumps to the next timer. A job whose timer has fired is ready one pass later, and so is one
  whose wait was cut short because the engine was stopped. A wait for no time lasts until the next
  pass.

  A client gives commands, and has its own turns among the jobs while it waits.
-/
import EventLoop.Replay.Visualizer

namespace EventLoop

/-! ## Tasks -/

/-- What a task does. -/
inductive Activity where
  /-- It starts a job when it first has its turn. -/
  | begins (job : Job)
  | waits (job : JobState)
  /-- It waits for no job. -/
  | sleeps
  | ended (result : Option JobResult)
  deriving Inhabited

/-- A task, and the number of the timer that it waits for. -/
structure Task where
  activity : Activity
  timer : Option Nat := none
  deriving Inhabited

/-- A timer of a task. Stopping the engine cuts short the waits of jobs only. -/
structure Timer where
  id : Nat
  /-- The time at which it fires, in seconds. -/
  due : Float
  task : Nat
  ofJob : Bool
  deriving Inhabited

/-- What can be ready for a turn. -/
inductive Turn where
  | wake (task : Nat)
  | fire (timer : Timer)
  deriving Inhabited

/-- Tasks, timers and turns around a visualizer. Task zero is the client. -/
structure Timeline where
  visualizer : Visualizer := {}
  tasks : Array Task := #[{ activity := .ended none }]
  /-- The timers that wait, in the order in which they were set. -/
  timers : List Timer := []
  timerCount : Nat := 0
  ready : List Turn := []
  /-- How many turns are left in this pass. -/
  left : Nat := 0
  /-- Virtual time, in seconds. -/
  clock : Float := 0
  /-- The waits of jobs so far, in milliseconds. -/
  waits : Array Float := #[]
  deriving Inhabited

namespace Timeline

/-- The number of the client. -/
def client : Nat := 0

/-- What a task does. -/
def activity? (t : Timeline) (task : Nat) : Option Activity := (t.tasks[task]?).map Task.activity

/-- Gives a task another activity. -/
def setTask (t : Timeline) (task : Nat) (activity : Activity) (timer : Option Nat) : Timeline :=
  { t with tasks := t.tasks.setIfInBounds task { activity, timer } }

/-- Makes a task ready. -/
def wake (t : Timeline) (task : Nat) : Timeline := { t with ready := t.ready ++ [.wake task] }

/-- Lets a task wait until the next pass. -/
def waitForPass (t : Timeline) (task : Nat) (activity : Activity) : Timeline :=
  (t.setTask task activity none).wake task

/-- Lets a task wait for a timer of some seconds. Even if these are too few to count, the timer has
a turn of its own. -/
def waitForTimer (t : Timeline) (task : Nat) (activity : Activity) (seconds : Float)
    (ofJob : Bool) : Timeline :=
  let id := t.timerCount
  let timer : Timer := { id, due := t.clock + seconds, task, ofJob }
  { t.setTask task activity (some id) with timers := t.timers ++ [timer], timerCount := id + 1 }

/-- Ends the wait of a task for a timer; it is ready then. -/
def release (t : Timeline) (timer : Timer) : Timeline :=
  match t.tasks[timer.task]? with
  | some task =>
    if task.timer = some timer.id then (t.setTask timer.task task.activity none).wake timer.task
    else t
  | none => t

/-- The timers that were set for jobs and have not had their turn. -/
def jobTimers (t : Timeline) : List Timer :=
  (t.ready.filterMap fun
    | .fire timer => some timer
    | .wake _ => none) ++ t.timers |>.filter (·.ofJob)

/-- Puts another state of the visualizer. If the engine was stopped, the waits of all jobs are cut
short. -/
def setVisualizer (t : Timeline) (v : Visualizer) : Timeline :=
  let stopped := v.engine.epoch != t.visualizer.engine.epoch
  let cut := t.jobTimers
  let t := { t with visualizer := v }
  if stopped then cut.foldl release { t with timers := t.timers.filter (!·.ofJob) } else t

/-- Gives a task what its job came to. -/
def place (t : Timeline) (task : Nat) (v : Visualizer) (p : JobProgress) : Timeline :=
  let t := t.setVisualizer v
  match p with
  | .waits ms job =>
    let t := { t with waits := t.waits.push ms }
    if ms ≤ 0 then t.waitForPass task (.waits job)
    else t.waitForTimer task (.waits job) (ms / 1000) true
  | .ended result => t.setTask task (.ended (some result)) none

/-! ## Turns -/

/-- Lets a task have its turn. -/
def runTask (t : Timeline) (task : Nat) : Timeline :=
  match t.activity? task with
  | some (.begins job) =>
    let (v, p) := t.visualizer.startJob job
    t.place task v p
  | some (.waits job) =>
    let (v, p) := t.visualizer.continueJob job
    t.place task v p
  | some .sleeps => t.setTask task (.ended none) none
  | some (.ended _) | none => t

/-- Timers that are due at most this many seconds apart fire in the same pass. -/
def resolution : Float := 1e-9

/-- The time at which the first timer fires. -/
def nextDue : List Timer → Option Float
  | [] => none
  | timer :: rest =>
    match nextDue rest with
    | none => some timer.due
    | some due => some (if due < timer.due then due else timer.due)

/-- Begins a pass: if nothing is ready, the clock jumps to the first timer. The timers that are due
have their turns behind what is ready. -/
def beginPass (t : Timeline) : Timeline :=
  let clock := match t.ready, nextDue t.timers with
    | [], some due => if t.clock < due then due else t.clock
    | _, _ => t.clock
  let isDue (timer : Timer) : Bool := !(clock + resolution ≤ timer.due)
  let due := (t.timers.filter isDue).mergeSort fun a b => !(decide (b.due < a.due))
  let ready := t.ready ++ due.map .fire
  { t with clock, ready, timers := t.timers.filter (!isDue ·), left := ready.length }

/-- The next turn. -/
def turn (t : Timeline) : Timeline :=
  let t := if t.left = 0 then t.beginPass else t
  match t.ready with
  | [] => t
  | entry :: rest =>
    let t := { t with ready := rest, left := t.left - 1 }
    match entry with
    | .wake task => t.runTask task
    | .fire timer => t.release timer

/-- Turns until the client is free, at most `fuel` of them. -/
def untilFree : Nat → Timeline → Timeline × Option JobResult
  | 0, t => (t, none)
  | fuel + 1, t =>
    match t.activity? client with
    | some (.ended result) => (t, result)
    | _ => untilFree fuel t.turn

/-- A client that waits for more turns than this is given up. -/
def maxTurns : Nat := 1000000000

/-! ## Commands -/

/-- What a client can do. -/
inductive Command where
  /-- Generates a program and loads its steps. -/
  | loadSource (source : Json)
  | loadSteps (steps : List Step)
  /-- Starts a job beside the client. -/
  | start (job : Job)
  /-- Does a job and waits for its end. -/
  | await (job : Job)
  | sleep (ms : Float)
  /-- Waits for the next pass. -/
  | tick
  | pause
  | resume
  | stop
  | reset
  deriving Inhabited

/-- Changes the engine. -/
def withEngine (t : Timeline) (f : Engine → Engine) : Timeline :=
  t.setVisualizer { t.visualizer with engine := f t.visualizer.engine }

/-- Carries out a command, and gives the result of a job that was waited for. -/
def carryOut (t : Timeline) : Command → Timeline × Option JobResult
  | .loadSource source =>
    (t.withEngine (·.load ((Generator.withLog {}).generate source.text?).1.steps), none)
  | .loadSteps steps => (t.withEngine (·.load steps), none)
  | .start job =>
    let task := t.tasks.size
    ({ t with tasks := t.tasks.push { activity := .begins job } }.wake task, none)
  | .await job =>
    let (v, p) := t.visualizer.startJob job
    untilFree maxTurns (t.place client v p)
  | .sleep ms =>
    let seconds := ms / 1000
    untilFree maxTurns
      (if seconds ≤ 0 then t.waitForPass client .sleeps
        else t.waitForTimer client .sleeps seconds false)
  | .tick => untilFree maxTurns (t.waitForPass client .sleeps)
  | .pause => (t.withEngine Engine.pause, none)
  | .resume => (t.withEngine Engine.resume, none)
  | .stop => (t.withEngine Engine.stop, none)
  | .reset => (t.setVisualizer t.visualizer.reset, none)

/-- The results of the jobs that were started beside the client; none for one that has not ended. -/
def started (t : Timeline) : List (Option JobResult) :=
  t.tasks.toList.tail.map fun task =>
    match task.activity with
    | .ended result => result
    | _ => none

end Timeline

end EventLoop
