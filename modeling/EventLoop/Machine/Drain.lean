/-
  The turns of the event loop. Microtasks run until none is left. Animation frames run once for each
  frame that was requested before. Timers run in the order in which they are due, and after each of
  them come the microtasks and the animation frames.
-/
import EventLoop.Machine.Reaction

namespace EventLoop.Run

/-! ## Microtasks -/

/-- Takes the next microtask from the queue. -/
def takeMicrotask : Run (Option Microtask) := do
  let m ← get
  match m.microtasks[m.cursor]? with
  | none => return none
  | some t =>
    set { m with cursor := m.cursor + 1, processed := m.processed + 1 }
    return some t

/-- Runs microtasks, also those that are queued meanwhile, until none is left. At most `budget` of
them may run. -/
def microtaskTurns : Nat → Run Unit
  | 0 => do
    if (← takeMicrotask).isSome then throw .microtaskLimit
  | budget + 1 => do
    match ← takeMicrotask with
    | none => pure ()
    | some t =>
      emitAll [.microtaskAdd t.id t.name, .microtaskRemove t.id]
      runMicrotask t
      microtaskTurns budget

/-- Runs microtasks until none is left. -/
def drainMicrotasks : Run Unit := do microtaskTurns (maxMicrotasks - (← get).processed)

/-! ## Animation frames -/

/-- Takes a waiting callback from the Web APIs. -/
def takeCallback (id : Nat) : Run Unit := do
  if (← get).callbacks.all (·.id != id) then throw .frameMissing
  modify fun m => { m with callbacks := m.callbacks.filter (·.id != id) }

/-- Runs an animation frame, followed by the microtasks. -/
def frameTurn (cb : Callback) : Run Unit := do
  takeCallback cb.id
  emitAll [.webapiRemove cb.id, .rafqueueAdd cb.id TimerKind.frame.label, .rafqueueRemove cb.id]
  runCallback cb
  drainMicrotasks

/-- Runs animation frames in order. -/
def frameTurns : List Callback → Run Unit
  | [] => pure ()
  | cb :: rest => do
    frameTurn cb
    frameTurns rest

/-- Runs the animation frames that are requested at this time. -/
def drainFrames : Run Unit := do frameTurns ((← get).callbacks.filter (·.kind == .frame))

/-! ## Timers -/

/-- The order in which timers fire: by the time at which they are due, then by registration. -/
def firesBefore (a b : Callback) : Bool := a.due < b.due || (a.due == b.due && a.id < b.id)

/-- The timer that fires next. -/
def nextTimer (callbacks : List Callback) : Option Callback :=
  (callbacks.filter (·.kind == .timeout)).foldl (fun best cb =>
    match best with
    | none => some cb
    | some b => if firesBefore cb b then some cb else some b) none

/-- Takes a timer from the Web APIs, and sets the clock to the time at which it is due. -/
def takeTimer (cb : Callback) : Run Unit :=
  modify fun m =>
    { m with callbacks := m.callbacks.filter (·.id != cb.id), clock := max m.clock cb.due }

/-- Fires a timer, followed by the microtasks. -/
def timerTurn (cb : Callback) : Run Unit := do
  takeTimer cb
  tell (.fired cb)
  emitAll [.webapiRemove cb.id, .taskqueueAdd cb.id TimerKind.timeout.label, .taskqueueRemove cb.id]
  runCallback cb
  drainMicrotasks

/-- Fires timers until none is left, `fuel` of them, each followed by the animation frames. -/
def timerTurns : Nat → Run Unit
  | 0 => pure ()
  | fuel + 1 => do
    match nextTimer (← get).callbacks with
    | none => pure ()
    | some cb =>
      timerTurn cb
      drainFrames
      timerTurns fuel

/-- Fires timers until none is left. Each of them emits steps, so the room for steps bounds their
number. -/
def drainTimers : Run Unit := do
  let steps := (← get).steps
  timerTurns (steps.limit - steps.steps.size + 1)

end EventLoop.Run
