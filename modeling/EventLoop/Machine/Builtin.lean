/-
  The calls that the language answers itself: console lines, timers and frame requests, promises and
  the links of promise chains. Each shows the line of the call and a frame on the call stack. What
  the arguments of a call evaluate to is given.
-/
import EventLoop.Machine.Action

namespace EventLoop.Run

open Script

/-- Shows a call that does nothing. -/
def unrecognized (callee : Expr) (line : Nat) : Run Value := do
  emit (.glance line)
  note 2 ("unrecognized call " ++ calleeName callee)
  return .undefined

/-! ## Console -/

/-- Writes a line to the console. -/
def consoleLine (method message : String) (line : Nat) : Run Value := do
  emitAll [.highlight line, .push ("console." ++ method ++ "(" ++ message ++ ")"),
    .console message, .pop]
  note 2 ("console." ++ method ++ ": " ++ message)
  return .undefined

/-! ## Timers -/

/-- The delay of a timer: the second argument if it is a number as it stands, else none. -/
def declaredDelay : List Expr → Except Fault Nat
  | _ :: .literal (.number n) _ :: _ => do return (← n.truncate).toNat
  | _ => .ok 0

/-- The delay of a callback of the given kind; an animation frame has none. -/
def timerDelay (kind : TimerKind) (args : List Expr) : Except Fault Nat :=
  match kind with
  | .frame => .ok 0
  | .timeout | .interval => declaredDelay args

/-- The label of the frame in which a timer is registered. -/
def timerLabel (kind : TimerKind) (delay : Nat) : String :=
  match kind with
  | .frame => kind.api ++ "(fn)"
  | _ => kind.api ++ "(fn, " ++ toString delay ++ ")"

/-- Hands a callback to the Web APIs. -/
def addCallback (kind : TimerKind) (callback : Option Expr) (delay line : Nat) : Run Callback := do
  let id ← modifyGet fun m => (m.timerCount + 1, { m with timerCount := m.timerCount + 1 })
  emitAll [.highlight line, .push (timerLabel kind delay), .webapiAdd id kind.api delay, .pop]
  let m ← get
  let cb : Callback := { id, kind, callback, delay, due := m.clock + delay, scope := m.scope }
  set { m with callbacks := m.callbacks ++ [cb] }
  return cb

/-- Registers a callback and gives its number. -/
def registerTimer (kind : TimerKind) (args : List Expr) (line : Nat) : Run Value := do
  let delay ← lift (timerDelay kind args)
  let cb ← addCallback kind args.head? delay line
  tell (.registered cb)
  return .int cb.id

/-- Whether a value is the number of a timer; a truth value counts as one or zero. -/
def namesTimer (v : Value) (id : Nat) : Bool :=
  match v with
  | .number n => n.equals (.int id)
  | .bool b => id == if b then 1 else 0
  | _ => false

/-- Takes the waiting callback whose number is `v` from the Web APIs, if there is one. -/
def dropCallback (name : String) (v : Value) : Run Unit := do
  match (← get).callbacks.find? (fun cb => namesTimer v cb.id) with
  | some cb =>
    modify fun m => { m with callbacks := m.callbacks.filter (·.id != cb.id) }
    emit (.webapiRemove cb.id)
    note 2 (name ++ " #" ++ toString cb.id)
  | none => pure ()

/-- Clears the waiting callback whose number is `v`, if there is one. -/
def clearTimer (name : String) (args : List Expr) (line : Nat) (v : Value) : Run Value := do
  emit (.highlight line)
  let label ← lift (callLabel name args)
  emit (.push label)
  dropCallback name v
  emit .pop
  return .undefined

/-! ## Promises -/

/-- The settlement of a promise in a list that is rejected. -/
def rejection? : List Value → Run (Option Value)
  | [] => pure none
  | .promise id :: rest => do
    let p ← promiseOf id
    if p.state = .rejected then return some p.value else rejection? rest
  | _ :: rest => rejection? rest

/-- The promise for all items of an array: rejected as the first item that is, else fulfilled with
what the items were settled with. -/
def combine : Value → Run Nat
  | .array id => do
    let items := (← itemsOf id).toList
    match ← rejection? items with
    | some v => newPromise .rejected v
    | none => do newPromise .fulfilled (← newArray (← items.mapM settledValue))
  | _ => do newPromise .fulfilled (← newArray [])

/-- The promise that a call makes of its first argument. -/
def made (maker : Maker) (first : Value) : Run Nat :=
  match maker, first with
  | .reject, v => newPromise .rejected v
  | .all, v => combine v
  | .resolve, .promise id => pure id
  | .resolve, v => newPromise .fulfilled v

/-- Makes a promise. Unless a link or an `await` consumes it, a settled one is marked by a microtask
of its own. -/
def makePromise (maker : Maker) (consumed : Bool) (values : List Value) (line : Nat) :
    Run Value := do
  let name := "Promise." ++ maker.method
  emitAll [.highlight line, .push (name ++ "()"), .pop]
  let id ← made maker (values.headD .undefined)
  let p ← promiseOf id
  modify fun m => { m with rootState := p.state }
  if !consumed && p.state ≠ .pending then
    enqueue name (← get).scope none p.state p.value
  return .promise id

/-- The state in which a link finds its receiver: by the chain below it, if that starts at a call
that makes a promise, else by the receiver itself. -/
def receiverState (callee : Expr) (receiver : Value) : Run PromiseState := do
  match chainBelow maxChainHops callee with
  | some chain => return chainState (← get).rootState chain.links
  | none => stateOf receiver

/-- Makes the promise of a link, whose reaction waits for a pending receiver or is queued at once,
for a settlement in the given state. -/
def attach (name : String) (l : Link) (callback : Option Expr) (state : PromiseState)
    (receiver : Value) : Run Nat := do
  let scope := (← get).scope
  let derived ← newPromise .pending .undefined
  react { name, scope, reaction := .link l callback derived } receiver state name
  return derived

/-- Adds a link to a promise chain. A link that does not apply is passed over; any other one is
queued, or waits for its receiver, and gives a promise of its own. -/
def addLink (l : Link) (callee : Expr) (callback : Option Expr) (receiver : Value) (line : Nat) :
    Run Value := do
  let name := "Promise." ++ l.method
  let state ← receiverState callee receiver
  if state ≠ .pending && !l.runs state then
    note 2 (name ++ " skipped (" ++ state.name ++ ")")
    return receiver
  emitAll [.highlight line, .push (name ++ "()"), .pop]
  return .promise (← attach name l callback state receiver)

/-! ## Methods -/

/-- Calls a method of a value: `push` of an array adds items to it. -/
def callMethod (callee : Expr) (method : String) (receiver : Value) (args : List Value)
    (line : Nat) : Run Value :=
  match receiver with
  | .array id =>
    if method = "push" then do
      let size ← pushItems id args
      emit (.glance line)
      return .int size
    else unrecognized callee line
  | _ => unrecognized callee line

end EventLoop.Run
