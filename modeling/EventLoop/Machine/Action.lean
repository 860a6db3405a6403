/-
  The elementary actions of a run.
-/
import EventLoop.Machine.Message

namespace EventLoop.Run

open Script

/-! ## Results, log and steps -/

/-- The result of a computation that may fail. -/
def lift {α : Type} : Except Fault α → Run α
  | .ok a => pure a
  | .error f => throw f

/-- Writes a line to the debug log. -/
def note (level : Nat) (line : Log.Line) : Run Unit :=
  modify fun m => { m with log := m.log.write level line }

/-- Makes the text of a line that shows a value, also if the log is not that detailed and the line is
not written. -/
def tell (msg : Message) : Run Unit := do
  let text ← lift (msg.text (← get))
  note msg.level (msg.line text)

/-- Emits a step. -/
def emit (s : Step) : Run Unit := do
  if (← get).steps.isFull then throw .stepLimit
  modify fun m => { m with steps := m.steps.push s }
  note 3 ("step " ++ s.describe)

/-- Emits steps in order. -/
def emitAll : List Step → Run Unit
  | [] => pure ()
  | s :: rest => do
    emit s
    emitAll rest

/-- Records a warning. -/
def warn (text : String) : Run Unit := do
  modify fun m => { m with warnings := m.warnings.push text }
  note 1 ("warning: " ++ text)

/-! ## Values -/

/-- The text of a value. -/
def textOf (v : Value) : Run String := do lift (v.toText (← get).arrays)

/-- Applies an operator. -/
def applyOp (op : BinaryOp) (a b : Value) : Run Value := do lift (Value.apply (← get).arrays op a b)

/-- Makes an array. -/
def newArray (items : List Value) : Run Value :=
  modifyGet fun m => (.array m.arrays.size, { m with arrays := m.arrays.push items.toArray })

/-- The items of an array. -/
def itemsOf (id : Nat) : Run (Array Value) := do return ((← get).arrays[id]?).getD #[]

/-- Adds items to an array and gives its new length. -/
def pushItems (id : Nat) (items : List Value) : Run Nat := do
  modify fun m => { m with arrays := m.arrays.modify id (· ++ items.toArray) }
  return (← itemsOf id).size

/-- Makes a promise. -/
def newPromise (state : PromiseState) (value : Value) : Run Nat :=
  modifyGet fun m => (m.promises.size, { m with promises := m.promises.push { state, value } })

/-- A promise. A number without one counts as fulfilled, so that nothing ever waits for it. -/
def promiseOf (id : Nat) : Run Promise := do
  return ((← get).promises[id]?).getD { state := .fulfilled }

/-- The state of a promise; any other value counts as fulfilled. -/
def stateOf : Value → Run PromiseState
  | .promise id => do return (← promiseOf id).state
  | _ => pure .fulfilled

/-- The value that a promise was settled with, or any other value itself. -/
def settledValue : Value → Run Value
  | .promise id => do return (← promiseOf id).value
  | v => pure v

/-- Makes a function in the given scope. -/
def newFunction (name : String) (params : List String) (body : Body) (isAsync : Bool) (line : Nat)
    (scope : Scope) : Run Function :=
  modifyGet fun m =>
    ({ id := m.functionCount, name, params, body, scope, isAsync, line },
      { m with functionCount := m.functionCount + 1 })

/-! ## Bindings -/

/-- Names that have a value without being bound. -/
def constant? (name : String) : Option Value :=
  if name = "undefined" then some .undefined
  else if name = "Infinity" then some (.number (.infinity false))
  else if name = "NaN" then some .nan
  else none

/-- The value of a name: its nearest binding, a declared function, a constant, or undefined. -/
def lookup (name : String) : Run Value := do
  let m ← get
  match m.tables.get? m.scope name with
  | some v => return v
  | none =>
    match m.registry.lookup name with
    | some f => return .function f
    | none => return (constant? name).getD .undefined

/-- Whether a name has a value of its own. -/
def isBound (name : String) : Run Bool := do
  let m ← get
  return m.tables.has m.scope name || Assoc.contains m.registry name || (constant? name).isSome

/-- Binds a name in the current scope. -/
def declare (name : String) (v : Value) : Run Unit :=
  modify fun m => { m with tables := m.tables.declare m.scope name v }

/-- Assigns to a name. -/
def assign (name : String) (v : Value) : Run Unit :=
  modify fun m => { m with tables := m.tables.assign m.scope name v }

/-- The value that an assignment gives to a name: the one on its right, or what the operator makes
of the old one and that. -/
def assigned (op : AssignOp) (name : String) (v : Value) : Run Value :=
  match op.operator? with
  | none => pure v
  | some op => do applyOp op (← lookup name) v

/-- Declares a variable with its first value. -/
def declareVariable (name : String) (v : Value) : Run Unit := do
  declare name v
  tell (.declared name v)

/-- Binds a declared function in the current scope, and registers it if that is the global one. -/
def bindFunction (name : String) (params : List String) (body : Block) (isAsync : Bool)
    (line : Nat) : Run Unit := do
  let f ← newFunction name params (.block body) isAsync line (← get).scope
  declare name (.function f)
  modify fun m =>
    if m.scope == Scope.global then { m with registry := Assoc.insert m.registry name f } else m

/-- Binds the functions that some statements declare, before these run. -/
def hoist : List Stmt → Run Unit
  | [] => pure ()
  | .function name params body isAsync line :: rest => do
    bindFunction name params body isAsync line
    hoist rest
  | _ :: rest => hoist rest

/-! ## Scopes and frames -/

/-- Runs an action, and then sets the scope and the frames, whether it succeeded or failed. -/
def restoring {α : Type} (scope : Scope) (frames : List Frame) (act : Run α) : Run α := fun m =>
  match act m with
  | .ok a m => .ok a { m with scope, frames }
  | .error f m => .error f { m with scope, frames }

/-- Makes a scope nested in `outer`. -/
def newScope (outer : Scope) (bindings : Bindings) : Run Scope :=
  modifyGet fun m =>
    let (tables, scope) := m.tables.nest outer bindings
    (scope, { m with tables })

/-- Runs an action in another scope. -/
def inScope {α : Type} (scope : Scope) (act : Run α) : Run α := fun m =>
  restoring m.scope m.frames act { m with scope }

/-- Runs an action in a new scope nested in the current one. -/
def nested {α : Type} (act : Run α) : Run α := do
  let scope ← newScope (← get).scope []
  inScope scope act

/-- Runs an action inside a call. -/
def inFrame {α : Type} (scope : Scope) (frame : Frame) (act : Run α) : Run α := fun m =>
  restoring m.scope m.frames act { m with scope, frames := frame :: m.frames }

/-- Replaces the innermost table of the current scope by a copy, beside the same outer ones. -/
def renewScope : Run Unit := do
  let m ← get
  let scope ← newScope m.scope.tail (m.tables.bindings (m.scope.headD 0))
  modify fun m => { m with scope }

/-- The innermost call, if it is one of an async function. -/
def asyncFrame? : Run (Option Frame) := do
  return (← get).frames.head?.filter (·.function.isAsync)

/-! ## Microtasks and promises -/

/-- Queues a microtask. -/
def enqueue (name : String) (scope : Scope) (reaction : Option Reaction) (state : PromiseState)
    (value : Value) : Run Unit := do
  let m ← get
  let id := m.microtaskCount + 1
  set { m with
    microtaskCount := id
    microtasks := m.microtasks.push { id, name, scope, reaction, state, value } }
  note 2 ("enqueue microtask #" ++ toString id ++ " " ++ name ++ " (" ++ state.name ++ ")")

/-- Makes a waiter wait for a promise. -/
def parkOn (id : Nat) (w : Waiter) : Run Unit :=
  modify fun m =>
    { m with promises := m.promises.modify id fun p => { p with waiters := p.waiters ++ [w] } }

/-- Places a reaction to `value`: it waits for a pending promise, and is queued at once for anything
else, as a reaction to a settlement in the given state. `subject` names it in the log. -/
def react (w : Waiter) (value : Value) (state : PromiseState) (subject : String) : Run Unit :=
  match value with
  | .promise id => do
    let p ← promiseOf id
    if p.state = .pending then
      parkOn id w
      note 2 (subject ++ " parked on pending promise")
    else enqueue w.name w.scope (some w.reaction) state p.value
  | v => enqueue w.name w.scope (some w.reaction) state v

/-- Sets the state and value of a promise and takes its waiters from it. -/
def settleOne (id : Nat) (state : PromiseState) (value : Value) : Run (List Waiter) := do
  let p ← promiseOf id
  modify fun m => { m with promises := m.promises.modify id fun _ => { state, value } }
  return p.waiters

/-- Releases waiters for a settlement, in order. One whose link does not apply hands the settlement
on to the promise of the link, whose waiters come next. `fuel` bounds the number of waiters. -/
def release (state : PromiseState) (value : Value) : Nat → List Waiter → Run Unit
  | 0, _ => pure ()
  | _ + 1, [] => pure ()
  | fuel + 1, w :: rest =>
    match w.reaction with
    | .resume _ => do
      enqueue w.name w.scope (some w.reaction) state value
      release state value fuel rest
    | .link l _ derived =>
      if l.runs state then do
        enqueue w.name w.scope (some w.reaction) state value
        release state value fuel rest
      else do
        let more ← settleOne derived state value
        release state value fuel (more ++ rest)

/-- The number of waiters of all promises. -/
def parkedCount (m : Machine) : Nat := m.promises.foldl (fun n p => n + p.waiters.length) 0

/-- Settles a promise and releases its waiters. -/
def settle (id : Nat) (state : PromiseState) (value : Value) : Run Unit := do
  let fuel := parkedCount (← get)
  let waiters ← settleOne id state value
  release state value fuel waiters

/-- Makes the continuation of the innermost call behind an `await`. -/
def newContinuation (frame : Frame) (target : Target) : Run Nat :=
  modifyGet fun m =>
    let k : Continuation :=
      { scope := m.scope, function := frame.function, target, promise := frame.promise }
    (m.continuations.size, { m with continuations := m.continuations.push k })

/-- Adds statements to the end of a continuation. -/
def defer (continuation : Nat) (stmts : List Stmt) : Run Unit :=
  modify fun m =>
    { m with continuations := m.continuations.modify continuation fun k =>
        { k with statements := k.statements ++ stmts } }

/-- Suspends the innermost call until `value` is settled: gives the continuation, which waits for a
pending promise or is queued at once. -/
def suspend (frame : Frame) (value : Value) (target : Target) : Run Nat := do
  let k ← newContinuation frame target
  let scope := (← get).scope
  let w : Waiter := { name := "await " ++ frame.function.name, scope, reaction := .resume k }
  react w value (← stateOf value) ("await in " ++ frame.function.name)
  return k

end EventLoop.Run
