/-
  Properties of actions that follow a whole run.

  A property that is kept along expressions and statements (`Run.PlainCongruence`) holds of all that
  a run does, if it also holds of the few actions by which calls, callbacks, suspended functions and
  the turns of the event loop go on.  `Run.Traversal` lists these.  What is shown about one action
  may be data: then the traversal of a run puts the data together.
-/
import EventLoop.Generator
import EventLoop.Proofs.Congruence

namespace EventLoop.Run

open Script

universe u

variable {α β : Type}

/-- What is needed beyond statements. -/
structure Traversal (P : {α : Type} → Run α → Sort u) : Sort (max 2 u)
    extends PlainCongruence fun act _ => P act where
  map : ∀ {α β : Type} {act : Run α} (f : α → β), P act → P (f <$> act)
  restoring : ∀ {α : Type} {act : Run α} (scope : Scope) (frames : List Frame), P act →
    P (restoring scope frames act)
  inScope : ∀ {α : Type} {act : Run α} (scope : Scope), P act → P (inScope scope act)
  inFrame : ∀ {α : Type} {act : Run α} (scope : Scope) (frame : Frame), P act →
    P (inFrame scope frame act)
  /-- A suspended function is entered, and the context of before is kept in mind. -/
  enter : ∀ scope frame, P (modifyGet fun m =>
    ((m.scope, m.frames), { m with scope, frames := frame :: m.frames }) : Run (Scope × List Frame))
  newScope : ∀ outer bindings, P (newScope outer bindings)
  newPromise : ∀ state v, P (newPromise state v)
  newFunction : ∀ name params body isAsync line scope,
    P (newFunction name params body isAsync line scope)
  declare : ∀ x v, P (declare x v)
  settle : ∀ id state v, P (settle id state v)
  throw : ∀ {α : Type} {fault : Fault}, fault ∈ [.callDepth, .microtaskLimit, .frameMissing] →
    P (throw fault : Run α)
  /-- What follows a look at the state, if it does not depend on the steps and the log. -/
  look : ∀ {α : Type} {k : Machine → Run α}, (∀ m, P (k m)) →
    (∀ m steps log, k { m with steps, log } = k m) → P (get >>= k)
  continuationOf : ∀ id, P (continuationOf id)
  takeMicrotask : P takeMicrotask
  takeCallback : ∀ id, P (takeCallback id)
  takeTimer : ∀ cb, P (takeTimer cb)
  readProgram : ∀ source, P (lift (readProgram source))

namespace Traversal

variable {P : {α : Type} → Run α → Sort u} (h : Traversal P) {call : Invoke}

include h

def next {act : Run α} {f : α → Run β} (hact : P act) (hf : ∀ a, P (f a)) : P (act >>= f) :=
  @CallFreeCongruence.bind _ h.toCallFreeCongruence _ _ act act f f hact hf

omit h in
def either {p : Prop} [Decidable p] {act act' : Run α} (hact : P act) (hact' : P act') :
    P (if p then act else act') :=
  @ite_congr _ (fun act _ => P act) p _ act act act' act' hact hact'

def emitAll : (l : List Step) → P (Run.emitAll l)
  | [] => h.pure ()
  | s :: rest => h.next (h.emit s) fun _ => emitAll rest

/-! ## Calls -/

/-- A way to call functions under which every call has the property. -/
abbrev Calls (_ : Traversal P) (call : Invoke) : Sort (imax 1 u) :=
  ∀ f args label line, P (call f args label line)

def eval (hcall : h.Calls call) (consumed : Bool) (e : Expr) : P (eval call consumed e) :=
  @eval_congr _ call call h.toCongruence hcall consumed e

def exec (hcall : h.Calls call) (s : Stmt) : P (exec call s) :=
  @exec_congr _ call call _ _ _ h.statements hcall s

def finish (promise : Option Nat) (outcome : Outcome) : P (finish promise outcome) :=
  have hsettle (id : Nat) (v : Value) := h.next (h.settledValue v) (h.settle id .fulfilled)
  match promise, outcome with
  | none, _ => h.pure ()
  | some _, .suspended _ => h.pure ()
  | some id, .completed => hsettle id _
  | some id, .returned v => hsettle id v

def runCall (hcall : h.Calls call) (f : Function) (args : List Value) : P (runCall call f args) :=
  h.next (h.newScope _ _) fun scope =>
    h.next (either (h.map some (h.newPromise _ _)) (h.pure none)) fun promise =>
      h.next (h.inFrame scope ⟨f, promise⟩
        (@runBody_congr _ call call _ _ _ h.statements hcall f.body)) fun _ => h.pure _

/-- Calls have the property, however deep further calls may be nested in them. -/
def invoke : (depth : Nat) → h.Calls (invoke depth)
  | 0, _, _, _, _ => h.next (h.emitAll _) fun _ => h.next (h.note _ _) fun _ => h.throw (by simp)
  | depth + 1, f, args, _, _ => h.next (h.emitAll _) fun _ => h.next (h.note _ _) fun _ =>
    h.next (h.runCall (invoke depth) f args) fun ⟨promise, outcome⟩ => h.next (h.emit _) fun _ =>
      h.next (h.finish promise outcome) fun _ => h.pure _

def withCalls {run : Invoke → Run α} (hrun : ∀ call, h.Calls call → P (run call)) :
    P (withCalls run) :=
  h.look (fun m => hrun _ (h.invoke m.callBudget)) fun _ _ _ => rfl

def execAll (stmts : List Stmt) : P (Run.withCalls fun call => Run.execAll call stmts) :=
  h.withCalls fun call hcall => @execAll_congr _ call call _ _ _ h.statements hcall stmts

/-! ## Callbacks and suspended functions -/

def callbacks : CallbackCongruence P where
  pure := h.pure
  next := h.next
  note := h.note
  settledValue := h.settledValue
  newFunction := h.newFunction
  value _ scope := h.inScope scope (h.withCalls fun _ hcall => h.eval hcall false _)
  callBack f args label := h.withCalls fun _ hcall => hcall f args label f.line

def receive (target : Target) (v : Value) : P (receive target v) := by
  cases target with
  | discard | ret => exact h.pure _
  | declare x => exact h.next (h.declare x v) fun _ => h.pure _
  | assign x op =>
    exact h.next (assigned_congr h.toCallFreeCongruence op x v) fun v =>
      h.next (h.assign x v) fun _ => h.pure _

def runRest (k : Continuation) (v : Value) : P (runRest k v) :=
  h.next (h.receive k.target v) fun outcome =>
    match outcome with
    | .completed => h.execAll k.statements
    | .returned _ | .suspended _ => h.pure _

def resume (k : Continuation) (state : PromiseState) (value : Value) :
    P (resume k state value) := by
  unfold Run.resume
  refine either (h.next (h.note _ _) fun _ => ?_) ?_
  · cases k.promise with
    | some id => exact h.settle id .rejected value
    | none => exact h.pure ()
  · -- the frame is entered by setting the state that was looked at
    exact @next _ _ P h _ (fun context => do
      Run.emit (.push (k.function.name ++ "()"))
      let outcome ← Run.restoring context.1 context.2 do Run.runRest k (← Run.settledValue value)
      Run.emit .pop
      Run.finish k.promise outcome) (h.enter k.scope ⟨k.function, k.promise⟩) fun context =>
        h.next (h.emit _) fun _ => h.next (h.restoring _ _ (h.next (h.settledValue value)
          (h.runRest k))) fun outcome => h.next (h.emit _) fun _ => h.finish k.promise outcome

def runMicrotask (t : Microtask) : P (runMicrotask t) := by
  unfold Run.runMicrotask
  cases t.reaction with
  | none => exact h.pure ()
  | some r =>
    cases r with
    | resume k => exact h.next (h.continuationOf k) fun c => h.resume c t.state t.value
    | link l callback derived =>
      exact h.next (h.callbacks.runLink _ _ _ _ _ _) fun _ => h.settle _ _ _

/-! ## Turns and programs -/

def microtaskTurns : (budget : Nat) → P (microtaskTurns budget)
  | 0 => h.next h.takeMicrotask fun _ => either (h.throw (by simp)) (h.pure ())
  | budget + 1 => h.next h.takeMicrotask fun t => by
    have hrest := microtaskTurns budget
    cases t with
    | none => exact h.pure ()
    | some t => exact h.next (h.emitAll _) fun _ => h.next (h.runMicrotask t) fun _ => hrest

def drainMicrotasks : P drainMicrotasks := h.look (fun _ => h.microtaskTurns _) fun _ _ _ => rfl

def frameTurns : (cbs : List Callback) → P (frameTurns cbs)
  | [] => h.pure ()
  | cb :: rest =>
    h.next (h.next (h.takeCallback cb.id) fun _ => h.next (h.emitAll _) fun _ =>
      h.next (h.callbacks.runCallback cb) fun _ => h.drainMicrotasks) fun _ => frameTurns rest

def drainFrames : P drainFrames := h.look (fun _ => h.frameTurns _) fun _ _ _ => rfl

def timerTurn (cb : Callback) : P (timerTurn cb) :=
  h.next (h.takeTimer cb) fun _ => h.next (h.tell (.fired cb)) fun _ => h.next (h.emitAll _) fun _ =>
    h.next (h.callbacks.runCallback cb) fun _ => h.drainMicrotasks

/-- How many turns of timers there are in a run depends on the room for steps, so their number is
    given. -/
def timerTurns : (fuel : Nat) → P (timerTurns fuel)
  | 0 => h.pure ()
  | fuel + 1 => by
    have hrest := timerTurns fuel
    refine h.look (fun m => ?_) fun _ _ _ => rfl
    cases nextTimer m.callbacks with
    | none => exact h.pure ()
    | some cb => exact h.next (h.timerTurn cb) fun _ => h.next h.drainFrames fun _ => hrest

def runProgram (p : Program) : P (runProgram p) :=
  h.next (hoist_congr h.toCallFreeCongruence h.bindFunction p.body) fun _ => h.execAll p.body

def runSource (source : Option String) : P (runSource source) := by
  have hwalk : P (walkSource source) :=
    h.next (h.note _ _) fun _ => h.next (h.readProgram source) fun p =>
      h.next (h.note _ _) fun _ => h.runProgram p
  exact h.next hwalk fun _ => h.next (h.note _ _) fun _ => h.drainMicrotasks

end Traversal

end EventLoop.Run
