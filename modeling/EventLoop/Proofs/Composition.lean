/-
  What runs are composed of, as far as steps and faults go.

  All that a run does is put together from two kinds of actions: one step is emitted, or something
  is done that has nothing to do with steps (`Quiet`).  `Composed` puts these together one after
  the other, and with scope and frames put back at the end.

  That everything in a run is composed is shown once, along the program text and along the loops of
  the run.  What holds of all composed actions is then shown by induction with four cases.
-/
import EventLoop.Proofs.Aloof
import EventLoop.Proofs.Execution
import EventLoop.Proofs.Traversal

namespace EventLoop

open Script

variable {α β : Type}

/-! ## Quiet actions -/

/-- The state with other steps. -/
def Machine.withSteps (m : Machine) (steps : StepSequence) : Machine := { m with steps }

/-- The result with other steps. -/
def Run.atSteps (steps : StepSequence) :
    EStateM.Result Fault Machine α → EStateM.Result Fault Machine α
  | .ok a m => .ok a (m.withSteps steps)
  | .error fault m => .error fault (m.withSteps steps)

/-- An action that neither emits steps nor looks at them, and that fails with ordinary faults
    only. -/
structure Run.Quiet (act : Run α) : Prop where
  blind : ∀ (m : Machine) (steps : StepSequence),
    act (m.withSteps steps) = atSteps steps (act m)
  ordinary : ∀ (m m' : Machine) (fault : Fault), act m = .error fault m' → fault.isOrdinary

namespace Run

variable {act : Run α}

namespace Quiet

theorem of_ok {f : Machine → α} {g : Machine → Machine} (h : ∀ m, act m = .ok (f m) (g m))
    (hf : ∀ m steps, f (m.withSteps steps) = f m)
    (hg : ∀ m steps, g (m.withSteps steps) = (g m).withSteps steps) : Quiet act where
  blind m steps := by rw [h, h, hf, hg, atSteps]
  ordinary m m' fault hfault := by rw [h] at hfault; cases hfault

theorem modify {f : Machine → Machine}
    (hf : ∀ m steps, f (m.withSteps steps) = (f m).withSteps steps) :
    Quiet (modify f : Run PUnit) :=
  of_ok (fun _ => rfl) (fun _ _ => rfl) hf

theorem steps_eq (h : Quiet act) (m : Machine) :
    act m = atSteps m.steps (act m) := h.blind m m.steps

end Quiet

theorem Aloof.quiet (h : Aloof act) : Quiet act where
  blind m steps := by
    obtain ⟨write, hact⟩ := h.blind m
    have hself : act m = before { m.backdrop with log := write m.log } (act m) := hact m.backdrop
    have hother : act (m.withSteps steps) =
        before { m.backdrop with steps, log := write m.log } (act m) :=
      hact { m.backdrop with steps }
    rw [hother]
    conv_rhs => rw [hself]
    cases act m <;> rfl
  ordinary := h.ordinary

theorem asyncFrame_quiet : Quiet asyncFrame? :=
  .of_ok (fun _ => rfl) (fun _ _ => rfl) fun _ _ => rfl

theorem defer_quiet (k : Nat) (stmts : List Stmt) : Quiet (defer k stmts) :=
  .modify fun _ _ => rfl

theorem continuationOf_quiet (id : Nat) : Quiet (continuationOf id) :=
  .of_ok (fun _ => rfl) (fun _ _ => rfl) fun _ _ => rfl

/-! ## Composed actions -/

/-- The actions that are put together from quiet ones and from emitted steps. -/
inductive Composed : {α : Type} → Run α → Prop
  | quiet {α : Type} {act : Run α} (h : Quiet act) : Composed act
  | emit (s : Step) : Composed (emit s)
  | bind {α β : Type} {act : Run α} {f : α → Run β} (h : Composed act)
      (hf : ∀ a, Composed (f a)) : Composed (act >>= f)
  | restoring {α : Type} {act : Run α} (scope : Scope) (frames : List Frame) (h : Composed act) :
      Composed (restoring scope frames act)

namespace Composed

theorem aloof (h : Aloof act) : Composed act := .quiet h.quiet

theorem pure (a : α) : Composed (pure a : Run α) := .aloof (.pure a)

theorem note (level : Nat) (line : Log.Line) : Composed (note level line) :=
  .aloof (note_aloof level line)

/-- What follows a look at the state, if it does not depend on the steps. -/
theorem get_bind {k : Machine → Run α} (h : ∀ m, Composed (k m))
    (hk : ∀ m steps, k (m.withSteps steps) = k m) : Composed (get >>= k) := by
  have hlook : Quiet (do return (← get).withSteps default : Run Machine) :=
    .of_ok (fun _ => rfl) (fun _ _ => rfl) fun _ _ => rfl
  have heq : get >>= k = (do return (← get).withSteps default : Run Machine) >>= k := by
    funext m
    simp only [bind_apply, get_apply, pure_apply, hk]
  rw [heq]
  exact (quiet hlook).bind h

theorem map (f : α → β) (h : Composed act) : Composed (f <$> act) := by
  have heq : f <$> act = act >>= fun a => Pure.pure (f a) := by
    funext m
    rw [map_apply, bind_apply]
    cases act m <;> rfl
  rw [heq]
  exact h.bind fun a => pure (f a)

/-- An action behind a change of the context, which is put back at the end. -/
theorem within {act : Run α} (move : Machine → Machine)
    (hmove : ∀ m steps, move (m.withSteps steps) = (move m).withSteps steps) (h : Composed act) :
    Composed (fun m => Run.restoring m.scope m.frames act (move m)) := by
  have heq : (fun m => Run.restoring m.scope m.frames act (move m)) =
      get >>= fun m => modify move >>= fun _ => Run.restoring m.scope m.frames act := rfl
  rw [heq]
  exact get_bind (fun m => (quiet (.modify hmove)).bind fun _ => h.restoring m.scope m.frames)
    fun _ _ => rfl

theorem inScope (scope : Scope) (h : Composed act) : Composed (inScope scope act) :=
  within (fun m => { m with scope }) (fun _ _ => rfl) h

theorem nested (h : Composed act) : Composed (nested act) :=
  get_bind (fun _ => (aloof (newScope_aloof _ [])).bind fun scope => inScope scope h) fun _ _ => rfl

theorem inFrame (scope : Scope) (frame : Frame) (h : Composed act) :
    Composed (inFrame scope frame act) :=
  within (fun m => { m with scope, frames := frame :: m.frames }) (fun _ _ => rfl) h

end Composed

theorem suspend_composed (frame : Frame) (value : Value) (target : Target) :
    Composed (suspend frame value target) := by
  have hnew : Quiet (newContinuation frame target) :=
    .of_ok (fun _ => rfl) (fun _ _ => rfl) fun _ _ => rfl
  refine (Composed.quiet hnew).bind fun k => .aloof (.get_bind (fun m => ?_) fun _ _ => rfl)
  exact (stateOf_aloof value).bind fun _ => (react_aloof _ _ _ _).bind fun _ => .pure k

/-! ## Expressions and statements -/

def composed_basic : BasicCongruence fun act _ => Composed act :=
  .of_aloof .aloof .bind .emit

def composed_plain : PlainCongruence fun act _ => Composed act where
  toCongruence := composed_basic.congruence
  asyncFrame := .quiet asyncFrame_quiet
  suspend := suspend_composed
  defer k stmts := .quiet (defer_quiet k stmts)
  discard h := h.map _
  nested := .nested
  renewScope := .aloof renewScope_aloof
  warn text := .aloof (warn_aloof text)
  emit := .emit
  declareVariable := composed_basic.declareVariable
  bindFunction _ _ _ _ _ := .aloof (bindFunction_aloof _ _ _ _ _)

/-- All that a run does is composed.  How many timers fire depends on the room for steps, so only the
    turns of a given number of them are. -/
def composed_run : Traversal fun act => Composed act where
  toPlainCongruence := composed_plain
  map f h := h.map f
  restoring := .restoring
  inScope := .inScope
  inFrame := .inFrame
  enter _ _ := .quiet (.of_ok (fun _ => rfl) (fun _ _ => rfl) fun _ _ => rfl)
  newScope _ _ := .aloof (newScope_aloof _ _)
  newPromise _ _ := .aloof (newPromise_aloof _ _)
  newFunction _ _ _ _ _ _ := .aloof (newFunction_aloof _ _ _ _ _ _)
  declare x v := .aloof (declare_aloof x v)
  settle id state v := .aloof (settle_aloof id state v)
  throw h := .aloof (.throw ((by decide : ∀ fault ∈ [Fault.callDepth, .microtaskLimit,
    .frameMissing], fault.isOrdinary = true) _ h))
  look h hk := .get_bind h fun m steps => hk m steps m.log
  continuationOf id := .quiet (continuationOf_quiet id)
  takeMicrotask := .aloof takeMicrotask_aloof
  takeCallback id := .aloof (takeCallback_aloof id)
  takeTimer cb := .aloof (takeTimer_aloof cb)
  readProgram source := .aloof (.lift (readProgram_fails source))

/-- A way to call functions under which every call is composed. -/
def CallsComposed (call : Invoke) : Prop := ∀ f args label line, Composed (call f args label line)

variable {call : Invoke}

theorem eval_composed (h : CallsComposed call) (consumed : Bool) (e : Expr) :
    Composed (eval call consumed e) :=
  @eval_congr _ call call composed_plain.toCongruence h consumed e

theorem exec_composed (h : CallsComposed call) (s : Stmt) : Composed (exec call s) :=
  composed_run.exec h s

theorem withCalls_composed {act : Invoke → Run α}
    (h : ∀ call, CallsComposed call → Composed (act call)) : Composed (withCalls act) :=
  composed_run.withCalls h

theorem runCallback_composed (cb : Callback) : Composed (runCallback cb) :=
  composed_run.callbacks.runCallback cb

theorem runRest_composed (k : Continuation) (v : Value) : Composed (runRest k v) :=
  composed_run.runRest k v

theorem runMicrotask_composed (t : Microtask) : Composed (runMicrotask t) :=
  composed_run.runMicrotask t

theorem drainMicrotasks_composed : Composed drainMicrotasks := composed_run.drainMicrotasks

theorem drainFrames_composed : Composed drainFrames := composed_run.drainFrames

theorem timerTurns_composed (fuel : Nat) : Composed (timerTurns fuel) :=
  composed_run.timerTurns fuel

theorem enter_composed (p : Phase) : Composed (enter p) := .note _ _

theorem runProgram_composed (p : Program) : Composed (runProgram p) := composed_run.runProgram p

theorem runSource_composed (source : Option String) : Composed (runSource source) :=
  composed_run.runSource source

end Run

end EventLoop
