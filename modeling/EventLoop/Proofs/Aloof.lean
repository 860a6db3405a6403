/-
  Elementary actions stay aloof from steps, calls, continuations and the log.

  `Run.Aloof` says of an action that it gives the same result whatever these four are, that it
  leaves the first three as they are, and that what it writes to the log does not depend on them.
  A fault of it is an ordinary one: not that of the limit on steps, and not that of code that is not
  known.

  It is shown here for each of the elementary actions of a run.

  `Run.Unlogged` says less, and holds of more: of what emits steps and suspends calls, too.  With
  another log the result is the same, and the states it leaves differ in the log alone.
-/
import EventLoop.Generator
import EventLoop.Proofs.Action
import EventLoop.Proofs.Congruence

namespace EventLoop

open Script

variable {α β : Type}

/-! ## Ordinary faults -/

/-- Whether the fault is that of code which the evaluator does not know. -/
def Fault.isUnsupported : Fault → Bool
  | .unsupportedStatement _ | .unsupportedExpression _ | .unsupportedOperator _ => true
  | _ => false

/-- Whether the fault is neither that of unknown code nor that of the limit on steps. -/
def Fault.isOrdinary (fault : Fault) : Bool := !fault.isUnsupported && fault != .stepLimit

/-- A computation that can only fail with an ordinary fault. -/
def FailsOrdinarily (r : Except Fault α) : Prop := ∀ fault, r = .error fault → fault.isOrdinary

namespace FailsOrdinarily

theorem ok (a : α) : FailsOrdinarily (.ok a : Except Fault α) := by
  intro fault h
  cases h

theorem pure (a : α) : FailsOrdinarily (pure a : Except Fault α) := ok a

theorem error {fault : Fault} (h : fault.isOrdinary) :
    FailsOrdinarily (.error fault : Except Fault α) := by
  intro fault' h'
  cases h'
  exact h

theorem bind {r : Except Fault α} {f : α → Except Fault β} (h : FailsOrdinarily r)
    (hf : ∀ a, FailsOrdinarily (f a)) : FailsOrdinarily (r >>= f) := by
  cases r with
  | ok a => exact hf a
  | error fault => exact error (h fault rfl)

theorem ite {p : Prop} [Decidable p] {r r' : Except Fault α} (h : FailsOrdinarily r)
    (h' : FailsOrdinarily r') : FailsOrdinarily (if p then r else r') := by
  split
  · exact h
  · exact h'

theorem mapM {f : α → Except Fault β} (l : List α) (hf : ∀ a ∈ l, FailsOrdinarily (f a)) :
    FailsOrdinarily (l.mapM f) := by
  induction l with
  | nil => exact ok []
  | cons a l ih =>
    obtain ⟨ha, hl⟩ := List.forall_mem_cons.1 hf
    rw [List.mapM_cons]
    exact ha.bind fun _ => (ih hl).bind fun _ => pure _

end FailsOrdinarily

namespace Number

theorem toFloat_fails (a : Number) : FailsOrdinarily a.toFloat := by
  cases a with
  | int n =>
    rw [toFloat]
    split
    · exact .ok _
    · exact .error rfl
  | float x => exact .ok x

theorem isNan_fails (a : Number) : FailsOrdinarily a.isNan :=
  a.toFloat_fails.bind fun _ => .pure _

theorem isInf_fails (a : Number) : FailsOrdinarily a.isInf :=
  a.toFloat_fails.bind fun _ => .pure _

theorem arith_fails (onInt : Int → Int → Int) (onFloat : Float → Float → Float) (a b : Number) :
    FailsOrdinarily (arith onInt onFloat a b) := by
  rw [arith.eq_def]
  split
  · exact .ok _
  · exact (toFloat_fails _).bind fun _ => (toFloat_fails _).bind fun _ => .pure _

theorem quotient_fails (a b : Number) : FailsOrdinarily (quotient a b) := by
  rw [quotient.eq_def]
  split
  · split
    · exact .ok _
    · exact .error rfl
  · exact (toFloat_fails _).bind fun _ => (toFloat_fails _).bind fun _ => .pure _

theorem div_fails (a b : Number) : FailsOrdinarily (a.div b) := by
  rw [div]
  refine .ite (.ite (.pure _) ?_) (quotient_fails a b)
  exact (isNan_fails a).bind fun _ => .ite (.pure _) (.pure _)

theorem rem_fails (a b : Number) : FailsOrdinarily (a.rem b) := by
  rw [rem]
  refine .ite (.pure _) ?_
  refine (isNan_fails a).bind fun _ => .ite (.pure _) ?_
  refine (isNan_fails b).bind fun _ => .ite (.pure _) ?_
  refine (isInf_fails a).bind fun _ => .ite (.pure _) ?_
  refine (isInf_fails b).bind fun _ => .ite (.pure _) ?_
  exact (toFloat_fails a).bind fun _ => (toFloat_fails b).bind fun _ => .pure _

theorem ordered_fails (test : Ordering → Bool) (a b : Number) :
    FailsOrdinarily (a.ordered test b) := by
  rw [ordered]
  refine (isNan_fails a).bind fun _ => .ite (.pure _) ?_
  exact (isNan_fails b).bind fun _ => .ite (.pure _) (.pure _)

theorem intText_fails (n : Int) : FailsOrdinarily (intText n) := .ite (.ok _) (.error rfl)

theorem text_fails (a : Number) : FailsOrdinarily a.text := by
  cases a with
  | int n => exact intText_fails n
  | float x =>
    rw [text]
    split
    · exact .ok _
    · exact .ok _
    · split
      · exact .ite (.ok _) (.ok _)
      · exact .ok _

theorem truncate_fails (a : Number) : FailsOrdinarily a.truncate := by
  cases a with
  | int n => exact .ok n
  | float x =>
    rw [truncate]
    split
    · exact .ok _
    · exact .error rfl

end Number

namespace Value

theorem textWithin_fails (arrays : Arrays) (depth : Nat) (v : Value) :
    FailsOrdinarily (textWithin arrays depth v) := by
  induction depth generalizing v with
  | zero =>
    cases v with
    | number n => exact n.text_fails
    | array id => exact .error rfl
    | _ => exact .ok _
  | succ depth ih =>
    cases v with
    | number n => exact n.text_fails
    | array id =>
      exact (FailsOrdinarily.mapM _ fun v _ => .ite (.ok _) (ih v)).bind fun _ => .pure _
    | _ => exact .ok _

theorem toText_fails (arrays : Arrays) (v : Value) : FailsOrdinarily (v.toText arrays) :=
  textWithin_fails arrays arrays.size v

theorem label_fails (arrays : Arrays) (v : Value) : FailsOrdinarily (v.label arrays) := by
  cases v with
  | text s => exact .ok _
  | _ => exact toText_fails arrays _

theorem ordered_fails (test : Ordering → Bool) (a b : Value) :
    FailsOrdinarily (ordered test a b) := by
  rw [ordered.eq_def]
  split
  · exact .ok _
  · exact (Number.ordered_fails test _ _).bind fun _ => .pure _

theorem plus_fails (arrays : Arrays) (a b : Value) : FailsOrdinarily (plus arrays a b) :=
  .ite ((Number.arith_fails _ _ _ _).bind fun _ => .pure _)
    ((toText_fails arrays a).bind fun _ => (toText_fails arrays b).bind fun _ => .pure _)

/-- The operators that never skip an operand are applied without fail, as far as they are known. -/
theorem apply_fails (arrays : Arrays) {op : BinaryOp} (hor : op ≠ .or) (hand : op ≠ .and)
    (a b : Value) : FailsOrdinarily (apply arrays op a b) := by
  cases op with
  | or => exact absurd rfl hor
  | and => exact absurd rfl hand
  | add => exact plus_fails arrays a b
  | sub | mul => exact (Number.arith_fails _ _ _ _).bind fun _ => .pure _
  | div => exact (Number.div_fails _ _).bind fun _ => .pure _
  | rem => exact (Number.rem_fails _ _).bind fun _ => .pure _
  | strictEq | strictNe | looseEq | looseNe => exact .ok _
  | lt | gt | le | ge =>
    rw [apply]
    exact ordered_fails _ a b

end Value

theorem callLabel_fails (name : String) (args : List Expr) :
    FailsOrdinarily (callLabel name args) := by
  refine (FailsOrdinarily.mapM args fun e _ => ?_).bind fun _ => .pure _
  cases e with
  | literal v line => exact Value.label_fails #[] _
  | _ => exact .ok _

theorem Run.timerDelay_fails (kind : TimerKind) (args : List Expr) :
    FailsOrdinarily (Run.timerDelay kind args) := by
  have hdeclared : FailsOrdinarily (Run.declaredDelay args) := by
    rw [Run.declaredDelay.eq_def]
    split
    · exact (Number.truncate_fails _).bind fun _ => .pure _
    · exact .ok 0
  cases kind with
  | frame => exact .ok 0
  | timeout | interval => exact hdeclared

theorem readProgram_fails (source : Option String) : FailsOrdinarily (readProgram source) := by
  cases source with
  | none => exact .error rfl
  | some source =>
    refine .ite (.error rfl) (.ite (.error rfl) ?_)
    cases parse? source with
    | some p => exact .ok p
    | none => exact .error rfl

/-! ## Aloof actions -/

/-- What elementary actions do not look at. -/
structure Backdrop where
  steps : StepSequence
  frames : List Frame
  continuations : Array Continuation
  log : Log

/-- The state before another backdrop. -/
def Machine.before (m : Machine) (b : Backdrop) : Machine :=
  { m with steps := b.steps, frames := b.frames, continuations := b.continuations, log := b.log }

/-- The backdrop of a state. -/
def Machine.backdrop (m : Machine) : Backdrop := ⟨m.steps, m.frames, m.continuations, m.log⟩

namespace Run

/-- The result before another backdrop. -/
def before (b : Backdrop) : EStateM.Result Fault Machine α → EStateM.Result Fault Machine α
  | .ok a m => .ok a (m.before b)
  | .error fault m => .error fault (m.before b)

/-- An action on which the backdrop has no influence, and which leaves it as it is, except for what
    is written to the log. -/
structure Aloof (act : Run α) : Prop where
  blind : ∀ m : Machine, ∃ write : Log → Log, ∀ b : Backdrop,
    act (m.before b) = before { b with log := write b.log } (act m)
  ordinary : ∀ (m m' : Machine) (fault : Fault), act m = .error fault m' → fault.isOrdinary

namespace Aloof

theorem of_ok {act : Run α} {f : Machine → α} {g : Machine → Machine}
    (h : ∀ m, act m = .ok (f m) (g m)) (hf : ∀ m b, f (m.before b) = f m)
    (hg : ∀ m, ∃ write : Log → Log, ∀ b,
      g (m.before b) = (g m).before { b with log := write b.log }) : Aloof act where
  blind m := by
    obtain ⟨write, hwrite⟩ := hg m
    exact ⟨write, fun b => by rw [h, h, hf, hwrite, before]⟩
  ordinary m m' fault hfault := by rw [h] at hfault; cases hfault

theorem modifyGet {f : Machine → α × Machine} (hf : ∀ m b, (f (m.before b)).1 = (f m).1)
    (hg : ∀ m b, (f (m.before b)).2 = (f m).2.before b) : Aloof (modifyGet f : Run α) :=
  of_ok (fun _ => rfl) hf fun m => ⟨id, hg m⟩

theorem modify {f : Machine → Machine} (hf : ∀ m b, f (m.before b) = (f m).before b) :
    Aloof (modify f : Run PUnit) :=
  modifyGet (fun _ _ => rfl) hf

theorem pure (a : α) : Aloof (pure a : Run α) :=
  of_ok (fun _ => rfl) (fun _ _ => rfl) fun _ => ⟨id, fun _ => rfl⟩

theorem throw {fault : Fault} (h : fault.isOrdinary) : Aloof (throw fault : Run α) where
  blind _ := ⟨id, fun _ => rfl⟩
  ordinary m m' fault' hfault := by cases hfault; exact h

theorem lift {r : Except Fault α} (h : FailsOrdinarily r) : Aloof (lift r) := by
  cases r with
  | ok a => exact pure a
  | error fault => exact throw (h fault rfl)

theorem bind {act : Run α} {f : α → Run β} (h : Aloof act) (hf : ∀ a, Aloof (f a)) :
    Aloof (act >>= f) where
  blind m := by
    obtain ⟨write, hact⟩ := h.blind m
    simp only [bind_apply, hact]
    cases act m with
    | ok a m1 =>
      obtain ⟨write1, hrest⟩ := (hf a).blind m1
      exact ⟨write1 ∘ write, fun _ => hrest _⟩
    | error fault m1 => exact ⟨write, fun _ => rfl⟩
  ordinary m m' fault hfault := by
    rw [bind_apply] at hfault
    cases hact : act m with
    | ok a m1 =>
      rw [hact] at hfault
      exact (hf a).ordinary m1 m' fault hfault
    | error fault' m1 =>
      rw [hact] at hfault
      cases hfault
      exact h.ordinary m m' fault hact

theorem get_bind {k : Machine → Run α} (h : ∀ m, Aloof (k m))
    (hk : ∀ m b, k (m.before b) = k m) : Aloof (get >>= k) where
  blind m := by
    obtain ⟨write, hact⟩ := (h m).blind m
    refine ⟨write, fun b => ?_⟩
    rw [bind_apply, bind_apply, get_apply, get_apply]
    simp only [hk]
    exact hact b
  ordinary m m' fault hfault := (h m).ordinary m m' fault hfault

theorem ite {p : Prop} [Decidable p] {act act' : Run α} (h : Aloof act) (h' : Aloof act') :
    Aloof (if p then act else act') := by
  split
  · exact h
  · exact h'

theorem kept {act : Run α} (h : Aloof act) {a : α} {m m' : Machine} (hact : act m = .ok a m') :
    m'.steps = m.steps ∧ m'.frames = m.frames ∧ m'.continuations = m.continuations := by
  obtain ⟨write, hblind⟩ := h.blind m
  have hself : act m = before { m.backdrop with log := write m.log } (act m) := hblind m.backdrop
  rw [hact] at hself
  injection hself with _ hm'
  rw [hm']
  exact ⟨rfl, rfl, rfl⟩

end Aloof

theorem note_aloof (level : Nat) (line : Log.Line) : Aloof (note level line) :=
  .of_ok (note_apply level line) (fun _ _ => rfl) fun _ => ⟨(·.write level line), fun _ => rfl⟩

theorem warn_aloof (text : String) : Aloof (warn text) :=
  (Aloof.modify fun _ _ => rfl).bind fun _ => note_aloof _ _

theorem tell_aloof (msg : Message) : Aloof (tell msg) := by
  have hfails (m : Machine) : FailsOrdinarily (msg.text m) := by
    cases msg with
    | declared _ v | condition v => exact v.toText_fails m.arrays
    | registered cb => exact Number.intText_fails _
    | fired cb => exact Number.intText_fails _
  refine .get_bind (fun m => (Aloof.lift (hfails m)).bind fun _ => note_aloof _ _) fun m b => ?_
  cases msg <;> rfl

/-! ## Values and bindings -/

theorem textOf_aloof (v : Value) : Aloof (textOf v) :=
  .get_bind (fun m => .lift (v.toText_fails m.arrays)) fun _ _ => rfl

theorem applyOp_aloof {op : BinaryOp} (hor : op ≠ .or) (hand : op ≠ .and) (a b : Value) :
    Aloof (applyOp op a b) :=
  .get_bind (fun m => .lift (Value.apply_fails m.arrays hor hand a b)) fun _ _ => rfl

theorem newArray_aloof (items : List Value) : Aloof (newArray items) :=
  .modifyGet (fun _ _ => rfl) fun _ _ => rfl

theorem itemsOf_aloof (id : Nat) : Aloof (itemsOf id) :=
  .get_bind (fun _ => .pure _) fun _ _ => rfl

theorem pushItems_aloof (id : Nat) (items : List Value) : Aloof (pushItems id items) :=
  (Aloof.modify fun _ _ => rfl).bind fun _ => (itemsOf_aloof id).bind fun _ => .pure _

theorem newPromise_aloof (state : PromiseState) (value : Value) : Aloof (newPromise state value) :=
  .modifyGet (fun _ _ => rfl) fun _ _ => rfl

theorem promiseOf_aloof (id : Nat) : Aloof (promiseOf id) :=
  .get_bind (fun _ => .pure _) fun _ _ => rfl

theorem stateOf_aloof (v : Value) : Aloof (stateOf v) := by
  cases v with
  | promise id => exact (promiseOf_aloof id).bind fun _ => .pure _
  | _ => exact .pure _

theorem settledValue_aloof (v : Value) : Aloof (settledValue v) := by
  cases v with
  | promise id => exact (promiseOf_aloof id).bind fun _ => .pure _
  | _ => exact .pure _

theorem newFunction_aloof (name : String) (params : List String) (body : Body) (isAsync : Bool)
    (line : Nat) (scope : Scope) : Aloof (newFunction name params body isAsync line scope) :=
  .modifyGet (fun _ _ => rfl) fun _ _ => rfl

theorem lookup_aloof (x : String) : Aloof (lookup x) := by
  refine .get_bind (fun m => ?_) fun _ _ => rfl
  cases m.tables.get? m.scope x with
  | some v => exact .pure v
  | none =>
    cases m.registry.lookup x with
    | some f => exact .pure _
    | none => exact .pure _

theorem isBound_aloof (x : String) : Aloof (isBound x) :=
  .get_bind (fun _ => .pure _) fun _ _ => rfl

theorem declare_aloof (x : String) (v : Value) : Aloof (declare x v) := .modify fun _ _ => rfl

theorem assign_aloof (x : String) (v : Value) : Aloof (assign x v) := .modify fun _ _ => rfl

/-- A compound assignment never applies an operator that may skip an operand. -/
theorem operator_ne {op : AssignOp} {op' : BinaryOp} (h : op.operator? = some op') :
    op' ≠ .or ∧ op' ≠ .and := by
  cases op <;> cases h <;> exact ⟨nofun, nofun⟩

theorem assigned_aloof (op : AssignOp) (x : String) (v : Value) : Aloof (assigned op x v) := by
  unfold assigned
  cases hop : op.operator? with
  | none => exact .pure v
  | some op' =>
    obtain ⟨hor, hand⟩ := operator_ne hop
    exact (lookup_aloof x).bind fun a => applyOp_aloof hor hand a v

theorem bindFunction_aloof (name : String) (params : List String) (body : Block) (isAsync : Bool)
    (line : Nat) : Aloof (bindFunction name params body isAsync line) := by
  refine .get_bind (fun _ => (newFunction_aloof _ _ _ _ _ _).bind fun f =>
    (declare_aloof name _).bind fun _ => .modify fun m b => ?_) fun _ _ => rfl
  have hscope : (m.before b).scope = m.scope := rfl
  rw [hscope, apply_ite (Machine.before · b)]
  rfl

theorem newScope_aloof (outer : Scope) (bindings : Bindings) : Aloof (newScope outer bindings) :=
  .modifyGet (fun _ _ => rfl) fun _ _ => rfl

theorem renewScope_aloof : Aloof renewScope :=
  .get_bind (fun _ => (newScope_aloof _ _).bind fun _ => .modify fun _ _ => rfl) fun _ _ => rfl

/-! ## Microtasks, promises and callbacks -/

theorem enqueue_aloof (name : String) (scope : Scope) (reaction : Option Reaction)
    (state : PromiseState) (value : Value) : Aloof (enqueue name scope reaction state value) :=
  .of_ok (fun _ => rfl) (fun _ _ => rfl) fun m => ⟨(·.write 2 ("enqueue microtask #" ++
    toString (m.microtaskCount + 1) ++ " " ++ name ++ " (" ++ state.name ++ ")")), fun _ => rfl⟩

theorem react_aloof (w : Waiter) (value : Value) (state : PromiseState) (subject : String) :
    Aloof (react w value state subject) := by
  cases value with
  | promise id =>
    refine (promiseOf_aloof id).bind fun p => .ite ?_ (enqueue_aloof _ _ _ _ _)
    exact (Aloof.modify fun _ _ => rfl).bind fun _ => note_aloof _ _
  | _ => exact enqueue_aloof _ _ _ _ _

theorem settleOne_aloof (id : Nat) (state : PromiseState) (value : Value) :
    Aloof (settleOne id state value) :=
  (promiseOf_aloof id).bind fun _ => (Aloof.modify fun _ _ => rfl).bind fun _ => .pure _

theorem release_aloof (state : PromiseState) (value : Value) (fuel : Nat) (ws : List Waiter) :
    Aloof (release state value fuel ws) := by
  induction fuel generalizing ws with
  | zero => exact .pure ()
  | succ fuel ih =>
    cases ws with
    | nil => exact .pure ()
    | cons w rest =>
      have hqueue : Aloof (do
          enqueue w.name w.scope (some w.reaction) state value
          release state value fuel rest) :=
        (enqueue_aloof _ _ _ _ _).bind fun _ => ih rest
      rw [release]
      cases hw : w.reaction with
      | resume k =>
        rw [hw] at hqueue
        exact hqueue
      | link l callback derived =>
        rw [hw] at hqueue
        exact .ite hqueue ((settleOne_aloof _ _ _).bind fun _ => ih _)

theorem settle_aloof (id : Nat) (state : PromiseState) (value : Value) :
    Aloof (settle id state value) :=
  .get_bind (fun _ => (settleOne_aloof id state value).bind fun ws => release_aloof _ _ _ ws)
    fun _ _ => rfl

theorem rejection_aloof (vs : List Value) : Aloof (rejection? vs) := by
  induction vs with
  | nil => exact .pure none
  | cons v rest ih =>
    cases v with
    | promise id => exact (promiseOf_aloof id).bind fun _ => .ite (.pure _) ih
    | _ => exact ih

theorem announce_aloof (name : String) (consumed : Bool) (id : Nat) :
    Aloof (announce name consumed id) := by
  have hmark (p : Promise) :
      Aloof (do enqueue name (← get).scope none p.state p.value : Run Unit) :=
    .get_bind (fun _ => enqueue_aloof _ _ _ _ _) fun _ _ => rfl
  refine (promiseOf_aloof id).bind fun p => (Aloof.modify fun _ _ => rfl).bind fun _ => ?_
  exact .ite ((hmark p).bind fun _ => .pure _) (.pure _)

theorem receiverState_aloof (callee : Expr) (receiver : Value) :
    Aloof (receiverState callee receiver) := by
  unfold receiverState
  cases chainBelow maxChainHops callee with
  | some chain => exact .get_bind (fun _ => .pure _) fun _ _ => rfl
  | none => exact stateOf_aloof receiver

theorem attach_aloof (name : String) (l : Link) (callback : Option Expr) (state : PromiseState)
    (receiver : Value) : Aloof (attach name l callback state receiver) := by
  refine .get_bind (fun m => ?_) fun _ _ => rfl
  exact (newPromise_aloof _ _).bind fun derived => (react_aloof _ _ _ _).bind fun _ => .pure derived

theorem callPromise_aloof (f : Function) : Aloof (callPromise f) := by
  refine .ite ?_ (.pure none)
  rw [← bind_pure_comp]
  exact (newPromise_aloof _ _).bind fun _ => .pure _

theorem finish_aloof (promise : Option Nat) (outcome : Outcome) :
    Aloof (finish promise outcome) := by
  have hsettle (id : Nat) (v : Value) : Aloof (do settle id .fulfilled (← settledValue v)) :=
    (settledValue_aloof v).bind fun _ => settle_aloof _ _ _
  cases promise with
  | none => exact .pure ()
  | some id =>
    cases outcome with
    | completed => exact hsettle id _
    | returned v => exact hsettle id _
    | suspended k => exact .pure ()

theorem receive_aloof (target : Target) (v : Value) : Aloof (receive target v) := by
  cases target with
  | discard => exact .pure _
  | declare x => exact (declare_aloof x v).bind fun _ => .pure _
  | assign x op =>
    exact (assigned_aloof op x v).bind fun v => (assign_aloof x v).bind fun _ => .pure _
  | ret => exact .pure _

theorem takeMicrotask_aloof : Aloof takeMicrotask where
  blind m := by
    refine ⟨id, fun b => ?_⟩
    simp only [takeMicrotask, bind_apply, get_apply]
    rw [show (m.before b).microtasks[(m.before b).cursor]? = m.microtasks[m.cursor]? from rfl]
    cases m.microtasks[m.cursor]? <;> rfl
  ordinary m m' fault h := by
    simp only [takeMicrotask, bind_apply, get_apply] at h
    cases ht : m.microtasks[m.cursor]? with
    | none => rw [ht] at h; cases h
    | some t => rw [ht] at h; cases h

theorem takeCallback_aloof (id : Nat) : Aloof (takeCallback id) :=
  .get_bind (fun _ => .ite (.throw rfl) (.modify fun _ _ => rfl)) fun _ _ => rfl

theorem takeTimer_aloof (cb : Callback) : Aloof (takeTimer cb) := .modify fun _ _ => rfl

/-! ## Congruences -/

section

variable {R : {α : Type} → Run α → Run α → Prop}
  (haloof : ∀ {α : Type} {act : Run α}, Aloof act → R act act)
  (hbind : ∀ {α β : Type} {act act' : Run α} {f f' : α → Run β}, R act act' →
    (∀ a, R (f a) (f' a)) → R (act >>= f) (act' >>= f'))
  (hemit : ∀ s, R (Run.emit s) (Run.emit s))

include haloof hbind

/-- Expressions without calls are put together from aloof actions. -/
def CallFreeCongruence.of_aloof : CallFreeCongruence R where
  pure a := haloof (.pure a)
  bind := hbind
  note level line := haloof (note_aloof level line)
  lookup x := haloof (lookup_aloof x)
  isBound x := haloof (isBound_aloof x)
  textOf v := haloof (textOf_aloof v)
  tell msg := haloof (tell_aloof msg)
  applyOp hor hand a b := haloof (applyOp_aloof hor hand a b)
  increment _ := haloof (.lift (Number.arith_fails _ _ _ _))
  decrement _ := haloof (.lift (Number.arith_fails _ _ _ _))
  assign x v := haloof (assign_aloof x v)
  itemsOf id := haloof (itemsOf_aloof id)
  newArray vs := haloof (newArray_aloof vs)
  settledValue v := haloof (settledValue_aloof v)
  close _ _ _ _ _ := haloof (.get_bind (fun _ => (newFunction_aloof _ _ _ _ _ _).bind
    fun _ => .pure _) fun _ _ => rfl)
  callLabel name args := haloof (.lift (callLabel_fails name args))

include hemit

theorem addCallback_of_aloof (kind : TimerKind) (callback : Option Expr) (delay line : Nat) :
    R (addCallback kind callback delay line) (addCallback kind callback delay line) := by
  have hadd (cb : Machine → Callback) (hcb : ∀ m b, cb (m.before b) = cb m) :
      Aloof (modifyGet fun m => (cb m, { m with callbacks := m.callbacks ++ [cb m] })) :=
    .modifyGet hcb fun m b => by rw [hcb]; rfl
  refine hbind (haloof (.modifyGet (fun _ _ => rfl) fun _ _ => rfl)) fun id => ?_
  refine hbind ?_ fun _ => haloof (hadd _ fun _ _ => rfl)
  exact hbind (hemit _) fun _ => hbind (hemit _) fun _ => hbind (hemit _) fun _ =>
    hbind (hemit _) fun _ => haloof (.pure ())

theorem dropCallback_of_aloof (name : String) (v : Value) :
    R (dropCallback name v) (dropCallback name v) := by
  have hfind : Aloof (do return (← get).callbacks.find? fun cb => namesTimer v cb.id :
      Run (Option Callback)) := .get_bind (fun _ => .pure _) fun _ _ => rfl
  -- the look at the state is an action of its own, so that only its result is passed on
  have heq : dropCallback name v =
      (do return (← get).callbacks.find? fun cb => namesTimer v cb.id : Run (Option Callback)) >>=
        (·.elim (pure ()) fun cb => do
          modify fun m => { m with callbacks := m.callbacks.filter (·.id != cb.id) }
          emit (.webapiRemove cb.id)
          note 2 (name ++ " #" ++ toString cb.id)) := by
    funext m
    simp only [dropCallback, bind_apply, get_apply, pure_apply]
    cases m.callbacks.find? fun cb => namesTimer v cb.id <;> rfl
  rw [heq]
  refine hbind (haloof hfind) fun found => ?_
  cases found with
  | none => exact haloof (.pure ())
  | some cb =>
    exact hbind (haloof (.modify fun _ _ => rfl)) fun _ => hbind (hemit _) fun _ =>
      haloof (note_aloof _ _)

/-- Built-in calls are put together from aloof actions and from emitted steps. -/
def BasicCongruence.of_aloof : BasicCongruence R where
  toCallFreeCongruence := .of_aloof haloof hbind
  emit := hemit
  declare x v := haloof (declare_aloof x v)
  timerDelay kind args := haloof (.lift (timerDelay_fails kind args))
  addCallback := addCallback_of_aloof haloof hbind hemit
  dropCallback := dropCallback_of_aloof haloof hbind hemit
  pushItems id vs := haloof (pushItems_aloof id vs)
  newPromise state v := haloof (newPromise_aloof state v)
  rejection vs := haloof (rejection_aloof vs)
  announce name consumed id := haloof (announce_aloof name consumed id)
  receiverState callee v := haloof (receiverState_aloof callee v)
  attach _ _ _ _ _ := haloof (attach_aloof _ _ _ _ _)

end

theorem hoist_aloof (stmts : List Stmt) : Aloof (hoist stmts) :=
  @hoist_congr (fun act _ => Aloof act) (.of_aloof id .bind) bindFunction_aloof stmts

/-! ## Actions that do the same with any log -/

/-- The result with another log. -/
def atLog (log : Log) : EStateM.Result Fault Machine α → EStateM.Result Fault Machine α
  | .ok a m => .ok a (m.logged log)
  | .error f m => .error f (m.logged log)

/-- An action on which the log has no influence, except on what is written to it. -/
def Unlogged (act : Run α) : Prop :=
  ∀ (m : Machine) (log : Log), ∃ log', act (m.logged log) = atLog log' (act m)

namespace Unlogged

theorem of_ok {act : Run α} {f : Machine → α} {g : Machine → Machine}
    (h : ∀ m, act m = .ok (f m) (g m)) (hf : ∀ m log, f (m.logged log) = f m)
    (hg : ∀ m log, ∃ log', g (m.logged log) = (g m).logged log') : Unlogged act := by
  intro m log
  obtain ⟨log', hlog⟩ := hg m log
  exact ⟨log', by rw [h, h, hf, hlog, atLog]⟩

theorem pure (a : α) : Unlogged (pure a : Run α) := fun _ log => ⟨log, rfl⟩

theorem throw (fault : Fault) : Unlogged (throw fault : Run α) := fun _ log => ⟨log, rfl⟩

theorem lift (r : Except Fault α) : Unlogged (lift r) := by
  cases r with
  | ok a => exact pure a
  | error fault => exact throw fault

theorem modify {f : Machine → Machine} (hf : ∀ m log, f (m.logged log) = (f m).logged log) :
    Unlogged (modify f : Run PUnit) :=
  of_ok (fun _ => rfl) (fun _ _ => rfl) fun m log => ⟨log, hf m log⟩

theorem modifyGet {f : Machine → α × Machine} (hf : ∀ m log, (f (m.logged log)).1 = (f m).1)
    (hg : ∀ m log, (f (m.logged log)).2 = (f m).2.logged log) : Unlogged (modifyGet f : Run α) :=
  of_ok (fun _ => rfl) hf fun m log => ⟨log, hg m log⟩

theorem bind {act : Run α} {f : α → Run β} (h : Unlogged act) (hf : ∀ a, Unlogged (f a)) :
    Unlogged (act >>= f) := by
  intro m log
  obtain ⟨log1, hact⟩ := h m log
  rw [bind_apply, bind_apply, hact]
  cases act m with
  | ok a m1 => exact hf a m1 log1
  | error fault m1 => exact ⟨log1, rfl⟩

theorem get_bind {k : Machine → Run α} (h : ∀ m, Unlogged (k m))
    (hk : ∀ m log, k (m.logged log) = k m) : Unlogged (get >>= k) := by
  intro m log
  rw [bind_apply, bind_apply, get_apply, get_apply]
  simp only [hk]
  exact h m m log

end Unlogged

theorem Aloof.unlogged {act : Run α} (h : Aloof act) : Unlogged act := by
  intro m log
  obtain ⟨write, hact⟩ := h.blind m
  have hself : act m = before { m.backdrop with log := write m.log } (act m) := hact m.backdrop
  have hother : act (m.logged log) = before { m.backdrop with log := write log } (act m) :=
    hact { m.backdrop with log }
  refine ⟨write log, hother.trans ?_⟩
  rw [hself]
  cases act m <;> rfl

theorem emit_unlogged (s : Step) : Unlogged (emit s) := by
  have hpush : Unlogged (do
      modify fun m => { m with steps := m.steps.push s }
      note 3 ("step " ++ s.describe)) :=
    (Unlogged.modify fun _ _ => rfl).bind fun _ => (note_aloof _ _).unlogged
  refine .get_bind (fun m => ?_) fun _ _ => rfl
  split
  · exact .throw _
  · exact hpush

def unlogged_basic : BasicCongruence fun act _ => Unlogged act :=
  .of_aloof (·.unlogged) .bind emit_unlogged

theorem asyncFrame_unlogged : Unlogged asyncFrame? := .get_bind (fun _ => .pure _) fun _ _ => rfl

theorem defer_unlogged (k : Nat) (stmts : List Stmt) : Unlogged (defer k stmts) :=
  .modify fun _ _ => rfl

theorem suspend_unlogged (frame : Frame) (value : Value) (target : Target) :
    Unlogged (suspend frame value target) := by
  have hnew : Unlogged (newContinuation frame target) := .modifyGet (fun _ _ => rfl) fun _ _ => rfl
  refine hnew.bind fun k => .get_bind (fun m => ?_) fun _ _ => rfl
  exact (stateOf_aloof value).unlogged.bind fun _ =>
    (react_aloof _ _ _ _).unlogged.bind fun _ => .pure k

theorem continuationOf_unlogged (id : Nat) : Unlogged (continuationOf id) :=
  .get_bind (fun _ => .pure _) fun _ _ => rfl

end Run

end EventLoop
