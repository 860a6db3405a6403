/-
  `return e` against `return await e`.

  Take two calls of an async function whose bodies differ only in the last statement, which returns
  `e` in one and `await e` in the other.  They run in step until they come to it
  (`execAll_swapped`).  There the first one settles its promise with what `e` is settled with, and
  the second one leaves a task that will do so; if `e` is itself an `await`, both leave such a task
  (`exec_return_concludes`).  From then on the runs go their own ways, but in each of them the
  settlement is pledged.

  `return_agrees_with_return_await` is the result.  The values are the same, and so are the states,
  unless what is returned is a rejected promise: `returned_rejection_is_fulfilled` shows that.
-/
import EventLoop.Proofs.Pledge
import EventLoop.Proofs.Relay
import EventLoop.Proofs.Twin

namespace EventLoop

open Script

variable {α : Type} {depth id n line awaitLine : Nat} {e : Expr} {stmts : List Stmt} {v : Value}

/-! ## What is returned -/

/-- What an `await` waits for; any other expression itself. -/
def Script.Expr.operand : Expr → Expr
  | .await e _ => e
  | e => e

/-- The function with a body that ends with the return of an expression. -/
def Function.returning (f : Function) (stmts : List Stmt) (e : Expr) (line start : Nat) :
    Function :=
  { f with body := .block (.mk (stmts ++ [.ret (some e) line]) start) }

namespace Run

/-- Executes statements and, if they complete, evaluates what comes behind them.  Gives the state
    and the value that it is settled with. -/
def settlementAfter (call : Invoke) (stmts : List Stmt) (e : Expr) :
    Run (Option (PromiseState × Value)) := do
  match ← execAll call stmts with
  | .completed => return some (← settlement (← eval call true e.operand))
  | .returned _ | .suspended _ => return none

/-- Shows that a function is called. -/
def showCall (label : String) (line : Nat) : Run Unit := do
  emitAll [.highlight line, .push label]
  note 2 ("call " ++ label)

/-- What a call returns at its end, if it comes so far without being suspended. -/
def callOperand (f : Function) (stmts : List Stmt) (e : Expr) (args : List Value) (label : String)
    (line : Nat) : Run (Option (PromiseState × Value)) := do
  showCall label line
  modify (·.entered f args)
  hoist stmts
  withCalls fun call => settlementAfter call stmts e

/-- What the call of the promise `id` returns at its end, if a microtask makes it go on and it comes
    so far. -/
def resumeOperand (id : Nat) (e : Expr) (t : Microtask) : Run (Option (PromiseState × Value)) := do
  match t.reaction with
  | some (.resume k) =>
    let c ← continuationOf k
    if c.promise = some id ∧ t.state ≠ .rejected then
      modify (·.resumed c)
      emit (.push (c.function.name ++ "()"))
      match ← receive c.target (← settledValue t.value) with
      | .completed => withCalls fun call => settlementAfter call c.statements.dropLast e
      | .returned _ | .suspended _ => return none
    else return none
  | some (.link ..) | none => return none

/-- What an action gives, if it succeeds and gives something. -/
def given (act : Run (Option α)) (m : Machine) : Option α :=
  match act m with
  | .ok a _ => a
  | .error _ _ => none

end Run

/-- What the call of the promise `id` returns at its end in the turn of a microtask. -/
def Serving.operand (σ : Serving) (id : Nat) (e : Expr) : Option (PromiseState × Value) :=
  Run.given (do σ.shown; Run.resumeOperand id e σ.task) σ.before

namespace Run

/-- Declares a variable and runs the code behind the declaration. -/
def declareThen (x : String) (v : Value) (post : List Stmt) : Run Unit := do
  declareVariable x v
  discard (withCalls fun call => execAll call post)

/-- Calls a function, declares a variable for the result, and runs the code behind the declaration.
-/
def callThen (f : Function) (args : List Value) (label : String) (line : Nat) (x : String)
    (post : List Stmt) : Run Value := do
  let v ← withCalls fun call => call f args label line
  declareThen x v post
  return v

/-- Calls a function, declares a variable for the result, runs the code behind the declaration, and
    then microtasks until none is left. -/
def callThenDrain (f : Function) (args : List Value) (label : String) (line : Nat) (x : String)
    (post : List Stmt) : Run Value := do
  let v ← callThen f args label line x post
  drainMicrotasks
  return v

/-- The states and values that the expression is settled with each time when the call comes to
    return it at the end of its body: in the call itself, or when a microtask makes it go on. -/
def returnOperands (f : Function) (stmts : List Stmt) (e : Expr) (args : List Value)
    (label : String) (line : Nat) (x : String) (post : List Stmt) (m : Machine) :
    List (PromiseState × Value) :=
  (given (callOperand f stmts e args label line) m).toList ++
    (servingsAfter (callThen f args label line x post) drainServings m).filterMap
      (·.operand m.promises.size e)

/-! ## The last statement -/

variable {m m' m1 m1' : Machine} {call : Invoke} {outcome outcome' : Outcome} {frame : Frame}

/-- Whether a promise is marked does not matter for what an expression gives. -/
theorem eval_consumed (h : eval call false e m = .ok v m1) :
    ∃ m2, eval call true e m = .ok v m2 ∧ m2.promises = m1.promises := by
  have hmake {maker : Maker} {vs : List Value} {line : Nat} {m m1 : Machine}
      (h : makePromise maker false vs line m = .ok v m1) :
      ∃ m2, makePromise maker true vs line m = .ok v m2 ∧ m2.promises = m1.promises := by
    obtain ⟨_, ma, hemit, h⟩ := bind_eq_ok h
    obtain ⟨id, mb, hmade, h⟩ := bind_eq_ok h
    have hconsumed : makePromise maker true vs line m = .ok (.promise id)
        { mb with rootState := (mb.promises[id]?.getD { state := .fulfilled }).state } := by
      rw [makePromise, bind_of_ok hemit, bind_of_ok hmade]
      rfl
    obtain ⟨p, _, ⟨⟩, h⟩ := bind_eq_ok h
    obtain ⟨_, _, ⟨⟩, h⟩ := bind_eq_ok h
    split at h
    · -- the microtask that marks the promise is all that is added
      obtain ⟨_, _, ⟨⟩, h⟩ := bind_eq_ok h
      obtain ⟨_, _, hmark, ⟨⟩⟩ := bind_eq_ok h
      obtain ⟨log, rfl⟩ := enqueue_inv hmark
      exact ⟨_, hconsumed, rfl⟩
    · cases h
      exact ⟨_, hconsumed, rfl⟩
  cases e with
  | call callee args line =>
    obtain ⟨_, m0, hnote, h⟩ := bind_eq_ok h
    have hnoted (c : Bool) : eval call c (.call callee args line) m = _ :=
      bind_of_ok hnote _
    rw [hnoted]
    cases hshape : CallShape.ofCallee callee with
    | promise maker =>
      simp only [hshape] at h ⊢
      obtain ⟨vs, m2, hvs, h⟩ := bind_eq_ok h
      rw [bind_of_ok hvs]
      exact hmake h
    | _ =>
      simp only [hshape] at h ⊢
      exact ⟨m1, h, rfl⟩
  | _ => exact ⟨m1, h, rfl⟩

theorem exec_return_await_inv (hframe : m.frames.head? = some frame)
    (hasync : frame.function.isAsync = true)
    (h : exec call (.ret (some (.await e awaitLine)) line) m = .ok outcome m1) :
    ∃ v m2 k, eval call true e m = .ok v m2 ∧ suspend frame v .ret m2 = .ok k m1 ∧
      outcome = .suspended k := by
  have hself : asyncFrame? m = .ok (some frame) m := by
    rw [asyncFrame_apply, hframe, Option.filter_some, if_pos hasync]
  obtain ⟨a, m2, ha, h⟩ := bind_eq_ok h
  obtain ⟨o, m3, ho, ha⟩ := bind_eq_ok ha
  rw [hself] at ho
  cases ho
  obtain ⟨v, m4, hv, ha⟩ := bind_eq_ok ha
  obtain ⟨k, m5, hk, ha⟩ := bind_eq_ok ha
  cases ha
  cases h
  exact ⟨v, m4, k, hv, hk, rfl⟩

theorem exec_return_inv (he : ∀ e' line', e ≠ .await e' line')
    (h : exec call (.ret (some e) line) m = .ok outcome m1) :
    ∃ v, eval call false e m = .ok v m1 ∧ outcome = .returned v := by
  have hplain : evalAwaiting call .ret e = do return .value (← eval call false e) := by
    cases e with
    | await e' line' => exact absurd rfl (he e' line')
    | _ => rfl
  obtain ⟨a, m2, ha, h⟩ := bind_eq_ok h
  rw [hplain] at ha
  obtain ⟨v, m3, hv, ha⟩ := bind_eq_ok ha
  cases ha
  cases h
  exact ⟨v, hv, rfl⟩

end Run

/-- Both properties hold of a state each, which is `fulfilled` or the given one. -/
def Ends (s : PromiseState) (P P' : PromiseState → Prop) : Prop :=
  ∃ s1 s2, (s1 = .fulfilled ∨ s1 = s) ∧ (s2 = .fulfilled ∨ s2 = s) ∧ P s1 ∧ P' s2

theorem Ends.imp {s : PromiseState} {P P' Q Q' : PromiseState → Prop} (h : Ends s P P')
    (hs : s ≠ .pending) (hP : ∀ s, s ≠ .pending → P s → Q s)
    (hP' : ∀ s, s ≠ .pending → P' s → Q' s) : Ends s Q Q' := by
  have hsettled {s' : PromiseState} (h : s' = .fulfilled ∨ s' = s) : s' ≠ .pending := by
    rcases h with rfl | rfl
    · nofun
    · exact hs
  obtain ⟨s1, s2, h1, h2, hp, hp'⟩ := h
  exact ⟨s1, s2, h1, h2, hP s1 (hsettled h1) hp, hP' s2 (hsettled h2) hp'⟩

/-- One call returns `e` at its end, where the other one returns `await e`. -/
def Swap.awaiting (id : Nat) (e : Expr) (line awaitLine : Nat) : Swap where
  promise := id
  last := .ret (some e) line
  last' := .ret (some (.await e awaitLine)) line

namespace Machine

theorem Grows.cursor_le {m m' : Machine} (h : Grows m m') (hm : m.cursor ≤ m.microtasks.size) :
    m'.cursor ≤ m'.microtasks.size := by
  obtain ⟨l, hl⟩ := h.microtasks
  have hsize := congrArg List.length hl
  simp only [List.length_append, Array.length_toList] at hsize
  rw [h.cursor]
  omega

theorem Twin.cursor_le {δ : Swap} {m m' : Machine} (h : m.Twin δ n m')
    (hm : m.cursor ≤ m.microtasks.size) : m'.cursor ≤ m'.microtasks.size := by
  rw [h.rest]
  exact hm

end Machine

namespace Run

open Machine

variable {m m' m1 m1' : Machine} {outcome outcome' : Outcome} {frame : Frame} {δ : Swap}

/-- The calls come to their last statements.  What `e` is settled with is what both of them leave
    their promises with. -/
theorem exec_return_concludes (hm : m.Twin δ n m') (hframe : m.frames.head? = some frame)
    (hasync : frame.function.isAsync = true) (hpromise : frame.promise = some id)
    (hcursor : m.cursor ≤ m.microtasks.size)
    (h : exec (invoke depth) (.ret (some e) line) m = .ok outcome m1)
    (h' : exec (invoke depth) (.ret (some (.await e awaitLine)) line) m' = .ok outcome' m1') :
    ∃ v m2, eval (invoke depth) true e.operand m = .ok v m2 ∧
      ∀ s x, settlement v m2 = .ok (s, x) m2 → s ≠ .pending → x.promise? = none →
        Ends s (m1.Concludes id x · outcome) (m1'.Concludes id x · outcome') := by
  obtain ⟨frame', hframe', htwin⟩ := hm.head hframe
  have hasync' : frame'.function.isAsync = true := by
    obtain ⟨body, hbody⟩ := htwin.function
    rw [hbody]
    exact hasync
  have hpromise' : frame'.promise = some id := htwin.promise.trans hpromise
  -- what both of them await
  have hawaited {e : Expr} {v : Value} {m2 : Machine}
      (heval : eval (invoke depth) true e m = .ok v m2) :
      m2.cursor ≤ m2.microtasks.size ∧
      ∃ m2', eval (invoke depth) true e m' = .ok v m2' ∧ m2.Twin δ n m2' := by
    have hwalk := (eval_walks (@invoke_walks false depth) true e m).walk_of_ok heval
    obtain ⟨_, m2', heval', rfl, hm2⟩ :=
      eval_inStep (invoke_inStep depth) true e m m' hm v m2 heval
    exact ⟨hwalk.grows.cursor_le hcursor, m2', heval', hm2⟩
  obtain ⟨v', m2', k', heval', hsuspend', rfl⟩ := exec_return_await_inv hframe' hasync' h'
  by_cases he : ∃ e' line', e = .await e' line'
  · obtain ⟨e', line', rfl⟩ := he
    obtain ⟨v, m2, k, heval, hsuspend, rfl⟩ := exec_return_await_inv hframe hasync h
    obtain ⟨hcursor2, m3', heval'', hm2⟩ := hawaited heval
    obtain ⟨_, _, hinner, hvalue⟩ := bind_eq_ok heval'
    rw [heval''] at hinner
    cases hinner
    refine ⟨v, m2, heval, fun s x hsettled hs hx => ?_⟩
    have hsettled' := settlement_of_promises hsettled hm2.promises_eq
    rw [(settlement_inv hsettled').2.1] at hvalue
    cases hvalue
    refine ⟨s, .fulfilled, .inr rfl, .inl rfl, .suspended ?_, .suspended ?_⟩
    · exact suspend_pledged hpromise hcursor2 hsettled hs hsuspend
    · exact suspend_pledged hpromise' (hm2.cursor_le hcursor2)
        (settlement_of_no_promise hx _) nofun hsuspend'
  · have hplain : ∀ e' line', e ≠ .await e' line' := fun e' line' heq => he ⟨e', line', heq⟩
    have hoperand : e.operand = e := by
      cases e with
      | await e' line' => exact absurd rfl (hplain e' line')
      | _ => rfl
    obtain ⟨v, heval, rfl⟩ := exec_return_inv hplain h
    obtain ⟨m2, hconsumed, hpromises⟩ := eval_consumed heval
    obtain ⟨hcursor2, m3', heval'', hm2⟩ := hawaited hconsumed
    rw [heval''] at heval'
    cases heval'
    rw [hoperand]
    refine ⟨_, m2, hconsumed, fun s x hsettled hs hx => ?_⟩
    have hsettled' := settlement_of_promises hsettled hm2.promises_eq
    have hreturned := settlement_of_promises hsettled hpromises.symm
    refine ⟨.fulfilled, s, .inl rfl, .inr rfl, .returned hreturned, .suspended ?_⟩
    exact suspend_pledged hpromise' (hm2.cursor_le hcursor2) hsettled' hs hsuspend'

/-- The bodies are in step up to their last statements: they end before, in the same way, or they
    come to these statements in states that are twins. -/
theorem execAll_swapped (hm : m.Twin δ n m') (hframe : m.frames.head? = some frame)
    (hpromise : frame.promise = some δ.promise)
    (h : execAll (invoke depth) (stmts ++ [δ.last]) m = .ok outcome m1)
    (h' : execAll (invoke depth) (stmts ++ [δ.last']) m' = .ok outcome' m1') :
    (outcome' = outcome ∧ m1.Twin δ m1.continuations.size m1') ∨
    ∃ m2 m2', execAll (invoke depth) stmts m = .ok .completed m2 ∧ m2.Twin δ n m2' ∧
      exec (invoke depth) δ.last m2 = .ok outcome m1 ∧
      exec (invoke depth) δ.last' m2' = .ok outcome' m1' := by
  rw [execAll_append] at h h'
  obtain ⟨_, m2, hstmts, h⟩ := bind_eq_ok h
  obtain ⟨o, m2', hstmts', ⟨rfl, hout⟩, hm2⟩ :=
    execAll_inStep (invoke_inStep depth) stmts m m' hm _ m2 hstmts
  have h' := (bind_of_ok hstmts' _).symm.trans h'
  cases o with
  | completed =>
    rw [← execAll_singleton, ← execAll_singleton]
    exact .inr ⟨m2, m2', hstmts, hm2, h, h'⟩
  | returned v =>
    cases h
    cases h'
    exact .inl ⟨rfl, hm2.settle⟩
  | suspended k =>
    cases h
    cases h'
    -- the last statements are put behind what the suspended ones leave to do
    have hwalk := (execAll_leads (@invoke_walks false depth) stmts m nofun).walk_of_ok hstmts
    obtain ⟨frame', c, hframe', hasync, _, hc, hf, hp⟩ := hwalk.suspended_frame
    cases hframe.symm.trans hframe'
    refine .inl ⟨rfl, hm2.deferred_last (hout k rfl) hc (hp.trans hpromise) ?_⟩
    rw [hf]
    exact hasync

/-- The bodies of the two calls end in the same way, or the settlement of what is returned at their
    end is what they leave their promises with. -/
theorem execAll_awaiting (hm : m.Twin (.awaiting id e line awaitLine) n m')
    (hframe : m.frames.head? = some frame) (hasync : frame.function.isAsync = true)
    (hpromise : frame.promise = some id) (hcursor : m.cursor ≤ m.microtasks.size)
    (h : execAll (invoke depth) (stmts ++ [.ret (some e) line]) m = .ok outcome m1)
    (h' : execAll (invoke depth) (stmts ++ [.ret (some (.await e awaitLine)) line]) m' =
      .ok outcome' m1') :
    (outcome' = outcome ∧ m1.Twin (.awaiting id e line awaitLine) m1.continuations.size m1') ∨
    ∃ s x m2, settlementAfter (invoke depth) stmts e m = .ok (some (s, x)) m2 ∧
      (s ≠ .pending → x.promise? = none →
        Ends s (m1.Concludes id x · outcome) (m1'.Concludes id x · outcome')) := by
  refine (execAll_swapped hm hframe hpromise h h').imp_right ?_
  rintro ⟨m2, m2', hstmts, hm2, hlast, hlast'⟩
  have hwalk := (execAll_leads (@invoke_walks false depth) stmts m nofun).walk_of_ok hstmts
  have hframe2 : m2.frames.head? = some frame := by rw [hwalk.context.2, hframe]
  obtain ⟨v, m3, heval, hends⟩ := exec_return_concludes hm2 hframe2 hasync hpromise
    (hwalk.grows.cursor_le hcursor) hlast hlast'
  obtain ⟨⟨s, x⟩, hsettled⟩ : ∃ o, settlement v m3 = .ok o m3 := by
    cases v <;> exact ⟨_, rfl⟩
  refine ⟨s, x, m3, ?_, hends s x hsettled⟩
  rw [settlementAfter, bind_of_ok hstmts]
  dsimp only
  rw [bind_of_ok heval, bind_of_ok hsettled]
  rfl

/-! ## The end of a call -/

/-- Shows the end of a call and settles its promise, unless it is suspended. -/
def close (promise : Option Nat) (outcome : Outcome) : Run Unit := do
  emit .pop
  finish promise outcome

theorem close_inStep (promise : Option Nat) (outcome : Outcome) :
    InStep δ n Eq (close promise outcome) (close promise outcome) :=
  (InStep.emit _).next fun _ => .of_aloof (finish_aloof promise outcome)

theorem close_pledged {a : Machine} {s : PromiseState} {x : Value}
    (h : m.Concludes id x s outcome) (hid : id < m.promises.size)
    (hclose : close (some id) outcome (m.back a) = .ok () m1) : m1.Pledged id s x := by
  obtain ⟨_, m2, hpop, hfinish⟩ := bind_eq_ok hclose
  obtain ⟨log, rfl⟩ := emit_inv hpop
  have hpopped : (((m.back a).emitted [.pop]).logged log).Concludes id x s outcome :=
    h.of_eq rfl rfl rfl rfl
  exact hpopped.finish hid hfinish

end Run

namespace Machine

/-- Two runs are in step, or what was returned at the end of the call is pledged in both of them. -/
inductive Matched (δ : Swap) (operand : Option (PromiseState × Value)) (m m' : Machine) : Prop
  | inStep (h : m.Twin δ m.continuations.size m')
  | apart {s : PromiseState} {x : Value} (hoperand : operand = some (s, x))
      (h : s ≠ .pending → x.promise? = none →
        Ends s (m.Pledged δ.promise · x) (m'.Pledged δ.promise · x))

end Machine

namespace Run

open Machine

variable {m m' m1 m1' m2 m2' : Machine} {outcome outcome' : Outcome} {δ : Swap} {args : List Value}
  {f : Function} {c c' : Continuation} {label x : String} {t : Microtask}
  {operand : Option (PromiseState × Value)} {post : List Stmt}

theorem close_matched {a a' : Machine} {operand : Option (PromiseState × Value)}
    (hscope : a'.scope = a.scope) (hframes : List.Forall₂ Frame.Twin a.frames a'.frames)
    (hid : δ.promise < m1.promises.size) (hid' : δ.promise < m1'.promises.size)
    (hbody : (outcome' = outcome ∧ m1.Twin δ m1.continuations.size m1') ∨
      ∃ s x, operand = some (s, x) ∧ (s ≠ .pending → x.promise? = none →
        Ends s (m1.Concludes δ.promise x · outcome) (m1'.Concludes δ.promise x · outcome')))
    (h : close (some δ.promise) outcome (m1.back a) = .ok () m2)
    (h' : close (some δ.promise) outcome' (m1'.back a') = .ok () m2') :
    Matched δ operand m2 m2' := by
  rcases hbody with ⟨rfl, hm1⟩ | ⟨s, x, hoperand, hends⟩
  · have hback : (m1.back a).Twin δ m1.continuations.size (m1'.back a') := by
      have hback' : m1'.back a' = { m1' with scope := a.scope, frames := a'.frames } := by
        rw [← hscope]
        rfl
      rw [hback']
      exact hm1.moved a.scope hframes
    obtain ⟨_, _, hclose, _, hm2⟩ := close_inStep _ outcome' _ _ hback () m2 h
    rw [hclose] at h'
    cases h'
    exact .inStep hm2.settle
  · refine .apart hoperand fun hs hx => (hends hs hx).imp hs ?_ ?_
    · exact fun s' _ hconcludes => close_pledged hconcludes hid h
    · exact fun s' _ hconcludes => close_pledged hconcludes hid' h'

/-! ## The call -/

theorem showCall_inv (h : showCall label line m = .ok () m1) :
    m.Room 2 ∧ ∃ log, m1 = (m.emitted [.highlight line, .push label]).logged log := by
  obtain ⟨_, m2, hemit, hnote⟩ := bind_eq_ok h
  rcases emitAll_cases (.highlight line) [.push label] m with ⟨hroom, log, hok⟩ | ⟨_, _, _, herror⟩
  · cases hok.symm.trans hemit
    cases hnote
    exact ⟨hroom, _, rfl⟩
  · cases herror.symm.trans hemit

/-- A call of an async function: it is shown, its body runs, and its end is shown. -/
theorem invoke_inv (hasync : f.isAsync = true) (h : invoke depth f args label line m = .ok v m') :
    ∃ d m0 outcome m1, depth = d + 1 ∧ showCall label line m = .ok () m0 ∧
      runBody (invoke d) f.body (m0.entered f args) = .ok outcome m1 ∧
      close (some m0.promises.size) outcome (m1.back m0) = .ok () m' ∧
      v = .promise m0.promises.size := by
  cases depth with
  | zero =>
    obtain ⟨_, _, _, h⟩ := bind_eq_ok h
    obtain ⟨_, _, _, h⟩ := bind_eq_ok h
    cases h
  | succ d =>
    obtain ⟨_, m2, hemit, h⟩ := bind_eq_ok h
    obtain ⟨_, m0, hnote, h⟩ := bind_eq_ok h
    obtain ⟨r, m3, hcall, h⟩ := bind_eq_ok h
    obtain ⟨_, m4, hpop, h⟩ := bind_eq_ok h
    obtain ⟨_, m5, hfinish, ⟨⟩⟩ := bind_eq_ok h
    rw [runCall_apply] at hcall
    cases hbody : runBody (invoke d) f.body (m0.entered f args) with
    | error fault m1 =>
      rw [hbody] at hcall
      cases hcall
    | ok outcome m1 =>
      rw [hbody, hasync] at hcall
      cases hcall
      exact ⟨d, m0, outcome, m1, rfl, (bind_of_ok hemit _).trans hnote, hbody,
        (bind_of_ok hpop _).trans hfinish, rfl⟩

theorem hoist_return (stmts : List Stmt) (e : Option Expr) (line : Nat) :
    hoist (stmts ++ [.ret e line]) = hoist stmts := by
  induction stmts with
  | nil => rfl
  | cons s rest ih =>
    cases s with
    | function name params body isAsync line =>
      exact congrArg (bindFunction name params body isAsync line >>= fun _ => ·) ih
    | _ => exact ih

theorem entered_twin (δ : Swap) (m : Machine) (f : Function) (stmts : List Stmt) (e e' : Expr)
    (line start : Nat) (args : List Value) :
    (m.entered (f.returning stmts e line start) args).Twin δ m.continuations.size
      (m.entered (f.returning stmts e' line start) args) :=
  (Twin.refl δ (m.entered (f.returning stmts e line start) args)).moved _
    (.cons ⟨⟨_, rfl⟩, rfl⟩ (List.forall₂_same.2 fun frame _ => .refl frame))

theorem given_of_ok {act : Run (Option α)} {a : Option α} (h : act m = .ok a m1) :
    given act m = a := by
  rw [given, h]

theorem runBody_made (hasync : f.isAsync = true)
    (h : runBody (invoke depth) f.body (m.entered f args) = .ok outcome m1) :
    m.promises.size < m1.promises.size := by
  have hwalk := (runBody_leads (@invoke_walks false depth) f.body _ nofun).walk_of_ok h
  refine Nat.lt_of_lt_of_le ?_ hwalk.grows.promises
  simp [entered, hasync]

/-- Both bodies end before the `return`, or both come to it with the same value. -/
theorem runBody_awaiting {f : Function} {start : Nat} {args : List Value}
    (hasync : f.isAsync = true) (hcursor : m.cursor ≤ m.microtasks.size)
    (h : runBody (invoke depth) (f.returning stmts e line start).body
      (m.entered (f.returning stmts e line start) args) = .ok outcome m1)
    (h' : runBody (invoke depth) (f.returning stmts (.await e awaitLine) line start).body
      (m.entered (f.returning stmts (.await e awaitLine) line start) args) = .ok outcome' m1') :
    (outcome' = outcome ∧
      m1.Twin (.awaiting m.promises.size e line awaitLine) m1.continuations.size m1') ∨
    ∃ s x m2 m3, hoist stmts (m.entered (f.returning stmts e line start) args) = .ok () m2 ∧
      settlementAfter (invoke depth) stmts e m2 = .ok (some (s, x)) m3 ∧
      (s ≠ .pending → x.promise? = none →
        Ends s (m1.Concludes m.promises.size x · outcome)
          (m1'.Concludes m.promises.size x · outcome')) := by
  obtain ⟨_, m2, hhoist, h⟩ := bind_eq_ok h
  obtain ⟨_, m2', hhoist', h'⟩ := bind_eq_ok h'
  replace hhoist := (congrFun (hoist_return stmts _ line) _).symm.trans hhoist
  replace hhoist' := (congrFun (hoist_return stmts _ line) _).symm.trans hhoist'
  obtain ⟨_, _, hsame, _, hm2⟩ := InStep.of_aloof (hoist_aloof stmts) _ _
    (entered_twin (.awaiting m.promises.size e line awaitLine) m f stmts e (.await e awaitLine)
      line start args) () m2 hhoist
  cases hsame.symm.trans hhoist'
  have hwalk := (hoist_walks stmts _ : Machine.Leads false 0 _ _ _).walk_of_ok hhoist
  have hframe : m2.frames.head? =
      some ⟨f.returning stmts e line start, some m.promises.size⟩ := by
    rw [hwalk.context.2]
    simp [entered, Function.returning, hasync]
  refine (execAll_awaiting hm2 hframe hasync rfl (hwalk.grows.cursor_le hcursor) h h').imp_right ?_
  rintro ⟨s, x, m3, hoperand, hends⟩
  exact ⟨s, x, m2, m3, hhoist, hoperand, hends⟩

/-- Both calls give the same promise.  They are in step, or have come to their ends. -/
theorem call_matched {f : Function} {start callLine : Nat} {args : List Value} {label : String}
    {v v' : Value} (hasync : f.isAsync = true) (hcursor : m.cursor ≤ m.microtasks.size)
    (h : withCalls (fun call => call (f.returning stmts e line start) args label callLine) m =
      .ok v m1) (h' : withCalls (fun call =>
      call (f.returning stmts (.await e awaitLine) line start) args label callLine) m =
      .ok v' m1') : v = .promise m.promises.size ∧ v' = .promise m.promises.size ∧
      Matched (.awaiting m.promises.size e line awaitLine)
        (given (callOperand (f.returning stmts e line start) stmts e args label callLine) m)
        m1 m1' := by
  obtain ⟨d, m0, outcome, m2, hd, hshow, hbody, hclose, rfl⟩ :=
    invoke_inv (f := f.returning stmts e line start) hasync h
  obtain ⟨_, _, outcome', m2', hd', hshow', hbody', hclose', rfl⟩ :=
    invoke_inv (f := f.returning stmts (.await e awaitLine) line start) hasync h'
  cases hshow.symm.trans hshow'
  cases hd.symm.trans hd'
  obtain ⟨_, log, rfl⟩ := showCall_inv hshow
  refine ⟨rfl, rfl, ?_⟩
  have hmade := runBody_made (f := f.returning stmts e line start) hasync hbody
  have hmade' := runBody_made (f := f.returning stmts (.await e awaitLine) line start) hasync hbody'
  have hswapped := runBody_awaiting
    (m := (m.emitted [.highlight callLine, .push label]).logged log) hasync hcursor hbody hbody'
  refine close_matched rfl (List.forall₂_same.2 fun frame _ => .refl frame) hmade hmade' ?_ hclose
    hclose'
  refine hswapped.imp_right ?_
  rintro ⟨s, x, m3, m4, hhoist, hoperand, hends⟩
  -- the functions of the body were bound, which enters no call
  have hbudget : m3.callBudget = d := by
    have hframes := ((hoist_aloof stmts).kept hhoist).2.1
    rw [callBudget] at hd ⊢
    rw [hframes]
    change maxCallDepth - (m.frames.length + 1) = d
    omega
  rw [← hbudget] at hoperand
  have hgiven : callOperand (f.returning stmts e line start) stmts e args label callLine m =
      .ok (some (s, x)) m4 :=
    (bind_of_ok hshow _).trans ((bind_of_ok hhoist _).trans hoperand)
  exact ⟨s, x, given_of_ok hgiven, hends⟩

/-! ## Turns -/

theorem resume_apply {state : PromiseState} (hstate : state ≠ .rejected) (value : Value)
    (m : Machine) : resume c state value m = (do
      emit (.push (c.function.name ++ "()"))
      let outcome ← restoring m.scope m.frames do runRest c (← settledValue value)
      close c.promise outcome : Run Unit) (m.resumed c) := by
  rw [resume, if_neg hstate]
  rfl

theorem resumed_twin (hm : m.Twin δ n m') (hc : c.Twin δ c') :
    (m.resumed c).Twin δ n (m'.resumed c') := by
  have hresumed : m'.resumed c' =
      { m' with scope := c.scope, frames := ⟨c'.function, c'.promise⟩ :: m'.frames } := by
    rw [← hc.scope]
    rfl
  rw [hresumed]
  exact hm.moved c.scope (.cons ⟨hc.function, hc.promise⟩ hm.frames)

theorem resume_rejected_inStep (hc : c.Twin δ c') (value : Value) :
    InStep δ n Eq (resume c .rejected value) (resume c' .rejected value) := by
  rw [resume, resume, if_pos rfl, if_pos rfl, hc.promise, hc.name_eq]
  refine (InStep.of_aloof (note_aloof _ _)).next fun _ => ?_
  cases c.promise with
  | none => exact .same ()
  | some id => exact .of_aloof (settle_aloof id .rejected value)

/-- A suspended call that has the same left to do goes on in step. -/
theorem resume_inStep {state : PromiseState} (hc : c.Twin δ c')
    (hstmts : c'.statements = c.statements) (hstate : state ≠ .rejected) (value : Value) :
    InStep δ n Eq (resume c state value) (resume c' state value) := by
  intro m m' hm u m1 h
  rw [resume_apply hstate] at h ⊢
  have hrest : InStep δ n Eq (do runRest c (← settledValue value))
      (do runRest c' (← settledValue value)) := by
    refine (InStep.of_aloof (settledValue_aloof value)).next fun v => ?_
    rw [runRest, runRest, hc.target, hstmts]
    refine (InStep.of_aloof (receive_aloof c.target v)).next fun outcome => ?_
    cases outcome with
    | completed =>
      refine withCalls_inStep fun call hcall => ?_
      exact (execAll_inStep hcall c.statements).imp fun _ _ hout => hout.1.symm
    | _ => exact .same _
  rw [hm.scope_eq, hc.promise, hc.name_eq]
  refine InStep.next (.emit _) (fun _ => ?_) _ _
    (resumed_twin hm hc) u m1 h
  exact (hrest.restoring hm.frames).next fun outcome => close_inStep c.promise outcome

/-- What two suspended calls have left to do, with the last statements still to come. -/
theorem runRest_awaiting (hm : m.Twin (.awaiting id e line awaitLine) n m')
    (hframe : m.frames.head? = some ⟨c.function, c.promise⟩)
    (hcursor : m.cursor ≤ m.microtasks.size) (htarget : c'.target = c.target)
    (hpromise : c.promise = some id) (hasync : c.function.isAsync = true)
    (hstmts : c.statements = stmts ++ [.ret (some e) line])
    (hstmts' : c'.statements = stmts ++ [.ret (some (.await e awaitLine)) line])
    (h : runRest c v m = .ok outcome m1) (h' : runRest c' v m' = .ok outcome' m1') :
    (outcome' = outcome ∧ m1.Twin (.awaiting id e line awaitLine) m1.continuations.size m1') ∨
    ∃ s x m2 m3, receive c.target v m = .ok .completed m2 ∧
      settlementAfter (invoke m2.callBudget) stmts e m2 = .ok (some (s, x)) m3 ∧
      (s ≠ .pending → x.promise? = none →
        Ends s (m1.Concludes id x · outcome) (m1'.Concludes id x · outcome')) := by
  obtain ⟨received, m2, hreceive, hrun⟩ := bind_eq_ok h
  obtain ⟨_, m2', hreceive', hrun'⟩ := bind_eq_ok h'
  rw [htarget] at hreceive'
  obtain ⟨_, _, hsame, rfl, hm2⟩ := InStep.of_aloof (receive_aloof c.target v) _ _ hm
    received m2 hreceive
  cases hsame.symm.trans hreceive'
  cases received with
  | returned u | suspended j =>
    -- the body ends with what it waited for, ahead of its last statement
    cases hrun
    cases hrun'
    exact .inl ⟨rfl, hm2.settle⟩
  | completed =>
    have hwalk := (receive_leads c.target v m : Machine.Leads false 0 _ _ _).walk_of_ok hreceive
    have hframe2 : m2.frames.head? = some ⟨c.function, c.promise⟩ := by
      rw [hwalk.context.2, hframe]
    have hbody : execAll (invoke m2.callBudget) (stmts ++ [.ret (some e) line]) m2 =
        .ok outcome m1 := by
      rw [← hstmts]
      exact hrun
    have hbody' : execAll (invoke m2.callBudget)
        (stmts ++ [.ret (some (.await e awaitLine)) line]) m2' = .ok outcome' m1' := by
      rw [← hstmts', ← hm2.callBudget_eq]
      exact hrun'
    refine (execAll_awaiting hm2 hframe2 hasync hpromise (hwalk.grows.cursor_le hcursor) hbody
      hbody').imp_right ?_
    rintro ⟨s, x, m3, hoperand, hends⟩
    exact ⟨s, x, m2, m3, hreceive, hoperand, hends⟩

/-- The call of the promise goes on in both runs, with the last statement still to come. -/
theorem resume_matched {k : Nat} (hm : m.Twin (.awaiting id e line awaitLine) n m')
    (hcursor : m.cursor ≤ m.microtasks.size) (hid : id < m.promises.size)
    (hreaction : t.reaction = some (.resume k)) (hk : m.continuationAt k = c)
    (hc : c.Twin (.awaiting id e line awaitLine) c') (hpromise : c.promise = some id)
    (hasync : c.function.isAsync = true) (hstmts : c.statements = stmts ++ [.ret (some e) line])
    (hstmts' : c'.statements = stmts ++ [.ret (some (.await e awaitLine)) line])
    (hstate : t.state ≠ .rejected) (h : resume c t.state t.value m = .ok () m1)
    (h' : resume c' t.state t.value m' = .ok () m1') :
    Matched (.awaiting id e line awaitLine) (given (resumeOperand id e t) m) m1 m1' := by
  obtain ⟨m2, v, outcome, m3, m4, hpush, hv, hrest, hpop, hfinish⟩ := resume_inv hstate h
  obtain ⟨m2', v', outcome', m3', m4', hpush', hv', hrest', hpop', hfinish'⟩ :=
    resume_inv hstate h'
  rw [hpromise] at hfinish
  rw [hc.promise, hpromise] at hfinish'
  rw [hc.name_eq] at hpush'
  -- both show the call, and receive the same value
  obtain ⟨_, _, hsame, _, hm2⟩ := InStep.emit _ _ _ (resumed_twin hm hc) () m2 hpush
  cases hsame.symm.trans hpush'
  obtain ⟨_, _, hsame, rfl, _⟩ := InStep.of_aloof (settledValue_aloof t.value) _ _ hm2 v m2 hv
  cases hsame.symm.trans hv'
  obtain ⟨hid2, hcursor2, hframe2⟩ : id < m2.promises.size ∧ m2.cursor ≤ m2.microtasks.size ∧
      m2.frames.head? = some ⟨c.function, c.promise⟩ := by
    obtain ⟨log, rfl⟩ := emit_inv hpush
    exact ⟨hid, hcursor, rfl⟩
  have hmade : id < m3.promises.size := by
    have hwalk := (runRest_leads c v m2 nofun : Machine.Leads false _ _ _ _).walk_of_ok hrest
    exact Nat.lt_of_lt_of_le hid2 hwalk.grows.promises
  have hmade' : id < m3'.promises.size := by
    have hwalk := (runRest_leads c' v _ nofun : Machine.Leads false _ _ _ _).walk_of_ok hrest'
    rw [← hm2.promises_eq] at hid2
    exact Nat.lt_of_lt_of_le hid2 hwalk.grows.promises
  refine close_matched hm.scope_eq hm.frames hmade hmade' ?_ ((bind_of_ok hpop _).trans hfinish)
    ((bind_of_ok hpop' _).trans hfinish')
  refine (runRest_awaiting hm2 hframe2 hcursor2 hc.target hpromise hasync hstmts hstmts' hrest
    hrest').imp_right ?_
  rintro ⟨s, x, m5, m6, hreceive, hoperand, hends⟩
  have hgiven : resumeOperand id e t m = .ok (some (s, x)) m6 := by
    have hcont : continuationOf k m = .ok c m := congrArg (EStateM.Result.ok · m) hk
    have hbefore : stmts = c.statements.dropLast := by rw [hstmts, List.dropLast_concat]
    rw [hbefore] at hoperand
    rw [resumeOperand, hreaction]
    dsimp only
    rw [bind_of_ok hcont, if_pos ⟨hpromise, hstate⟩]
    exact (bind_of_ok hpush _).trans ((bind_of_ok hv _).trans
      ((bind_of_ok hreceive _).trans hoperand))
  exact ⟨s, x, given_of_ok hgiven, hends⟩

/-- A microtask has its turn in both runs.  They stay in step, or the call has come to its end. -/
theorem runMicrotask_matched (hm : m.Twin (.awaiting id e line awaitLine) m.continuations.size m')
    (hcursor : m.cursor ≤ m.microtasks.size) (hid : id < m.promises.size)
    (h : runMicrotask t m = .ok () m1) (h' : runMicrotask t m' = .ok () m1') :
    Matched (.awaiting id e line awaitLine) (given (resumeOperand id e t) m) m1 m1' := by
  have hstep {act act' : Run Unit}
      (hact : InStep (.awaiting id e line awaitLine) m.continuations.size Eq act act')
      (h : act m = .ok () m1) (h' : act' m' = .ok () m1') {o : Option (PromiseState × Value)} :
      Matched (.awaiting id e line awaitLine) o m1 m1' := by
    obtain ⟨_, _, hsame, _, hm1⟩ := hact m m' hm () m1 h
    cases hsame.symm.trans h'
    exact .inStep hm1.settle
  unfold runMicrotask at h h'
  cases hreaction : t.reaction with
  | none =>
    rw [hreaction] at h h'
    exact hstep (.same ()) h h'
  | some r =>
    rw [hreaction] at h h'
    cases r with
    | link l callback derived =>
      refine hstep ((inStep_callbacks.runLink t.name t.scope l callback t.state t.value).next ?_) h h'
      exact fun r => .of_aloof (settle_aloof derived r.1 r.2)
    | resume k =>
      change resume (m.continuationAt k) t.state t.value m = .ok () m1 at h
      change resume (m'.continuationAt k) t.state t.value m' = .ok () m1' at h'
      have hc := hm.continuationAt k
      by_cases hstate : t.state = .rejected
      · rw [hstate] at h h'
        exact hstep (resume_rejected_inStep hc t.value) h h'
      rcases hc.statements with hstmts | ⟨hpromise, hasync, stmts, hstmts, hstmts'⟩
      · exact hstep (resume_inStep hc hstmts hstate t.value) h h'
      · -- the call whose last statements differ
        exact resume_matched hm hcursor hid hreaction rfl hc hpromise hasync hstmts hstmts'
          hstate h h'

/-! ## Draining the queue -/

theorem turnServings_turn {budget : Nat} (ht : m.microtasks[m.cursor]? = some t)
    (hshow : emitAll t.steps m.taken = .ok () m1) (hrun : runMicrotask t m1 = .ok () m2) :
    turnServings (budget + 1) m = ⟨t, m, m2⟩ :: turnServings budget m2 := by
  have hserve : serve t m.taken = .ok () m2 := (bind_of_ok hshow _).trans hrun
  rw [turnServings, takeMicrotask_apply, ht]
  dsimp only
  rw [servingsAfter_of_ok hserve]

theorem serving_operand {log : Log} (ht : m.microtasks[m.cursor]? = some t)
    (hshow : emitAll t.steps m.taken = .ok () ((m.taken.emitted t.steps).logged log)) :
    Serving.operand ⟨t, m, m2⟩ id e =
      given (resumeOperand id e t) ((m.taken.emitted t.steps).logged log) := by
  have htake : (discard takeMicrotask : Run PUnit) m = .ok ⟨⟩ m.taken := by
    rw [discard_apply, takeMicrotask_apply, ht]
  have htaken : Serving.shown ⟨t, m, m2⟩ m = .ok () ((m.taken.emitted t.steps).logged log) :=
    (bind_of_ok htake _).trans hshow
  rw [Serving.operand, given, bind_of_ok htaken, given]

/-- Microtasks have their turns in both runs, until none is left.  The runs end with the same
    promises, or in each of them the promise of the call is settled with what was returned. -/
theorem microtaskTurns_matched (budget : Nat)
    (hm : m.Twin (.awaiting id e line awaitLine) m.continuations.size m') (hs : m.Secure id)
    (hs' : m'.Secure id) (hsettled : ∀ o ∈ (turnServings budget m).filterMap (·.operand id e),
      o.1 ≠ .pending ∧ o.2.promise? = none)
    (h : microtaskTurns budget m = .ok () m1) (h' : microtaskTurns budget m' = .ok () m1') :
    (id < m1.promises.size ∧ m1'.promises = m1.promises) ∨
    ∃ o ∈ (turnServings budget m).filterMap (·.operand id e),
      Ends o.1 (m1.SettledAs id · o.2) (m1'.SettledAs id · o.2) := by
  induction budget generalizing m m' with
  | zero =>
    obtain ⟨_, rfl⟩ | ⟨_, _, _, _, hn, _⟩ := microtaskTurns_inv h
    · obtain ⟨_, rfl⟩ | ⟨_, _, _, _, hn, _⟩ := microtaskTurns_inv h'
      · exact .inl ⟨hs.firm.made, hm.promises_eq⟩
      · cases hn
    · cases hn
  | succ budget ih =>
    have hnext : m'.microtasks[m'.cursor]? = m.microtasks[m.cursor]? := by
      rw [hm.rest]
      rfl
    obtain ⟨hidle, rfl⟩ | ⟨_, t, log, m2, ⟨⟩, ht, hroom, hshow, hturn, hrest⟩ :=
      microtaskTurns_inv h
    · obtain ⟨_, rfl⟩ | ⟨_, _, _, _, _, ht', _⟩ := microtaskTurns_inv h'
      · exact .inl ⟨hs.firm.made, hm.promises_eq⟩
      · rw [hnext, hidle] at ht'
        cases ht'
    obtain ⟨hidle, rfl⟩ | ⟨_, t', log', m2', ⟨⟩, ht', hroom', hshow', hturn', hrest'⟩ :=
      microtaskTurns_inv h'
    · rw [hnext, ht] at hidle
      cases hidle
    obtain rfl : t = t' := Option.some.inj (ht.symm.trans (hnext.symm.trans ht'))
    -- both take the same task and show it
    obtain ⟨_, _, hsame, _, hshown⟩ := InStep.emitAll t.steps _ _ hm.taken () _ hshow
    cases hsame.symm.trans hshow'
    obtain ⟨_, _, hs2⟩ := secure_turn hs ht hroom hturn
    obtain ⟨_, _, hs2'⟩ := secure_turn hs' ht' hroom' hturn'
    have hcursor : ((m.taken.emitted t.steps).logged log).cursor ≤
        ((m.taken.emitted t.steps).logged log).microtasks.size :=
      (Array.getElem?_eq_some_iff.1 ht).1
    rw [turnServings_turn ht hshow hturn] at hsettled ⊢
    cases runMicrotask_matched hshown hcursor hs.firm.made hturn hturn' with
    | inStep hm2 =>
      have hlater {o : PromiseState × Value}
          (ho : o ∈ (turnServings budget m2).filterMap (·.operand id e)) :
          o ∈ (⟨t, m, m2⟩ :: turnServings budget m2).filterMap (·.operand id e) :=
        ((List.sublist_cons_self _ _).filterMap _).subset ho
      refine (ih hm2 hs2 hs2' (fun o ho => hsettled o (hlater ho)) hrest hrest').imp_right ?_
      rintro ⟨o, ho, hends⟩
      exact ⟨o, hlater ho, hends⟩
    | @apart s x hgiven hends =>
      have ho : (s, x) ∈ (⟨t, m, m2⟩ :: turnServings budget m2).filterMap (·.operand id e) :=
        List.mem_filterMap.2 ⟨_, List.mem_cons_self, (serving_operand ht hshow).trans hgiven⟩
      obtain ⟨hpending, hvalue⟩ := hsettled _ ho
      refine .inr ⟨_, ho, (hends hpending hvalue).imp hpending ?_ ?_⟩
      · exact fun _ hs' h => pledged_drained budget hs2 h hs' hvalue hrest
      · exact fun _ hs' h => pledged_drained budget hs2' h hs' hvalue hrest'

/-- The queue is drained in both runs, which are in step or have come to the end of the call. -/
theorem drainMicrotasks_matched {operand : Option (PromiseState × Value)}
    (hm : Matched (.awaiting id e line awaitLine) operand m m') (hs : m.Secure id)
    (hs' : m'.Secure id)
    (hsettled : ∀ o ∈ operand.toList ++ (drainServings m).filterMap (·.operand id e),
      o.1 ≠ .pending ∧ o.2.promise? = none)
    (h : drainMicrotasks m = .ok () m1) (h' : drainMicrotasks m' = .ok () m1') :
    (id < m1.promises.size ∧ m1'.promises = m1.promises) ∨
    ∃ o ∈ operand.toList ++ (drainServings m).filterMap (·.operand id e),
      Ends o.1 (m1.SettledAs id · o.2) (m1'.SettledAs id · o.2) := by
  cases hm with
  | inStep htwin =>
    have hbudget : m'.processed = m.processed := by
      rw [htwin.rest]
      rfl
    change microtaskTurns (maxMicrotasks - m'.processed) m' = .ok () m1' at h'
    rw [hbudget] at h'
    refine (microtaskTurns_matched _ htwin hs hs' (fun o ho => ?_) h h').imp_right ?_
    · exact hsettled o (List.mem_append_right _ ho)
    · rintro ⟨o, ho, hends⟩
      exact ⟨o, List.mem_append_right _ ho, hends⟩
  | apart hoperand hends =>
    have ho := List.mem_append_left ((drainServings m).filterMap (·.operand id e))
      (Option.mem_toList.2 hoperand)
    obtain ⟨hpending, hvalue⟩ := hsettled _ ho
    refine .inr ⟨_, ho, (hends hpending hvalue).imp hpending ?_ ?_⟩
    · exact fun _ hpending h1 => pledged_drained _ hs h1 hpending hvalue h
    · exact fun _ hpending h1 => pledged_drained _ hs' h1 hpending hvalue h'

/-! ## The whole run -/

theorem finish_firm {promise : Option Nat} (hm : m.Firm id)
    (h : finish promise outcome m = .ok () m1) : m1.Firm id := by
  have hsettle {j : Nat} {v : Value}
      (h : (do settle j .fulfilled (← settledValue v) : Run Unit) m = .ok () m1) : m1.Firm id := by
    obtain ⟨u, m2, hu, hsettle⟩ := bind_eq_ok h
    obtain rfl := settledValue_state hu
    exact hm.of_aside (aside_of_settle hsettle)
  cases promise with
  | none =>
    cases h
    exact hm
  | some j =>
    cases outcome with
    | suspended k =>
      cases h
      exact hm
    | completed | returned => exact hsettle h

/-- The promise of a call is a new one, and belongs to this call only. -/
theorem call_secure (hasync : f.isAsync = true) (hsteady : f.body.steady = true)
    (hm : m.AtRest true) (hrest : m.SteadyRest) (hbounded : m.Bounded)
    (h : withCalls (fun call => call f args label line) m = .ok v m1) :
    m1.Secure m.promises.size := by
  have hwalk : m.Walk true m.callBudget .done m1 :=
    (withCalls_leads fun call hcall => hcall f args label line m).walk_of_ok h
  refine ⟨(hwalk.atRest hm).2, hwalk.steadyRest hrest, ?_⟩
  obtain ⟨d, m0, outcome, m2, _, hshow, hbody, hclose, _⟩ := invoke_inv hasync h
  obtain ⟨_, log, rfl⟩ := showCall_inv hshow
  have hentered : (((m.emitted [.highlight line, .push label]).logged log).entered f args).Firm
      m.promises.size := by
    constructor
    case made => simp [entered, Machine.emitted, Machine.logged, hasync]
    case frames =>
      intro frame hframe hid
      rcases List.mem_cons.1 hframe with rfl | hframe
      · exact hsteady
      · -- promises of calls were made before this one
        exact absurd (hbounded.calls _ (mem_callPromises_of_frame hframe hid)) (Nat.lt_irrefl _)
    case calls =>
      intro f' hf'
      have hid : m.promises.size ∈ m.callPromises :=
        List.mem_append_right _ (List.mem_filterMap.2 ⟨_, hf', rfl⟩)
      exact absurd (hbounded.calls _ hid) (Nat.lt_irrefl _)
  have hbodyWalk := (runBody_leads (@invoke_walks false d) f.body _ (by simp)).walk_of_ok hbody
  obtain ⟨_, m3, hpop, hfinish⟩ := bind_eq_ok hclose
  obtain ⟨log', rfl⟩ := emit_inv hpop
  refine finish_firm ?_ hfinish
  have hframes : m.frames ⊆ m2.frames := by
    rw [hbodyWalk.context.2]
    exact List.subset_cons_self _ _
  exact (hbodyWalk.firm hentered).of_calls (Nat.le_refl _) hframes rfl

theorem declareThen_inStep (x : String) (v : Value) (post : List Stmt) :
    InStep δ n Eq (declareThen x v post) (declareThen x v post) :=
  (inStep_basic.declareVariable x v).next fun _ =>
    (withCalls_inStep fun _ h => execAll_inStep h post).discard

theorem declareThen_walk (hframes : m.frames = []) (h : declareThen x v post m = .ok () m1) :
    ∃ depth ending, m.Walk true depth ending m1 := by
  obtain ⟨_, m2, hdeclare, hpost⟩ := bind_eq_ok h
  have hwalk := (declareVariable_walks x v m : m.Leads true m2.callBudget _ _).walk_of_ok hdeclare
  have hcovers : true = true → m2.Covers (Stmt.allSteady post) := by
    intro _ frame hframe
    rw [hwalk.context.2, hframes] at hframe
    cases hframe
  have hleads := withCalls_leads fun call hcall => execAll_leads hcall post m2 hcovers
  rw [discard_apply] at hpost
  cases hrun : withCalls (fun call => execAll call post) m2 with
  | error fault m3 =>
    rw [hrun] at hpost
    cases hpost
  | ok o m3 =>
    rw [hrun] at hpost
    cases hpost
    exact ⟨_, _, hwalk.trans (hleads.walk_of_ok hrun)⟩

theorem declareThen_matched (hm : Matched δ operand m m') (hs : m.Secure δ.promise)
    (hs' : m'.Secure δ.promise) (hframes : m.frames = []) (hframes' : m'.frames = [])
    (h : declareThen x v post m = .ok () m1) (h' : declareThen x v post m' = .ok () m1') :
    Matched δ operand m1 m1' ∧ m1.Secure δ.promise ∧ m1'.Secure δ.promise := by
  obtain ⟨_, _, hwalk⟩ := declareThen_walk hframes h
  obtain ⟨_, _, hwalk'⟩ := declareThen_walk hframes' h'
  refine ⟨?_, (hs.walk hwalk).2, (hs'.walk hwalk').2⟩
  cases hm with
  | inStep htwin =>
    obtain ⟨_, _, hsame, _, hm1⟩ := declareThen_inStep x v post m m' htwin () m1 h
    cases hsame.symm.trans h'
    exact .inStep hm1.settle
  | apart hoperand hends =>
    refine .apart hoperand fun hpending hvalue => (hends hpending hvalue).imp hpending ?_ ?_
    · exact fun _ hpending hpledged => hpledged.walk hpending hs hwalk
    · exact fun _ hpending hpledged => hpledged.walk hpending hs' hwalk'

/-- Between two operations no code is running, unless the limit was met, and then nothing can be
    called. -/
theorem ready_of_call {limit : Nat} {log : Log} {ops : List Operation} (hasync : f.isAsync = true)
    (hm : m = ops.foldl Machine.after (Machine.start limit log))
    (h : withCalls (fun call => call f args label line) m = .ok v m1) :
    m.frames = [] ∧ Owned [] m ∧ m.SteadyRest := by
  obtain ⟨_, _, _, _, _, hshow, _⟩ := invoke_inv hasync h
  rcases (passes_ready.afterAll ops _ (.start limit log)).2 with hfull | hready
  · rw [← hm] at hfull
    exact absurd hfull ((showCall_inv hshow).1.not_full Nat.two_pos)
  · rw [hm]
    exact hready

theorem callThenDrain_inv (h : callThenDrain f args label line x post m = .ok v m') :
    ∃ m1 m2, withCalls (fun call => call f args label line) m = .ok v m1 ∧
      declareThen x v post m1 = .ok () m2 ∧ callThen f args label line x post m = .ok v m2 ∧
      drainMicrotasks m2 = .ok () m' := by
  obtain ⟨_, m2, hthen, h⟩ := bind_eq_ok h
  obtain ⟨_, _, hdrain, ⟨⟩⟩ := bind_eq_ok h
  have hcopy := hthen
  obtain ⟨_, m1, hcall, hthen⟩ := bind_eq_ok hthen
  obtain ⟨_, _, hdeclare, ⟨⟩⟩ := bind_eq_ok hthen
  exact ⟨m1, m2, hcall, hdeclare, hcopy, hdrain⟩

end Run

open Run Machine in
/-- `return e` agrees with `return await e` unless `e` is a rejected promise.  Take the calls of two
    async functions whose bodies differ only in these last statements, from the same state between
    two operations and with the same code behind them.  If the rest of the body is steady and `e` is
    settled, with a value that is no promise, each time when it is returned, then the calls give the
    same promise.  When the microtasks are drained this promise has the same value in both runs, and
    the same state if `e` was not rejected. -/
theorem return_agrees_with_return_await (limit : Nat) (log : Log) (ops : List Operation)
    (f : Function) (stmts : List Stmt) (e : Expr) (line awaitLine start callLine : Nat)
    (args : List Value) (label x : String) (post : List Stmt) (v v' : Value) (m1 m1' : Machine) :
    let m := ops.foldl Machine.after (Machine.start limit log)
    let returning := f.returning stmts e line start
    let awaiting := f.returning stmts (.await e awaitLine) line start
    let operands := returnOperands returning stmts e args label callLine x post m
    f.isAsync = true → Stmt.allSteady stmts = true →
    (∀ o ∈ operands, o.1 ≠ .pending ∧ o.2.promise? = none) →
    callThenDrain returning args label callLine x post m = .ok v m1 →
    callThenDrain awaiting args label callLine x post m = .ok v' m1' →
    ∃ id p p', v = .promise id ∧ v' = .promise id ∧
      m1.promises[id]? = some p ∧ m1'.promises[id]? = some p' ∧ p'.value = p.value ∧
      ((∀ o ∈ operands, o.1 = .fulfilled) → p'.state = p.state) := by
  intro m returning awaiting operands hasync hsteady hoperands h h'
  obtain ⟨m2, m3, hcall, hdeclare, hthen, hdrain⟩ := callThenDrain_inv h
  obtain ⟨m2', m3', hcall', hdeclare', _, hdrain'⟩ := callThenDrain_inv h'
  obtain ⟨hframes, howned, hrest⟩ := ready_of_call (f := returning) hasync rfl hcall
  have hatRest : m.AtRest true := .inr ⟨rfl, hframes, howned⟩
  have hbounded : m.Bounded := by
    obtain ⟨_, hcourse⟩ := passes_course.afterAll ops (Machine.start limit log)
    exact hcourse.bounded (.start limit log)
  have hbody (e : Expr) : (f.returning stmts e line start).body.steady = true := by
    simp [Function.returning, Body.steady, Block.steady, Stmt.allSteady, Stmt.steady, hsteady]
  -- the call
  obtain ⟨rfl, rfl, hmatched⟩ := call_matched hasync howned.cursor hcall hcall'
  have hsecure := call_secure (f := returning) hasync (hbody e) hatRest hrest hbounded hcall
  have hsecure' := call_secure (f := awaiting) hasync (hbody _) hatRest hrest hbounded hcall'
  have hframes2 {g : Function} {v : Value} {m2 : Machine}
      (hcall : withCalls (fun call => call g args label callLine) m = .ok v m2) :
      m2.frames = [] := by
    have hwalk : m.Walk true m.callBudget .done m2 :=
      (withCalls_leads fun call hc => hc g args label callLine m).walk_of_ok hcall
    rw [hwalk.context.2, hframes]
  -- the code behind it, and the microtasks
  obtain ⟨hmatched3, hsecure3, hsecure3'⟩ := declareThen_matched hmatched hsecure hsecure'
    (hframes2 hcall) (hframes2 hcall') hdeclare hdeclare'
  have hservings : operands =
      (given (callOperand returning stmts e args label callLine) m).toList ++
        (drainServings m3).filterMap (·.operand m.promises.size e) := by
    have hafter := @servingsAfter_of_ok _ _ drainServings _ _ _ hthen
    rw [← hafter]
    rfl
  rw [hservings] at hoperands ⊢
  obtain ⟨hmade, hsame⟩ | ⟨o, ho, s, s', hs, hs', ⟨p, hp, rfl, hvalue⟩, ⟨p', hp', rfl, hvalue'⟩⟩ :=
    drainMicrotasks_matched hmatched3 hsecure3 hsecure3' hoperands hdrain hdrain'
  · have hp := Array.getElem?_eq_getElem hmade
    refine ⟨_, _, _, rfl, rfl, hp, ?_, rfl, fun _ => rfl⟩
    rw [hsame]
    exact hp
  · refine ⟨_, p, p', rfl, rfl, hp, hp', hvalue'.trans hvalue.symm, fun hfulfilled => ?_⟩
    rw [hfulfilled o ho, or_self] at hs hs'
    rw [hs, hs']

-- a loop that awaits in its start makes the call settle its promise again, with `undefined`
example :
    let f : Function := ⟨0, "f", [], default, Scope.global, true, 1⟩
    let start : LoopInit :=
      .declare .letWord [.mk "x" (some (.await (.literal (.number (.int 1)) 1) 1))] 1
    let stmts : List Stmt := [.loop start (some (.literal (.bool false) 1)) none (.mk [] 1) 1]
    let e : Expr := .literal (.number (.int 5)) 2
    let ends (e : Expr) (p : Value → Bool) : Bool :=
      Run.succeeds (Run.callThenDrain (f.returning stmts e 2 1) [] "f()" 3 "p" []) (fun v m1 =>
        v.promise?.any fun id => m1.promises[id]?.any (p ·.value)) (.start 100 {})
    Stmt.allSteady stmts = false ∧ ends e (· matches .undefined) = true ∧
      ends (.await e 2) (· matches .number (.int 5)) = true := by
  decide +kernel

/-- A fulfilled promise is returned after an earlier `await`, and code behind the call follows the
    promise of the call. -/
theorem return_agrees_with_return_await_fulfilled :
    let f : Function := ⟨0, "f", [], default, Scope.global, true, 1⟩
    let stmts : List Stmt :=
      [.declare .letWord [.mk "x" (some (.await (.literal (.number (.int 7)) 1) 1))] 1]
    let e : Expr := .call (.member (.ident "Promise" 2) "resolve" 2) [.ident "x" 2] 2
    let post : List Stmt :=
      [.expr (.call (.member (.ident "p" 3) "then" 3)
        [.function ["y"] (.value (.ident "y" 3)) none true false 3] 3) 3]
    let run (e : Expr) := Run.callThenDrain (f.returning stmts e 2 1) [] "f()" 3 "p" post
    let m := Machine.start 100 {}
    let operands := Run.returnOperands (f.returning stmts e 2 1) stmts e [] "f()" 3 "p" post m
    operands.map (·.1) = [.fulfilled] ∧
    ∃ v m1 v' m1' id p p', run e m = .ok v m1 ∧ run (.await e 2) m = .ok v' m1' ∧
      v = .promise id ∧ v' = .promise id ∧ m1.promises[id]? = some p ∧
      m1'.promises[id]? = some p' ∧ p.state = .fulfilled ∧ p'.value = p.value ∧
      p'.state = p.state := by
  intro f stmts e post run m operands
  have hstates : operands.map (·.1) = [.fulfilled] := by decide +kernel
  have hvalues : operands.all (·.2.promise?.isNone) = true := by decide +kernel
  obtain ⟨v, m1, hrun, hstate⟩ := @Run.succeeds_inv _ (run e) (fun v m1 =>
    v.promise?.any fun id => m1.promises[id]?.any (·.state == .fulfilled)) m (by decide +kernel)
  obtain ⟨v', m1', hrun', _⟩ := @Run.succeeds_inv _ (run (.await e 2)) (fun _ _ => true) m
    (by decide +kernel)
  have hfulfilled : ∀ o ∈ operands, o.1 = .fulfilled := by
    intro o ho
    have hmem := List.mem_map_of_mem (f := Prod.fst) ho
    rw [hstates] at hmem
    exact List.mem_singleton.1 hmem
  obtain ⟨id, p, p', rfl, rfl, hp, hp', hvalue, hsame⟩ := return_agrees_with_return_await 100 {} []
    f stmts e 2 2 1 3 [] "f()" "p" post v v' m1 m1' rfl rfl
    (fun o ho => ⟨by rw [hfulfilled o ho]; nofun,
      Option.isNone_iff_eq_none.1 (List.all_eq_true.1 hvalues o ho)⟩) hrun hrun'
  refine ⟨hstates, _, m1, _, m1', id, p, p', hrun, hrun', rfl, rfl, hp, hp', ?_, hvalue,
    hsame hfulfilled⟩
  simpa [Value.promise?, hp] using hstate

/-- A rejected promise is returned.  The promise of the call is fulfilled, where it is rejected if
    the call awaits what it returns. -/
theorem returned_rejection_is_fulfilled :
    let f : Function := ⟨0, "f", [], default, Scope.global, true, 1⟩
    let e : Expr :=
      .call (.member (.ident "Promise" 1) "reject" 1) [.literal (.number (.int 1)) 1] 1
    let ends (e : Expr) (s : PromiseState) : Bool :=
      Run.succeeds (Run.callThenDrain (f.returning [] e 1 1) [] "f()" 2 "p" []) (fun v m1 =>
        v.promise?.any fun id => m1.promises[id]?.any (·.state == s)) (.start 100 {})
    ends e .fulfilled = true ∧ ends (.await e 1) .rejected = true := by
  decide +kernel

end EventLoop
