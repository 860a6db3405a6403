/-
  What the turns of the event loop do to the state.

  A microtask is served (`Serves`), a queue of them is drained (`Drains`), and a timer or an
  animation frame fires (`Fires`): its steps are emitted, its callback runs, and the microtasks are
  drained.  Each of these relations has an ending like a walk, and says everything that the run can
  have done, failures included.

  A continuation whose function has a steady body has steady statements left (`SteadyRest`), which
  is what makes the walk of a resumed function tame.
-/
import EventLoop.Generator
import EventLoop.Proofs.Execution

namespace EventLoop

open Script

variable {α β : Type} {tame : Bool} {depth : Nat} {m m' : Machine} {e : Ending}
  {R : Ending → Machine → Prop} {f : α → Run β} {r : EStateM.Result Fault Machine α}

namespace Machine

/-! ## What is left in continuations -/

/-- What is left of a steady body is steady. -/
def SteadyRest (m : Machine) : Prop :=
  ∀ (k : Nat) (c : Continuation), m.continuations[k]? = some c →
    c.function.body.steady = true → Stmt.allSteady c.statements = true

/-- A suspended body. -/
def continuationAt (m : Machine) (k : Nat) : Continuation := (m.continuations[k]?).getD default

theorem SteadyRest.continuationAt (h : m.SteadyRest) (k : Nat)
    (hsteady : (m.continuationAt k).function.body.steady = true) :
    Stmt.allSteady (m.continuationAt k).statements = true := by
  rw [Machine.continuationAt] at hsteady ⊢
  cases hc : m.continuations[k]? with
  | none => rfl
  | some c =>
    rw [hc] at hsteady
    exact h k c hc hsteady

theorem SteadyRest.of_eq {m m' : Machine} (h : m.SteadyRest)
    (heq : m'.continuations = m.continuations) : m'.SteadyRest := by
  intro k c hc
  exact h k c (heq ▸ hc)

theorem Move.continuations_eq (h : Move m m') : m'.continuations = m.continuations := by
  cases h with
  | mark name state value h =>
    obtain ⟨log, rfl⟩ := Run.enqueue_inv h
    rfl
  | attach name l callback state receiver h => exact (attach_aside h).continuations
  | _ => rfl

theorem SteadyRest.withContinuation (h : m.SteadyRest) (frame : Frame) (target : Target) :
    (m.withContinuation frame target).SteadyRest := by
  intro k c hc hsteady
  rw [Machine.withContinuation, Array.getElem?_push] at hc
  split at hc
  · cases hc
    rfl
  · exact h k c hc hsteady

theorem Walk.steadyRest (h : Walk true depth m e m') (hm : m.SteadyRest) : m'.SteadyRest := by
  induction h with
  | refl | fail | slip => exact hm
  | trans _ _ ih1 ih2 => exact ih2 (ih1 hm)
  | move h => exact hm.of_eq h.continuations_eq
  | within scope _ ih => exact ih hm
  | suspend _ _ h =>
    exact (hm.withContinuation _ _).of_eq (Run.suspend_inv h).2.aside.continuations
  | @defer _ m m' k stmts h hsteady ih =>
    -- the continuation belongs to the innermost call, whose body covers what is deferred
    obtain ⟨frame, c, hframe, _, _, hc, hf, _⟩ := h.suspended_frame
    intro j c' hc' hbody
    by_cases hj : k = j
    · subst hj
      have hc'' : c' = { c with statements := c.statements ++ stmts } := by
        simpa [deferred, Array.getElem?_modify, hc] using hc'.symm
      subst hc''
      have hstmts := hsteady rfl frame hframe (hf ▸ hbody)
      simp [ih hm k c hc hbody, hstmts]
    · exact ih hm j c' (by simpa [deferred, Array.getElem?_modify, hj] using hc') hbody
  | skip _ _ ih => exact ih hm
  | call _ _ _ _ _ ih => exact ih hm
  | settled log _ _ _ _ hsettle ih =>
    exact SteadyRest.of_eq (ih hm) (aside_of_settle hsettle).continuations
  | cut _ _ ih => exact ih hm

/-! ## Turns -/

/-- The state in which a suspended body goes on. -/
def resumed (m : Machine) (c : Continuation) : Machine :=
  { m with scope := c.scope, frames := ⟨c.function, c.promise⟩ :: m.frames }

/-- What it takes to run a microtask. -/
inductive Serves (tame : Bool) (t : Microtask) (m : Machine) : Ending → Machine → Prop
  | mark (h : t.reaction = none) : Serves tame t m .done m
  | link {l : Link} {callback : Option Expr} {derived : Nat} {state : PromiseState} {value : Value}
      {m1 m' : Machine} (h : t.reaction = some (.link l callback derived))
      (hw : m.Walk tame m.callBudget .done m1)
      (hs : Run.settle derived state value m1 = .ok () m') :
      Serves tame t m .done m'
  | linkFailed {l : Link} {callback : Option Expr} {derived : Nat} {m' : Machine}
      (h : t.reaction = some (.link l callback derived))
      (hw : m.Walk tame m.callBudget .failed m') : Serves tame t m .failed m'
  /-- What the function waits for was rejected. -/
  | rejected {k id : Nat} {m' : Machine} (log : Log) (h : t.reaction = some (.resume k))
      (hp : (m.continuationAt k).promise = some id)
      (hs : Run.settle id .rejected t.value (m.logged log) = .ok () m') : Serves tame t m .done m'
  | abandoned {k : Nat} (log : Log) (h : t.reaction = some (.resume k))
      (hp : (m.continuationAt k).promise = none) : Serves tame t m .done (m.logged log)
  /-- There is no room to show that the function goes on; its frame stays. -/
  | stuck {k : Nat} (h : t.reaction = some (.resume k)) (hfull : m.Full) :
      Serves tame t m .failed (m.resumed (m.continuationAt k))
  /-- The function fails, or there is no room to show its end. -/
  | cut {k : Nat} {label : String} {e : Ending} {m1 : Machine} (h : t.reaction = some (.resume k))
      (hroom : m.Room 1)
      (hw : ((m.resumed (m.continuationAt k)).emitted [.push label]).Walk tame
        (m.resumed (m.continuationAt k)).callBudget e m1) :
      Serves tame t m .failed (m1.back m)
  | resumed {k : Nat} {label : String} {e : Ending} {m1 : Machine} (log : Log)
      (h : t.reaction = some (.resume k)) (hroom : m.Room 1)
      (hw : ((m.resumed (m.continuationAt k)).emitted [.push label]).Walk tame
        (m.resumed (m.continuationAt k)).callBudget e m1)
      (hfailed : e ≠ .failed) (hp : e = .done → (m.continuationAt k).promise = none)
      (hpop : m1.Room 1) :
      Serves tame t m .done (((m1.back m).emitted [.pop]).logged log)
  /-- The function comes to its end. -/
  | finished {k id : Nat} {label : String} {value : Value} {m1 m' : Machine} (log : Log)
      (h : t.reaction = some (.resume k)) (hroom : m.Room 1)
      (hw : ((m.resumed (m.continuationAt k)).emitted [.push label]).Walk tame
        (m.resumed (m.continuationAt k)).callBudget .done m1)
      (hp : (m.continuationAt k).promise = some id) (hpop : m1.Room 1)
      (hs : Run.settle id .fulfilled value (((m1.back m).emitted [.pop]).logged log) = .ok () m') :
      Serves tame t m .done m'

/-- The state with the next microtask taken from the queue. -/
def taken (m : Machine) : Machine :=
  { m with cursor := m.cursor + 1, processed := m.processed + 1 }

end Machine

/-- The steps that show the turn of a microtask. -/
def Microtask.steps (t : Microtask) : List Step :=
  [.microtaskAdd t.id t.name, .microtaskRemove t.id]

namespace Machine

/-- What it takes to run microtasks until none is left. -/
inductive Drains : Machine → Ending → Machine → Prop
  | idle {m : Machine} (h : m.microtasks[m.cursor]? = none) : Drains m .done m
  /-- A microtask is taken but not run, for want of room or since too many were run before. -/
  | cut {m : Machine} {t : Microtask} {part : List Step} (log : Log)
      (h : m.microtasks[m.cursor]? = some t) (hpart : part <+: t.steps) :
      Drains m .failed ((m.taken.emitted part).logged log)
  | failed {m m' : Machine} {t : Microtask} (log : Log) (h : m.microtasks[m.cursor]? = some t)
      (hroom : m.Room 2) (hs : Serves false t ((m.taken.emitted t.steps).logged log) .failed m') :
      Drains m .failed m'
  | turn {m m1 m' : Machine} {t : Microtask} {e : Ending} (log : Log)
      (h : m.microtasks[m.cursor]? = some t) (hroom : m.Room 2)
      (hs : Serves false t ((m.taken.emitted t.steps).logged log) .done m1)
      (hd : Drains m1 e m') : Drains m e m'

/-- What it takes for a callback to fire that was taken from the Web APIs before.  `shown` are the
    steps of its turn. -/
inductive Fires (shown : List Step) (m : Machine) : Ending → Machine → Prop
  | cut {part : List Step} (log : Log) (hpart : part <+: shown) :
      Fires shown m .failed ((m.emitted part).logged log)
  | failed {m' : Machine} (log : Log) (hroom : m.Room shown.length)
      (hw : ((m.emitted shown).logged log).Walk false m.callBudget .failed m') :
      Fires shown m .failed m'
  | fired {m1 m' : Machine} {e : Ending} (log : Log) (hroom : m.Room shown.length)
      (hw : ((m.emitted shown).logged log).Walk false m.callBudget .done m1)
      (hd : Drains m1 e m') : Fires shown m e m'

end Machine

/-- The steps that show the turn of an animation frame. -/
def Callback.frameSteps (cb : Callback) : List Step :=
  [.webapiRemove cb.id, .rafqueueAdd cb.id TimerKind.frame.label, .rafqueueRemove cb.id]

/-- The steps that show the turn of a timer. -/
def Callback.timerSteps (cb : Callback) : List Step :=
  [.webapiRemove cb.id, .taskqueueAdd cb.id TimerKind.timeout.label, .taskqueueRemove cb.id]

namespace Machine

/-- The state with a timer taken from the Web APIs, at the time at which it is due. -/
def advanced (m : Machine) (cb : Callback) : Machine :=
  { m.dropped cb.id with clock := max m.clock cb.due }

theorem Fires.of_logged {shown : List Step} {log : Log} (h : (m.logged log).Fires shown e m') :
    m.Fires shown e m' := by
  cases h with
  | cut log' hpart => exact .cut log' hpart
  | failed log' hroom hw => exact .failed log' hroom hw
  | fired log' hroom hw hd => exact .fired log' hroom hw hd

theorem Serves.steadyRest {t : Microtask} (h : m.Serves true t e m') (hm : m.SteadyRest) :
    m'.SteadyRest := by
  have hsettle {id : Nat} {state : PromiseState} {value : Value} {m1 : Machine}
      (hs : Run.settle id state value m1 = .ok () m') (hm1 : m1.SteadyRest) : m'.SteadyRest :=
    hm1.of_eq (aside_of_settle hs).continuations
  cases h with
  | mark | abandoned | stuck => exact hm
  | link _ hw hs => exact hsettle hs (hw.steadyRest hm)
  | linkFailed _ hw => exact hw.steadyRest hm
  | rejected _ _ _ hs => exact hsettle hs hm
  | cut _ _ hw => exact hw.steadyRest hm
  | resumed _ _ _ hw => exact hw.steadyRest hm
  | finished _ _ _ hw _ _ hs => exact hsettle hs (hw.steadyRest hm)

end Machine

namespace Run

/-! ## Calls from outside the program -/

/-- A function is called from outside the program, from the state `m` to the state `m'`.  Its frame
    is shown.  Its body runs inside the frame, in a new scope where its parameters are bound to the
    arguments.  Then the frame is left, and the promise of an async function is settled. -/
def Calls (f : Function) (args : List Value) (label : String) (m : Machine) (result : Value)
    (m' : Machine) : Prop :=
  ∃ depth m1 scope m2 promise m3 outcome m4,
    m.callBudget = depth + 1 ∧ emitAll [.highlight f.line, .push label] m = .ok () m1 ∧
    newScope f.scope (bindParams f.params args [])
      (m1.logged (m1.log.write 2 ("call " ++ label))) = .ok scope m2 ∧
    callPromise f m2 = .ok promise m3 ∧
    runBody (invoke depth) f.body { m3 with scope, frames := ⟨f, promise⟩ :: m3.frames } =
      .ok outcome m4 ∧
    (do emit .pop; finish promise outcome) { m4 with scope := m3.scope, frames := m3.frames } =
      .ok () m' ∧
    result = callValue promise outcome

theorem inFrame_ok_iff {act : Run α} {scope : Scope} {frame : Frame} {a : α} :
    inFrame scope frame act m = .ok a m' ↔
      ∃ m1, act { m with scope, frames := frame :: m.frames } = .ok a m1 ∧
        { m1 with scope := m.scope, frames := m.frames } = m' := by
  rw [inFrame, restoring]
  cases act { m with scope, frames := frame :: m.frames } with
  | error fault m1 => simp
  | ok a' m1 => simp

/-- A call that returns goes through the stages of `Calls`, and nothing else. -/
theorem callBack_iff {f : Function} {args : List Value} {label : String} {result : Value} :
    callBack f args label m = .ok result m' ↔ Calls f args label m result m' := by
  have hcall : callBack f args label m = invoke m.callBudget f args label f.line m := rfl
  rw [hcall]
  constructor
  · intro h
    cases hdepth : m.callBudget with
    | zero =>
      -- no further call may be nested
      rw [hdepth, invoke] at h
      obtain ⟨_, m1, _, h⟩ := bind_eq_ok h
      obtain ⟨_, m2, _, h⟩ := bind_eq_ok h
      cases h
    | succ depth =>
      rw [hdepth, invoke] at h
      obtain ⟨_, m1, hshow, h⟩ := bind_eq_ok h
      obtain ⟨_, m2, hnote, h⟩ := bind_eq_ok h
      cases hnote
      obtain ⟨⟨promise, outcome⟩, m3, hrun, h⟩ := bind_eq_ok h
      obtain ⟨scope, m4, hscope, hrun⟩ := bind_eq_ok hrun
      obtain ⟨_, m5, hpromise, hrun⟩ := bind_eq_ok hrun
      obtain ⟨_, m6, hbody, hrun⟩ := bind_eq_ok hrun
      cases hrun
      obtain ⟨m7, hentered, rfl⟩ := inFrame_ok_iff.1 hbody
      obtain ⟨_, m8, hpop, h⟩ := bind_eq_ok h
      obtain ⟨_, m9, hfinish, h⟩ := bind_eq_ok h
      cases h
      exact ⟨depth, m1, scope, m4, promise, m5, outcome, m7, hdepth, hshow, hscope, hpromise,
        hentered, by rw [bind_of_ok hpop]; exact hfinish, rfl⟩
  · rintro ⟨depth, m1, scope, m2, promise, m3, outcome, m4, hdepth, hshow, hscope, hpromise, hbody,
      hclose, rfl⟩
    obtain ⟨_, m5, hpop, hfinish⟩ := bind_eq_ok hclose
    have hframe := inFrame_ok_iff.2 ⟨m4, hbody, rfl⟩
    have hrun : runCall (invoke depth) f args (m1.logged (m1.log.write 2 ("call " ++ label))) =
        .ok (promise, outcome) { m4 with scope := m3.scope, frames := m3.frames } := by
      rw [runCall, bind_of_ok hscope, bind_of_ok hpromise, bind_of_ok hframe]
      rfl
    rw [hdepth, invoke, bind_of_ok hshow, bind_apply, note_apply]
    dsimp only
    rw [bind_of_ok hrun]
    dsimp only
    rw [bind_of_ok hpop, bind_of_ok hfinish]
    rfl

/-- The callback of a timer or an animation frame is called, if it denotes a function. -/
def CallsBack (cb : Callback) (m m' : Machine) : Prop :=
  (∃ e f m1 result, cb.callback = some e ∧ resolveCallback e cb.scope m = .ok (some f) m1 ∧
    Calls f [] (callbackLabel e cb.kind.label) m1 result m') ∨
  ∀ e ∈ cb.callback, ∀ f m1, resolveCallback e cb.scope m ≠ .ok (some f) m1

theorem runCallback_ok {cb : Callback} (h : runCallback cb m = .ok () m') : CallsBack cb m m' := by
  rw [runCallback] at h
  cases hcallback : cb.callback with
  | none => exact .inr (by simp [hcallback])
  | some e =>
    rw [hcallback] at h
    obtain ⟨f, m1, hresolve, h⟩ := bind_eq_ok h
    cases f with
    | none =>
      refine .inr fun e' he f m2 hf => ?_
      rw [hcallback] at he
      cases he
      cases hresolve.symm.trans hf
    | some f =>
      dsimp only at h
      rw [discard_apply] at h
      cases hcall : callBack f [] (callbackLabel e cb.kind.label) m1 with
      | error fault m2 =>
        rw [hcall] at h
        cases h
      | ok result m2 =>
        rw [hcall] at h
        cases h
        exact .inl ⟨e, f, m1, result, hcallback, hresolve, callBack_iff.1 hcall⟩

end Run

/-! ## The turns of a run -/

/-- The result of an action, with its ending, is related to where it started. -/
inductive Run.Gives (R : Ending → Machine → Prop) : EStateM.Result Fault Machine α → Prop
  | ok {a : α} {m' : Machine} (h : R .done m') : Gives R (.ok a m')
  | error {fault : Fault} {m' : Machine} (h : R .failed m') : Gives R (.error fault m')

namespace Run

open Machine

/-- Whether an action succeeds, with a result and in a state that have the given property. -/
def succeeds (act : Run α) (p : α → Machine → Bool) (m : Machine) : Bool :=
  match act m with
  | .ok a m' => p a m'
  | .error _ _ => false

theorem succeeds_inv {act : Run α} {p : α → Machine → Bool} {m : Machine}
    (h : succeeds act p m = true) : ∃ a m', act m = .ok a m' ∧ p a m' = true := by
  rw [succeeds] at h
  cases hact : act m with
  | ok a m' => exact ⟨a, m', rfl, by rwa [hact] at h⟩
  | error fault m' =>
    rw [hact] at h
    cases h

theorem Gives.imp {R' : Ending → Machine → Prop} (h : Gives R r) (hR : ∀ e m', R e m' → R' e m') :
    Gives R' r := by
  cases h with
  | ok h => exact .ok (hR _ _ h)
  | error h => exact .error (hR _ _ h)

theorem Gives.of_ok {a : α} {m' : Machine} (h : Gives R r) (hr : r = .ok a m') : R .done m' := by
  rw [hr] at h
  cases h with
  | ok h => exact h

theorem Gives.final (h : Gives R r) : ∃ e, R e (final r) := by
  cases h with
  | ok h => exact ⟨_, h⟩
  | error h => exact ⟨_, h⟩

theorem gives_of_final (h : ∀ e, R e (final r)) : Gives R r := by
  cases r with
  | ok a m' => exact .ok (h _)
  | error fault m' => exact .error (h _)

theorem gives_of_leads {e : α → Ending} (h : m.Leads tame depth e r)
    (hR : ∀ e e' m', m.Walk tame depth e m' → R e' m') : Gives R r := by
  cases h with
  | ok hw => exact .ok (hR _ _ _ hw)
  | error hw => exact .error (hR _ _ _ hw)

theorem gives_done {P : Machine → Prop} (h : ∀ a m', r = .ok a m' → P m') :
    Gives (fun e m' => e = .done → P m') r := by
  cases r with
  | ok a m' => exact .ok fun _ => h a m' rfl
  | error fault m' => exact .error (by simp)

theorem Gives.and {R' : Ending → Machine → Prop} (h : Gives R r) (h' : Gives R' r) :
    Gives (fun e m' => R e m' ∧ R' e m') r := by
  cases h with
  | ok h =>
    cases h' with
    | ok h' => exact .ok ⟨h, h'⟩
  | error h =>
    cases h' with
    | error h' => exact .error ⟨h, h'⟩

theorem gives_bind {act : Run α} (herror : ∀ fault m', act m = .error fault m' → R .failed m')
    (hok : ∀ a m', act m = .ok a m' → Gives R (f a m')) : Gives R ((act >>= f) m) := by
  rw [bind_apply]
  cases hact : act m with
  | ok a m' => exact hok a m' hact
  | error fault m' => exact .error (herror fault m' hact)

/-- What an action that roams did, if it succeeded and if it failed. -/
theorem Roams.cases {act : Run α} (h : Roams tame act) (m : Machine) :
    (∀ fault m', act m = .error fault m' → m.Walk tame m.callBudget .failed m') ∧
    (∀ a m', act m = .ok a m' → m.Walk tame m.callBudget .done m') := by
  have hleads := h m
  constructor
  · intro fault m' hact
    rw [hact] at hleads
    cases hleads with
    | error hw => exact hw
  · intro a m' hact
    rw [hact] at hleads
    cases hleads with
    | ok hw => exact hw

theorem restRun_apply (c : Continuation) (value : Value) (m m1 : Machine) :
    ∃ v, restoring m.scope m.frames (do runRest c (← settledValue value) : Run Outcome) m1 =
      match runRest c v m1 with
      | .ok outcome m' => .ok outcome (m'.back m)
      | .error e m' => .error e (m'.back m) := by
  obtain ⟨v, hv⟩ : ∃ v, settledValue value m1 = .ok v m1 := by
    cases value <;> exact ⟨_, rfl⟩
  refine ⟨v, ?_⟩
  simp only [restoring, bind_apply, hv]
  cases runRest c v m1 <;> rfl

/-- A suspended function goes on as `Serves` says, if what waits for it is not a rejection. -/
theorem resumed_serves {t : Microtask} {k : Nat} (ht : t.reaction = some (.resume k)) (m : Machine)
    (hm : tame = true → m.SteadyRest) (hstate : t.state ≠ .rejected) :
    Gives (m.Serves tame t) (resume (m.continuationAt k) t.state t.value m) := by
  have hcovers (m1 : Machine) (hframes : m1.frames = (m.resumed (m.continuationAt k)).frames) :
      tame = true → m1.Covers (Stmt.allSteady (m.continuationAt k).statements) := by
    intro htame frame hframe hsteady
    rw [hframes] at hframe
    cases hframe
    exact (hm htame).continuationAt k hsteady
  simp only [resume, hstate, if_false, bind_apply, get_apply, set_apply]
  rcases emit_cases (.push ((m.continuationAt k).function.name ++ "()"))
    (m.resumed (m.continuationAt k)) with ⟨hroom, log, hpush⟩ | ⟨hfull, hpush⟩
  -- the frame is there before the step that shows it, and stays if this fails
  case inr =>
    rw [Machine.resumed] at hpush
    simp only [hpush]
    exact .error (.stuck ht hfull)
  obtain ⟨v, hrest⟩ := restRun_apply (m.continuationAt k) t.value m
    (((m.resumed (m.continuationAt k)).emitted
      [.push ((m.continuationAt k).function.name ++ "()")]).logged log)
  have hleads := runRest_leads (m.continuationAt k) v (((m.resumed (m.continuationAt k)).emitted
    [.push ((m.continuationAt k).function.name ++ "()")]).logged log) (hcovers _ rfl)
  replace hleads := (walk_logged _ log).leads hleads
  rw [Machine.resumed] at hpush hrest hleads
  simp only [hpush, hrest]
  generalize runRest (m.continuationAt k) v _ = r at hleads
  cases hleads with
  | error hw => exact .error (.cut ht hroom hw)
  | @ok outcome m1 hw =>
    rcases emit_cases .pop (m1.back m) with ⟨hpop, log', hemit⟩ | ⟨_, hemit⟩
    case inr =>
      simp only [hemit]
      exact .error (.cut ht hroom hw)
    have hpop' : m1.Room 1 := hpop
    simp only [hemit]
    cases hp : (m.continuationAt k).promise with
    | none =>
      refine .ok (.resumed log' ht hroom hw ?_ (fun _ => hp) hpop')
      cases outcome <;> simp [Outcome.ending]
    | some id =>
      by_cases hend : outcome.ending = .done
      · -- the body has come to its end, which settles the promise of the call
        obtain ⟨value, m', hfinish, hs⟩ := finish_settles id hend
          (((m1.back m).emitted [.pop]).logged log')
        simp only [hfinish]
        exact .ok (.finished log' ht hroom (hend ▸ hw) hp hpop' hs)
      · cases outcome with
        | suspended j =>
          exact .ok (.resumed log' ht hroom hw (by simp [Outcome.ending])
            (fun h => absurd h hend) hpop')
        | completed => exact absurd rfl hend
        | returned v => exact absurd rfl hend

/-- A microtask does what its reaction says, or fails on the way. -/
theorem runMicrotask_serves (t : Microtask) (m : Machine) (hm : tame = true → m.SteadyRest) :
    Gives (m.Serves tame t) (runMicrotask t m) := by
  unfold runMicrotask
  cases ht : t.reaction with
  | none => exact .ok (.mark ht)
  | some r =>
    cases r with
    | resume k =>
      change Gives (m.Serves tame t) (resume (m.continuationAt k) t.state t.value m)
      by_cases hstate : t.state = .rejected
      · simp only [resume, hstate, if_true, bind_apply, note_apply]
        cases hp : (m.continuationAt k).promise with
        | none => exact .ok (.abandoned _ ht hp)
        | some id =>
          obtain ⟨ps, queue, passed, log, _, hs⟩ := settle_cascade id .rejected t.value
            (m.logged (m.log.write 2 ("await in " ++ (m.continuationAt k).function.name ++
              " rejected; body abandoned")))
          simp only [hs]
          exact .ok (.rejected _ ht hp hs)
      · exact resumed_serves ht m hm hstate
    | link l callback derived =>
      obtain ⟨herror, hok⟩ := ((@roams_callbacks tame).runLink t.name t.scope l callback t.state
        t.value).cases m
      refine gives_bind (fun fault m' h => .linkFailed ht (herror fault m' h)) ?_
      rintro ⟨state, value⟩ m1 h
      obtain ⟨ps, queue, passed, log, _, hs⟩ := settle_cascade derived state value m1
      simp only [hs]
      exact .ok (.link ht (hok _ m1 h) hs)

theorem takeMicrotask_apply (m : Machine) : takeMicrotask m = match m.microtasks[m.cursor]? with
      | none => .ok none m
      | some t => .ok (some t) m.taken := by
  simp only [takeMicrotask, bind_apply, get_apply]
  cases m.microtasks[m.cursor]? <;> rfl

theorem microtaskTurns_succ {t : Microtask} (h : m.microtasks[m.cursor]? = some t) (budget : Nat) :
    microtaskTurns (budget + 1) m =
      (do
        emitAll t.steps
        runMicrotask t
        microtaskTurns budget) m.taken := by
  rw [microtaskTurns, bind_apply, takeMicrotask_apply, h]
  rfl

/-- There is no microtask to take, or one is taken and not run, or one is taken, shown and run, and
    the others follow. -/
theorem microtaskTurns_cases (budget : Nat) (m : Machine) :
    (m.microtasks[m.cursor]? = none ∧ microtaskTurns budget m = .ok () m) ∨
    ∃ t, m.microtasks[m.cursor]? = some t ∧
      ((∃ fault log part, part <+: t.steps ∧
          microtaskTurns budget m = .error fault ((m.taken.emitted part).logged log)) ∨
        ∃ n log, budget = n + 1 ∧ m.Room 2 ∧
          emitAll t.steps m.taken = .ok () ((m.taken.emitted t.steps).logged log) ∧
          microtaskTurns budget m =
            (runMicrotask t >>= fun _ => microtaskTurns n)
              ((m.taken.emitted t.steps).logged log)) := by
  cases ht : m.microtasks[m.cursor]? with
  | none =>
    refine .inl ⟨rfl, ?_⟩
    cases budget <;> simp [microtaskTurns, takeMicrotask_apply, ht]
  | some t =>
    refine .inr ⟨t, rfl, ?_⟩
    cases budget with
    | zero =>
      refine .inl ⟨.microtaskLimit, m.log, [], List.nil_prefix, ?_⟩
      rw [emitted_nil, microtaskTurns, bind_apply, takeMicrotask_apply, ht]
      rfl
    | succ n =>
      rw [microtaskTurns_succ ht]
      rcases emitAll_cases (.microtaskAdd t.id t.name) [.microtaskRemove t.id] m.taken with
        ⟨hroom, log, h⟩ | ⟨log, part, hpart, h⟩
      · exact .inr ⟨n, log, rfl, hroom, h, bind_of_ok h _⟩
      · exact .inl ⟨.stepLimit, log, part, hpart, bind_of_error h _⟩

theorem microtaskTurns_drains (budget : Nat) (m : Machine) :
    Gives m.Drains (microtaskTurns budget m) := by
  induction budget using Nat.strongRecOn generalizing m with
  | ind budget ih =>
    obtain ⟨ht, h⟩ | ⟨t, ht, ⟨fault, log, part, hpart, h⟩ | ⟨n, log, rfl, hroom, -, h⟩⟩ :=
      microtaskTurns_cases budget m
    · rw [h]
      exact .ok (.idle ht)
    · rw [h]
      exact .error (.cut log ht hpart)
    · have hserves := @runMicrotask_serves false t ((m.taken.emitted t.steps).logged log) (by simp)
      rw [h]
      refine gives_bind (fun fault m' he => ?_) fun _ m1 h1 => ?_
      · rw [he] at hserves
        cases hserves with
        | error hs => exact .failed log ht hroom hs
      · rw [h1] at hserves
        cases hserves with
        | ok hs => exact (ih n (Nat.lt_succ_self n) m1).imp fun e m' => .turn log ht hroom hs

/-- A queue that is drained was empty, or its first microtask has had its turn. -/
theorem microtaskTurns_inv {budget : Nat} (h : microtaskTurns budget m = .ok () m') :
    (m.microtasks[m.cursor]? = none ∧ m' = m) ∨
    ∃ n t log m1, budget = n + 1 ∧ m.microtasks[m.cursor]? = some t ∧ m.Room 2 ∧
      emitAll t.steps m.taken = .ok () ((m.taken.emitted t.steps).logged log) ∧
      runMicrotask t ((m.taken.emitted t.steps).logged log) = .ok () m1 ∧
      microtaskTurns n m1 = .ok () m' := by
  obtain ⟨ht, hidle⟩ | ⟨t, ht, ⟨fault, log, part, -, herror⟩ | ⟨n, log, rfl, hroom, hshow, hturn⟩⟩ :=
    microtaskTurns_cases budget m
  · cases hidle.symm.trans h
    exact .inl ⟨ht, rfl⟩
  · cases herror.symm.trans h
  · obtain ⟨_, m1, hrun, hrest⟩ := bind_eq_ok (hturn.symm.trans h)
    exact .inr ⟨n, t, log, m1, rfl, ht, hroom, hshow, hrun, hrest⟩

theorem drainMicrotasks_drains (m : Machine) : Gives m.Drains (drainMicrotasks m) :=
  microtaskTurns_drains (maxMicrotasks - m.processed) m

/-- Shows the turn of a callback, runs it, and drains the microtasks. -/
def showAndRun (steps : List Step) (cb : Callback) : Run Unit := do
  emitAll steps
  runCallback cb
  drainMicrotasks

theorem fires_of_steps {s : Step} {l : List Step} (cb : Callback) (m : Machine) :
    Gives (m.Fires (s :: l)) (showAndRun (s :: l) cb m) := by
  rcases emitAll_cases s l m with ⟨hroom, log, h⟩ | ⟨log, part, hpart, h⟩
  case inr =>
    rw [showAndRun, bind_of_error h]
    exact .error (.cut log hpart)
  rw [showAndRun, bind_of_ok h]
  obtain ⟨herror, hok⟩ := ((@roams_callbacks false).runCallback cb).cases
    ((m.emitted (s :: l)).logged log)
  refine gives_bind (fun fault m' he => .failed log hroom (herror fault m' he)) fun a m1 h1 => ?_
  exact (drainMicrotasks_drains m1).imp fun e m' hd => .fired log hroom (hok a m1 h1) hd

theorem frameTurn_missing {cb : Callback} (h : m.callbacks.all (·.id != cb.id) = true) :
    frameTurn cb m = .error .frameMissing m := by
  simp only [frameTurn, takeCallback, bind_apply, get_apply, h, if_true, throw_apply]

theorem frameTurn_waiting {cb : Callback} (h : m.callbacks.all (·.id != cb.id) = false) :
    frameTurn cb m = showAndRun cb.frameSteps cb (m.dropped cb.id) := by
  have htake : takeCallback cb.id m = .ok () (m.dropped cb.id) := by
    simp only [takeCallback, bind_apply, get_apply, h, Bool.false_eq_true, if_false]
    rfl
  exact bind_of_ok htake _

/-- An animation frame that waits is taken from the Web APIs and fires. -/
theorem frameTurn_fires {cb : Callback} {m : Machine}
    (h : m.callbacks.all (·.id != cb.id) = false) :
    Gives ((m.dropped cb.id).Fires cb.frameSteps) (frameTurn cb m) := by
  rw [frameTurn_waiting h]
  exact fires_of_steps cb (m.dropped cb.id)

theorem frameTurn_ok {cb : Callback} {m m' : Machine} (h : frameTurn cb m = .ok () m') :
    m.callbacks.all (·.id != cb.id) = false ∧
      (m.dropped cb.id).Fires cb.frameSteps .done m' := by
  cases hall : m.callbacks.all (·.id != cb.id) with
  | true =>
    rw [frameTurn_missing hall] at h
    cases h
  | false => exact ⟨rfl, (frameTurn_fires hall).of_ok h⟩

theorem timerTurn_cases (cb : Callback) (m : Machine) :
    (∃ log, timerTurn cb m = showAndRun cb.timerSteps cb ((m.advanced cb).logged log)) ∨
    ∃ fault, timerTurn cb m = .error fault (m.advanced cb) := by
  have htake : takeTimer cb m = .ok () (m.advanced cb) := rfl
  rw [timerTurn, bind_of_ok htake]
  rcases tell_apply (.fired cb) (m.advanced cb) with ⟨log, h⟩ | ⟨fault, h⟩
  · exact .inl ⟨log, bind_of_ok h _⟩
  · exact .inr ⟨fault, bind_of_error h _⟩

theorem timerTurn_fires (cb : Callback) (m : Machine) :
    Gives ((m.advanced cb).Fires cb.timerSteps) (timerTurn cb m) := by
  rcases timerTurn_cases cb m with ⟨log, h⟩ | ⟨fault, h⟩
  · rw [h]
    exact (fires_of_steps cb ((m.advanced cb).logged log)).imp fun e m' hf => hf.of_logged
  · have hcut := @Fires.cut cb.timerSteps (m.advanced cb) [] m.log List.nil_prefix
    rw [emitted_nil] at hcut
    rw [h]
    exact .error hcut

end Run

/-! ## The timer that fires next -/

namespace Run

theorem firesBefore_iff (a b : Callback) :
    firesBefore a b = true ↔ a.due < b.due ∨ (a.due = b.due ∧ a.id < b.id) := by
  simp [firesBefore]

/-- The earlier of two timers, as the search for the next one keeps it. -/
theorem nextTimer_fold (l : List Callback) (b : Callback) : ∃ cb, l.foldl (fun best cb =>
        match best with
        | none => some cb
        | some b => if firesBefore cb b then some cb else some b) (some b) = some cb ∧
      (cb = b ∨ cb ∈ l) ∧ ∀ other ∈ b :: l, firesBefore other cb = false := by
  induction l generalizing b with
  | nil => exact ⟨b, rfl, .inl rfl, by simp [firesBefore]⟩
  | cons c l ih =>
    simp only [List.foldl_cons]
    by_cases hc : firesBefore c b = true
    · obtain ⟨cb, hfold, hmem, hfirst⟩ := ih c
      refine ⟨cb, by rw [if_pos hc, hfold], .inr (by simpa using hmem), fun other hother => ?_⟩
      rcases List.mem_cons.1 hother with rfl | hother
      · -- the old one comes after its successor, and so after the result
        have hsucc := hfirst c List.mem_cons_self
        rw [← Bool.not_eq_true, firesBefore_iff] at hsucc ⊢
        rw [firesBefore_iff] at hc
        omega
      · exact hfirst other hother
    · obtain ⟨cb, hfold, hmem, hfirst⟩ := ih b
      refine ⟨cb, by rw [if_neg hc, hfold], hmem.imp_right (List.mem_cons_of_mem c),
        fun other hother => ?_⟩
      have hb := hfirst b List.mem_cons_self
      rcases List.mem_cons.1 hother with rfl | hother
      · exact hb
      rcases List.mem_cons.1 hother with rfl | hother
      · -- the next one does not come before the best so far, nor before the result
        rw [← Bool.not_eq_true, firesBefore_iff] at hb ⊢
        rw [firesBefore_iff] at hc
        omega
      · exact hfirst other (List.mem_cons_of_mem b hother)

/-- The timer that fires next is waiting, and no other one comes before it. -/
theorem nextTimer_some {cb : Callback} {cbs : List Callback} (h : nextTimer cbs = some cb) :
    cb ∈ cbs ∧ cb.kind = .timeout ∧
      ∀ other ∈ cbs, other.kind = .timeout → firesBefore other cb = false := by
  rw [nextTimer] at h
  have htimeout (c : Callback) :
      c ∈ cbs.filter (·.kind == .timeout) ↔ c ∈ cbs ∧ c.kind = .timeout := by
    simp [List.mem_filter]
  generalize cbs.filter (·.kind == .timeout) = l at h htimeout
  cases l with
  | nil => cases h
  | cons b l =>
    obtain ⟨cb', hfold, hmem, hfirst⟩ := nextTimer_fold l b
    obtain rfl : cb' = cb := Option.some.inj (hfold.symm.trans h)
    obtain ⟨hcb, hkind⟩ := (htimeout cb').1 (List.mem_cons.2 hmem)
    exact ⟨hcb, hkind, fun other hother hk => hfirst other ((htimeout other).2 ⟨hother, hk⟩)⟩

theorem nextTimer_none {cbs : List Callback} (h : nextTimer cbs = none) :
    ∀ cb ∈ cbs, cb.kind ≠ .timeout := by
  rw [nextTimer] at h
  intro cb hcb hkind
  have hmem : cb ∈ cbs.filter (·.kind == .timeout) := by simp [List.mem_filter, hcb, hkind]
  cases hl : cbs.filter (·.kind == .timeout) with
  | nil => rw [hl] at hmem; cases hmem
  | cons b l =>
    rw [hl] at h
    obtain ⟨cb', hfold, _⟩ := nextTimer_fold l b
    cases hfold.symm.trans h

end Run

/-! ## Firings -/

/-- A callback that fires, and the state in which it is taken from the Web APIs. -/
structure Firing where
  callback : Callback
  before : Machine

namespace Run

/-- What fires after an action, if that succeeds. -/
def firingsAfter (act : Run Unit) (next : Machine → List Firing) (m : Machine) : List Firing :=
  match act m with
  | .ok _ m' => next m'
  | .error _ _ => []

/-- The callbacks that fire when animation frames are run in order.  One that is no longer there
    does not fire, and nothing after it. -/
def frameFirings : List Callback → Machine → List Firing
  | [], _ => []
  | cb :: rest, m =>
    if m.callbacks.all (·.id != cb.id) then []
    else ⟨cb, m⟩ :: firingsAfter (frameTurn cb) (frameFirings rest) m

/-- The callbacks that fire when the animation frames have their turn. -/
def drainFramesFirings (m : Machine) : List Firing :=
  frameFirings (m.callbacks.filter (·.kind == .frame)) m

/-- The callbacks that fire when timers are fired until none is left, `fuel` of them. -/
def timerFirings : Nat → Machine → List Firing
  | 0, _ => []
  | fuel + 1, m =>
    match nextTimer m.callbacks with
    | none => []
    | some cb =>
      ⟨cb, m⟩ :: firingsAfter (timerTurn cb) (fun m1 =>
        drainFramesFirings m1 ++ firingsAfter drainFrames (timerFirings fuel) m1) m

/-- The callbacks that fire when the timers have their turn. -/
def drainTimersFirings (m : Machine) : List Firing :=
  timerFirings (m.steps.limit - m.steps.steps.size + 1) m

/-- The callbacks that fire after the first microtasks. -/
def callbackFirings : Machine → List Firing :=
  firingsAfter (enter .drainFrames) fun m => drainFramesFirings m ++
    firingsAfter drainFrames (firingsAfter (enter .drainTimers) drainTimersFirings) m

/-- The callbacks that fire in the run of a program, in order. -/
def firings (source : Option String) : Machine → List Firing :=
  firingsAfter (runSource source) <| firingsAfter (enter .drainFrames) fun m =>
    drainFramesFirings m ++
      firingsAfter drainFrames (firingsAfter (enter .drainTimers) drainTimersFirings) m

/-! ## The loops of a run -/

/-- What is shown of the parts of a run, along the loops that go through them.  It relates the state
    in which a part starts, which is `ready`, with the callbacks that fire in it and with its end. -/
structure Stages (ready : Machine → Prop)
    (R : Machine → List Firing → Ending → Machine → Prop) : Prop where
  idle : ∀ {m : Machine}, ready m → R m [] .done m
  trans : ∀ {m m1 m2 : Machine} {fs fs' : List Firing} {e : Ending},
    R m fs .done m1 → R m1 fs' e m2 → R m (fs ++ fs') e m2
  next : ∀ {m m' : Machine} {fs : List Firing}, ready m → R m fs .done m' → ready m'
  enter : ∀ {m : Machine} (p : Phase), ready m → Gives (R m []) (enter p m)
  /-- An animation frame is no longer there. -/
  missing : ∀ {m : Machine}, ready m → R m [] .failed m
  frame : ∀ {m : Machine} {cb : Callback}, ready m → cb.kind = .frame →
    m.callbacks.all (·.id != cb.id) = false → Gives (R m [⟨cb, m⟩]) (frameTurn cb m)
  timer : ∀ {m : Machine} {cb : Callback}, ready m → nextTimer m.callbacks = some cb →
    Gives (R m [⟨cb, m⟩]) (timerTurn cb m)

namespace Stages

variable {ready : Machine → Prop} {R : Machine → List Firing → Ending → Machine → Prop}
  {fs : List Firing} {source : Option String} (h : Stages ready R)

include h

theorem bind {act : Run Unit} {f : Unit → Run Unit} {next : Machine → List Firing} (hm : ready m)
    (hact : Gives (R m fs) (act m)) (hf : ∀ m', ready m' → Gives (R m' (next m')) (f () m')) :
    Gives (R m (fs ++ firingsAfter act next m)) ((act >>= f) m) := by
  rw [bind_apply, firingsAfter]
  cases hr : act m with
  | ok a m' =>
    have hfirst := hact.of_ok hr
    exact (hf m' (h.next hm hfirst)).imp fun _ _ hrest => h.trans hfirst hrest
  | error fault m' =>
    rw [hr] at hact
    rw [List.append_nil]
    cases hact with
    | error hfailed => exact .error hfailed

theorem lead {act : Run Unit} {f : Unit → Run Unit} {next : Machine → List Firing} (hm : ready m)
    (hact : Gives (R m []) (act m)) (hf : ∀ m', ready m' → Gives (R m' (next m')) (f () m')) :
    Gives (R m (firingsAfter act next m)) ((act >>= f) m) :=
  h.bind hm hact hf

theorem frameTurns (cbs : List Callback) (hcbs : ∀ cb ∈ cbs, cb.kind = .frame) (hm : ready m) :
    Gives (R m (frameFirings cbs m)) (frameTurns cbs m) := by
  induction cbs generalizing m with
  | nil => exact .ok (h.idle hm)
  | cons cb rest ih =>
    obtain ⟨hkind, hrest⟩ := List.forall_mem_cons.1 hcbs
    rw [frameFirings, Run.frameTurns]
    cases hall : m.callbacks.all (·.id != cb.id) with
    | true =>
      rw [bind_of_error (frameTurn_missing hall)]
      exact .error (h.missing hm)
    | false => exact h.bind hm (h.frame hm hkind hall) fun m' hm' => ih hrest hm'

theorem drainFrames (hm : ready m) : Gives (R m (drainFramesFirings m)) (drainFrames m) := by
  refine h.frameTurns _ (fun cb hcb => ?_) hm
  simpa using (List.mem_filter.1 hcb).2

theorem timerTurns (fuel : Nat) (hm : ready m) :
    Gives (R m (timerFirings fuel m)) (timerTurns fuel m) := by
  induction fuel generalizing m with
  | zero => exact .ok (h.idle hm)
  | succ fuel ih =>
    rw [timerFirings, Run.timerTurns, bind_apply, get_apply]
    dsimp only
    cases hnext : nextTimer m.callbacks with
    | none => exact .ok (h.idle hm)
    | some cb =>
      exact h.bind hm (h.timer hm hnext) fun m1 hm1 =>
        h.bind hm1 (h.drainFrames hm1) fun m2 hm2 => ih hm2

theorem drainTimers (hm : ready m) : Gives (R m (drainTimersFirings m)) (drainTimers m) :=
  h.timerTurns _ hm

theorem quiet {act : Run α} {f : α → Run Unit} (hm : ready m) (hact : Gives (R m fs) (act m))
    (hf : ∀ a m', ready m' → Gives (R m' []) (f a m')) : Gives (R m fs) ((act >>= f) m) := by
  refine gives_bind (fun fault m' hr => ?_) fun a m' hr => ?_
  · rw [hr] at hact
    cases hact with
    | error hfailed => exact hfailed
  · have hfirst := hact.of_ok hr
    refine (hf a m' (h.next hm hfirst)).imp fun _ _ hrest => ?_
    simpa using h.trans hfirst hrest

theorem runSource (hm : ready m) (hwalk : Gives (R m []) (walkSource source m))
    (hdrain : ∀ {m}, ready m → Gives (R m []) (drainMicrotasks m)) :
    Gives (R m []) (runSource source m) :=
  h.quiet hm hwalk fun _ _ hm1 => h.quiet hm1 (h.enter _ hm1) fun _ _ hm2 => hdrain hm2

theorem callbacks (hm : ready m) : Gives (R m (callbackFirings m)) ((do
      Run.enter .drainFrames
      Run.drainFrames
      Run.enter .drainTimers
      Run.drainTimers
      Run.enter .done : Run Unit) m) := by
  have htimers {m : Machine} (hm : ready m) : Gives (R m (drainTimersFirings m))
      ((do Run.drainTimers; Run.enter .done : Run Unit) m) :=
    h.quiet hm (h.drainTimers hm) fun _ _ hm' => h.enter .done hm'
  rw [callbackFirings]
  exact h.lead hm (h.enter _ hm) fun _ hm1 => h.bind hm1 (h.drainFrames hm1) fun _ hm2 =>
    h.lead hm2 (h.enter _ hm2) fun _ hm3 => htimers hm3

theorem generate (hm : ready m) (hsource : Gives (R m []) (Run.runSource source m)) :
    Gives (R m (firings source m)) (generate source m) :=
  h.lead hm hsource fun _ hm' => h.callbacks hm'

end Stages

end Run

/-! ## Whole runs -/

namespace Run

open Machine

theorem enter_roams (p : Phase) : Roams tame (enter p) := .note _ _

/-- The statements of a program belong to no call. -/
theorem runProgram_leads (p : Program) {m : Machine} (hm : tame = true → m.frames = []) :
    m.Leads tame m.callBudget Outcome.ending (runProgram p m) := by
  have hhoist : Roams tame (hoist p.body) := .of_walks fun _ => hoist_walks p.body
  refine hhoist.bind_leads fun _ m' hw => withCalls_leads fun call hcall => ?_
  refine execAll_leads hcall p.body m' fun htame frame hframe => ?_
  rw [hw.context.2, hm htame] at hframe
  cases hframe

theorem walkSource_leads (source : Option String) {m : Machine} (hm : tame = true → m.frames = []) :
    m.Leads tame m.callBudget Outcome.ending (walkSource source m) := by
  refine (enter_roams _).bind_leads fun _ m1 hw1 => ?_
  refine (Roams.of_walks fun _ => .lift _).bind_leads fun p m2 hw2 => ?_
  refine (enter_roams _).bind_leads fun _ m3 hw3 => runProgram_leads p fun ht => ?_
  rw [hw3.context.2, hw2.context.2, hw1.context.2, hm ht]

theorem evaluateNode_leads (node : Node) (m : Machine) :
    m.Leads tame m.callBudget (fun _ => .done) (evaluateNode node m) := by
  cases node with
  | expr e => exact withCalls_leads fun call hcall => eval_walks hcall false e m
  | stmt s => exact .error (.fail m)

theorem executeNode_leads (node : Node) (hm : tame = true → m.frames = []) :
    m.Leads tame m.callBudget Outcome.ending (executeNode node m) := by
  cases node with
  | expr e => exact .error (.fail m)
  | stmt s =>
    refine withCalls_leads fun call hcall => exec_leads hcall s m fun ht => ?_
    simp [Machine.Covers, hm ht]

end Run

/-- What can be asked of a run: a generation from a source, or any of the parts that one is made of.
-/
inductive Operation where
  | generate (source : Option String)
  | run (program : Program)
  | evaluate (node : Node)
  | execute (node : Node)
  | microtasks
  | frames
  | timers

/-- The action of an operation, without its result. -/
def Operation.act : Operation → Run Unit
  | .generate source => Run.generate source
  | .run p => discard (Run.runProgram p)
  | .evaluate node => discard (Run.evaluateNode node)
  | .execute node => discard (Run.executeNode node)
  | .microtasks => Run.drainMicrotasks
  | .frames => Run.drainFrames
  | .timers => Run.drainTimers

namespace Machine

/-- The state after an operation, whether it succeeded or failed. -/
def after (m : Machine) (op : Operation) : Machine :=
  match op.act m with
  | .ok _ m' | .error _ m' => m'

theorem after_eq (m : Machine) (op : Operation) : m.after op = Run.final (op.act m) := by
  rw [after]
  cases op.act m <;> rfl

theorem after_of_gives {op : Operation} (h : Run.Gives R (op.act m)) : ∃ e, R e (m.after op) :=
  m.after_eq op ▸ h.final

end Machine

end EventLoop
