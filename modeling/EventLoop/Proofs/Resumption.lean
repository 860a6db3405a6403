/-
  A suspended call, drained, ends as if its awaits had been passed at once.

  A call of an async function is left at its first `await`.  Each microtask that follows enters it
  again, runs the rest of the body up to the next `await`, and leaves it (`Awaits.turn`); the one
  that comes to the end of the body settles the promise of the call (`ends_leave`).  By induction on
  the awaits that are passed, the microtasks run out in a state that is alike to the end of the
  passage (`Reaches.leaves`).

  `callAndDrain_agrees_with_passage` is the result, for awaits at any depth of blocks and loops in
  the captured reading of scopes.  `loop_await_shares_variable` shows that it would be false of the
  lexical one for awaits in inner blocks.
-/
import EventLoop.Generator
import EventLoop.Proofs.Simulation

namespace EventLoop

open Script

variable {mr : Machine} {scoping : Scoping}

namespace Activation

open Run

variable {a : Activation} {m m1 m' : Machine} {v w : Value} {y : Machine} {act : Run Outcome}
  {scope : Scope}

/-! ## The end of a call -/

/-- Runs a part of the body and leaves the call.  If the part is not suspended, it is the last one,
    and the promise of the call is fulfilled. -/
def leave (a : Activation) (scope : Scope) (act : Run Outcome) : Run Unit := do
  let outcome ← restoring scope a.outer act
  emit .pop
  finish (some a.promise) outcome

/-- What is done at the end of a body that returns `v`. -/
def settleEnd (a : Activation) (v : Value) : Run Unit := do
  emit .pop
  settle a.promise .fulfilled (← settledValue v)

/-- The microtasks that are left run out in a state that is alike to `m`, unless a limit is reached.
-/
def Drained (m : Machine) (r : EStateM.Result Fault Machine Unit) : Prop :=
  (∃ fault y, r = .error fault y ∧ (fault = .stepLimit ∨ fault = .microtaskLimit)) ∨
    ∃ n y, r = .ok () y ∧ m.Alike n y

theorem microtaskTurns_idle (h : y.cursor = y.microtasks.size) (budget : Nat) :
    microtaskTurns budget y = .ok () y := by
  have hnone : y.microtasks[y.cursor]? = none := by simp [h]
  cases budget <;> simp [microtaskTurns, takeMicrotask_apply, hnone]

theorem settleEnd_repeats (a : Activation) (v : Value) : Repeats (a.settleEnd v) :=
  (emit_repeats .pop).bind fun _ => (settledValue_repeats v).bind fun _ => settle_repeats _ _ _

/-- A part of the body that is not suspended ends the call. -/
theorem ends_leave
    (h : m.Brings act fun n outcome y => outcome.ending = .done ∧ outcome.value = v ∧ m'.Alike n y)
    (hend : a.settleEnd v { m' with scope, frames := a.outer } = .ok () mr)
    (hready : mr.cursor = mr.microtasks.size) :
    m.Brings (a.leave scope act) fun _ _ y => ∀ budget, Drained mr (microtaskTurns budget y) := by
  have hback : m.Brings (restoring scope a.outer act) fun n outcome y =>
      outcome.ending = .done ∧ outcome.value = v ∧
        Machine.Alike n { m' with scope, frames := a.outer } y :=
    restoring_brings h fun n x y hx =>
      ⟨hx.1, hx.2.1, { hx.2.2 with scope := rfl, frames := rfl }⟩
  have hfinish (outcome : Outcome) (hdone : outcome.ending = .done) (hv : outcome.value = v) :
      (do
        emit .pop
        finish (some a.promise) outcome) = a.settleEnd v := by
    subst hv
    cases outcome with
    | suspended k => cases hdone
    | completed => rfl
    | returned w => rfl
  refine hback.bind fun n outcome y hy => ?_
  obtain ⟨hdone, hv, hy⟩ := hy
  rw [hfinish outcome hdone hv]
  rcases (a.settleEnd_repeats v).arrives hend n y hy with hlimit | ⟨_, y', hy', -, halike⟩
  · exact .inl hlimit
  · refine .inr ⟨(), y', hy', fun budget => .inr ⟨n, y', ?_, halike⟩⟩
    exact microtaskTurns_idle (by rw [halike.cursor, halike.microtasks, hready]) budget

/-! ## The turn of a suspended call -/

theorem runRest_eq {c : Continuation} (hy : y.frames = a.frames) (v : Value) :
    runRest c v y = a.rest c.target v c.statements y := by
  rw [runRest, rest, bind_apply, bind_apply]
  cases h : receive c.target v y with
  | error fault y' => rfl
  | ok outcome y' =>
    have hframes : y'.frames = a.frames :=
      (receive_advances c.target v y outcome y' h).frames.trans hy
    cases outcome with
    | completed =>
      change execAll (invoke y'.callBudget) c.statements y' = _
      rw [Machine.callBudget, hframes]
      rfl
    | returned w => rfl
    | suspended k => rfl

theorem microtaskTurns_zero {t : Microtask} (h : y.microtasks[y.cursor]? = some t) :
    microtaskTurns 0 y = .error .microtaskLimit y.taken := by
  rw [microtaskTurns, bind_apply, takeMicrotask_apply, h]
  rfl

theorem resume_eq {c : Continuation} (hfunction : c.function = a.function)
    (hpromise : c.promise = some a.promise) (hy : y.frames = a.outer) (value : Value) :
    resume c .fulfilled value y =
      (do
        emit (.push (a.function.name ++ "()"))
        a.leave y.scope (do runRest c (← settledValue value))) (y.resumed c) := by
  rw [← hfunction, leave, ← hy, ← hpromise]
  rfl

theorem leave_congr {act' : Run Outcome} (scope : Scope) (h : act y = act' y) :
    a.leave scope act y = a.leave scope act' y := by
  rw [leave, leave, bind_apply, bind_apply, restoring, restoring, h]

/-- The microtask of a suspended call runs the rest of its body, in a state that is alike to the one
    in which the call was suspended, and leaves the call. -/
theorem Awaits.turn {n k : Nat} {stmts : List Stmt} {target : Target} {y : Machine}
    (h : a.Awaits n k stmts target w m y) (hm : m.frames = a.frames) (hy : y.frames = a.outer)
    (budget : Nat) : (∃ y', microtaskTurns (budget + 1) y = .error .stepLimit y') ∨
      ∃ y', m.Alike (n + 1) y' ∧ microtaskTurns (budget + 1) y =
        (do
          a.leave y.scope (a.rest target w stmts)
          microtaskTurns budget) y' := by
  obtain ⟨t, htask, hreaction, hstate, hvalue⟩ := h.task
  -- the microtask is taken and shown
  rcases emitAll_cases (.microtaskAdd t.id t.name) [.microtaskRemove t.id] y.taken with
    ⟨_, log, hshow⟩ | ⟨log, part, _, hshow⟩
  case inr => exact .inl ⟨_, (microtaskTurns_succ htask budget).trans (bind_of_error hshow _)⟩
  let c : Continuation :=
    { statements := stmts, scope := m.scope, function := a.function, target,
      promise := some a.promise }
  obtain ⟨y1, hturn, hscope, hframes, hc, hy1⟩ : ∃ y1 : Machine,
      microtaskTurns (budget + 1) y =
        (do
          runMicrotask t
          microtaskTurns budget) y1 ∧
      y1.scope = y.scope ∧ y1.frames = a.outer ∧ y1.continuations[k]? = some c ∧
      m.Alike (n + 1) (y1.resumed c) := by
    refine ⟨_, (microtaskTurns_succ htask budget).trans (bind_of_ok hshow _), rfl, hy,
      h.continuation, ?_⟩
    have hshown := h.alike.emitted
      (l := [.microtaskAdd t.id t.name, .microtaskRemove t.id]) rfl log
    exact { hshown with frames := by rw [hm, frames, ← hy]; rfl }
  -- the call is entered again
  have henter : microtaskTurns (budget + 1) y =
      (do
        emit (.push (a.function.name ++ "()"))
        a.leave y.scope (do runRest c (← settledValue t.value))
        microtaskTurns budget) (y1.resumed c) := by
    have hrun : runMicrotask t y1 = resume c .fulfilled t.value y1 := by
      simp [runMicrotask, hreaction, hstate, continuationOf, hc]
    rw [hturn, bind_apply, hrun, resume_eq rfl rfl hframes, hscope, ← bind_apply, bind_assoc]
  rcases emit_cases (.push (a.function.name ++ "()")) (y1.resumed c) with
    ⟨_, log', hpush⟩ | ⟨_, hpush⟩
  case inr => exact .inl ⟨_, henter.trans (bind_of_error hpush _)⟩
  have hy2 : m.Alike (n + 1)
      (((y1.resumed c).emitted [.push (a.function.name ++ "()")]).logged log') :=
    hy1.emitted rfl log'
  refine .inr ⟨_, hy2, ?_⟩
  have hrest : (do runRest c (← settledValue t.value) : Run Outcome)
      (((y1.resumed c).emitted [.push (a.function.name ++ "()")]).logged log') =
      a.rest target w stmts
        (((y1.resumed c).emitted [.push (a.function.name ++ "()")]).logged log') := by
    rw [bind_of_ok (settledValue_of_alike hy2 hvalue)]
    exact runRest_eq (hy2.frames.trans hm) w
  rw [henter, bind_of_ok hpush, bind_apply, bind_apply, leave_congr y.scope hrest]

/-- Wherever the body is suspended, the microtasks that follow run it to its end. -/
theorem Reaches.leaves (h : a.Reaches act m v m')
    (hend : a.settleEnd v { m' with scope, frames := a.outer } = .ok () mr)
    (hready : mr.cursor = mr.microtasks.size) :
    m.Brings (a.leave scope act) fun _ _ y => ∀ budget, Drained mr (microtaskTurns budget y) := by
  induction h with
  | ends h => exact ends_leave h hend hready
  | @hops act m m1 m' v w stmts target hframes hparks _ ih =>
    have hback : m.Brings (restoring scope a.outer act) fun n outcome y =>
        ∃ k, outcome = .suspended k ∧ a.Awaits n k stmts target w m1 y ∧ y.scope = scope ∧
          y.frames = a.outer := by
      refine restoring_brings hparks fun n outcome y hy => ?_
      obtain ⟨k, rfl, hawaits⟩ := hy
      exact ⟨k, rfl, hawaits.moved scope a.outer, rfl, rfl⟩
    refine hback.bind fun n outcome y hy => ?_
    obtain ⟨k, rfl, hawaits, hscope, houter⟩ := hy
    rcases emit_cases .pop y with ⟨_, log, hpop⟩ | ⟨_, hpop⟩
    case inr => exact .inl ⟨y, bind_of_error hpop _⟩
    refine .inr ⟨(), _, bind_of_ok hpop _, fun budget => ?_⟩
    have hawaits' : a.Awaits n k stmts target w m1 ((y.emitted [.pop]).logged log) :=
      { hawaits with alike := { hawaits.alike.emitted (l := [.pop]) rfl log with } }
    cases budget with
    | zero =>
      -- the call waits for a microtask, which is one too many
      obtain ⟨t, htask, _⟩ := hawaits'.task
      exact .inl ⟨.microtaskLimit, _, microtaskTurns_zero htask, .inr rfl⟩
    | succ budget =>
      rcases hawaits'.turn hframes houter budget with ⟨y', hlimit⟩ | ⟨y', hy', hturn⟩
      · exact .inl ⟨.stepLimit, y', hlimit, .inl rfl⟩
      rw [hturn, show ((y.emitted [.pop]).logged log).scope = scope from hscope]
      rcases ih hend (n + 1) y' hy' with ⟨y'', hlimit⟩ | ⟨_, y'', hleave, hdrained⟩
      · exact .inl ⟨.stepLimit, y'', bind_of_error hlimit _, .inl rfl⟩
      · rw [bind_of_ok hleave]
        exact hdrained budget

/-- A body that does what its passage does ends with the value of the passage. -/
theorem Simulates.reaches_value {act : Run Outcome} {p : Passage} (h : a.Simulates act m p m1)
    (hv : p.value? = some v) : a.Reaches act m v m1 := by
  cases h with
  | stuck => cases hv
  | direct h =>
    refine .ends fun n y hy => (h n y hy).imp_right ?_
    rintro ⟨outcome', y', hact, rfl, hy'⟩
    cases outcome' with
    | completed => exact ⟨_, y', hact, rfl, by cases hv; rfl, hy'⟩
    | returned w => exact ⟨_, y', hact, rfl, by cases hv; rfl, hy'⟩
    | suspended k => cases hv
  | @awaits outcome _ m2 stmts target w hframes hparks hrest =>
    have hfin : a.Finishes outcome m1 [] v m1 := by
      cases outcome with
      | completed =>
        cases hv
        exact .ends fun n y hy => .inr ⟨_, y, rfl, rfl, rfl, hy⟩
      | returned w =>
        cases hv
        exact ⟨rfl, rfl⟩
      | suspended k => cases hv
    have hreaches := hrest [] v m1 hfin
    rw [List.append_nil] at hreaches
    exact .hops hframes hparks hreaches

/-! ## Calls -/

theorem settleEnd_advances (a : Activation) (v : Value) : Advances (a.settleEnd v) :=
  (emit_advances .pop).bind fun _ =>
    (Advances.of_reads (reads_settledValue v)).bind fun _ => settle_advances _ _ _

theorem inFrame_leave (hy : y.frames = a.outer) (scope : Scope) (act : Run Outcome) : (do
      let outcome ← inFrame scope a.frame act
      emit .pop
      finish (some a.promise) outcome) y =
      a.leave y.scope act { y with scope, frames := a.frames } := by
  rw [leave, bind_apply, bind_apply, inFrame, hy]
  rfl

/-- A body that does what its passage does, run in the frame of its call, gives the promise of the
    call, and the microtasks that follow run it to its end. -/
theorem Simulates.drains {p : Passage}
    (h : a.Simulates act { m with scope, frames := a.frames } p m1) (hm : m.frames = a.outer)
    (hvalue : p.value? = some v)
    (hend : a.settleEnd v { m1 with scope := m.scope, frames := a.outer } = .ok () mr)
    (hready : mr.cursor = mr.microtasks.size) :
    m.Brings (do
      let outcome ← inFrame scope a.frame act
      emit .pop
      finish (some a.promise) outcome
      return Value.promise a.promise) fun _ v' y =>
        v' = Value.promise a.promise ∧ ∀ budget, Drained mr (microtaskTurns budget y) := by
  have hleave : m.Brings (do
      let outcome ← inFrame scope a.frame act
      emit .pop
      finish (some a.promise) outcome) fun _ _ y =>
        ∀ budget, Drained mr (microtaskTurns budget y) := by
    intro n y hy
    rw [inFrame_leave (hy.frames.trans hm), hy.scope]
    exact (h.reaches_value hvalue).leaves hend hready n _ { hy with scope := rfl, frames := rfl }
  have hvalued := hleave.bind (f := fun _ => pure (Value.promise a.promise))
    (Q := fun _ v' y => v' = .promise a.promise ∧ ∀ budget, Drained mr (microtaskTurns budget y))
    fun n _ y hy => .inr ⟨_, y, rfl, rfl, hy⟩
  simpa only [bind_assoc] using hvalued

end Activation

namespace Run

variable {f : Function} {args : List Value} {label : String} {line : Nat} {v : Value}
  {m mr : Machine}

/-- Calls a function and runs microtasks until none is left. -/
def callAndDrain (f : Function) (args : List Value) (label : String) (line : Nat) : Run Value :=
  withCalls fun call => do
    let v ← call f args label line
    drainMicrotasks
    return v

/-- The stages of a passed call, from the push to the settlement of its promise. -/
theorem passCall_inv {budget : Nat} (hasync : f.isAsync = true)
    (h : passCall scoping budget f args label line m = .ok (some v) mr) :
    ∃ depth scope id p u m1 m2 m3 m4, budget = depth + 1 ∧ v = .promise id ∧
      emitAll [.highlight line, .push label] m = .ok () m1 ∧
      newScope f.scope (bindParams f.params args []) m1 = .ok scope m2 ∧
      newPromise .pending .undefined m2 = .ok id m3 ∧
      passBody scoping (invoke depth) f.body
        { m3 with scope, frames := ⟨f, some id⟩ :: m3.frames } = .ok p m4 ∧
      p.value? = some u ∧
      Activation.settleEnd ⟨f, id, m3.frames, hasync⟩ u
        { m4 with scope := m3.scope, frames := m3.frames } = .ok () mr := by
  unfold passCall at h
  obtain ⟨_, m1, hshow, h⟩ := bind_eq_ok h
  cases budget with
  | zero => cases h
  | succ depth =>
    obtain ⟨scope, m2, hscope, h⟩ := bind_eq_ok h
    obtain ⟨id, m3, hid, h⟩ := bind_eq_ok h
    obtain ⟨p, m4, hbody, h⟩ := bind_eq_ok h
    obtain ⟨_, m5, hpop, hvalued⟩ := bind_eq_ok h
    cases hbody' : passBody scoping (invoke depth) f.body
        { m3 with scope, frames := ⟨f, some id⟩ :: m3.frames } with
    | error fault m' => simp [inFrame, restoring, hbody'] at hbody
    | ok p' m' =>
      obtain ⟨rfl, rfl⟩ : p' = p ∧ { m' with scope := m3.scope, frames := m3.frames } = m4 := by
        simpa [inFrame, restoring, hbody'] using hbody
      cases hvalue : p'.value? with
      | none =>
        rw [hvalue] at hvalued
        cases hvalued
      | some u =>
        rw [hvalue] at hvalued
        obtain ⟨w, m6, hw, hsettled⟩ := bind_eq_ok hvalued
        obtain ⟨_, _, hsettle, ⟨⟩⟩ := bind_eq_ok hsettled
        refine ⟨depth, scope, id, p', u, m1, m2, m3, m', rfl, rfl, hshow, hscope, hid, hbody',
          hvalue, ?_⟩
        exact (bind_of_ok hpop _).trans ((bind_of_ok hw _).trans hsettle)

theorem invoke_async (hasync : f.isAsync = true) (depth : Nat) :
    invoke (depth + 1) f args label line = (do
      emitAll [.highlight line, .push label]
      note 2 ("call " ++ label)
      let scope ← newScope f.scope (bindParams f.params args [])
      let id ← newPromise .pending .undefined
      let outcome ← inFrame scope ⟨f, some id⟩ (runBody (invoke depth) f.body)
      emit .pop
      finish (some id) outcome
      return .promise id) := by
  simp only [invoke, runCall, callPromise, hasync, if_true, map_eq_pure_bind, bind_assoc, pure_bind,
    callValue]

/-- A call whose body can be passed, with nothing in the queue before and afterwards, is drained to
    the state in which the passage ends. -/
theorem invoke_drains (hasync : f.isAsync = true) (hsteady : f.body.steady = true)
    (hidle : m.cursor = m.microtasks.size)
    (hpass : passCall .captured m.callBudget f args label line m = .ok (some v) mr)
    (hquiet : mr.microtasks.size = m.microtasks.size) :
    m.Brings (invoke m.callBudget f args label line) fun _ v' y =>
      v' = v ∧ ∀ budget, Activation.Drained mr (microtaskTurns budget y) := by
  obtain ⟨depth, scope, id, p, u, m1, m2, m3, m4, hdepth, rfl, hshow, hscope, hid, hbody, hvalue,
    hend⟩ := passCall_inv hasync hpass
  let a : Activation := ⟨f, id, m3.frames, hasync⟩
  -- nothing is taken from the queue on the way, so nothing is added to it either
  have h3 : m.Onward m3 :=
    ((emitAll_advances _ _ _ _ hshow).trans (newScope_advances _ _ _ _ _ hscope)).trans
      (Advances.of_walks true 0 (newPromise_walks .pending .undefined) _ _ _ hid)
  have hwalks : CallsWalk true depth (invoke depth) := invoke_walks depth
  have h4 := passBody_advances hwalks .captured f.body _ _ _ hbody
  have hr := a.settleEnd_advances u _ _ _ hend
  have hcall : a.call = invoke depth := by
    have hframes : m3.frames.length + 1 + depth = maxCallDepth := by
      rw [Machine.callBudget, ← h3.frames] at hdepth
      omega
    rw [Activation.call, Activation.frames, List.length_cons, ← hframes, Nat.add_sub_cancel_left]
  have hcursor3 : m3.cursor = m.cursor := h3.cursor
  have hcursor4 : m4.cursor = m3.cursor := h4.cursor
  have hsize3 : m.microtasks.size ≤ m3.microtasks.size := h3.microtasks
  have hsize4 : m3.microtasks.size ≤ m4.microtasks.size := h4.microtasks
  have hsize : m4.microtasks.size ≤ mr.microtasks.size := hr.microtasks
  have hready : mr.cursor = mr.microtasks.size := by
    rw [hr.cursor, hcursor4, hcursor3, hidle, hquiet]
  have hstart : a.Calm { m3 with scope, frames := a.frames } :=
    ⟨rfl, show m3.cursor = m3.microtasks.size by omega⟩
  have hstop : a.Calm m4 := ⟨h4.frames, by omega⟩
  have hsimulates :
      a.Simulates (runBody a.call f.body) { m3 with scope, frames := a.frames } p m4 :=
    a.runBody_mimics hsteady _ _ _ (hcall ▸ hbody) hstart hstop
  rw [hdepth, invoke_async hasync]
  refine ((emitAll_repeats _).arrives hshow).bind <| (Machine.Arrives.note _ _).bind <|
    ((newScope_repeats _ _).arrives hscope).bind <|
      ((newPromise_repeats _ _).arrives hid).bind ?_
  rw [← hcall]
  exact hsimulates.drains rfl hvalue hend hready

end Run

/-- A call of an async function made with nothing in the queue, and drained, gives the value and the
    state in which the passage of its body ends: in the captured reading of scopes, whatever blocks
    and loops the awaits are in, and in the lexical reading too, if none is in an inner block.

    That there is a passage means that every operand of an `await` is no promise or a fulfilled one,
    and that no loop runs on.  Nothing else may be queued, no loop starts with an `await`, and the
    call that is drained may reach a limit of the run. -/
theorem callAndDrain_agrees_with_passage {scoping : Scoping} {f : Function} {args : List Value}
    {label : String} {line : Nat} {v : Value} {m mr : Machine} (hasync : f.isAsync = true)
    (hsteady : f.body.steady = true) (hscoping : scoping = .lexical → f.body.flat = true)
    (hidle : m.cursor = m.microtasks.size)
    (hpass : Run.passCall scoping m.callBudget f args label line m = .ok (some v) mr)
    (hquiet : mr.microtasks.size = m.microtasks.size) :
    (∃ fault m', Run.callAndDrain f args label line m = .error fault m' ∧
      (fault = .stepLimit ∨ fault = .microtaskLimit)) ∨
    ∃ n m', Run.callAndDrain f args label line m = .ok v m' ∧ mr.Alike n m' := by
  have hcaptured : Run.passCall .captured m.callBudget f args label line m = .ok (some v) mr := by
    cases scoping with
    | captured => exact hpass
    | lexical => rw [Run.passCall_captured_of_flat (hscoping rfl), hpass]
  rcases Run.invoke_drains hasync hsteady hidle hcaptured hquiet 0 m (.refl m) with
    ⟨y, hlimit⟩ | ⟨_, y, hcall, rfl, hdrained⟩
  · exact .inl ⟨.stepLimit, y, Run.bind_of_error hlimit _, .inl rfl⟩
  have hdrain : Activation.Drained mr (Run.drainMicrotasks y) := hdrained _
  rcases hdrain with ⟨fault, y', hlimit, hfault⟩ | ⟨n, y', hdrain, halike⟩
  · exact .inl ⟨fault, y', (Run.bind_of_ok hcall _).trans (Run.bind_of_error hlimit _), hfault⟩
  · exact .inr ⟨n, y', (Run.bind_of_ok hcall _).trans (Run.bind_of_ok hdrain _), halike⟩

/-- Whether a call of an async function is made with nothing in the queue, can be passed without
    anything being queued, and can be drained before a limit is reached. -/
def Machine.passable (m : Machine) (scoping : Scoping) (f : Function) (args : List Value) : Bool :=
  f.isAsync && f.body.steady && m.cursor == m.microtasks.size &&
    match Run.passCall scoping m.callBudget f args f.name 1 m,
      Run.callAndDrain f args f.name 1 m with
    | .ok (some _) mr, .ok _ _ => mr.microtasks.size == m.microtasks.size
    | _, _ => false

theorem Machine.passable_inv {m : Machine} {f : Function} {args : List Value}
    (h : m.passable scoping f args = true) :
    f.isAsync = true ∧ f.body.steady = true ∧ m.cursor = m.microtasks.size ∧ ∃ v mr v' m',
      Run.passCall scoping m.callBudget f args f.name 1 m = .ok (some v) mr ∧
      mr.microtasks.size = m.microtasks.size ∧
      Run.callAndDrain f args f.name 1 m = .ok v' m' := by
  simp only [passable, Bool.and_eq_true, beq_iff_eq] at h
  obtain ⟨⟨⟨hasync, hsteady⟩, hidle⟩, hruns⟩ := h
  refine ⟨hasync, hsteady, hidle, ?_⟩
  split at hruns
  next v mr v' m' hpass hcall => exact ⟨v, mr, v', m', hpass, beq_iff_eq.1 hruns, hcall⟩
  next => cases hruns

/-- Awaits in a branch of a loop, and awaits among the statements of a body. -/
theorem callAndDrain_agrees_with_passage_loop :
    let source := "async function g(x) { let y = await x; return await y }\n" ++
      "async function f() { for (let i = 0; i < 3; i++) { if (i) { await i } } }"
    let m := [Operation.run ((readProgram (some source)).toOption.getD default)].foldl Machine.after
      (Machine.start 100 {})
    (∃ f, m.registry.lookup "f" = some f ∧ ∃ v mr,
      Run.passCall .captured m.callBudget f [] f.name 1 m = .ok (some v) mr ∧
      ∃ n m', Run.callAndDrain f [] f.name 1 m = .ok v m' ∧ mr.Alike n m') ∧
    ∃ g, m.registry.lookup "g" = some g ∧ ∃ v mr,
      Run.passCall .lexical m.callBudget g [.int 3] g.name 1 m = .ok (some v) mr ∧
      ∃ n m', Run.callAndDrain g [.int 3] g.name 1 m = .ok v m' ∧ mr.Alike n m' := by
  intro source m
  have hcalls : ((m.registry.lookup "f").any fun f => m.passable .captured f []) = true ∧
      ((m.registry.lookup "g").any fun g =>
        m.passable .lexical g [.int 3] && g.body.flat) = true := by
    decide +kernel
  have hagrees {scoping : Scoping} {f : Function} {args : List Value}
      (h : m.passable scoping f args = true) (hflat : scoping = .lexical → f.body.flat = true) :
      ∃ v mr, Run.passCall scoping m.callBudget f args f.name 1 m = .ok (some v) mr ∧
        ∃ n m', Run.callAndDrain f args f.name 1 m = .ok v m' ∧ mr.Alike n m' := by
    obtain ⟨hasync, hsteady, hidle, v, mr, v', m', hpass, hquiet, hcall⟩ := Machine.passable_inv h
    refine ⟨v, mr, hpass, ?_⟩
    rcases callAndDrain_agrees_with_passage hasync hsteady hflat hidle hpass hquiet with
      ⟨fault, m1, hfault, -⟩ | hagrees
    · rw [hcall] at hfault
      cases hfault
    · exact hagrees
  obtain ⟨f, hf, hpassable⟩ := (Option.any_eq_true _ _).1 hcalls.1
  obtain ⟨g, hg, hpassable'⟩ := (Option.any_eq_true _ _).1 hcalls.2
  obtain ⟨hpassable', hflat⟩ := Bool.and_eq_true_iff.1 hpassable'
  exact ⟨⟨f, hf, hagrees hpassable nofun⟩, g, hg, hagrees hpassable' fun _ => hflat⟩

/-- In the lexical reading, a function made in a round of a loop sees the variable of that round,
    which is 0.  But as the round is suspended, the loop goes on with the same variable, and the
    function sees that it has become 1. -/
theorem loop_await_shares_variable :
    let source := "let g\nfunction show() { let r = g(); console.log(r) }\n" ++
      "async function f() { for (let i = 0; i < 1; i++) { await 1; g = () => i }; show() }"
    let m := [Operation.run ((readProgram (some source)).toOption.getD default)].foldl Machine.after
      (Machine.start 100 {})
    ∃ f v mr v' m', m.registry.lookup "f" = some f ∧ f.isAsync = true ∧ f.body.steady = true ∧
      m.cursor = m.microtasks.size ∧
      Run.passCall .lexical m.callBudget f [] f.name 1 m = .ok (some v) mr ∧
      mr.microtasks.size = m.microtasks.size ∧
      Run.callAndDrain f [] f.name 1 m = .ok v' m' ∧
      (Step.consoleLines mr.steps.toList).map Json.plain = ["0"] ∧
      (Step.consoleLines m'.steps.toList).map Json.plain = ["1"] := by
  intro source m
  let linesOf (m : Machine) := (Step.consoleLines m.steps.toList).map Json.plain
  have hf : ((m.registry.lookup "f").any fun f => m.passable .lexical f [] &&
      (linesOf (Run.final (Run.passCall .lexical m.callBudget f [] f.name 1 m)) == ["0"] &&
        linesOf (Run.final (Run.callAndDrain f [] f.name 1 m)) == ["1"])) = true := by
    decide +kernel
  obtain ⟨f, hlookup, hf⟩ := (Option.any_eq_true _ _).1 hf
  obtain ⟨hf, hlines⟩ := Bool.and_eq_true_iff.1 hf
  obtain ⟨hasync, hsteady, hidle, v, mr, v', m', hpass, hquiet, hcall⟩ := Machine.passable_inv hf
  rw [hpass, hcall] at hlines
  obtain ⟨hlines, hlines'⟩ := Bool.and_eq_true_iff.1 hlines
  exact ⟨f, v, mr, v', m', hlookup, hasync, hsteady, hidle, hpass, hquiet, hcall,
    beq_iff_eq.1 hlines, beq_iff_eq.1 hlines'⟩

end EventLoop
