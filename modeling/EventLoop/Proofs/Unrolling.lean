/-
  Calls, settlements, loops and texts come to an end.

  Each of these recursions carries a number that bounds it from above.  Here it is given once more
  without such a number, by its body: a function of what stands for the recursive call (`callOnce`,
  `settleOnce`, `roundOnce`, `textOnce`).  The body applied `n` times to something arbitrary is the
  recursion unrolled `n` times.  If the result does not depend on what stands innermost, then the
  recursion has ended by itself within `n` nested calls.  The results here are equal to what the
  bounded definitions give, so a bound is never what ends them.

  `Coincide budget act act'` compares two actions in the states in which `budget` more calls may be
  nested; only inside a call is it smaller by one.
-/
import EventLoop.Proofs.Execution
import Mathlib.Combinatorics.Pigeonhole
import Mathlib.Logic.Function.Iterate
import Mathlib.Logic.Relation

namespace EventLoop

open Script

variable {α β : Type}

namespace Run

/-! ## Actions that coincide -/

/-- From every state in which `budget` more calls may be nested, the two actions do the same, and
    with a result they leave the active calls as they were. -/
def Coincide (budget : Nat) (act act' : Run α) : Prop :=
  ∀ m : Machine, m.callBudget = budget →
    act' m = act m ∧ ∀ a m', act m = .ok a m' → m'.frames = m.frames

namespace Coincide

variable {budget : Nat} {act act' : Run α}

theorem of_frames (h : ∀ m a m', act m = .ok a m' → m'.frames = m.frames) :
    Coincide budget act act :=
  fun m _ => ⟨rfl, h m⟩

theorem of_walks (h : Walks false 0 act) : Coincide budget act act := by
  refine of_frames fun m a m' hact => ?_
  have hleads := h m
  rw [hact] at hleads
  cases hleads with
  | ok hw => exact hw.context.2

theorem of_reads (h : Reads act) : Coincide budget act act := of_walks (.of_reads h)

theorem pure (a : α) : Coincide budget (pure a : Run α) (pure a) := of_walks (.pure a)

theorem bind {f f' : α → Run β} (h : Coincide budget act act')
    (hf : ∀ a, Coincide budget (f a) (f' a)) : Coincide budget (act >>= f) (act' >>= f') := by
  intro m hm
  obtain ⟨heq, hframes⟩ := h m hm
  rw [bind_apply, bind_apply, heq]
  cases hact : act m with
  | error fault m1 => exact ⟨rfl, fun a m' hok => by cases hok⟩
  | ok a m1 =>
    have hkept := hframes a m1 hact
    obtain ⟨heq', hframes'⟩ := hf a m1 ((callBudget_of_frames hkept).trans hm)
    exact ⟨heq', fun b m' hok => (hframes' b m' hok).trans hkept⟩

theorem discard (h : Coincide budget act act') :
    Coincide budget (discard act : Run PUnit) (discard act') := by
  intro m hm
  obtain ⟨heq, hframes⟩ := h m hm
  rw [discard_apply, discard_apply, heq]
  cases hact : act m with
  | error fault m1 => exact ⟨rfl, fun a m' hok => by cases hok⟩
  | ok a m1 =>
    refine ⟨rfl, fun b m' hok => ?_⟩
    cases hok
    exact hframes a m1 hact

/-- Whatever an action does to the active calls, they are the same again once they are restored. -/
theorem restoring {scope : Scope} {frames : List Frame} {m m1 : Machine} (h : act' m1 = act m1)
    (hframes : frames = m.frames) :
    Run.restoring scope frames act' m1 = Run.restoring scope frames act m1 ∧
      ∀ a m', Run.restoring scope frames act m1 = .ok a m' → m'.frames = m.frames := by
  rw [Run.restoring, Run.restoring, h]
  cases act m1 with
  | error fault m2 => exact ⟨rfl, fun a m' hok => by cases hok⟩
  | ok a m2 =>
    refine ⟨rfl, fun b m' hok => ?_⟩
    cases hok
    exact hframes

theorem inScope (scope : Scope) (h : Coincide budget act act') :
    Coincide budget (inScope scope act) (inScope scope act') :=
  fun m hm => restoring (h { m with scope } hm).1 rfl

theorem nested (h : Coincide budget act act') : Coincide budget (nested act) (nested act') :=
  (of_reads reads_get).bind fun _ => (of_walks (newScope_walks _ [])).bind fun scope =>
    h.inScope scope

/-- Inside a call, one call less may be nested. -/
theorem inFrame (scope : Scope) (frame : Frame) (h : Coincide budget act act') :
    Coincide (budget + 1) (inFrame scope frame act) (inFrame scope frame act') := by
  intro m hm
  refine restoring (h _ ?_).1 rfl
  rw [Machine.callBudget] at hm ⊢
  rw [List.length_cons]
  omega

end Coincide

/-! ## Evaluation with ways to call functions that coincide -/

/-- Two ways to call functions that do the same where `budget` more calls may be nested. -/
def CallsCoincide (budget : Nat) (call call' : Invoke) : Prop :=
  ∀ f args label line, Coincide budget (call f args label line) (call' f args label line)

variable {budget : Nat} {call call' : Invoke}

theorem emit_coincide (s : Step) : Coincide budget (emit s) (emit s) := by
  refine .of_frames fun m a m' h => ?_
  rcases emit_cases s m with ⟨_, log, hemit⟩ | ⟨_, hemit⟩
  · rw [hemit] at h
    cases h
    rfl
  · rw [hemit] at h
    cases h

def coincide_plain : PlainCongruence (Coincide budget) where
  toCallFreeCongruence := .of_reads .of_reads .bind (fun _ _ => .of_walks (note_walks _ _))
    (fun x v => .of_walks (assign_walks x v)) (fun vs => .of_walks (newArray_walks vs))
    fun _ _ _ _ _ _ => .of_walks (newFunction_walks _ _ _ _ _ _)
  registerTimer _ _ _ := .of_walks (registerTimer_walks _ _ _)
  clearTimer _ _ _ _ := .of_walks (clearTimer_walks _ _ _ _)
  consoleLine _ _ _ := .of_walks (consoleLine_walks _ _ _)
  makePromise _ _ _ _ := .of_walks (makePromise_walks _ _ _ _)
  addLink _ _ _ _ _ := .of_walks (addLink_walks _ _ _ _ _)
  callMethod _ _ _ _ _ := .of_walks (callMethod_walks _ _ _ _ _)
  unrecognized _ _ := .of_walks (unrecognized_walks _ _)
  asyncFrame := .of_reads (reads_get.bind fun _ => reads_pure _)
  suspend _ _ _ := .of_frames fun _ _ _ h => (suspend_inv h).2.aside.frames
  defer _ _ := .of_frames fun _ _ _ h => by cases h; rfl
  discard := .discard
  nested := .nested
  renewScope := .of_frames fun _ _ _ h => by cases h; rfl
  warn text := .of_walks (warn_walks text)
  emit := emit_coincide
  declareVariable x v := .of_walks (declareVariable_walks x v)
  bindFunction _ _ _ _ _ := .of_walks (bindFunction_walks _ _ _ _ _)

section

variable (h : CallsCoincide budget call call')

include h

theorem eval_coincide (consumed : Bool) (e : Expr) :
    Coincide budget (eval call consumed e) (eval call' consumed e) :=
  eval_congr coincide_plain.toCongruence h consumed e

theorem exec_coincide (s : Stmt) :
    Coincide budget (exec call s) (exec call' s) := exec_congr coincide_plain.statements h s

theorem execAll_coincide (stmts : List Stmt) :
    Coincide budget (execAll call stmts) (execAll call' stmts) :=
  execAll_congr coincide_plain.statements h stmts

/-! ## Frames and settlements -/

omit h in
theorem emitAll_coincide (l : List Step) : Coincide budget (emitAll l) (emitAll l) := by
  induction l with
  | nil => exact .pure ()
  | cons s rest ih => exact (emit_coincide s).bind fun _ => ih

omit h in
theorem callPromise_coincide (f : Function) : Coincide budget (callPromise f) (callPromise f) := by
  refine .of_frames fun m a m' h => ?_
  rw [callPromise_apply] at h
  cases h
  rfl

omit h in
theorem finish_coincide (promise : Option Nat) (outcome : Outcome) :
    Coincide budget (finish promise outcome) (finish promise outcome) := by
  have hsettle (id : Nat) : Coincide budget
      (do settle id .fulfilled (← settledValue outcome.value) : Run Unit)
      (do settle id .fulfilled (← settledValue outcome.value)) :=
    (Coincide.of_reads (reads_settledValue _)).bind fun _ =>
      .of_frames fun _ _ _ h => (Machine.aside_of_settle h).frames
  cases promise with
  | none => exact .pure ()
  | some id =>
    cases outcome with
    | suspended k => exact .pure ()
    | completed | returned v => exact hsettle id

theorem runCall_coincide (f : Function) (args : List Value) :
    Coincide (budget + 1) (runCall call f args) (runCall call' f args) :=
  (Coincide.of_walks (newScope_walks f.scope _)).bind fun scope =>
    (callPromise_coincide f).bind fun promise =>
      (Coincide.inFrame scope ⟨f, promise⟩
        (runBody_congr coincide_plain.statements h f.body)).bind fun _ => .pure _

end

variable {budget : Nat} {call : Invoke}

/-! ## Calls -/

/-- The body of a call, in which `call` stands for the calls inside.  It looks at the number of
    active calls and at no other bound. -/
def callOnce (call : Invoke) : Invoke := fun f args label line => do
  emitAll [.highlight line, .push label]
  note 2 ("call " ++ label)
  if maxCallDepth ≤ (← get).frames.length then throw .callDepth
  else
    let (promise, outcome) ← runCall call f args
    emit .pop
    finish promise outcome
    return callValue promise outcome

/-- With as many active calls as are allowed, no call is made inside. -/
theorem callOnce_coincide_zero (call : Invoke) : CallsCoincide 0 (invoke 0) (callOnce call) := by
  intro f args label line
  refine (emitAll_coincide _).bind fun _ => (Coincide.of_walks (note_walks _ _)).bind fun _ => ?_
  intro m hm
  have hfull : maxCallDepth ≤ m.frames.length := Nat.le_of_sub_eq_zero hm
  simp [hfull]

theorem callOnce_coincide_succ (h : CallsCoincide budget (invoke budget) call) :
    CallsCoincide (budget + 1) (invoke (budget + 1)) (callOnce call) := by
  intro f args label line
  refine (emitAll_coincide _).bind fun _ => (Coincide.of_walks (note_walks _ _)).bind fun _ => ?_
  have hcall := (runCall_coincide h f args).bind fun r => (emit_coincide .pop).bind fun _ =>
    (finish_coincide r.1 r.2).bind fun _ => Coincide.pure (callValue r.1 r.2)
  intro m hm
  have hroom : ¬ maxCallDepth ≤ m.frames.length := by
    rw [Machine.callBudget] at hm
    omega
  simpa only [bind_apply, get_apply, hroom, if_false] using hcall m hm

/-- Calls that are unrolled more often than calls may be nested.  What stands innermost makes no
    difference. -/
theorem invoke_unrolled (stuck : Invoke) (n : Nat) (hn : budget < n) :
    CallsCoincide budget (invoke budget) (callOnce^[n] stuck) := by
  induction n generalizing budget with
  | zero => omega
  | succ n ih =>
    rw [Function.iterate_succ_apply']
    cases budget with
    | zero => exact callOnce_coincide_zero _
    | succ budget => exact callOnce_coincide_succ (ih (by omega))

theorem withCalls_unrolled {act : Invoke → Run α}
    (hact : ∀ budget call call', CallsCoincide budget call call' →
      Coincide budget (act call) (act call')) (stuck : Invoke) :
    act (callOnce^[maxCallDepth + 1] stuck) = withCalls act := by
  funext m
  have hbudget : m.callBudget < maxCallDepth + 1 := Nat.lt_succ_of_le (Nat.sub_le _ _)
  exact (hact _ _ _ (invoke_unrolled stuck _ hbudget) m rfl).1

/-! ## Settlements -/

/-- What becomes of a waiter when its promise is settled.  `settle` stands for the settlement of the
    promise of its link. -/
def releaseOne (settle : Nat → PromiseState → Value → Run Unit) (state : PromiseState)
    (value : Value) (w : Waiter) : Run Unit :=
  match w.reaction with
  | .resume _ => enqueue w.name w.scope (some w.reaction) state value
  | .link l _ derived =>
    if l.runs state then enqueue w.name w.scope (some w.reaction) state value
    else settle derived state value

def releaseEach (settle : Nat → PromiseState → Value → Run Unit) (state : PromiseState)
    (value : Value) : List Waiter → Run Unit
  | [] => pure ()
  | w :: rest => do
    releaseOne settle state value w
    releaseEach settle state value rest

/-- The body of a settlement: the waiters of the promise are released one by one. -/
def settleOnce (settle : Nat → PromiseState → Value → Run Unit) (id : Nat) (state : PromiseState)
    (value : Value) : Run Unit := do
  let waiters ← settleOne id state value
  releaseEach settle state value waiters

section Settlements

variable {state : PromiseState} {value : Value} {w : Waiter} {ws : List Waiter} {m : Machine}

theorem length_allWaiters (ps : Array Promise) (id : Nat) (state : PromiseState) (value : Value) :
    (allWaiters ps).length =
      (waitersAt ps id).length + (allWaiters (settledAt ps id state value)).length := by
  rw [(allWaiters_perm ps id state value).length_eq, List.length_append]

/-- Releases waiters, however many there are. -/
def releaseAll (state : PromiseState) (value : Value) (ws : List Waiter) : Run Unit := fun m =>
  release state value (ws.length + (allWaiters m.promises).length) ws m

theorem releaseAll_nil : releaseAll state value [] = pure () := by
  funext m
  rw [releaseAll]
  cases [].length + (allWaiters m.promises).length <;> rfl

theorem releaseAll_queue (hruns : w.reaction.runs state = true) :
    releaseAll state value (w :: ws) = (do
      enqueue w.name w.scope (some w.reaction) state value
      releaseAll state value ws) := by
  funext m
  obtain ⟨log, hlog⟩ := enqueue_apply w.name w.scope (some w.reaction) state value m
  have hfuel : (w :: ws).length + (allWaiters m.promises).length =
      ws.length + (allWaiters m.promises).length + 1 := by
    rw [List.length_cons]
    omega
  rw [releaseAll, hfuel]
  cases hw : w.reaction with
  | resume k =>
    rw [hw] at hlog
    simp only [release, hw, bind_apply, hlog]
    rfl
  | link l callback derived =>
    rw [hw] at hlog hruns
    rw [Reaction.runs] at hruns
    simp only [release, hw, hruns, if_true, bind_apply, hlog]
    rfl

theorem releaseAll_pass {l : Link} {callback : Option Expr} {derived : Nat}
    (hw : w.reaction = .link l callback derived) (hruns : l.runs state = false) :
    releaseAll state value (w :: ws) = (do
      let more ← settleOne derived state value
      releaseAll state value (more ++ ws)) := by
  funext m
  have hsettled := length_allWaiters m.promises derived state value
  have hfuel : (w :: ws).length + (allWaiters m.promises).length =
      (waitersAt m.promises derived ++ ws).length +
        (allWaiters (settledAt m.promises derived state value)).length + 1 := by
    rw [List.length_cons, List.length_append]
    omega
  rw [releaseAll, hfuel]
  simp only [release, hw, hruns, Bool.false_eq_true, if_false, bind_apply, settleOne_apply]
  rfl

theorem settle_eq_releaseAll (id : Nat) : settle id state value = (do
      let ws ← settleOne id state value
      releaseAll state value ws) := by
  funext m
  simp only [settle, bind_apply, get_apply, settleOne_apply]
  rw [parkedCount_eq, length_allWaiters m.promises id state value]
  rfl

theorem length_cascade_le {ps ps' : Array Promise} {queue passed : List Waiter}
    (h : Cascade state value ps ws ps' queue passed) :
    (allWaiters ps').length ≤ (allWaiters ps).length := by
  induction h with
  | nil => exact Nat.le_refl _
  | queue _ _ ih => exact ih
  | @pass ps _ _ _ _ _ _ _ derived _ _ _ ih =>
    have hsettled := length_allWaiters ps derived state value
    omega

/-- Releasing waiters never fails, and no more of them wait than before. -/
theorem releaseAll_ok (ws : List Waiter) (m : Machine) :
    ∃ m', releaseAll state value ws m = .ok () m' ∧
      (allWaiters m'.promises).length ≤ (allWaiters m.promises).length := by
  obtain ⟨ps, queue, passed, log, hc, hr⟩ :=
    release_cascade state value _ ws m (Nat.le_refl _)
  exact ⟨_, hr, length_cascade_le hc⟩

theorem queued_or_passed (w : Waiter) (state : PromiseState) : w.reaction.runs state = true ∨
    ∃ l callback derived, w.reaction = .link l callback derived ∧ l.runs state = false := by
  cases hw : w.reaction with
  | resume k => exact .inl rfl
  | link l callback derived =>
    cases hruns : l.runs state with
    | true => exact .inl hruns
    | false => exact .inr ⟨l, callback, derived, rfl, hruns⟩

theorem releaseAll_append (a b : List Waiter) (m : Machine) : releaseAll state value (a ++ b) m =
      (do releaseAll state value a; releaseAll state value b : Run Unit) m := by
  generalize hk : a.length + (allWaiters m.promises).length = k
  induction k using Nat.strong_induction_on generalizing a m with
  | _ k ih =>
    cases a with
    | nil => simp only [List.nil_append, releaseAll_nil, bind_apply, pure_apply]
    | cons w a =>
      rw [List.length_cons] at hk
      rw [List.cons_append]
      rcases queued_or_passed w state with hruns | ⟨l, callback, derived, hw, hruns⟩
      · obtain ⟨log, hlog⟩ := enqueue_apply w.name w.scope (some w.reaction) state value m
        have hrest := ih (a.length + (allWaiters m.promises).length) (by omega) a
          ((m.queued w.name w.scope (some w.reaction) state value).logged log) rfl
        simpa only [releaseAll_queue hruns, bind_apply, hlog] using hrest
      · -- the waiters of the promise of the link come before the others of the first part
        have hsettled := length_allWaiters m.promises derived state value
        have hless : (waitersAt m.promises derived ++ a).length +
            (allWaiters (settledAt m.promises derived state value)).length < k := by
          rw [List.length_append]
          omega
        have hrest := ih _ hless (waitersAt m.promises derived ++ a)
          { m with promises := settledAt m.promises derived state value } rfl
        simpa only [releaseAll_pass hw hruns, bind_apply, settleOne_apply,
          List.append_assoc] using hrest

/-- Waiters that are released one by one, with settlements that are right as long as fewer than `n`
    wait. -/
theorem releaseEach_eq {settle' : Nat → PromiseState → Value → Run Unit} {n : Nat}
    (hsettle : ∀ (id : Nat) (m : Machine), (allWaiters m.promises).length < n →
      settle' id state value m = settle id state value m)
    (hws : ws ≠ [] → (allWaiters m.promises).length < n) :
    releaseEach settle' state value ws m = releaseAll state value ws m := by
  induction ws generalizing m with
  | nil => rw [releaseAll_nil, releaseEach]
  | cons w ws ih =>
    have hn := hws (List.cons_ne_nil w ws)
    rw [releaseEach, bind_apply]
    rcases queued_or_passed w state with hruns | ⟨l, callback, derived, hw, hruns⟩
    · obtain ⟨log, hlog⟩ := enqueue_apply w.name w.scope (some w.reaction) state value m
      have hone : releaseOne settle' state value w =
          enqueue w.name w.scope (some w.reaction) state value := by
        rw [releaseOne]
        cases hw : w.reaction with
        | resume k => rfl
        | link l callback derived =>
          rw [hw, Reaction.runs] at hruns
          simp only [hruns, if_true]
      rw [hone, hlog, releaseAll_queue hruns, bind_apply, hlog]
      exact ih fun _ => hn
    · have hone : releaseOne settle' state value w m = settle derived state value m := by
        simp only [releaseOne, hw, hruns, Bool.false_eq_true, if_false]
        exact hsettle derived m hn
      obtain ⟨m', hm', hle⟩ := @releaseAll_ok state value (waitersAt m.promises derived)
        { m with promises := settledAt m.promises derived state value }
      have hsettled := length_allWaiters m.promises derived state value
      rw [hone, settle_eq_releaseAll, releaseAll_pass hw hruns]
      simp only [bind_apply, settleOne_apply, releaseAll_append, hm']
      refine ih fun _ => Nat.lt_of_le_of_lt hle ?_
      show (allWaiters (settledAt m.promises derived state value)).length < n
      omega

/-- A settlement that is unrolled more often than there are waiters. -/
theorem settle_unrolled (stuck : Nat → PromiseState → Value → Run Unit) {n : Nat} (id : Nat)
    (hn : parkedCount m < n) : settleOnce^[n] stuck id state value m = settle id state value m := by
  rw [parkedCount_eq] at hn
  induction n generalizing id m with
  | zero => omega
  | succ n ih =>
    have hsettled := length_allWaiters m.promises id state value
    rw [Function.iterate_succ_apply', settleOnce, settle_eq_releaseAll]
    simp only [bind_apply, settleOne_apply]
    refine releaseEach_eq (fun id m hm => ih id hm) fun hws => ?_
    have hpos := List.length_pos_iff.2 hws
    show (allWaiters (settledAt m.promises id state value)).length < n
    omega

end Settlements

/-! ## Loops -/

/-- The body of a loop that has had `i` rounds.  `loop` stands for what follows the next one. -/
def roundOnce (line : Nat) (test : Run Bool) (body : Run Outcome) (step : Run Unit)
    (residue : List Stmt) (loop : Nat → Run Outcome) (i : Nat) : Run Outcome := do
  if ← test then
    if maxLoopRounds ≤ i then
      warn ("Loop at line " ++ toString line ++ " stopped after " ++ toString maxLoopRounds ++
        " iterations")
      return .completed
    else
      match ← body with
      | .completed =>
        step
        loop (i + 1)
      | .returned v => return .returned v
      | .suspended k =>
        defer k residue
        return .suspended k
  else return .completed

/-- A loop that is unrolled more often than rounds are left to it. -/
theorem iterate_unrolled (line : Nat) (test : Run Bool) (body : Run Outcome) (step : Run Unit)
    (residue : List Stmt) (stuck : Nat → Run Outcome) {n i : Nat} (hn : maxLoopRounds - i < n) :
    (roundOnce line test body step residue)^[n] stuck i =
      iterate line test body step residue (maxLoopRounds - i) := by
  induction n generalizing i with
  | zero => omega
  | succ n ih =>
    rw [Function.iterate_succ_apply', roundOnce]
    by_cases hi : maxLoopRounds ≤ i
    · rw [Nat.sub_eq_zero_of_le hi, iterate]
      refine congrArg (test >>= ·) (funext fun go => ?_)
      cases go with
      | true => exact if_pos hi
      | false => rfl
    · obtain ⟨rounds, hrounds⟩ : ∃ k, maxLoopRounds - i = k + 1 :=
        ⟨maxLoopRounds - i - 1, by omega⟩
      have hnext : maxLoopRounds - (i + 1) = rounds := by omega
      have hloop := ih (i := i + 1) (by omega)
      rw [hnext] at hloop
      rw [hrounds, iterate, hloop]
      refine congrArg (test >>= ·) (funext fun go => ?_)
      cases go with
      | true => exact if_neg hi
      | false => rfl

end Run

/-! ## Texts -/

section Failures

variable {β ε : Type} {f g : α → Except ε β} {e : ε} {l : List α}

theorem mapM_congr_of_ne (hfg : ∀ a, f a ≠ .error e → g a = f a) (hl : l.mapM f ≠ .error e) :
    l.mapM g = l.mapM f := by
  induction l with
  | nil => rfl
  | cons a l ih =>
    rw [List.mapM_cons] at hl
    rw [List.mapM_cons, List.mapM_cons]
    cases ha : f a with
    | error e' =>
      have hne : f a ≠ .error e := by
        intro hf
        rw [hf] at hl
        exact hl rfl
      rw [hfg a hne, ha]
      rfl
    | ok b =>
      have hg : g a = .ok b := ha ▸ hfg a (by simp [ha])
      have hrest : l.mapM f ≠ .error e := by
        intro hrest
        rw [ha, hrest] at hl
        exact hl rfl
      rw [hg, ih hrest]

theorem exists_error_of_mapM (hl : l.mapM f = .error e) : ∃ a ∈ l, f a = .error e := by
  induction l with
  | nil => cases hl
  | cons a l ih =>
    rw [List.mapM_cons] at hl
    cases ha : f a with
    | error e' =>
      rw [ha] at hl
      obtain rfl : e' = e := Except.error.inj hl
      exact ⟨a, List.mem_cons_self, ha⟩
    | ok b =>
      cases hrest : l.mapM f with
      | ok bs =>
        rw [ha, hrest] at hl
        cases hl
      | error e' =>
        rw [ha, hrest] at hl
        obtain rfl : e' = e := Except.error.inj hl
        obtain ⟨a', ha', hf⟩ := ih hrest
        exact ⟨a', List.mem_cons_of_mem a ha', hf⟩

end Failures

namespace Value

/-- The body of the text of a value.  `text` stands for the texts of the items of an array. -/
def textOnce (arrays : Arrays) (text : Value → Except Fault String) : Value → Except Fault String
  | .array id => do
    let parts ← ((arrays[id]?).getD #[]).toList.mapM fun v =>
      if v.isNullish then .ok "" else text v
    return ",".intercalate parts
  | v => textWithin arrays 0 v

/-- The array `i` has the array `j` among its items. -/
def Contains (arrays : Arrays) (i j : Nat) : Prop := .array j ∈ ((arrays[i]?).getD #[]).toList

variable {arrays : Arrays}

/-- A text that is unrolled more often than arrays may be nested. -/
theorem textWithin_unrolled (stuck : Value → Except Fault String) {n depth : Nat} (hn : depth < n)
    {v : Value} (hv : textWithin arrays depth v ≠ .error .endlessText) :
    (textOnce arrays)^[n] stuck v = textWithin arrays depth v := by
  induction n generalizing depth v with
  | zero => omega
  | succ n ih =>
    rw [Function.iterate_succ_apply']
    cases v with
    | array id =>
      cases depth with
      | zero => exact absurd rfl hv
      | succ depth =>
        have hitems : ((arrays[id]?).getD #[]).toList.mapM (fun v =>
              if v.isNullish then .ok "" else (textOnce arrays)^[n] stuck v) =
            ((arrays[id]?).getD #[]).toList.mapM (fun v =>
              if v.isNullish then .ok "" else textWithin arrays depth v) := by
          refine mapM_congr_of_ne (e := .endlessText) (fun v hv => ?_) fun hl => ?_
          · cases hnull : v.isNullish with
            | true => rfl
            | false =>
              rw [hnull] at hv
              exact ih (by omega) hv
          · rw [textWithin, hl] at hv
            exact hv rfl
        rw [textOnce, textWithin, hitems]
    | _ => cases depth <;> rfl

theorem text_ne_endlessText (x : Number) : x.text ≠ .error .endlessText := by
  cases x with
  | int n =>
    rw [Number.text, Number.intText]
    split <;> simp
  | float x =>
    rw [Number.text]
    repeat' split
    all_goals simp

/-- A text without end: arrays are nested in one another as deep as was looked. -/
theorem path_of_endlessText {depth : Nat} {v : Value}
    (h : textWithin arrays depth v = .error .endlessText) :
    ∃ p : Nat → Nat, v = .array (p 0) ∧ ∀ i < depth, Contains arrays (p i) (p (i + 1)) := by
  induction depth generalizing v with
  | zero =>
    cases v with
    | array id => exact ⟨fun _ => id, rfl, fun i hi => by omega⟩
    | number x => exact absurd h (text_ne_endlessText x)
    | _ => cases h
  | succ depth ih =>
    cases v with
    | array id =>
      rw [textWithin] at h
      cases hl : ((arrays[id]?).getD #[]).toList.mapM (fun v =>
          if v.isNullish then .ok "" else textWithin arrays depth v) with
      | ok parts =>
        rw [hl] at h
        cases h
      | error e =>
        rw [hl] at h
        obtain rfl : e = .endlessText := Except.error.inj h
        obtain ⟨v, hv, hf⟩ := exists_error_of_mapM hl
        cases hnull : v.isNullish with
        | true =>
          rw [hnull] at hf
          cases hf
        | false =>
          rw [hnull] at hf
          obtain ⟨p, rfl, hp⟩ := ih hf
          refine ⟨fun i => if i = 0 then id else p (i - 1), rfl, fun i hi => ?_⟩
          cases i with
          | zero => exact hv
          | succ i => exact hp i (by omega)
    | number x => exact absurd h (text_ne_endlessText x)
    | _ => cases h

theorem transGen_of_path {p : Nat → Nat} {depth i j : Nat}
    (hp : ∀ i < depth, Contains arrays (p i) (p (i + 1))) (hij : i < j) (hj : j ≤ depth) :
    Relation.TransGen (Contains arrays) (p i) (p j) := by
  induction j with
  | zero => omega
  | succ j ih =>
    have hstep := hp j (by omega)
    by_cases h : i = j
    · rw [h]
      exact .single hstep
    · exact (ih (by omega) (by omega)).tail hstep

theorem lt_size_of_contains {i j : Nat} (h : Contains arrays i j) : i < arrays.size := by
  by_contra hi
  have hnone : arrays[i]? = none := Array.getElem?_eq_none (by omega)
  simp [Contains, hnone] at h

/-- The value is an array from which one comes, through items of items, to an array that contains
    itself or to a number without an array. -/
def Endless (arrays : Arrays) (v : Value) : Prop :=
  ∃ i j, v = .array i ∧ Relation.ReflTransGen (Contains arrays) i j ∧
    (Relation.TransGen (Contains arrays) j j ∨ arrays.size ≤ j)

/-- Where arrays are nested more deeply than there are arrays, one of them is met twice. -/
theorem endless_of_toText {v : Value} (h : v.toText arrays = .error .endlessText) :
    Endless arrays v := by
  obtain ⟨p, hv, hp⟩ := path_of_endlessText h
  have hreach (i : Nat) (hi : i ≤ arrays.size) :
      Relation.ReflTransGen (Contains arrays) (p 0) (p i) := by
    by_cases hzero : i = 0
    · rw [hzero]
    · exact (transGen_of_path hp (by omega) hi).to_reflTransGen
  by_cases hlast : arrays.size ≤ p arrays.size
  · exact ⟨p 0, p arrays.size, hv, hreach _ (Nat.le_refl _), .inr hlast⟩
  · have hmaps : ∀ i ∈ Finset.range (arrays.size + 1), p i ∈ Finset.range arrays.size := by
      intro i hi
      rw [Finset.mem_range] at hi ⊢
      by_cases hend : i = arrays.size
      · rw [hend]
        omega
      · exact lt_size_of_contains (hp i (by omega))
    -- the path has one more stop than there are arrays
    have hcard : (Finset.range arrays.size).card < (Finset.range (arrays.size + 1)).card := by
      rw [Finset.card_range, Finset.card_range]
      omega
    obtain ⟨i, hi, j, hj, hne, heq⟩ := Finset.exists_ne_map_eq_of_card_lt_of_maps_to hcard hmaps
    rw [Finset.mem_range] at hi hj
    refine ⟨p 0, p i, hv, hreach i (by omega), .inl ?_⟩
    rcases Nat.lt_or_gt_of_ne hne with hlt | hgt
    · have hcycle := transGen_of_path hp hlt (by omega)
      rwa [← heq] at hcycle
    · have hcycle := transGen_of_path hp hgt (by omega)
      rwa [← heq] at hcycle

/-- The text of a value ends within as many nested arrays as there are, or it is an error at once
    because it has no end. -/
theorem toText_unrolled (arrays : Arrays) (v : Value) :
    (∀ stuck, (textOnce arrays)^[arrays.size + 1] stuck v = v.toText arrays) ∨
      v.toText arrays = .error .endlessText ∧ Endless arrays v := by
  by_cases hv : v.toText arrays = .error .endlessText
  · exact .inr ⟨hv, endless_of_toText hv⟩
  · exact .inl fun stuck => textWithin_unrolled stuck (Nat.lt_succ_self _) hv

end Value

end EventLoop
