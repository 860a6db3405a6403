/-
  What the elementary actions of a run do to the state.

  Every action is a function from a state to a result, so the first section gives the results of
  the monad's own operations.  Then come emitted steps.  The last two sections are about reactions:
  `Placed` says where a new one goes, and `Cascade` what settling a promise does to everything that
  waits for it.  `settle_cascade` ties it to `Run.settle`, and shows that the bound on the number of
  waiters never cuts the cascade short.
-/
import EventLoop.Machine.Drain
import Mathlib.Data.List.Perm.Basic

namespace EventLoop

open Script

/-- The state with another log. -/
def Machine.logged (m : Machine) (log : Log) : Machine := { m with log }

namespace Run

variable {α β : Type}

/-! ## Results of the monad's operations -/

@[simp] theorem bind_apply (act : Run α) (f : α → Run β) (m : Machine) :
    (act >>= f) m = match act m with
      | .ok a m' => f a m'
      | .error e m' => .error e m' := by
  simp only [bind, EStateM.bind]
  cases act m <;> rfl

@[simp] theorem map_apply (f : α → β) (act : Run α) (m : Machine) : (f <$> act) m = match act m with
      | .ok a m' => .ok (f a) m'
      | .error e m' => .error e m' := by
  simp only [Functor.map, EStateM.map]
  cases act m <;> rfl

@[simp] theorem pure_apply (a : α) (m : Machine) : (pure a : Run α) m = .ok a m := rfl

@[simp] theorem get_apply (m : Machine) : (get : Run Machine) m = .ok m m := rfl

@[simp] theorem set_apply (m m' : Machine) : (set m' : Run PUnit) m = .ok ⟨⟩ m' := rfl

@[simp] theorem modify_apply (f : Machine → Machine) (m : Machine) :
    (modify f : Run PUnit) m = .ok ⟨⟩ (f m) := rfl

@[simp] theorem modifyGet_apply (f : Machine → α × Machine) (m : Machine) :
    (modifyGet f : Run α) m = .ok (f m).1 (f m).2 := rfl

@[simp] theorem throw_apply (e : Fault) (m : Machine) : (throw e : Run α) m = .error e m := rfl

@[simp] theorem note_apply (level : Nat) (line : Log.Line) (m : Machine) :
    note level line m = .ok () (m.logged (m.log.write level line)) := rfl

/-- The state in which an action ends, whether it gave a result or failed. -/
def final : EStateM.Result Fault Machine α → Machine
  | .ok _ m | .error _ m => m

@[simp] theorem final_ok (a : α) (m : Machine) : final (.ok a m) = m := rfl

@[simp] theorem final_error (fault : Fault) (m : Machine) :
    final (.error fault m : EStateM.Result Fault Machine α) = m := rfl

theorem bind_eq_ok {act : Run α} {f : α → Run β} {m m' : Machine} {b : β}
    (h : (act >>= f) m = .ok b m') : ∃ a m1, act m = .ok a m1 ∧ f a m1 = .ok b m' := by
  rw [bind_apply] at h
  cases hact : act m with
  | ok a m1 => exact ⟨a, m1, rfl, by rw [hact] at h; exact h⟩
  | error e m1 => rw [hact] at h; cases h

theorem bind_of_ok {act : Run α} {m m1 : Machine} {a : α} (h : act m = .ok a m1)
    (f : α → Run β) : (act >>= f) m = f a m1 := by
  rw [bind_apply, h]

theorem bind_of_error {act : Run α} {m m1 : Machine} {e : Fault} (h : act m = .error e m1)
    (f : α → Run β) : (act >>= f) m = .error e m1 := by
  rw [bind_apply, h]

/-- What holds where the first action ends, and is kept by the second one, holds at the end. -/
theorem final_bind {Q : Machine → Prop} {act : Run α} {f : α → Run β} {m : Machine}
    (h : Q (final (act m))) (hf : ∀ a m', Q m' → Q (final (f a m'))) :
    Q (final ((act >>= f) m)) := by
  rw [bind_apply]
  cases hr : act m with
  | ok a m' => exact hf a m' (by rwa [hr] at h)
  | error fault m' => rwa [hr] at h

/-- An action that only looks at the state. -/
def Reads (act : Run α) : Prop := ∀ m, (∃ a, act m = .ok a m) ∨ ∃ e, act m = .error e m

theorem Reads.bind {act : Run α} {f : α → Run β} (h : Reads act) (hf : ∀ a, Reads (f a)) :
    Reads (act >>= f) := by
  intro m
  rcases h m with ⟨a, ha⟩ | ⟨e, he⟩
  · simpa [ha] using hf a m
  · exact .inr ⟨e, by simp [he]⟩

theorem Reads.final_eq {act : Run α} (h : Reads act) (m : Machine) : final (act m) = m := by
  rcases h m with ⟨a, ha⟩ | ⟨e, he⟩
  · rw [ha, final_ok]
  · rw [he, final_error]

theorem reads_pure (a : α) : Reads (pure a : Run α) := fun _ => .inl ⟨a, rfl⟩

theorem reads_get : Reads (get : Run Machine) := fun m => .inl ⟨m, rfl⟩

theorem reads_lift (r : Except Fault α) : Reads (lift r) := by
  intro m
  cases r with
  | ok a => exact .inl ⟨a, rfl⟩
  | error e => exact .inr ⟨e, rfl⟩

theorem reads_textOf (v : Value) : Reads (textOf v) := reads_get.bind fun _ => reads_lift _

/-- A line that shows a value is written, or its text cannot be made. -/
theorem tell_apply (msg : Message) (m : Machine) :
    (∃ log, tell msg m = .ok () (m.logged log)) ∨ ∃ fault, tell msg m = .error fault m := by
  simp only [tell, bind_apply, get_apply]
  cases msg.text m with
  | ok text => exact .inl ⟨_, rfl⟩
  | error fault => exact .inr ⟨fault, rfl⟩

theorem reads_applyOp (op : BinaryOp) (a b : Value) : Reads (applyOp op a b) :=
  reads_get.bind fun _ => reads_lift _

theorem reads_itemsOf (id : Nat) : Reads (itemsOf id) := reads_get.bind fun _ => reads_pure _

theorem reads_promiseOf (id : Nat) : Reads (promiseOf id) := reads_get.bind fun _ => reads_pure _

theorem reads_settledValue (v : Value) : Reads (settledValue v) := by
  cases v with
  | promise id => exact (reads_promiseOf id).bind fun _ => reads_pure _
  | _ => exact reads_pure _

theorem reads_lookup (x : String) : Reads (lookup x) := by
  refine reads_get.bind fun m => ?_
  cases m.tables.get? m.scope x with
  | some v => exact reads_pure v
  | none =>
    cases m.registry.lookup x with
    | some f => exact reads_pure _
    | none => exact reads_pure _

theorem reads_assigned (op : AssignOp) (x : String) (v : Value) : Reads (assigned op x v) := by
  unfold assigned
  cases op.operator? with
  | none => exact reads_pure v
  | some op => exact (reads_lookup x).bind fun a => reads_applyOp op a v

theorem reads_isBound (x : String) : Reads (isBound x) := reads_get.bind fun _ => reads_pure _

end Run

/-! ## Emitted steps -/

/-- The state with more steps emitted. -/
def Machine.emitted (m : Machine) (l : List Step) : Machine :=
  { m with steps := { m.steps with steps := m.steps.steps ++ l.toArray } }

namespace Machine

section

variable (m : Machine)

include m

@[simp] theorem logged_steps (log : Log) : (m.logged log).steps = m.steps := rfl

@[simp] theorem emitted_nil : m.emitted [] = m := by
  simp [emitted]

@[simp] theorem emitted_emitted (l l' : List Step) :
    (m.emitted l).emitted l' = m.emitted (l ++ l') := by
  simp [emitted]

@[simp] theorem logged_log (log : Log) : (m.logged log).log = log := rfl

@[simp] theorem logged_logged (log log' : Log) : (m.logged log).logged log' = m.logged log' := rfl

@[simp] theorem emitted_logged (log : Log) (l : List Step) :
    (m.logged log).emitted l = (m.emitted l).logged log := rfl

@[simp] theorem emitted_callbacks (l : List Step) : (m.emitted l).callbacks = m.callbacks := rfl

@[simp] theorem emitted_timerCount (l : List Step) : (m.emitted l).timerCount = m.timerCount := rfl

@[simp] theorem toList_emitted (l : List Step) :
    (m.emitted l).steps.toList = m.steps.toList ++ l := by
  simp [emitted, StepSequence.toList]

@[simp] theorem size_emitted (l : List Step) :
    (m.emitted l).steps.size = m.steps.size + l.length := by
  simp [emitted, StepSequence.size]

@[simp] theorem limit_emitted (l : List Step) : (m.emitted l).steps.limit = m.steps.limit := rfl

end

/-- No further step fits. -/
def Full (m : Machine) : Prop := m.steps.limit ≤ m.steps.size

/-- There is room for that many more steps. -/
def Room (m : Machine) (n : Nat) : Prop := m.steps.size + n ≤ m.steps.limit

theorem full_or_room (m : Machine) : m.Full ∨ m.Room 1 := by
  simp only [Full, Room]
  omega

theorem Room.not_full {m : Machine} {n : Nat} (h : m.Room n) (hn : 0 < n) : ¬ m.Full := by
  simp only [Room] at h
  simp only [Full]
  omega

theorem Room.before {m : Machine} {l : List Step} {log : Log} {n : Nat}
    (h : ((m.emitted l).logged log).Room n) : m.Room (l.length + n) := by
  simp only [Room, logged_steps, size_emitted, limit_emitted] at h
  simp only [Room]
  omega

end Machine

namespace Run

theorem emit_of_full {m : Machine} (s : Step) (h : m.Full) : emit s m = .error .stepLimit m := by
  have hfull : m.steps.isFull = true := decide_eq_true h
  simp [emit, hfull]

theorem emit_of_room {m : Machine} (s : Step) (h : m.Room 1) :
    ∃ log, emit s m = .ok () ((m.emitted [s]).logged log) := by
  have hfull : m.steps.isFull = false := decide_eq_false (h.not_full Nat.one_pos)
  exact ⟨m.log.write 3 ("step " ++ s.describe), by
    simp [emit, hfull, Machine.emitted, Machine.logged, StepSequence.push]⟩

theorem emit_cases (s : Step) (m : Machine) :
    (m.Room 1 ∧ ∃ log, emit s m = .ok () ((m.emitted [s]).logged log)) ∨
    m.Full ∧ emit s m = .error .stepLimit m := by
  rcases m.full_or_room with hfull | hroom
  · exact .inr ⟨hfull, emit_of_full s hfull⟩
  · exact .inl ⟨hroom, emit_of_room s hroom⟩

/-- Steps are emitted as a whole if they fit.  If not, they are emitted up to the limit, and then
    the action fails. -/
theorem emitAll_cases (s : Step) (l : List Step) (m : Machine) :
    (m.Room (l.length + 1) ∧ ∃ log, emitAll (s :: l) m = .ok () ((m.emitted (s :: l)).logged log)) ∨
    ∃ log part, part <+: s :: l ∧
      emitAll (s :: l) m = .error .stepLimit ((m.emitted part).logged log) := by
  rcases m.full_or_room with hfull | hroom
  · exact .inr ⟨m.log, [], List.nil_prefix, by
      simp [emitAll, emit_of_full s hfull, Machine.logged]⟩
  obtain ⟨log, hs⟩ := emit_of_room s hroom
  induction l generalizing s m log with
  | nil => exact .inl ⟨hroom, log, by simp [emitAll, hs]⟩
  | cons s' l ih =>
    rcases Machine.full_or_room ((m.emitted [s]).logged log) with hfull | hroom'
    · exact .inr ⟨log, [s], ⟨s' :: l, rfl⟩, by simp [emitAll, hs, emit_of_full s' hfull]⟩
    obtain ⟨log', hs'⟩ := emit_of_room s' hroom'
    rcases ih s' ((m.emitted [s]).logged log) hroom' log' hs' with
      ⟨hr, log'', h⟩ | ⟨log'', part, hp, h⟩
    · refine .inl ⟨?_, log'', ?_⟩
      · simp only [Machine.Room, Machine.logged_steps, Machine.size_emitted,
          Machine.limit_emitted, List.length_singleton] at hr
        simp only [Machine.Room, List.length_cons]
        omega
      · rw [emitAll, bind_apply, hs]
        simpa [Machine.emitted, Machine.logged] using h
    · refine .inr ⟨log'', s :: part, by simpa using hp, ?_⟩
      rw [emitAll, bind_apply, hs]
      simpa [Machine.emitted, Machine.logged] using h

end Run

/-! ## New reactions -/

namespace Machine

/-- The state with one more microtask in the queue. -/
def queued (m : Machine) (name : String) (scope : Scope) (reaction : Option Reaction)
    (state : PromiseState) (value : Value) : Machine :=
  { m with
    microtaskCount := m.microtaskCount + 1
    microtasks := m.microtasks.push
      { id := m.microtaskCount + 1, name, scope, reaction, state, value } }

/-- The state with one more waiter for a promise. -/
def parked (m : Machine) (id : Nat) (w : Waiter) : Machine :=
  { m with promises := m.promises.modify id fun p => { p with waiters := p.waiters ++ [w] } }

/-- The state with a new promise. -/
def withPromise (m : Machine) (state : PromiseState) (value : Value) : Machine :=
  { m with promises := m.promises.push { state, value } }

/-- The state with a new continuation of the given call. -/
def withContinuation (m : Machine) (frame : Frame) (target : Target) : Machine :=
  { m with
    continuations := m.continuations.push
      { scope := m.scope, function := frame.function, target, promise := frame.promise } }

/-- Where a new reaction goes: to the waiters of a promise that exists and is pending, or into the
    queue. -/
inductive Placed (m : Machine) (w : Waiter) : Machine → Prop
  | parked {id : Nat} {p : Promise} (log : Log) (hp : m.promises[id]? = some p)
      (hpending : p.state = .pending) : Placed m w ((m.parked id w).logged log)
  | queued (state : PromiseState) (value : Value) (log : Log) :
      Placed m w ((m.queued w.name w.scope (some w.reaction) state value).logged log)

end Machine

namespace Run

theorem enqueue_apply (name : String) (scope : Scope) (reaction : Option Reaction)
    (state : PromiseState) (value : Value) (m : Machine) :
    ∃ log, enqueue name scope reaction state value m =
      .ok () ((m.queued name scope reaction state value).logged log) := ⟨_, rfl⟩

theorem react_placed (w : Waiter) (value : Value) (state : PromiseState) (subject : String)
    (m : Machine) : ∃ m', react w value state subject m = .ok () m' ∧ m.Placed w m' := by
  have hqueue (v : Value) : ∃ m', enqueue w.name w.scope (some w.reaction) state v m = .ok () m' ∧
      m.Placed w m' := by
    obtain ⟨log, h⟩ := enqueue_apply w.name w.scope (some w.reaction) state v m
    exact ⟨_, h, .queued state v log⟩
  cases value with
  | promise id =>
    cases hp : m.promises[id]? with
    | none => simpa [react, promiseOf, hp] using hqueue _
    | some p =>
      by_cases hpending : p.state = .pending
      · refine ⟨_, ?_, .parked (m.log.write 2 (subject ++ " parked on pending promise")) hp
          hpending⟩
        simp [react, promiseOf, hp, hpending, parkOn, Machine.parked]
      · simpa [react, promiseOf, hp, hpending] using hqueue _
  | _ => exact hqueue _

theorem suspend_placed (frame : Frame) (value : Value) (target : Target) (m : Machine) :
    ∃ m', suspend frame value target m = .ok m.continuations.size m' ∧
      (m.withContinuation frame target).Placed
        { name := "await " ++ frame.function.name, scope := m.scope,
          reaction := .resume m.continuations.size } m' := by
  obtain ⟨state, hstate⟩ : ∃ state, stateOf value (m.withContinuation frame target) =
      .ok state (m.withContinuation frame target) := by
    cases value <;> exact ⟨_, rfl⟩
  obtain ⟨m', hm', hplaced⟩ := react_placed
    { name := "await " ++ frame.function.name, scope := m.scope,
      reaction := .resume m.continuations.size } value state ("await in " ++ frame.function.name)
    (m.withContinuation frame target)
  refine ⟨m', ?_, hplaced⟩
  have hnew : newContinuation frame target m =
      .ok m.continuations.size (m.withContinuation frame target) := rfl
  have hscope : (m.withContinuation frame target).scope = m.scope := rfl
  simp [suspend, hnew, hstate, hscope, hm']

theorem attach_placed (name : String) (l : Link) (callback : Option Expr) (state : PromiseState)
    (receiver : Value) (m : Machine) :
    ∃ m', attach name l callback state receiver m = .ok m.promises.size m' ∧
      (m.withPromise .pending .undefined).Placed
        { name, scope := m.scope, reaction := .link l callback m.promises.size } m' := by
  obtain ⟨m', hm', hplaced⟩ := react_placed
    { name, scope := m.scope, reaction := .link l callback m.promises.size } receiver state name
    (m.withPromise .pending .undefined)
  refine ⟨m', ?_, hplaced⟩
  have hnew : newPromise .pending .undefined m =
      .ok m.promises.size (m.withPromise .pending .undefined) := rfl
  simp [attach, hnew, hm']

end Run

/-! ## Settling -/

/-- The waiters of a promise. -/
def waitersAt (ps : Array Promise) (id : Nat) : List Waiter :=
  (ps[id]?.getD { state := .fulfilled }).waiters

/-- The promises with one of them settled. -/
def settledAt (ps : Array Promise) (id : Nat) (state : PromiseState) (value : Value) :
    Array Promise :=
  ps.modify id fun _ => { state, value }

/-- All waiters, promise by promise. -/
def allWaiters (ps : Array Promise) : List Waiter := ps.toList.flatMap (·.waiters)

/-- Whether a reaction is queued for a settlement in the given state; a link that does not apply is
    passed over. -/
def Reaction.runs : Reaction → PromiseState → Bool
  | .resume _, _ => true
  | .link l _ _, state => l.runs state

/-- What a settlement does to some waiters: `Cascade state value ps ws ps' queue passed` says that
    releasing `ws` over the promises `ps` queues the waiters `queue` and passes over `passed`, both
    in order, and leaves the promises `ps'`.  A waiter that is passed over settles the promise of
    its link, whose own waiters are released next. -/
inductive Cascade (state : PromiseState) (value : Value) :
    Array Promise → List Waiter → Array Promise → List Waiter → List Waiter → Prop
  | nil (ps : Array Promise) : Cascade state value ps [] ps [] []
  | queue {ps ps' : Array Promise} {w : Waiter} {ws queue passed : List Waiter}
      (hruns : w.reaction.runs state = true) (h : Cascade state value ps ws ps' queue passed) :
      Cascade state value ps (w :: ws) ps' (w :: queue) passed
  | pass {ps ps' : Array Promise} {w : Waiter} {ws queue passed : List Waiter} {l : Link}
      {callback : Option Expr} {derived : Nat} (hw : w.reaction = .link l callback derived)
      (hruns : l.runs state = false)
      (h : Cascade state value (settledAt ps derived state value) (waitersAt ps derived ++ ws) ps'
        queue passed) :
      Cascade state value ps (w :: ws) ps' queue (w :: passed)

/-- The microtasks that released waiters become, numbered from `n + 1` on. -/
def tasksOf (state : PromiseState) (value : Value) : Nat → List Waiter → List Microtask
  | _, [] => []
  | n, w :: ws =>
    { id := n + 1, name := w.name, scope := w.scope, reaction := some w.reaction, state, value } ::
      tasksOf state value (n + 1) ws

/-- The state with released waiters in the queue and other promises. -/
def Machine.released (m : Machine) (state : PromiseState) (value : Value) (ps : Array Promise)
    (queue : List Waiter) : Machine :=
  { m with
    promises := ps
    microtaskCount := m.microtaskCount + queue.length
    microtasks := m.microtasks ++ (tasksOf state value m.microtaskCount queue).toArray }

theorem allWaiters_perm (ps : Array Promise) (id : Nat) (state : PromiseState) (value : Value) :
    (allWaiters ps).Perm (waitersAt ps id ++ allWaiters (settledAt ps id state value)) := by
  have key (l : List Promise) (i : Nat) :
      (l.flatMap (·.waiters)).Perm ((l[i]?.getD { state := .fulfilled }).waiters ++
        (l.modify i fun _ => { state, value }).flatMap (·.waiters)) := by
    induction l generalizing i with
    | nil => cases i <;> simp
    | cons p l ih =>
      cases i with
      | zero => simp
      | succ i =>
        simp only [List.flatMap_cons, List.getElem?_cons_succ, List.modify_succ_cons]
        exact ((ih i).append_left _).trans (by
          rw [← List.append_assoc, ← List.append_assoc]
          exact List.perm_append_comm.append_right _)
  simpa [allWaiters, waitersAt, settledAt] using key ps.toList id

namespace Run

theorem parkedCount_eq (m : Machine) : parkedCount m = (allWaiters m.promises).length := by
  have key (l : List Promise) (n : Nat) :
      l.foldl (fun n p => n + p.waiters.length) n = n + (l.flatMap (·.waiters)).length := by
    induction l generalizing n with
    | nil => rfl
    | cons p l ih => simp [ih, Nat.add_assoc]
  rw [parkedCount, ← Array.foldl_toList, key, Nat.zero_add, allWaiters]

theorem settleOne_apply (id : Nat) (state : PromiseState) (value : Value) (m : Machine) :
    settleOne id state value m = .ok (waitersAt m.promises id)
      { m with promises := settledAt m.promises id state value } := rfl

/-- Releasing waiters is a cascade, if the bound on their number is not below the number of those
    that are released and those that wait. -/
theorem release_cascade (state : PromiseState) (value : Value) (fuel : Nat) (ws : List Waiter)
    (m : Machine) (hfuel : ws.length + (allWaiters m.promises).length ≤ fuel) :
    ∃ ps queue passed log, Cascade state value m.promises ws ps queue passed ∧
      release state value fuel ws m = .ok () ((m.released state value ps queue).logged log) := by
  induction fuel generalizing ws m with
  | zero =>
    have hws : ws = [] := List.length_eq_zero_iff.1 (by omega)
    subst hws
    exact ⟨m.promises, [], [], m.log, .nil _, by
      simp [release, Machine.released, Machine.logged, tasksOf]⟩
  | succ fuel ih =>
    cases ws with
    | nil =>
      exact ⟨m.promises, [], [], m.log, .nil _, by
        simp [release, Machine.released, Machine.logged, tasksOf]⟩
    | cons w ws =>
      simp only [List.length_cons] at hfuel
      -- a waiter that is queued leaves the promises as they are
      have hqueue (hruns : w.reaction.runs state = true) :
          ∃ ps queue passed log, Cascade state value m.promises (w :: ws) ps queue passed ∧
            (do
              enqueue w.name w.scope (some w.reaction) state value
              release state value fuel ws : Run Unit) m =
              .ok () ((m.released state value ps queue).logged log) := by
        obtain ⟨log, hlog⟩ := enqueue_apply w.name w.scope (some w.reaction) state value m
        obtain ⟨ps, queue, passed, log', hc, hr⟩ := ih ws
          ((m.queued w.name w.scope (some w.reaction) state value).logged log) (by
            simp only [Machine.logged, Machine.queued]
            omega)
        refine ⟨ps, w :: queue, passed, log', .queue hruns hc, ?_⟩
        simp only [bind_apply, hlog, hr]
        simp [Machine.released, Machine.logged, Machine.queued, tasksOf, Nat.add_comm,
          Nat.add_left_comm]
      cases hw : w.reaction with
      | resume k =>
        simpa [release, hw] using hqueue (by simp [hw, Reaction.runs])
      | link l callback derived =>
        cases hruns : l.runs state with
        | true => simpa [release, hw, hruns] using hqueue (by simp [hw, Reaction.runs, hruns])
        | false =>
          have hperm := (allWaiters_perm m.promises derived state value).length_eq
          simp only [List.length_append] at hperm
          obtain ⟨ps, queue, passed, log, hc, hr⟩ := ih
            (waitersAt m.promises derived ++ ws)
            { m with promises := settledAt m.promises derived state value } (by
              simp only [List.length_append]
              omega)
          refine ⟨ps, queue, w :: passed, log, .pass hw hruns hc, ?_⟩
          simpa [release, hw, hruns, settleOne_apply, Machine.released, Machine.logged]
            using hr

/-- Settling a promise never fails.  It takes the waiters of the promise and releases them in a
    cascade. -/
theorem settle_cascade (id : Nat) (state : PromiseState) (value : Value) (m : Machine) :
    ∃ ps queue passed log,
      Cascade state value (settledAt m.promises id state value) (waitersAt m.promises id) ps queue
        passed ∧
      settle id state value m = .ok () ((m.released state value ps queue).logged log) := by
  have hperm := (allWaiters_perm m.promises id state value).length_eq
  simp only [List.length_append] at hperm
  obtain ⟨ps, queue, passed, log, hc, hr⟩ := release_cascade state value (parkedCount m)
    (waitersAt m.promises id) { m with promises := settledAt m.promises id state value } (by
      rw [parkedCount_eq]
      exact Nat.le_of_eq hperm.symm)
  refine ⟨ps, queue, passed, log, hc, ?_⟩
  simpa [settle, settleOne_apply, Machine.released, Machine.logged] using hr

end Run

end EventLoop
