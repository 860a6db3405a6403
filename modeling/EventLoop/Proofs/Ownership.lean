/-
  Who settles a promise.

  Settling does not look at the state of the promise, so that a promise is settled once rests on
  those who settle: the end of a call of an async function, the turn of a task that resumes one, the
  turn of a link, and a settlement that passes over a link.  Each of them owns the promise: it
  belongs to a call, or to a reaction that waits or is in the queue.  `Owned` says that nobody else
  owns it, and that a promise with an owner is pending.  Suspending a call hands its promise to a
  task, taking a task from the queue hands it back, and settling gives it up (`Owned.settle`).

  The exception is a loop whose start declares a variable by an `await`: then both the call, which
  goes on, and the task own the promise.  A promise is tainted if it belongs to a call that was
  suspended and whose body has such a loop.
-/
import EventLoop.Proofs.Task

namespace EventLoop

open Script

variable {m m' : Machine} {id : Nat} {ps : Array Promise} {state : PromiseState}

/-! ## Changes that settle pending promises only -/

/-- How often a promise can still be settled: once if it is pending. -/
def pendings (ps : Array Promise) (id : Nat) : Nat :=
  if ps[id]?.map (·.state) = some .pending then 1 else 0

/-- The promise of a link that waits. -/
def Waiter.derived (w : Waiter) : List Nat :=
  match w.reaction with
  | .link _ _ derived => [derived]
  | .resume _ => []

namespace Machine

/-- The promise belongs to a call that was suspended and whose body has a loop that declares a
    variable by an `await` in its start. -/
def Tainted (m : Machine) (id : Nat) : Prop :=
  ∃ f, (f, some id) ∈ m.suspendedCalls ∧ f.body.steady = false

/-- Promises keep their states and values. -/
def Keeps (m m' : Machine) : Prop :=
  ∀ (id : Nat) (p : Promise), m.promises[id]? = some p →
    ∃ p', m'.promises[id]? = some p' ∧ p'.state = p.state ∧ p'.value = p.value

/-- A change that settles only promises that are pending, each of them once.  Tainted promises do
    not count. -/
inductive Once (m : Machine) : Machine → Prop
  | keep {m' : Machine} {created : List TaskKey} (h : m.Change created [] m')
      (hkeeps : m.Keeps m') : Once m m'
  | settle {m' : Machine} {id : Nat} {state : PromiseState} {value : Value}
      {queue passed : List Waiter} (h : m.Settles id state value queue passed m')
      (hpending : ∀ i, ¬ m.Tainted i →
        (id :: passed.flatMap (·.derived)).count i ≤ pendings m.promises i) : Once m m'

/-- Promises that are settled keep their states and values, unless they are tainted. -/
def Steadfast (m m' : Machine) : Prop :=
  ∀ (id : Nat) (p : Promise), m.promises[id]? = some p → p.state ≠ .pending → ¬ m'.Tainted id →
    ∃ p', m'.promises[id]? = some p' ∧ p'.state = p.state ∧ p'.value = p.value

theorem Change.tainted {created passed : List TaskKey} (h : m.Change created passed m')
    (ht : m.Tainted id) : m'.Tainted id := by
  obtain ⟨f, hf, hsteady⟩ := ht
  refine ⟨f, ?_, hsteady⟩
  have haside (h : m.Aside m') : m'.suspendedCalls = m.suspendedCalls := by
    rw [suspendedCalls, h.continuations]
    rfl
  cases h with
  | quiet _ _ _ hcalls => rwa [hcalls]
  | promise => exact hf
  | mark hm =>
    obtain ⟨log, rfl⟩ := Run.enqueue_inv hm
    exact hf
  | @suspend _ frame _ target _ hm =>
    rw [suspendedCalls, (Run.suspend_inv hm).2.aside.continuations]
    simp only [withContinuation, Array.toList_push, List.map_append, List.mem_append]
    exact .inl hf
  | attach hm => rwa [haside (attach_aside hm)]
  | settle hs => rwa [haside (aside_of_settle hs.run)]

end Machine

theorem pendings_eq_zero {p : Promise} (hp : ps[id]? = some p) (hstate : p.state ≠ .pending) :
    pendings ps id = 0 := by
  rw [pendings, hp, if_neg]
  simpa using hstate

theorem Cascade.getElem?_of_not_derived {value : Value} {ps' : Array Promise}
    {ws queue passed : List Waiter} (h : Cascade state value ps ws ps' queue passed)
    (hid : id ∉ passed.flatMap (·.derived)) : ps'[id]? = ps[id]? := by
  induction h with
  | nil => rfl
  | queue _ _ ih => exact ih hid
  | @pass ps _ w _ _ _ _ _ derived hw _ _ ih =>
    rw [List.flatMap_cons, List.mem_append, not_or] at hid
    rw [ih hid.2, settledAt, Array.getElem?_modify, if_neg]
    rintro rfl
    exact hid.1 (by simp [Waiter.derived, hw])

namespace Machine

theorem Once.change (h : m.Once m') : ∃ created passed, m.Change created passed m' := by
  cases h with
  | keep h => exact ⟨_, _, h⟩
  | settle h => exact ⟨_, _, .settle h⟩

theorem Once.steadfast (h : m.Once m') : m.Steadfast m' := by
  intro id p hp hstate htaint
  cases h with
  | keep _ hkeeps => exact hkeeps id p hp
  | @settle id' state value queue passed hs hpending =>
    have htaint' : ¬ m.Tainted id := fun ht => htaint (Change.tainted (.settle hs) ht)
    -- the promise is not pending, and so it is not among those that are settled
    have hnot : id ∉ id' :: passed.flatMap (·.derived) := by
      have hle := hpending id htaint'
      rw [pendings_eq_zero hp hstate] at hle
      exact List.count_eq_zero.1 (Nat.le_zero.1 hle)
    rw [List.mem_cons, not_or] at hnot
    obtain ⟨ps, log, hc, rfl⟩ := hs.cascade
    refine ⟨p, ?_, rfl, rfl⟩
    change ps[id]? = some p
    rw [hc.getElem?_of_not_derived hnot.2, settledAt, Array.getElem?_modify,
      if_neg (Ne.symm hnot.1), hp]

end Machine

/-! ## Owners -/

/-- The promise that a reaction settles when it has its turn, given the calls that were suspended.
-/
def Reaction.owned (calls : List (Function × Option Nat)) : Reaction → List Nat
  | .resume k => (calls[k]?.bind (·.2)).toList
  | .link _ _ derived => [derived]

namespace Machine

variable {w : Waiter}

/-- The reactions that have not had their turns yet: those that wait for a promise, and those in the
    queue. -/
def live (m : Machine) : List Reaction :=
  (allWaiters m.promises).map (·.reaction) ++
    (m.microtasks.toList.drop m.cursor).filterMap (·.reaction)

/-- No promise has two owners, and one that has an owner is pending.  `T` are the promises that are
    owned by calls, all others are owned by reactions; tainted promises do not count. -/
structure Owned (T : List Nat) (m : Machine) : Prop where
  cursor : m.cursor ≤ m.microtasks.size
  known : ∀ k, .resume k ∈ m.live → k < m.suspendedCalls.length
  once : ∀ id, ¬ m.Tainted id →
    (m.live.flatMap (·.owned m.suspendedCalls) ++ T).count id ≤ pendings m.promises id

namespace Owned

variable {T T' : List Nat} {m m' : Machine}

theorem start (limit : Nat) (log : Log) : Owned [] (Machine.start limit log) where
  cursor := Nat.le_refl _
  known := by simp [live, Machine.start, allWaiters]
  once := by simp [live, Machine.start, allWaiters]

section

variable (h : Owned T m)

include h

theorem of_live (hlive : m'.live = m.live) (hpromises : m'.promises = m.promises)
    (hcalls : m'.suspendedCalls = m.suspendedCalls) (hcursor : m'.cursor ≤ m'.microtasks.size) :
    Owned T m' := by
  refine ⟨hcursor, by rw [hlive, hcalls]; exact h.known, fun id htaint => ?_⟩
  rw [hlive, hcalls, hpromises]
  refine h.once id fun ht => htaint ?_
  rwa [Tainted, hcalls]

theorem of_eq (hpromises : m'.promises = m.promises)
    (htasks : m'.microtasks = m.microtasks) (hcursor : m'.cursor = m.cursor)
    (hcalls : m'.suspendedCalls = m.suspendedCalls) : Owned T m' := by
  refine h.of_live ?_ hpromises hcalls (by rw [hcursor, htasks]; exact h.cursor)
  rw [live, hpromises, htasks, hcursor]
  rfl

theorem mark (name : String) (scope : Scope) (state : PromiseState) (value : Value)
    (log : Log) : Owned T ((m.queued name scope none state value).logged log) := by
  have hlen : m.cursor ≤ m.microtasks.toList.length := h.cursor
  refine h.of_live ?_ rfl rfl ?_
  · simp [live, Machine.queued, Machine.logged, List.drop_append_of_le_length hlen]
  · simp only [Machine.queued, Machine.logged, Array.size_push]
    exact Nat.le_succ_of_le h.cursor

theorem release (hsub : ∀ id, T'.count id ≤ T.count id) : Owned T' m := by
  refine ⟨h.cursor, h.known, fun id htaint => Nat.le_trans ?_ (h.once id htaint)⟩
  rw [List.count_append, List.count_append]
  exact Nat.add_le_add_left (hsub id) _

theorem taint (htaint : ∀ id ∈ T', m.Tainted id) : Owned (T' ++ T) m := by
  refine ⟨h.cursor, h.known, fun id hid => ?_⟩
  have hzero : T'.count id = 0 := List.count_eq_zero.2 fun hmem => hid (htaint id hmem)
  have hle := h.once id hid
  rw [List.count_append] at hle
  rw [List.count_append, List.count_append, hzero]
  omega

/-- Who owns a promise that is there has been so before the new one. -/
theorem promise (state : PromiseState) (value : Value) : Owned T (m.withPromise state value) := by
  have hwaiters : allWaiters (m.withPromise state value).promises = allWaiters m.promises := by
    simp [allWaiters, withPromise]
  have hlive : (m.withPromise state value).live = m.live := by rw [live, hwaiters]; rfl
  refine ⟨h.cursor, by rw [hlive]; exact h.known, fun id htaint => ?_⟩
  rw [hlive]
  refine Nat.le_trans (h.once id htaint) ?_
  simp only [pendings, withPromise, Array.getElem?_push]
  split
  · split
    · rename_i hp hsize
      simp [hsize] at hp
    · exact Nat.le_of_eq (by simp_all)
  · exact Nat.zero_le _

theorem own_new (value : Value) : Owned (m.promises.size :: T) (m.withPromise .pending value) := by
  have hnew := h.promise .pending value
  refine ⟨hnew.cursor, hnew.known, fun id htaint => ?_⟩
  by_cases hid : id = m.promises.size
  · -- nobody owned the promise before it was there
    subst hid
    have hzero := h.once m.promises.size htaint
    have hnone : pendings m.promises m.promises.size = 0 := by simp [pendings]
    have hone : pendings (m.withPromise .pending value).promises m.promises.size = 1 := by
      simp [pendings, withPromise]
    have hwaiters : (m.withPromise .pending value).live = m.live := by
      simp [live, withPromise, allWaiters]
    rw [hnone] at hzero
    rw [hwaiters, hone]
    change (m.live.flatMap (·.owned m.suspendedCalls) ++ _).count _ ≤ 1
    rw [List.count_append] at hzero
    rw [List.count_append, List.count_cons_self]
    omega
  · have hle := hnew.once id htaint
    rw [List.count_append] at hle
    rwa [List.count_append, List.count_cons_of_ne (Ne.symm hid)]

end

end Owned

/-- A reaction that is placed is one more that has not had its turn. -/
theorem Placed.live_perm (h : m.Placed w m') (hcursor : m.cursor ≤ m.microtasks.size) :
    m'.live.Perm (w.reaction :: m.live) := by
  cases h with
  | parked log hp hpending =>
    have hwaiters := (allWaiters_parked hp w).map (·.reaction)
    refine (hwaiters.append_right _).trans ?_
    rw [List.map_append, List.append_assoc]
    exact List.perm_middle
  | queued state value log =>
    have hlen : m.cursor ≤ m.microtasks.toList.length := hcursor
    have htasks : ((m.queued w.name w.scope (some w.reaction) state value).logged log).live =
        m.live ++ [w.reaction] := by
      simp [live, Machine.queued, Machine.logged, List.drop_append_of_le_length hlen]
    rw [htasks]
    exact List.perm_append_singleton _ _

theorem pendings_parked (ps : Array Promise) (id i : Nat) (w : Waiter) :
    pendings (ps.modify id fun p => { p with waiters := p.waiters ++ [w] }) i = pendings ps i := by
  rw [pendings, pendings, Array.getElem?_modify]
  split
  · cases ps[i]? <;> rfl
  · rfl

theorem Placed.pendings_eq (h : m.Placed w m') (i : Nat) :
    pendings m'.promises i = pendings m.promises i := by
  cases h with
  | parked log hp hpending => exact pendings_parked m.promises _ i w
  | queued => rfl

theorem Placed.keeps (h : m.Placed w m') : m.Keeps m' := by
  intro i p hi
  cases h with
  | @parked id _ log hp hpending =>
    change ∃ p', (m.promises.modify id _)[i]? = some p' ∧ _
    rw [Array.getElem?_modify]
    split
    · rw [hi]
      exact ⟨_, rfl, rfl, rfl⟩
    · exact ⟨p, hi, rfl, rfl⟩
  | queued => exact ⟨p, hi, rfl, rfl⟩

theorem keeps_withPromise (m : Machine) (state : PromiseState) (value : Value) :
    m.Keeps (m.withPromise state value) := by
  intro i p hi
  have hlt : i < m.promises.size := (Array.getElem?_eq_some_iff.1 hi).1
  refine ⟨p, ?_, rfl, rfl⟩
  rw [withPromise, Array.getElem?_push, if_neg (Nat.ne_of_lt hlt), hi]

namespace Owned

variable {T T' : List Nat} {m m' : Machine}

/-- What is owned apart from the reactions passes to the new reaction that is placed. -/
theorem placed (h : Owned (w.reaction.owned m.suspendedCalls ++ T) m) (hplaced : m.Placed w m')
    (hknown : ∀ k, w.reaction = .resume k → k < m.suspendedCalls.length) : Owned T m' := by
  have haside := hplaced.aside
  have hlive := hplaced.live_perm h.cursor
  have hcalls : m'.suspendedCalls = m.suspendedCalls := by
    rw [suspendedCalls, haside.continuations]
    rfl
  constructor
  case cursor =>
    obtain ⟨l, hl⟩ := haside.microtasks
    have hlen := congrArg List.length hl
    simp only [List.length_append, Array.length_toList] at hlen
    have := h.cursor
    rw [haside.cursor]
    omega
  case known =>
    intro k hk
    rw [hcalls]
    rcases List.mem_cons.1 (hlive.subset hk) with hw | hold
    · exact hknown k hw.symm
    · exact h.known k hold
  case once =>
    intro id htaint
    have hle := h.once id (by rwa [Tainted, ← hcalls])
    have hcount := (hlive.flatMap_right (·.owned m.suspendedCalls)).count_eq id
    rw [hplaced.pendings_eq, hcalls]
    simp only [List.count_append, List.flatMap_cons] at hle hcount ⊢
    omega

theorem call (h : Owned T m) (frame : Frame) (target : Target) :
    Owned T (m.withContinuation frame target) := by
  have hcalls : (m.withContinuation frame target).suspendedCalls =
      m.suspendedCalls ++ [(frame.function, frame.promise)] := by
    simp [suspendedCalls, withContinuation]
  have howned : m.live.flatMap (·.owned (m.withContinuation frame target).suspendedCalls) =
      m.live.flatMap (·.owned m.suspendedCalls) := by
    refine List.flatMap_congr fun r hr => ?_
    cases r with
    | link => rfl
    | resume k =>
      rw [Reaction.owned, Reaction.owned, hcalls, List.getElem?_append_left (h.known k hr)]
  refine ⟨h.cursor, fun k hk => ?_, fun id htaint => ?_⟩
  · rw [hcalls, List.length_append]
    exact Nat.lt_add_right _ (h.known k hk)
  · change (m.live.flatMap _ ++ T).count id ≤ _
    rw [howned]
    refine h.once id fun ht => htaint ?_
    obtain ⟨f, hf, hsteady⟩ := ht
    refine ⟨f, ?_, hsteady⟩
    rw [hcalls]
    exact List.mem_append_left _ hf

/-- A call that is suspended hands its promise to the task that resumes it. -/
theorem suspend {frame : Frame} {value : Value} {target : Target} {k : Nat}
    (h : Owned (frame.promise.toList ++ T) m) (hs : Run.suspend frame value target m = .ok k m') :
    Owned T m' := by
  obtain ⟨rfl, hplaced⟩ := Run.suspend_inv hs
  have hlen : (m.withContinuation frame target).suspendedCalls.length =
      m.continuations.size + 1 := by
    simp [suspendedCalls, withContinuation]
  have howned : (Reaction.resume m.continuations.size).owned
      (m.withContinuation frame target).suspendedCalls = frame.promise.toList := by
    simp [Reaction.owned, suspendedCalls, withContinuation]
  refine Owned.placed ?_ hplaced fun k hk => ?_
  · rw [howned]
    exact h.call frame target
  · cases hk
    omega

theorem attach {name : String} {l : Link} {callback : Option Expr} {receiver : Value}
    {derived : Nat} (h : Owned T m)
    (hs : Run.attach name l callback state receiver m = .ok derived m') : Owned T m' := by
  obtain ⟨rfl, hplaced⟩ := Run.attach_inv hs
  exact (h.own_new .undefined).placed hplaced fun k hk => by cases hk

/-- Whoever takes a task from the queue takes over what it settles. -/
theorem taken (h : Owned T m) {t : Microtask} (ht : m.microtasks[m.cursor]? = some t) :
    Owned (t.reaction.toList.flatMap (·.owned m.suspendedCalls) ++ T) m.taken := by
  have hdrop : m.microtasks.toList.drop m.cursor =
      t :: m.microtasks.toList.drop (m.cursor + 1) := by
    obtain ⟨hlt, ht⟩ := Array.getElem?_eq_some_iff.1 ht
    rw [← List.getElem_cons_drop hlt]
    simp [ht]
  have hlive : m.live.Perm (t.reaction.toList ++ m.taken.live) := by
    rw [live, hdrop]
    refine List.Perm.trans ?_ (List.perm_append_comm_assoc _ _ _)
    refine List.Perm.append_left _ (List.Perm.of_eq ?_)
    cases hr : t.reaction <;> simp [hr, Machine.taken]
  refine ⟨(Array.getElem?_eq_some_iff.1 ht).1, fun k hk => ?_, fun id htaint => ?_⟩
  · exact h.known k (hlive.symm.subset (List.mem_append_right _ hk))
  · have hle := h.once id htaint
    have hcount := (hlive.flatMap_right (·.owned m.suspendedCalls)).count_eq id
    change (m.taken.live.flatMap (·.owned m.suspendedCalls) ++ _).count id ≤ _
    change _ ≤ pendings m.promises id
    simp only [List.count_append, List.flatMap_append] at hle hcount ⊢
    omega

end Owned

end Machine

/-! ## Settling gives up a promise -/

theorem pendings_le_one (ps : Array Promise) (i : Nat) : pendings ps i ≤ 1 := by
  rw [pendings]
  split <;> omega

/-- The owner of a promise settles it: whatever else is owned is pending as before. -/
theorem le_pendings_settledAt {i n : Nat} (state : PromiseState) (value : Value)
    (h : [id].count i + n ≤ pendings ps i) : n ≤ pendings (settledAt ps id state value) i := by
  by_cases hid : id = i
  · subst hid
    have := pendings_le_one ps id
    rw [List.count_singleton_self] at h
    omega
  · have hother : pendings (settledAt ps id state value) i = pendings ps i := by
      rw [pendings, pendings, settledAt, Array.getElem?_modify, if_neg hid]
    omega

/-- A cascade hands on what its waiters own, less what those settle that are passed over. -/
theorem Cascade.owned {value : Value} {ps' : Array Promise} {ws queue passed : List Waiter}
    (h : Cascade state value ps ws ps' queue passed) (calls : List (Function × Option Nat))
    {i n : Nat}
    (hle : ((ws ++ allWaiters ps).flatMap (·.reaction.owned calls)).count i + n ≤ pendings ps i) :
    ((queue ++ allWaiters ps').flatMap (·.reaction.owned calls)).count i + n ≤ pendings ps' i := by
  induction h generalizing n with
  | nil => exact hle
  | @queue ps ps' w ws queue passed _ _ ih =>
    -- the waiter that is queued is set apart
    have hrest := @ih (n + (w.reaction.owned calls).count i) (by
      simp only [List.cons_append, List.flatMap_cons, List.count_append] at hle ⊢
      omega)
    simp only [List.cons_append, List.flatMap_cons, List.count_append] at hrest ⊢
    omega
  | @pass ps ps' w ws queue passed l callback derived hw _ _ ih =>
    have hperm := ((allWaiters_perm ps derived state value).flatMap_right
      (·.reaction.owned calls)).count_eq i
    have howned : w.reaction.owned calls = [derived] := by rw [hw]; rfl
    refine ih (le_pendings_settledAt state value ?_)
    simp only [List.cons_append, List.flatMap_cons, List.flatMap_append, List.count_append]
      at hle hperm ⊢
    rw [howned] at hle
    omega

theorem Waiter.count_derived_le (w : Waiter) (calls : List (Function × Option Nat)) (i : Nat) :
    w.derived.count i ≤ (w.reaction.owned calls).count i := by
  cases hw : w.reaction <;> simp [Waiter.derived, Reaction.owned, hw]

theorem count_derived_le (ws : List Waiter) (calls : List (Function × Option Nat)) (i : Nat) :
    (ws.flatMap (·.derived)).count i ≤ (ws.flatMap (·.reaction.owned calls)).count i := by
  induction ws with
  | nil => exact Nat.le_refl _
  | cons w ws ih =>
    simp only [List.flatMap_cons, List.count_append]
    exact Nat.add_le_add (w.count_derived_le calls i) ih

namespace Machine

theorem count_live (m : Machine) (calls : List (Function × Option Nat)) (i : Nat) :
    (m.live.flatMap (·.owned calls)).count i =
      ((allWaiters m.promises).flatMap (·.reaction.owned calls)).count i +
      (((m.microtasks.toList.drop m.cursor).filterMap (·.reaction)).flatMap
        (·.owned calls)).count i := by
  rw [live, List.flatMap_append, List.count_append, List.flatMap_map]

theorem live_released (hcursor : m.cursor ≤ m.microtasks.size) (state : PromiseState)
    (value : Value) (ps : Array Promise) (queue : List Waiter) (log : Log) :
    ((m.released state value ps queue).logged log).live =
      (allWaiters ps).map (·.reaction) ++
        ((m.microtasks.toList.drop m.cursor).filterMap (·.reaction) ++ queue.map (·.reaction)) := by
  have hlen : m.cursor ≤ m.microtasks.toList.length := hcursor
  have htasks (n : Nat) : (tasksOf state value n queue).filterMap (·.reaction) =
      queue.map (·.reaction) := by
    induction queue generalizing n with
    | nil => rfl
    | cons w ws ih => simp [tasksOf, ih]
  simp [live, Machine.released, Machine.logged, List.drop_append_of_le_length hlen, htasks]

/-- The owner of a promise settles it, and owns it no longer. -/
theorem Owned.settle {T : List Nat} {m m' : Machine} {id : Nat} {state : PromiseState}
    {value : Value} {queue passed : List Waiter} (h : Owned (id :: T) m)
    (hs : m.Settles id state value queue passed m') : m.Once m' ∧ Owned T m' := by
  have hbefore (i : Nat) (htaint : ¬ m.Tainted i) := h.once i htaint
  simp only [List.count_append, count_live] at hbefore
  have hsplit (l : List Nat) (i : Nat) : (id :: l).count i = [id].count i + l.count i := by
    rw [← List.count_append, List.singleton_append]
  have hwaiters (i : Nat) := ((allWaiters_perm m.promises id state value).flatMap_right
    (·.reaction.owned m.suspendedCalls)).count_eq i
  obtain ⟨ps, log, hc, hm'⟩ := hs.cascade
  have hcascade (i : Nat) := (hc.perm.flatMap_right (·.reaction.owned m.suspendedCalls)).count_eq i
  constructor
  · refine .settle hs fun i htaint => ?_
    have hle := hbefore i htaint
    have hover := count_derived_le passed m.suspendedCalls i
    have hw := hwaiters i
    have hp := hcascade i
    simp only [List.flatMap_append, List.count_append] at hp hw
    rw [hsplit] at hle ⊢
    omega
  · subst hm'
    have hlive := live_released h.cursor state value ps queue log
    constructor
    case cursor =>
      have hcursor := h.cursor
      simp only [Machine.released, Machine.logged, Array.size_append]
      omega
    case known =>
      intro k hk
      refine h.known k ?_
      rw [hlive] at hk
      simp only [List.mem_append, List.mem_map] at hk
      rw [live, List.mem_append, List.mem_map]
      -- whatever waits or was queued has waited before
      have hmem (w : Waiter) (hw : w ∈ queue ∨ w ∈ allWaiters ps) : w ∈ allWaiters m.promises := by
        refine (allWaiters_perm m.promises id state value).mem_iff.2 (hc.perm.mem_iff.2 ?_)
        simp only [List.mem_append]
        exact hw.imp_right .inr
      rcases hk with ⟨w, hw, hr⟩ | hq | ⟨w, hw, hr⟩
      · exact .inl ⟨w, hmem w (.inr hw), hr⟩
      · exact .inr hq
      · exact .inl ⟨w, hmem w (.inl hw), hr⟩
    case once =>
      intro i htaint
      have hle := hbefore i htaint
      have hw := hwaiters i
      rw [hsplit] at hle
      have hafter := hc.owned m.suspendedCalls (i := i)
        (n := (((m.microtasks.toList.drop m.cursor).filterMap (·.reaction)).flatMap
          (·.owned m.suspendedCalls)).count i + T.count i)
        (le_pendings_settledAt state value (by omega))
      change _ ≤ pendings ps i
      change ((Machine.live _).flatMap (·.owned m.suspendedCalls) ++ T).count i ≤ _
      rw [hlive]
      simp only [List.flatMap_append, List.count_append, List.flatMap_map] at hafter ⊢
      omega

end Machine

end EventLoop
