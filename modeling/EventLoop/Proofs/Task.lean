/-
  No microtask is lost, and none is there twice.

  A task is made when a function is suspended, when a link is attached to a promise, and when a
  promise is made that is settled at once.  From then on it is in one place: it waits for a pending
  promise, it is in the queue, or a settlement to which its link does not apply has passed it over.

  `Change` lists what can happen to promises and tasks, with the tasks that are made and those that
  are passed over; a `Trail` is a run of changes with its ledger.  Every operation is a trail
  (`passes_on`), and what is shown of every change (`Kept`) holds of every state on it.
-/
import EventLoop.Proofs.Passing

namespace EventLoop

open Script

variable {tame : Bool} {depth : Nat} {id : Nat} {m m' : Machine} {ps : Array Promise} {p : Promise}
  {state : PromiseState} {value : Value} {w : Waiter}

/-! ## Tasks -/

/-- What tells a task from all others: the suspended body that it resumes, or the promise of its
    link.  A task that only marks a promise as settled has a number of its own. -/
inductive TaskKey where
  | resume (continuation : Nat)
  | link (derived : Nat)
  | mark (number : Nat)
  deriving DecidableEq

def Reaction.key : Reaction → TaskKey
  | .resume k => .resume k
  | .link _ _ derived => .link derived

def Waiter.key (w : Waiter) : TaskKey := w.reaction.key

def Microtask.key (t : Microtask) : TaskKey :=
  match t.reaction with
  | some r => r.key
  | none => .mark t.id

namespace Machine

/-- The tasks that wait for a promise. -/
def parkedKeys (m : Machine) : List TaskKey := (allWaiters m.promises).map (·.key)

/-- The tasks that were ever in the queue. -/
def queuedKeys (m : Machine) : List TaskKey := m.microtasks.toList.map (·.key)

/-- The calls that were suspended: the function and the promise of each continuation. -/
def suspendedCalls (m : Machine) : List (Function × Option Nat) :=
  m.continuations.toList.map fun c => (c.function, c.promise)

theorem suspendedCalls_deferred (m : Machine) (k : Nat) (stmts : List Stmt) :
    (m.deferred k stmts).suspendedCalls = m.suspendedCalls := by
  refine List.ext_getElem? fun i => ?_
  simp only [suspendedCalls, deferred, List.getElem?_map, Array.getElem?_toList,
    Array.getElem?_modify]
  split
  · cases m.continuations[i]? <;> rfl
  · rfl

/-- A promise is settled.  The waiters `queue` go into the queue, and those in `passed` are passed
    over, whereupon the promises of their links are settled, too. -/
structure Settles (m : Machine) (id : Nat) (state : PromiseState) (value : Value)
    (queue passed : List Waiter) (m' : Machine) : Prop where
  run : Run.settle id state value m = .ok () m'
  cascade : ∃ ps log, Cascade state value (settledAt m.promises id state value)
    (waitersAt m.promises id) ps queue passed ∧ m' = (m.released state value ps queue).logged log

theorem settles_of_settle (h : Run.settle id state value m = .ok () m') :
    ∃ queue passed, m.Settles id state value queue passed m' := by
  obtain ⟨ps, queue, passed, log, hc, hm'⟩ := Run.settle_inv h
  exact ⟨queue, passed, h, ps, log, hc, hm'⟩

/-- What can happen to promises and tasks: `Change m created passed m'` makes the tasks `created`
    and passes over the tasks `passed`. -/
inductive Change (m : Machine) : List TaskKey → List TaskKey → Machine → Prop
  /-- Something that is about neither promises nor tasks. -/
  | quiet {m' : Machine} (hpromises : m'.promises = m.promises)
      (htasks : m'.microtasks = m.microtasks) (hcount : m'.microtaskCount = m.microtaskCount)
      (hcalls : m'.suspendedCalls = m.suspendedCalls) : Change m [] [] m'
  | promise (state : PromiseState) (value : Value) : Change m [] [] (m.withPromise state value)
  | mark {m' : Machine} {name : String} {scope : Scope} {state : PromiseState} {value : Value}
      (h : Run.enqueue name scope none state value m = .ok () m') :
      Change m [.mark (m.microtaskCount + 1)] [] m'
  | suspend {m' : Machine} {frame : Frame} {value : Value} {target : Target} {k : Nat}
      (h : Run.suspend frame value target m = .ok k m') : Change m [.resume k] [] m'
  | attach {m' : Machine} {name : String} {l : Link} {callback : Option Expr}
      {state : PromiseState} {receiver : Value} {derived : Nat}
      (h : Run.attach name l callback state receiver m = .ok derived m') :
      Change m [.link derived] [] m'
  | settle {m' : Machine} {id : Nat} {state : PromiseState} {value : Value}
      {queue passed : List Waiter} (h : m.Settles id state value queue passed m') :
      Change m [] (passed.map (·.key)) m'

/-- Changes one after the other, with all tasks that were made and all that were passed over. -/
inductive Trail (m : Machine) : List TaskKey → List TaskKey → Machine → Prop
  | nil : Trail m [] [] m
  | snoc {created created' passed passed' : List TaskKey} {m1 m' : Machine}
      (h : Trail m created passed m1) (hchange : Change m1 created' passed' m') :
      Trail m (created ++ created') (passed ++ passed') m'

end Machine

/-! ## Cascades -/

theorem mem_modify {f : Promise → Promise} (h : p ∈ ps.modify id f) :
    p ∈ ps ∨ ∃ p0, ps[id]? = some p0 ∧ p = f p0 := by
  obtain ⟨i, hi⟩ := Array.mem_iff_getElem?.1 h
  rw [Array.getElem?_modify] at hi
  by_cases hid : id = i
  · rw [if_pos hid] at hi
    obtain ⟨p0, hp0, rfl⟩ := Option.map_eq_some_iff.1 hi
    exact .inr ⟨p0, hid ▸ hp0, rfl⟩
  · rw [if_neg hid] at hi
    exact .inl (Array.mem_of_getElem? hi)

theorem mem_waitersAt (h : w ∈ waitersAt ps id) : w ∈ allWaiters ps :=
  (allWaiters_perm ps id .fulfilled .undefined).mem_iff.2 (List.mem_append_left _ h)

theorem mem_of_settledAt (h : w ∈ allWaiters (settledAt ps id state value)) : w ∈ allWaiters ps :=
  (allWaiters_perm ps id state value).mem_iff.2 (List.mem_append_right _ h)

theorem allWaiters_parked (hp : ps[id]? = some p) (w : Waiter) :
    (allWaiters (ps.modify id fun p => { p with waiters := p.waiters ++ [w] })).Perm
      (allWaiters ps ++ [w]) := by
  have key (l : List Promise) (i : Nat) (hi : l[i]? = some p) :
      ((l.modify i fun p => { p with waiters := p.waiters ++ [w] }).flatMap (·.waiters)).Perm
        (l.flatMap (·.waiters) ++ [w]) := by
    induction l generalizing i with
    | nil => simp at hi
    | cons p0 l ih =>
      cases i with
      | zero =>
        simp only [List.modify_zero_cons, List.flatMap_cons, List.append_assoc]
        exact List.perm_append_comm.append_left _
      | succ i =>
        simp only [List.modify_succ_cons, List.flatMap_cons, List.append_assoc]
        exact (ih i hi).append_left _
  simpa [allWaiters] using key ps.toList id (by simpa using hp)

namespace Cascade

variable {state : PromiseState} {value : Value} {ps ps' : Array Promise}
  {ws queue passed : List Waiter}

section

variable (h : Cascade state value ps ws ps' queue passed)

include h

/-- Every waiter is queued, passed over or left where it was. -/
theorem perm : (ws ++ allWaiters ps).Perm (queue ++ (passed ++ allWaiters ps')) := by
  induction h with
  | nil => rfl
  | queue _ _ ih => exact ih.cons _
  | @pass ps ps' w ws queue passed l callback derived _ _ _ ih =>
    -- the waiters of the promise that is settled next move to the front
    have hmove : (ws ++ allWaiters ps).Perm (waitersAt ps derived ++ ws ++
        allWaiters (settledAt ps derived state value)) := by
      refine ((allWaiters_perm ps derived state value).append_left ws).trans ?_
      rw [← List.append_assoc]
      exact List.perm_append_comm.append_right _
    exact ((hmove.trans ih).cons w).trans List.perm_middle.symm

/-- What holds of all promises and of one that was just settled holds of all promises after it. -/
theorem forall_promises {P : Promise → Prop}
    (hsettled : P { state, value }) (hps : ∀ p ∈ ps, P p) : ∀ p ∈ ps', P p := by
  induction h with
  | nil => exact hps
  | queue _ _ ih => exact ih hps
  | pass _ _ _ ih =>
    refine ih fun p hp => ?_
    rcases mem_modify hp with hold | ⟨_, _, rfl⟩
    · exact hps p hold
    · exact hsettled

/-- The waiters to which the settlement applies are queued, in order. -/
theorem filter_sublist_queue : (ws.filter (·.reaction.runs state)).Sublist queue := by
  induction h with
  | nil => exact .slnil
  | queue hruns _ ih =>
    rw [List.filter_cons, if_pos hruns]
    exact ih.cons_cons _
  | @pass _ _ w _ _ _ _ _ derived hw hruns _ ih =>
    have hnot : ¬ w.reaction.runs state = true := by simp [hw, Reaction.runs, hruns]
    rw [List.filter_cons, if_neg hnot]
    rw [List.filter_append] at ih
    exact (List.sublist_append_right _ _).trans ih

theorem filter_sublist_passed : (ws.filter (!·.reaction.runs state)).Sublist passed := by
  induction h with
  | nil => exact .slnil
  | queue hruns _ ih =>
    rw [List.filter_cons, if_neg (by simp [hruns])]
    exact ih
  | @pass _ _ w _ _ _ _ _ derived hw hruns _ ih =>
    have hnot : (!w.reaction.runs state) = true := by simp [hw, Reaction.runs, hruns]
    rw [List.filter_cons, if_pos hnot]
    rw [List.filter_append] at ih
    exact ((List.sublist_append_right _ _).trans ih).cons_cons w

theorem settled_kept (hid : ps[id]? = some { state, value }) :
    ps'[id]? = some { state, value } := by
  induction h with
  | nil => exact hid
  | queue _ _ ih => exact ih hid
  | pass _ _ _ ih =>
    refine ih ?_
    rw [settledAt, Array.getElem?_modify]
    split
    · rw [hid]
      rfl
    · exact hid

/-- Whoever is passed over has a link that does not apply, and its promise is settled in the same
    way. -/
theorem settled_of_passed (hderived : ∀ w ∈ ws ++ allWaiters ps, ∀ l callback derived,
      w.reaction = .link l callback derived → derived < ps.size) :
    ∀ w ∈ passed, ∃ l callback derived, w.reaction = .link l callback derived ∧
      l.runs state = false ∧ ps'[derived]? = some { state, value } := by
  induction h with
  | nil => simp
  | queue _ _ ih =>
    exact ih fun w hw => hderived w (List.mem_cons_of_mem _ hw)
  | @pass ps ps' w ws queue passed l callback derived hw hruns h ih =>
    have hlt : derived < ps.size := hderived w List.mem_cons_self l callback derived hw
    rintro w' (_ | ⟨_, hw'⟩)
    · refine ⟨l, callback, derived, hw, hruns, h.settled_kept ?_⟩
      rw [settledAt, Array.getElem?_modify, if_pos rfl, Array.getElem?_eq_getElem hlt]
      rfl
    · refine ih (fun w hmem => ?_) w' hw'
      rw [settledAt, Array.size_modify]
      refine hderived w ?_
      simp only [List.mem_append] at hmem
      simp only [List.cons_append, List.mem_cons, List.mem_append]
      rcases hmem with (hat | hws) | hall
      · exact .inr (.inr (mem_waitersAt hat))
      · exact .inr (.inl hws)
      · exact .inr (.inr (mem_of_settledAt hall))

end

end Cascade

/-! ## What every change keeps -/

/-- A promise that is settled has no waiters, and those of a pending one stand in the order in which
    they were made. -/
structure Promise.Orderly (created : List TaskKey) (p : Promise) : Prop where
  settled : p.state ≠ .pending → p.waiters = []
  order : (p.waiters.map (·.key)).Sublist created

variable {created : List TaskKey}

theorem Promise.Orderly.append (h : p.Orderly created) (created' : List TaskKey) :
    p.Orderly (created ++ created') :=
  ⟨h.settled, h.order.trans (List.sublist_append_left _ _)⟩

theorem Promise.Orderly.new (created : List TaskKey) (state : PromiseState) (value : Value) :
    Orderly created { state, value } := ⟨fun _ => rfl, List.nil_sublist _⟩

/-- The number in a key was given out. -/
def TaskKey.Used (m : Machine) : TaskKey → Prop
  | .resume k => k < m.continuations.size
  | .link derived => derived < m.promises.size
  | .mark number => number ≤ m.microtaskCount

theorem TaskKey.Used.mono {m m' : Machine} {key : TaskKey} (h : key.Used m)
    (hconts : m.continuations.size ≤ m'.continuations.size)
    (hpromises : m.promises.size ≤ m'.promises.size)
    (hcount : m.microtaskCount ≤ m'.microtaskCount) : key.Used m' := by
  cases key with
  | resume k => exact Nat.lt_of_lt_of_le h hconts
  | link derived => exact Nat.lt_of_lt_of_le h hpromises
  | mark number => exact Nat.le_trans h hcount

@[simp] theorem map_key_tasksOf (state : PromiseState) (value : Value) (n : Nat)
    (ws : List Waiter) : (tasksOf state value n ws).map (·.key) = ws.map (·.key) := by
  induction ws generalizing n with
  | nil => rfl
  | cons w ws ih =>
    rw [tasksOf, List.map_cons, ih, List.map_cons]
    rfl

namespace Machine

/-- The tasks `created` are all different, and each of them is in one place; those in `passed` were
    passed over. -/
structure Kept (created passed : List TaskKey) (m : Machine) : Prop where
  promises : ∀ p ∈ m.promises, p.Orderly created
  nodup : created.Nodup
  perm : (m.parkedKeys ++ (m.queuedKeys ++ passed)).Perm created
  used : ∀ key ∈ created, key.Used m

namespace Kept

variable {created passed : List TaskKey} {m m' : Machine}

theorem start (limit : Nat) (log : Log) : Kept [] [] (Machine.start limit log) where
  promises := by simp [Machine.start]
  nodup := .nil
  perm := .nil
  used := by simp

section

variable (h : Kept created passed m)

include h

theorem of_eq (hpromises : m'.promises = m.promises)
    (htasks : m'.microtasks = m.microtasks) (hcount : m'.microtaskCount = m.microtaskCount)
    (hconts : m.continuations.size ≤ m'.continuations.size) : Kept created passed m' where
  promises := by rw [hpromises]; exact h.promises
  nodup := h.nodup
  perm := by
    rw [parkedKeys, queuedKeys, hpromises, htasks]
    exact h.perm
  used := fun key hkey =>
    (h.used key hkey).mono hconts (Nat.le_of_eq (by rw [hpromises])) (Nat.le_of_eq hcount.symm)

theorem promise (state : PromiseState) (value : Value) :
    Kept created passed (m.withPromise state value) where
  promises := by
    intro p hp
    rcases Array.mem_push.1 hp with hold | rfl
    · exact h.promises p hold
    · exact .new created state value
  nodup := h.nodup
  perm := by
    have hwaiters : allWaiters (m.withPromise state value).promises = allWaiters m.promises := by
      simp [allWaiters, withPromise]
    rw [parkedKeys, hwaiters]
    exact h.perm
  used := fun key hkey => (h.used key hkey).mono (Nat.le_refl _) (by simp [withPromise])
    (Nat.le_refl _)

theorem nodup_append {key : TaskKey} (hnew : ¬ key.Used m) : (created ++ [key]).Nodup := by
  refine List.nodup_append.2 ⟨h.nodup, List.pairwise_singleton _ key, ?_⟩
  rintro old hold new hnew' rfl
  rw [List.mem_singleton.1 hnew'] at hold
  exact hnew (h.used key hold)

theorem queued (name : String) (scope : Scope)
    (reaction : Option Reaction) (state : PromiseState) (value : Value) (log : Log) {key : TaskKey}
    (hkey : (Microtask.mk (m.microtaskCount + 1) name scope reaction state value).key = key)
    (hnodup : (created ++ [key]).Nodup)
    (hused : key.Used ((m.queued name scope reaction state value).logged log)) :
    Kept (created ++ [key]) passed ((m.queued name scope reaction state value).logged log) where
  promises := fun p hp => (h.promises p hp).append [key]
  nodup := hnodup
  perm := by
    have htasks : ((m.queued name scope reaction state value).logged log).queuedKeys =
        m.queuedKeys ++ [key] := by
      simp [queuedKeys, Machine.queued, Machine.logged, hkey]
    rw [htasks]
    refine List.perm_iff_count.2 fun j => ?_
    have hcount := h.perm.count_eq j
    change List.count j (m.parkedKeys ++ _) = _
    simp only [List.count_append] at hcount ⊢
    omega
  used := by
    intro key' hkey'
    rcases List.mem_append.1 hkey' with hold | hnew
    · exact (h.used key' hold).mono (Nat.le_refl _) (Nat.le_refl _) (Nat.le_succ _)
    · rw [List.mem_singleton.1 hnew]
      exact hused

/-- A reaction that is parked at a pending promise is a new task that waits. -/
theorem parked {id : Nat} {p : Promise} (w : Waiter) (log : Log)
    (hp : m.promises[id]? = some p) (hpending : p.state = .pending)
    (hnodup : (created ++ [w.key]).Nodup) (hused : w.key.Used m) :
    Kept (created ++ [w.key]) passed ((m.parked id w).logged log) where
  promises := by
    intro p' hp'
    have hmem : p' ∈ m.promises.modify id fun p => { p with waiters := p.waiters ++ [w] } := hp'
    rcases mem_modify hmem with hold | ⟨p0, hp0, rfl⟩
    · exact (h.promises p' hold).append [w.key]
    · obtain rfl : p = p0 := Option.some.inj (hp.symm.trans hp0)
      refine ⟨fun hsettled => absurd hpending hsettled, ?_⟩
      have horder := (h.promises p (Array.mem_of_getElem? hp)).order
      rw [List.map_append]
      exact horder.append (List.Sublist.refl [w.key])
  nodup := hnodup
  perm := by
    -- the new task is one more of those that wait
    refine List.perm_iff_count.2 fun j => ?_
    have hcount := h.perm.count_eq j
    have hwaiters := ((allWaiters_parked hp w).map (·.key)).count_eq j
    change List.count j ((allWaiters (m.promises.modify id _)).map _ ++ (m.queuedKeys ++ _)) = _
    change List.count j ((allWaiters m.promises).map _ ++ _) = _ at hcount
    simp only [List.count_append, List.map_append] at hcount hwaiters ⊢
    rw [List.map_singleton] at hwaiters
    omega
  used := by
    have hsize : m.promises.size = ((m.parked id w).logged log).promises.size :=
      Array.size_modify.symm
    intro key hkey
    have hold : key.Used m := by
      rcases List.mem_append.1 hkey with hold | hnew
      · exact h.used key hold
      · rw [List.mem_singleton.1 hnew]
        exact hused
    exact hold.mono (Nat.le_refl _) (Nat.le_of_eq hsize) (Nat.le_refl _)

theorem placed (hplaced : m.Placed w m')
    (hnodup : (created ++ [w.key]).Nodup) (hused : w.key.Used m) :
    Kept (created ++ [w.key]) passed m' := by
  cases hplaced with
  | parked log hp hpending => exact h.parked w log hp hpending hnodup hused
  | queued state value log =>
    exact h.queued w.name w.scope (some w.reaction) state value log rfl hnodup
      (hused.mono (Nat.le_refl _) (Nat.le_refl _) (Nat.le_succ _))

theorem settle {id : Nat} {state : PromiseState} {value : Value}
    {queue skipped : List Waiter} (hs : m.Settles id state value queue skipped m') :
    Kept created (passed ++ skipped.map (·.key)) m' := by
  obtain ⟨ps, log, hc, rfl⟩ := hs.cascade
  constructor
  case promises =>
    refine hc.forall_promises (.new created state value) fun p hp => ?_
    rcases mem_modify hp with hold | ⟨_, _, rfl⟩
    · exact h.promises p hold
    · exact .new created state value
  case nodup => exact h.nodup
  case perm =>
    -- who was waiting is queued, passed over or still waiting
    refine List.perm_iff_count.2 fun j => ?_
    have hcount := h.perm.count_eq j
    have hcascade := (hc.perm.map (·.key)).count_eq j
    have hwaiters := ((allWaiters_perm m.promises id state value).map (·.key)).count_eq j
    have htasks : ((m.released state value ps queue).logged log).queuedKeys =
        m.queuedKeys ++ queue.map (·.key) := by
      simp [queuedKeys, Machine.released, Machine.logged]
    rw [htasks]
    change List.count j ((allWaiters ps).map _ ++ _) = _
    change List.count j ((allWaiters m.promises).map _ ++ _) = _ at hcount
    simp only [List.count_append, List.map_append] at hcount hcascade hwaiters ⊢
    omega
  case used =>
    have hsize : m.promises.size = ps.size := by rw [hc.size_eq, settledAt, Array.size_modify]
    exact fun key hkey =>
      (h.used key hkey).mono (Nat.le_refl _) (Nat.le_of_eq hsize) (Nat.le_add_right _ _)

end

end Kept

variable {passed : List TaskKey}

/-- A change keeps the books of tasks in balance. -/
theorem Change.kept {created' passed' : List TaskKey} (hc : Change m created' passed' m')
    (h : Kept created passed m) : Kept (created ++ created') (passed ++ passed') m' := by
  cases hc with
  | quiet hpromises htasks hcount hcalls =>
    have hconts := congrArg List.length hcalls
    simp only [suspendedCalls, List.length_map, Array.length_toList] at hconts
    simpa using h.of_eq hpromises htasks hcount (Nat.le_of_eq hconts.symm)
  | promise state value => simpa using h.promise state value
  | mark hm =>
    obtain ⟨log, rfl⟩ := Run.enqueue_inv hm
    rw [List.append_nil]
    exact h.queued _ _ none _ _ log rfl (h.nodup_append (Nat.not_succ_le_self _)) (Nat.le_refl _)
  | @suspend _ frame value target k hm =>
    obtain ⟨rfl, hplaced⟩ := Run.suspend_inv hm
    -- the continuation is there before its task is placed
    have hnew : Kept created passed (m.withContinuation frame target) :=
      h.of_eq rfl rfl rfl (by simp [withContinuation])
    rw [List.append_nil]
    exact hnew.placed hplaced (h.nodup_append (Nat.lt_irrefl _))
      (by simp [Waiter.key, Reaction.key, TaskKey.Used, withContinuation])
  | attach hm =>
    obtain ⟨rfl, hplaced⟩ := Run.attach_inv hm
    have hnew := h.promise .pending .undefined
    rw [List.append_nil]
    exact hnew.placed hplaced (h.nodup_append (Nat.lt_irrefl _))
      (by simp [Waiter.key, Reaction.key, TaskKey.Used, withPromise])
  | settle hs =>
    rw [List.append_nil]
    exact h.settle hs

theorem Trail.kept {created passed : List TaskKey} {limit : Nat} {log : Log} {m : Machine}
    (h : (Machine.start limit log).Trail created passed m) : Kept created passed m := by
  induction h with
  | nil => exact .start limit log
  | snoc _ hc ih => exact hc.kept ih

end Machine

/-! ## Every operation is a trail -/

namespace Machine

/-- There is a trail to a state. -/
def On (m0 m : Machine) : Prop := ∃ created passed, m0.Trail created passed m

namespace On

variable {m0 m m' : Machine} {e : Ending}

theorem refl (m : Machine) : m.On m := ⟨[], [], .nil⟩

section

variable (h : m0.On m)

include h

theorem change (hc : m.Change created passed m') : m0.On m' := by
  obtain ⟨created', passed', ht⟩ := h
  exact ⟨_, _, ht.snoc hc⟩

theorem quiet (hpromises : m'.promises = m.promises)
    (htasks : m'.microtasks = m.microtasks) (hcount : m'.microtaskCount = m.microtaskCount)
    (hcalls : m'.suspendedCalls = m.suspendedCalls) : m0.On m' :=
  h.change (.quiet hpromises htasks hcount hcalls)

theorem settle {id : Nat} {state : PromiseState} {value : Value}
    (hs : Run.settle id state value m = .ok () m') : m0.On m' := by
  obtain ⟨queue, passed, hsettles⟩ := settles_of_settle hs
  exact h.change (.settle hsettles)

theorem move (hmove : m.Move m') : m0.On m' := by
  cases hmove with
  | promise state value => exact h.change (.promise state value)
  | mark name state value hm => exact h.change (.mark hm)
  | attach name l callback state receiver hm => exact h.change (.attach hm)
  | _ => exact h.quiet rfl rfl rfl rfl

theorem entered (f : Function) (args : List Value) (line : Nat) (label : String) :
    m0.On ((m.emitted [.highlight line, .push label]).entered f args) := by
  cases hasync : f.isAsync with
  | true =>
    refine (h.change (.promise .pending .undefined)).quiet ?_ rfl rfl rfl
    simp [Machine.entered, Machine.emitted, withPromise, hasync]
  | false =>
    refine h.quiet ?_ rfl rfl rfl
    simp [Machine.entered, Machine.emitted, hasync]

theorem walk (hw : m.Walk tame depth e m') : m0.On m' := by
  induction hw with
  | refl | fail => exact h
  | trans _ _ ih1 ih2 => exact ih2 (ih1 h)
  | move hmove => exact h.move hmove
  | slip => exact h.quiet rfl rfl rfl rfl
  | within _ _ ih => exact (ih (h.quiet rfl rfl rfl rfl)).quiet rfl rfl rfl rfl
  | suspend _ _ hs => exact h.change (.suspend hs)
  | defer stmts _ _ ih => exact (ih h).quiet rfl rfl rfl (suspendedCalls_deferred _ _ stmts)
  | skip _ _ ih => exact ih h
  | @call _ _ _ _ f args label line _ _ _ _ _ ih =>
    exact (ih (h.entered f args line label)).quiet rfl rfl rfl rfl
  | @settled _ m m' _ f args label line _ log _ _ _ _ hs ih =>
    have hpopped : m0.On (((m'.back m).emitted [.pop]).logged log) :=
      (ih (h.entered f args line label)).quiet rfl rfl rfl rfl
    exact hpopped.settle hs
  | @cut _ _ _ _ f args label line _ _ ih =>
    exact (ih (h.entered f args line label)).quiet rfl rfl rfl rfl

theorem serves {t : Microtask} (hs : m.Serves tame t e m') : m0.On m' := by
  have hresumed {depth : Nat} {c : Continuation} {label : String} {e : Ending} {m1 : Machine}
      (hw : ((m.resumed c).emitted [.push label]).Walk tame depth e m1) : m0.On m1 := by
    have hpushed : m0.On ((m.resumed c).emitted [.push label]) := h.quiet rfl rfl rfl rfl
    exact hpushed.walk hw
  cases hs with
  | mark => exact h
  | link _ hw hs => exact (h.walk hw).settle hs
  | linkFailed _ hw => exact h.walk hw
  | rejected log _ _ hs =>
    have hlogged : m0.On (m.logged log) := h.quiet rfl rfl rfl rfl
    exact hlogged.settle hs
  | abandoned | stuck => exact h.quiet rfl rfl rfl rfl
  | cut _ _ hw => exact (hresumed hw).quiet rfl rfl rfl rfl
  | resumed _ _ _ hw => exact (hresumed hw).quiet rfl rfl rfl rfl
  | @finished _ _ _ _ m1 _ log _ _ hw _ _ hs =>
    have hpopped : m0.On (((m1.back m).emitted [.pop]).logged log) :=
      (hresumed hw).quiet rfl rfl rfl rfl
    exact hpopped.settle hs

end

end On

/-- Every part of a run goes along a trail. -/
theorem passes_on (m0 : Machine) : Run.Passes fun m m' => m0.On m → m0.On m' where
  refl _ h := h
  trans h1 h2 h := h2 (h1 h)
  code hcode h := by
    obtain ⟨_, _, hw⟩ := hcode.walk
    exact h.walk hw
  cut _ _ h := h.quiet rfl rfl rfl rfl
  turn log _ _ h := by
    obtain ⟨_, hs⟩ := (@Run.runMicrotask_serves false _ _ (by simp)).final
    refine On.serves ?_ hs
    exact h.quiet rfl rfl rfl rfl
  take _ _ _ _ _ _ h := h.quiet rfl rfl rfl rfl

/-! ## No task is lost -/

/-- In a state that keeps its tasks, settling a promise queues the waiters to which the settlement
    applies, in order, and settles the promises of all that it passes over in the same way. -/
theorem Settles.spec {queue skipped : List Waiter} (h : Kept created passed m)
    (hs : m.Settles id state value queue skipped m') :
    (∃ n, m'.microtasks.toList = m.microtasks.toList ++ tasksOf state value n queue) ∧
    ((waitersAt m.promises id).filter (·.reaction.runs state)).Sublist queue ∧
    ((waitersAt m.promises id).filter (!·.reaction.runs state)).Sublist skipped ∧
    ∀ w ∈ skipped, ∃ l callback derived, w.reaction = .link l callback derived ∧
      l.runs state = false ∧ m'.promises[derived]? = some { state, value } := by
  obtain ⟨ps, log, hc, rfl⟩ := hs.cascade
  refine ⟨⟨m.microtaskCount, by simp [Machine.released, Machine.logged]⟩,
    hc.filter_sublist_queue, hc.filter_sublist_passed, hc.settled_of_passed ?_⟩
  intro w hw l callback derived hlink
  rw [settledAt, Array.size_modify]
  -- every waiter has a key in the ledger, and the number in it was given out
  have hmem : w ∈ allWaiters m.promises := (allWaiters_perm m.promises id state value).mem_iff.2 hw
  have hkey : w.key ∈ created :=
    h.perm.subset (List.mem_append_left _ (List.mem_map_of_mem hmem))
  have hused := h.used w.key hkey
  rw [Waiter.key, hlink] at hused
  exact hused

end Machine

/-- The kinds of tasks that wait for a promise. -/
theorem Reaction.kind_ne_settle (r : Reaction) : r.kind ≠ "settle" := by
  cases r with
  | resume k => simp [Reaction.kind]
  | link l callback derived => cases l <;> simp [Reaction.kind, Link.method]

/-- No task is lost, and none is there twice.  Every run of operations is a trail of changes, which
    lists the tasks that were made and those that were passed over.  In every state on a trail, a
    promise that is settled has no waiters; the tasks that were made are all different, and each
    waits for a promise, is in the queue, or was passed over; none that waits is of the kind that
    only marks a settlement.  Settling a promise never fails.  It queues those of the waiters to
    which it applies, in the order in which they were parked, which is the order in which they were
    made, and passes over the other ones; the promise of a link that is passed over is settled in
    the same state with the same value. -/
theorem tasks_in_one_place (limit : Nat) (log : Log) :
    (∀ ops : List Operation, ∃ created passed, (Machine.start limit log).Trail created passed
      (ops.foldl Machine.after (Machine.start limit log))) ∧
    ∀ created passed m, (Machine.start limit log).Trail created passed m →
      (∀ p ∈ m.promises, p.state ≠ .pending → p.waiters = []) ∧
      (created.Nodup ∧ (m.parkedKeys ++ (m.queuedKeys ++ passed)).Perm created) ∧
      (∀ w ∈ allWaiters m.promises, w.reaction.kind ≠ "settle") ∧
      (∀ id, ((waitersAt m.promises id).map (·.key)).Sublist created) ∧
      ∀ id state value, (∃ m' queue skipped, m.Settles id state value queue skipped m') ∧
        ∀ m' queue skipped, m.Settles id state value queue skipped m' →
          (∃ n, m'.microtasks.toList = m.microtasks.toList ++ tasksOf state value n queue) ∧
          ((waitersAt m.promises id).filter (·.reaction.runs state)).Sublist queue ∧
          ((waitersAt m.promises id).filter (!·.reaction.runs state)).Sublist skipped ∧
          ∀ w ∈ skipped, ∃ l callback derived, w.reaction = .link l callback derived ∧
            l.runs state = false ∧ m'.promises[derived]? = some { state, value } := by
  refine ⟨fun ops => (Machine.passes_on _).afterAll ops _ (.refl _), fun created passed m h => ?_⟩
  have hkept := h.kept
  refine ⟨fun p hp => (hkept.promises p hp).settled, ⟨hkept.nodup, hkept.perm⟩,
    fun w _ => w.reaction.kind_ne_settle, fun id => ?_, fun id state value => ⟨?_, ?_⟩⟩
  · rw [waitersAt]
    cases hp : m.promises[id]? with
    | none => exact List.nil_sublist _
    | some p => exact (hkept.promises p (Array.mem_of_getElem? hp)).order
  · obtain ⟨ps, queue, skipped, log', _, hs⟩ := Run.settle_cascade id state value m
    obtain ⟨queue, skipped, hsettles⟩ := Machine.settles_of_settle hs
    exact ⟨_, queue, skipped, hsettles⟩
  · exact fun m' queue skipped hs => hs.spec hkept

/-- A link that waits for a call of an async function is passed over, since the call ends in a
    rejection; the one behind it is queued. -/
theorem tasks_in_one_place_rejected :
    let source := "async function f() { await Promise.reject(1) }\nf().then(v => 2).catch(v => 3)"
    let m := [Operation.generate (some source)].foldl Machine.after (Machine.start 100 {})
    m.parkedKeys = [] ∧ m.queuedKeys = [.resume 0, .link 3] ∧
    ∃ created passed, (Machine.start 100 {}).Trail created passed m ∧ created.Nodup ∧
      (m.parkedKeys ++ (m.queuedKeys ++ passed)).Perm created := by
  refine ⟨by decide +kernel, by decide +kernel, ?_⟩
  obtain ⟨created, passed, htrail⟩ := (tasks_in_one_place 100 {}).1 [.generate (some
    "async function f() { await Promise.reject(1) }\nf().then(v => 2).catch(v => 3)")]
  obtain ⟨_, ⟨hnodup, hperm⟩, _⟩ := (tasks_in_one_place 100 {}).2 created passed _ htrail
  exact ⟨created, passed, htrail, hnodup, hperm⟩

end EventLoop
