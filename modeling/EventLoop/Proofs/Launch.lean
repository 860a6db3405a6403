/-
  A statement that is a promise chain puts the chain on its way.

  The chain starts at a promise that is settled.  Links that do not apply in the state that the
  chain says are left out, as long as the chain is followed down; all others are attached (`Thins`).
  The first link that is attached is queued, and each of the others waits for the promise of the one
  before it (`Spun`, `spun_linked`).  So the chain is afloat when its statement has run
  (`Spun.afloat`), and the statements behind it leave it so (`afloat_execAll`).
-/
import EventLoop.Proofs.Relay

namespace EventLoop

open Script

variable {m m' : Machine} {depth : Nat} {source : Option String} {own : Nat → Bool}

/-! ## Links that are left out -/

/-- Some links of a chain are left out, each of which does not apply in the state that the chain
    has there. -/
inductive Thins : PromiseState → List LinkCall → List LinkCall → Prop
  | nil (state : PromiseState) : Thins state [] []
  | keep {state : PromiseState} {k : LinkCall} {ks ks' : List LinkCall}
      (h : Thins (chainState state [k.link]) ks ks') : Thins state (k :: ks) (k :: ks')
  | drop {state : PromiseState} {k : LinkCall} {ks ks' : List LinkCall}
      (hruns : k.link.runs state = false) (h : Thins state ks ks') : Thins state (k :: ks) ks'

namespace Thins

variable {state : PromiseState} {ks ks' : List LinkCall}

theorem chainState_drop {state : PromiseState} {k : LinkCall} (hruns : k.link.runs state = false)
    (ks : List LinkCall) :
    chainState state ((k :: ks).map (·.link)) = chainState state (ks.map (·.link)) :=
  calc chainState state ((k :: ks).map (·.link))
      = chainState (chainState state [k.link]) (ks.map (·.link)) := rfl
    _ = chainState state (ks.map (·.link)) := by rw [chainState_of_not_runs hruns]

theorem chainState_eq (h : Thins state ks ks') :
    chainState state (ks.map (·.link)) = chainState state (ks'.map (·.link)) := by
  induction h with
  | nil => rfl
  | keep _ ih => exact ih
  | drop hruns _ ih => rw [chainState_drop hruns, ih]

theorem snoc_keep (h : Thins state ks ks') (k : LinkCall) :
    Thins state (ks ++ [k]) (ks' ++ [k]) := by
  induction h with
  | nil state => exact .keep (.nil _)
  | keep _ ih => exact .keep ih
  | drop hruns _ ih => exact .drop hruns ih

theorem snoc_drop (h : Thins state ks ks') {k : LinkCall}
    (hruns : k.link.runs (chainState state (ks.map (·.link))) = false) :
    Thins state (ks ++ [k]) ks' := by
  induction h with
  | nil state => exact .drop hruns (.nil state)
  | keep _ ih => exact .keep (ih hruns)
  | drop hruns' _ ih =>
    rw [chainState_drop hruns'] at hruns
    exact .drop hruns' (ih hruns)

end Thins

/-! ## Links that are attached -/

/-- The reaction of a link that is attached. -/
def LinkCall.waiter (k : LinkCall) (scope : Scope) (derived : Nat) : Waiter :=
  { name := "Promise." ++ k.link.method, scope, reaction := .link k.link k.args.head? derived }

/-- The reactions of links that are attached one after the other, with promises from a number on. -/
def strung (scope : Scope) : Nat → List LinkCall → List Waiter
  | _, [] => []
  | a, k :: ks => k.waiter scope a :: strung scope (a + 1) ks

section

variable {scope : Scope} {a : Nat} {ks : List LinkCall}

@[simp] theorem length_strung : (strung scope a ks).length = ks.length := by
  induction ks generalizing a with
  | nil => rfl
  | cons k ks ih => rw [strung, List.length_cons, ih, List.length_cons]

theorem strung_snoc (k : LinkCall) :
    strung scope a (ks ++ [k]) = strung scope a ks ++ [k.waiter scope (a + ks.length)] := by
  induction ks generalizing a with
  | nil => rfl
  | cons k' ks ih =>
    have hlast : a + 1 + ks.length = a + (ks.length + 1) := by omega
    rw [List.cons_append, strung, ih, strung, List.cons_append, List.length_cons, hlast]

end

/-- Whether a number is between two others. -/
def between (a b i : Nat) : Bool := a ≤ i && i < b

theorem between_eq_true {a b i : Nat} : between a b i = true ↔ a ≤ i ∧ i < b := by
  rw [between, Bool.and_eq_true, decide_eq_true_eq, decide_eq_true_eq]

namespace Machine

theorem Walk.cursor_le_size {tame : Bool} {e : Ending} (h : m.Walk tame depth e m')
    (hm : m.cursor ≤ m.microtasks.size) : m'.cursor ≤ m'.microtasks.size := by
  rw [h.grows.cursor]
  exact Nat.le_trans hm (size_le_of_append h.grows.microtasks)

/-- Whether a promise is made between two states, by its number. -/
def madeBetween (m m' : Machine) : Nat → Bool := between m.promises.size m'.promises.size

/-- From `m` to `m'`, a promise was made that is settled, and links were attached to it one after
    the other.  The first of them is in the queue, behind the marks of promises, and each of the
    others waits for the promise of the one before it. -/
structure Spun (m : Machine) (state : PromiseState) (value : Value) (ks : List LinkCall)
    (m' : Machine) : Prop where
  scope : m'.scope = m.scope
  frames : m'.frames = m.frames
  continuations : m'.continuations = m.continuations
  cursor : m'.cursor = m.cursor
  rootState : m'.rootState = state
  size : m'.promises.size = m.promises.size + 1 + ks.length
  old : ∀ i < m.promises.size, m'.promises[i]? = m.promises[i]?
  root : m'.promises[m.promises.size]? = some { state, value }
  new : ∀ j < ks.length, m'.promises[m.promises.size + 1 + j]? = some
    { state := .pending, waiters := (strung m.scope (m.promises.size + 1) ks)[j + 1]?.toList }
  microtasks : ∃ marks n, m'.microtasks.toList = m.microtasks.toList ++ marks ++
      tasksOf state value n (strung m.scope (m.promises.size + 1) ks).head?.toList ∧
    ∀ t ∈ marks, t.derived = []

namespace Spun

variable {m m' m'' : Machine} {state : PromiseState} {value : Value} {ks : List LinkCall}

section

variable (h : m.Spun state value ks m')

include h

theorem shown (l : List Step) (log : Log) : m.Spun state value ks ((m'.emitted l).logged log) :=
  { h with }

/-- The promise at the end of the chain: the one it starts with, or one that is pending. -/
theorem end_state : (promiseAt m'.promises (m.promises.size + ks.length)).state =
      if ks = [] then state else .pending := by
  cases ks with
  | nil =>
    rw [promiseAt, List.length_nil, Nat.add_zero, h.root]
    rfl
  | cons k ks =>
    have hlast : m.promises.size + (k :: ks).length = m.promises.size + 1 + ks.length := by
      rw [List.length_cons]
      omega
    rw [promiseAt, hlast, h.new ks.length (Nat.lt_succ_self _)]
    rfl

omit h in
/-- The first link is queued at once, as the promise it is behind has settled. -/
theorem first (h : m.Spun state value [] m') (k : LinkCall) (log : Log) : m.Spun state value [k]
      (((m'.withPromise .pending .undefined).queued ("Promise." ++ k.link.method) m'.scope
        (some (.link k.link k.args.head? m'.promises.size)) state value).logged log) := by
  have hsize : m'.promises.size = m.promises.size + 1 := h.size
  have hpush (i : Nat) (hi : i < m'.promises.size) :
      (m'.promises.push { state := .pending })[i]? = m'.promises[i]? := by
    rw [Array.getElem?_push, if_neg (Nat.ne_of_lt hi)]
  obtain ⟨marks, n, htasks, hmarks⟩ := h.microtasks
  constructor
  case size =>
    change (m'.promises.push _).size = _
    rw [Array.size_push, hsize]
    rfl
  case old => exact fun i hi => (hpush i (by omega)).trans (h.old i hi)
  case root => exact (hpush _ (by omega)).trans h.root
  case new =>
    intro j hj
    obtain rfl : j = 0 := Nat.lt_one_iff.1 hj
    change (m'.promises.push _)[_]? = _
    rw [Array.getElem?_push, if_pos (by omega)]
    rfl
  case microtasks =>
    refine ⟨marks, m'.microtaskCount, ?_, hmarks⟩
    change (m'.microtasks.push _).toList = _
    rw [Array.toList_push, htasks, h.scope, hsize]
    exact congrArg (· ++ _) (List.append_nil _)
  all_goals first | exact h.scope | exact h.frames | exact h.continuations | exact h.cursor |
    exact h.rootState

/-- A further link is parked at the promise of the last one. -/
theorem next (hks : ks ≠ []) (k : LinkCall) (log : Log) : m.Spun state value (ks ++ [k])
      (((m'.withPromise .pending .undefined).parked (m.promises.size + ks.length)
        (k.waiter m'.scope m'.promises.size)).logged log) := by
  have hlen := List.length_pos_of_ne_nil hks
  have hsize := h.size
  have hlength : (ks ++ [k]).length = ks.length + 1 := by simp
  have hstrung := @strung_snoc m.scope (m.promises.size + 1) ks k
  -- what becomes of a promise
  have hget (i : Nat) : (((m'.withPromise .pending .undefined).parked (m.promises.size + ks.length)
      (k.waiter m'.scope m'.promises.size)).logged log).promises[i]? =
      if m.promises.size + ks.length = i then
        ((m'.promises.push { state := .pending })[i]?).map fun p =>
          { p with waiters := p.waiters ++ [k.waiter m.scope (m.promises.size + 1 + ks.length)] }
      else (m'.promises.push { state := .pending })[i]? := by
    change ((m'.promises.push _).modify _ _)[i]? = _
    rw [Array.getElem?_modify, h.scope, hsize]
  constructor
  case size =>
    change ((m'.promises.push _).modify _ _).size = _
    rw [Array.size_modify, Array.size_push, hsize, hlength]
    rfl
  case old =>
    intro i hi
    rw [hget, if_neg (by omega), Array.getElem?_push, if_neg (by omega), h.old i hi]
  case root => rw [hget, if_neg (by omega), Array.getElem?_push, if_neg (by omega), h.root]
  case new =>
    intro j hj
    rw [hlength] at hj
    rw [hget, hstrung, Array.getElem?_push]
    by_cases hlast : j = ks.length
    · -- the promise of the new link
      subst hlast
      rw [if_neg (by omega), if_pos hsize.symm, List.getElem?_eq_none (by simp)]
      rfl
    · rw [if_neg (by omega : ¬ m.promises.size + 1 + j = m'.promises.size), h.new j (by omega)]
      by_cases hbefore : j + 1 = ks.length
      · -- the promise that the new link waits for
        rw [if_pos (by omega), List.getElem?_eq_none (by rw [length_strung]; omega),
          List.getElem?_append_right (by rw [length_strung]; omega), length_strung, hbefore,
          Nat.sub_self]
        rfl
      · rw [if_neg (by omega), List.getElem?_append_left (by rw [length_strung]; omega)]
  case microtasks =>
    obtain ⟨marks, n, htasks, hmarks⟩ := h.microtasks
    refine ⟨marks, n, ?_, hmarks⟩
    rw [hstrung, List.head?_append_of_ne_nil]
    · exact htasks
    · rw [← List.length_pos_iff, length_strung]
      exact hlen
  all_goals first | exact h.scope | exact h.frames | exact h.continuations | exact h.cursor |
    exact h.rootState

/-- One more link is attached, the first or a further one. -/
theorem attach (hstate : state ≠ .pending) (k : LinkCall)
    {found : PromiseState} (hfirst : ks = [] → found = state) {derived : Nat}
    (hattach : Run.attach ("Promise." ++ k.link.method) k.link k.args.head? found
      (.promise (m.promises.size + ks.length)) m' = .ok derived m'') :
    derived = m.promises.size + (ks ++ [k]).length ∧ m.Spun state value (ks ++ [k]) m'' := by
  have hsize := h.size
  obtain ⟨rfl, log, hcases⟩ := Run.attach_promise hattach
  refine ⟨by rw [hsize, List.length_append, List.length_singleton]; omega, ?_⟩
  -- the receiver is not the promise that is new
  have hpromise : promiseAt (m'.withPromise .pending .undefined).promises
      (m.promises.size + ks.length) = promiseAt m'.promises (m.promises.size + ks.length) := by
    rw [promiseAt, withPromise, Array.getElem?_push, if_neg (by omega), promiseAt]
  have hend := h.end_state
  rw [← hpromise] at hend
  by_cases hks : ks = []
  · subst hks
    rw [if_pos rfl] at hend
    rcases hcases with ⟨hpending, _⟩ | ⟨_, rfl⟩
    · exact absurd (hend.symm.trans hpending) hstate
    · have hvalue : (promiseAt (m'.withPromise .pending .undefined).promises
          (m.promises.size + ([] : List LinkCall).length)).value = value := by
        rw [hpromise, promiseAt, List.length_nil, Nat.add_zero, h.root]
        rfl
      rw [hvalue, hfirst rfl]
      exact h.first k log
  · rw [if_neg hks] at hend
    rcases hcases with ⟨_, rfl⟩ | ⟨hsettled, _⟩
    · exact h.next hks k log
    · exact absurd hend hsettled

omit h in
theorem strand {own : Nat → Bool} {ps : Array Promise} {scope : Scope} {a : Nat}
    {ks : List LinkCall} (hown : ∀ j < ks.length, own (a + j) = true)
    (hps : ∀ j < ks.length, ps[a + j]? = some
      { state := .pending, waiters := (strung scope a ks)[j + 1]?.toList }) :
    Strand own ps a (strung scope a ks) := by
  induction ks generalizing a with
  | nil => exact .nil a
  | cons k ks ih =>
    have hshift (j : Nat) : a + 1 + j = a + (j + 1) := by omega
    have hrest : Strand own ps (a + 1) (strung scope (a + 1) ks) := by
      refine ih (fun j hj => ?_) fun j hj => ?_
      · rw [hshift]
        exact hown (j + 1) (Nat.succ_lt_succ hj)
      · rw [hshift, hps (j + 1) (Nat.succ_lt_succ hj), strung, List.getElem?_cons_succ]
    have hwaiters : (strung scope a (k :: ks))[0 + 1]?.toList =
        (strung scope (a + 1) ks).head?.toList ++ [] := by
      rw [List.append_nil, strung, List.getElem?_cons_succ, List.head?_eq_getElem?]
    exact .cons rfl (hown 0 (Nat.succ_pos _)) (hps 0 (Nat.succ_pos _)) rfl hwaiters (by simp)
      hrest

/-- A chain that was spun is afloat, as its first link applies. -/
theorem afloat (hm : m.Bounded) (hcursor : m.cursor ≤ m.microtasks.size)
    (hruns : ∀ k ∈ ks.head?, k.link.runs state = true) : ∃ i, m.microtasks.size ≤ i ∧
      m'.Afloat (madeBetween m m') (strung m.scope (m.promises.size + 1) ks) state value i := by
  have hsize := h.size
  have hown (d : Nat) : madeBetween m m' d = true ↔
      m.promises.size ≤ d ∧ d < m.promises.size + 1 + ks.length := by
    rw [madeBetween, between_eq_true, hsize]
  have hforeign {d : Nat} (hd : d < m.promises.size) : madeBetween m m' d = false := by
    rw [← Bool.not_eq_true, hown]
    omega
  obtain ⟨marks, n, htasks, hmarks⟩ := h.microtasks
  -- nothing in front of the first link is of the chain
  have hfront : ∀ t ∈ m.microtasks.toList ++ marks, t.isOf (madeBetween m m') = false := by
    intro t ht
    rw [Microtask.isOf_eq_false]
    rcases List.mem_append.1 ht with ht | ht
    · exact fun d hd => hforeign (hm.tasks t ht d hd)
    · rw [hmarks t ht]
      simp
  have hcalls : m'.callPromises = m.callPromises := by
    rw [callPromises, suspendedCalls, h.frames, h.continuations]
    rfl
  have hle : m.microtasks.size ≤ (m.microtasks.toList ++ marks).length := by simp
  refine ⟨(m.microtasks.toList ++ marks).length, hle, ?_⟩
  constructor
  case shielded =>
    refine ⟨fun i hi => hforeign (hm.calls i (hcalls ▸ hi)), fun i hi w hw => ?_, fun i hi => ?_⟩
    · by_cases hlt : i < m.promises.size
      · rw [waitersAt, h.old i hlt] at hw
        exact fun d hd => hforeign (hm.waiters w (mem_waitersAt hw) d hd)
      · -- a promise of others with such a number was not made
        have hnone : m'.promises[i]? = none := by
          refine Array.getElem?_eq_none ?_
          rw [← Bool.not_eq_true, hown] at hi
          omega
        rw [waitersAt, hnone] at hw
        cases hw
    · rw [hown] at hi
      omega
  case strand =>
    exact ⟨_, strand (fun j hj => (hown _).2 (by omega)) h.new⟩
  case queued =>
    intro w hw
    cases ks with
    | nil => cases hw
    | cons k ks =>
      cases hw
      refine ⟨by rw [h.cursor]; exact Nat.le_trans hcursor hle, hruns k rfl,
        ⟨n + 1, "Promise." ++ k.link.method, m.scope, some (.link k.link k.args.head?
          (m.promises.size + 1)), state, value⟩, ?_, rfl, rfl, rfl⟩
      rw [← Array.getElem?_toList, htasks, List.getElem?_append_right (Nat.le_refl _),
        Nat.sub_self]
      rfl
  case only =>
    intro j t _ ht htask
    rw [← Array.getElem?_toList, htasks, List.getElem?_append] at ht
    split at ht
    · rw [hfront t (List.mem_of_getElem? ht)] at htask
      cases htask
    · cases ks with
      | nil => cases ht
      | cons k ks =>
        refine ⟨?_, List.cons_ne_nil _ _⟩
        have hlen := (List.getElem?_eq_some_iff.1 ht).1
        change j - _ < 1 at hlen
        omega

end

end Spun

end Machine

/-! ## Evaluation of a chain -/

/-- The state of the promise that a call makes of a value that is no promise. -/
def Maker.state : Maker → PromiseState
  | .reject => .rejected
  | .resolve | .all => .fulfilled

namespace Run

open Machine

variable {c : WrittenChain} {call : Invoke} {outcome : Outcome} {ks : List LinkCall}

/-- A link finds the end of the chain pending, or in the state that the chain says. -/
theorem receiverState_spun {root : Expr} (hroot : root.MakesPromise) {as : List LinkCall}
    {state : PromiseState} {value : Value} (hthins : Thins state ks as)
    (hspun : m.Spun state value as m') (k : LinkCall) :
    ∃ found, receiverState (.member (linked root ks) k.link.method k.memberLine)
        (.promise (m.promises.size + as.length)) m' = .ok found m' ∧
      (found = .pending ∧ as ≠ [] ∨ found = chainState state (ks.map (·.link))) := by
  by_cases hlen : ks.length < maxChainHops
  · have hchain : chainBelow maxChainHops (.member (linked root ks) k.link.method k.memberLine) =
        some ⟨root, ks.map (·.link)⟩ := by
      rw [chainBelow, chainFrom_linked hroot, if_pos hlen, List.append_nil]
    refine ⟨_, receiverState_of_chain hchain _ m', .inr ?_⟩
    rw [hspun.rootState]
  · have hchain : chainBelow maxChainHops (.member (linked root ks) k.link.method k.memberLine) =
        none := by
      rw [chainBelow, chainFrom_linked hroot, if_neg hlen]
    refine ⟨_, receiverState_of_long hchain _ m', ?_⟩
    rw [hspun.end_state]
    by_cases has : as = []
    · subst has
      rw [if_pos rfl, hthins.chainState_eq]
      exact .inr rfl
    · rw [if_neg has]
      exact .inl ⟨rfl, has⟩

/-- A call that makes a promise of a value that is no promise: the promise is new and settled. -/
theorem spun_root {consumed : Bool} (hall : c.maker ≠ .all) {v : Value}
    (h : eval (invoke depth) consumed c.root m = .ok v m') :
    ∃ log vs mv, evalAll (invoke depth) c.args (m.logged log) = .ok vs mv ∧
      ((vs.headD .undefined).promise? = none → v = .promise mv.promises.size ∧
        mv.Spun c.maker.state (vs.headD .undefined) [] m') := by
  simp only [WrittenChain.root, eval, c.shape] at h
  obtain ⟨_, m1, hnote, h⟩ := bind_eq_ok h
  obtain ⟨vs, mv, hargs, hmake⟩ := bind_eq_ok h
  cases hnote
  refine ⟨_, vs, mv, hargs, fun hv => ?_⟩
  have h : makePromise c.maker consumed vs c.line mv = .ok v m' := hmake
  rw [makePromise] at h
  obtain ⟨_, m2, hemit, h⟩ := bind_eq_ok h
  obtain ⟨log, rfl⟩ := emitAll_ok hemit
  -- a promise would be taken over as it is, but the value is none
  have hmade (m : Machine) : made c.maker (vs.headD .undefined) m =
      newPromise c.maker.state (vs.headD .undefined) m := by
    cases hmaker : c.maker with
    | reject => rfl
    | all => exact absurd hmaker hall
    | resolve =>
      cases hvalue : vs.headD .undefined with
      | promise id =>
        rw [hvalue] at hv
        cases hv
      | _ => rfl
  obtain ⟨id, m3, hnew, h⟩ := bind_eq_ok h
  rw [hmade] at hnew
  cases hnew
  obtain ⟨p, m4, hp, h⟩ := bind_eq_ok h
  obtain ⟨_, m5, hroot, h⟩ := bind_eq_ok h
  have hpromise : p = { state := c.maker.state, value := vs.headD .undefined } := by
    rw [promiseOf_apply] at hp
    cases hp
    simp [promiseAt, Machine.emitted, Machine.logged]
  cases hp
  cases hroot
  rw [hpromise] at h
  -- a microtask that only marks the promise is of no link
  have hspun {m' : Machine} (hpromises : m'.promises = mv.promises.push
      { state := c.maker.state, value := vs.headD .undefined }) (hscope : m'.scope = mv.scope)
      (hframes : m'.frames = mv.frames) (hconts : m'.continuations = mv.continuations)
      (hcursor : m'.cursor = mv.cursor) (hrootState : m'.rootState = c.maker.state)
      (htasks : ∃ marks, m'.microtasks.toList = mv.microtasks.toList ++ marks ∧
        ∀ t ∈ marks, t.derived = []) :
      mv.Spun c.maker.state (vs.headD .undefined) [] m' := by
    obtain ⟨marks, htasks, hmarks⟩ := htasks
    refine ⟨hscope, hframes, hconts, hcursor, hrootState, ?_, fun i hi => ?_, ?_, by simp, marks, 0,
      ?_, hmarks⟩
    · rw [hpromises, Array.size_push]
      rfl
    · rw [hpromises, Array.getElem?_push, if_neg (Nat.ne_of_lt hi)]
    · rw [hpromises, Array.getElem?_push, if_pos rfl]
    · rw [htasks]
      exact (List.append_nil _).symm
  split at h
  · cases h
    exact ⟨rfl, hspun rfl rfl rfl rfl rfl rfl ⟨_, Array.toList_push, by simp [Microtask.derived]⟩⟩
  · cases h
    exact ⟨rfl, hspun rfl rfl rfl rfl rfl rfl ⟨[], (List.append_nil _).symm, by simp⟩⟩

/-- A chain is evaluated: the call that it starts with, and then the links, some of which are left
    out. -/
theorem spun_linked {consumed : Bool} (hall : c.maker ≠ .all) {v : Value}
    (h : eval (invoke depth) consumed (linked c.root ks) m = .ok v m') :
    ∃ log vs mv, evalAll (invoke depth) c.args (m.logged log) = .ok vs mv ∧
      ((vs.headD .undefined).promise? = none → ∃ as,
        v = .promise (mv.promises.size + as.length) ∧ Thins c.maker.state ks as ∧
        (∀ k ∈ as.head?, k.link.runs c.maker.state = true) ∧
        mv.Spun c.maker.state (vs.headD .undefined) as m') := by
  have hstate : c.maker.state ≠ .pending := by
    cases c.maker <;> exact PromiseState.noConfusion
  induction ks using List.reverseRecOn generalizing m m' v consumed with
  | nil =>
    obtain ⟨log, vs, mv, hargs, hroot⟩ := spun_root hall h
    refine ⟨log, vs, mv, hargs, fun hv => ?_⟩
    obtain ⟨rfl, hspun⟩ := hroot hv
    exact ⟨[], rfl, .nil _, by simp, hspun⟩
  | append_singleton ks k ih =>
    rw [linked_snoc] at h
    obtain ⟨log, hbehind⟩ := eval_behind (invoke depth) consumed k (linked c.root ks) m
    rw [hbehind] at h
    obtain ⟨receiver, m1, heval, h⟩ := bind_eq_ok h
    obtain ⟨log', vs, mv, hargs, ih⟩ := ih heval
    refine ⟨log', vs, mv, hargs, fun hv => ?_⟩
    obtain ⟨as, rfl, hthins, hruns, hspun⟩ := ih hv
    obtain ⟨found, hfound, hcases⟩ := receiverState_spun c.root_makesPromise hthins hspun k
    rcases addLink_cases hfound h with ⟨hsettled, hskip, rfl, log'', rfl⟩ |
      ⟨hattached, shown, log'', derived, rfl, hattach⟩
    · -- the link is left out
      have hchain := hcases.resolve_left fun hpending => hsettled hpending.1
      rw [hchain] at hskip
      have hshown := hspun.shown [] log''
      rw [emitted_nil] at hshown
      exact ⟨as, rfl, hthins.snoc_drop hskip, hruns, hshown⟩
    · -- the link is attached, and it is the first one only if it applies
      have hfirst (has : as = []) : found = c.maker.state := by
        subst has
        rcases hcases with ⟨_, hne⟩ | hchain
        · exact absurd rfl hne
        · rw [hchain, hthins.chainState_eq]
          rfl
      obtain ⟨rfl, hspun'⟩ := (hspun.shown shown log'').attach hstate k hfirst hattach
      refine ⟨as ++ [k], rfl, hthins.snoc_keep k, fun k' hk' => ?_, hspun'⟩
      by_cases has : as = []
      · rw [hfirst has] at hattached
        subst has
        cases hk'
        exact hattached.resolve_left hstate
      · rw [List.head?_append_of_ne_nil _ has] at hk'
        exact hruns k' hk'

/-! ## Statements -/

theorem exec_chain {line : Nat} (h : exec call (.expr c.expr line) m = .ok outcome m') :
    outcome = .completed ∧ ∃ v, eval call false c.expr m = .ok v m' := by
  obtain ⟨callee, args, callLine, hcall⟩ := c.expr_eq_call
  rw [hcall] at h ⊢
  simp only [exec, execExpr, evalAwaiting] at h
  obtain ⟨awaited, m1, hvalue, h⟩ := bind_eq_ok h
  obtain ⟨v, m2, heval, hpure⟩ := bind_eq_ok hvalue
  cases hpure
  cases h
  exact ⟨rfl, v, heval⟩

/-- A statement that is a chain over a value that is no promise puts the chain on its way. -/
theorem launch (hall : c.maker ≠ .all) {line : Nat} (hm : m.Bounded)
    (hcursor : m.cursor ≤ m.microtasks.size)
    (h : exec (invoke depth) (.expr c.expr line) m = .ok outcome m') :
    outcome = .completed ∧ ∃ log vs mv, evalAll (invoke depth) c.args (m.logged log) = .ok vs mv ∧
      ((vs.headD .undefined).promise? = none → ∃ as i, Thins c.maker.state c.links as ∧
        m'.promises.size = mv.promises.size + 1 + as.length ∧ m.microtasks.size ≤ i ∧
        m'.Afloat (mv.madeBetween m') (strung mv.scope (mv.promises.size + 1) as) c.maker.state
          (vs.headD .undefined) i) := by
  obtain ⟨rfl, v, heval⟩ := exec_chain h
  obtain ⟨log, vs, mv, hargs, hspun⟩ := spun_linked hall heval
  refine ⟨rfl, log, vs, mv, hargs, fun hv => ?_⟩
  obtain ⟨as, -, hthins, hruns, hspun⟩ := hspun hv
  have hwalk : (m.logged log).Walk false depth .done mv :=
    (evalAll_walks (@invoke_walks false depth) c.args (m.logged log)).walk_of_ok hargs
  have hlogged : (m.logged log).Bounded := ⟨hm.calls, hm.waiters, hm.tasks⟩
  have htasks : m.microtasks.size ≤ mv.microtasks.size := size_le_of_append hwalk.grows.microtasks
  obtain ⟨i, hi, hafloat⟩ := hspun.afloat (hwalk.course.bounded hlogged)
    (hwalk.cursor_le_size hcursor) hruns
  exact ⟨as, i, hthins, hspun.size, Nat.le_trans htasks hi, hafloat⟩

theorem execAll_cons_of_completed {s : Stmt} (rest : List Stmt) {m1 : Machine}
    (h : exec call s m = .ok .completed m1) :
    execAll call (s :: rest) m = execAll call rest m1 := by
  rw [execAll, bind_of_ok h]

theorem execAll_append_of_ok {first rest : List Stmt} {m1 : Machine}
    (h : execAll call first m = .ok .completed m1) :
    execAll call (first ++ rest) m = execAll call rest m1 := by
  induction first generalizing m with
  | nil =>
    cases h
    rfl
  | cons s first ih =>
    rw [execAll] at h
    obtain ⟨outcome, m2, hs, h⟩ := bind_eq_ok h
    cases outcome with
    | completed =>
      rw [List.cons_append, execAll_cons_of_completed _ hs]
      exact ih h
    | returned v => cases h
    | suspended k => cases h

theorem execAll_cons_of_ok {s : Stmt} {rest : List Stmt}
    (h : execAll call (s :: rest) m = .ok outcome m') : ∃ first m1, exec call s m = .ok first m1 ∧
      (first = .completed → execAll call rest m1 = .ok outcome m') := by
  rw [execAll] at h
  obtain ⟨first, m1, hs, h⟩ := bind_eq_ok h
  refine ⟨first, m1, hs, ?_⟩
  rintro rfl
  exact h

theorem afloat_execAll {ws : List Waiter} {state : PromiseState} {value : Value} {i : Nat}
    {stmts : List Stmt} (hm : m.Afloat own ws state value i)
    (h : execAll (invoke depth) stmts m = .ok outcome m') : m'.Afloat own ws state value i := by
  exact hm.walk ((execAll_leads (@invoke_walks false depth) stmts m (by simp)).walk_of_ok h)

/-- Reads a program and binds its functions. -/
def openSource (source : Option String) : Run Program := do
  enter .parse
  let p ← lift (readProgram source)
  enter .synchronousWalk
  hoist p.body
  return p

/-- Reads a program and runs the first statements of it. -/
def walkFirst (n : Nat) (source : Option String) : Run Outcome := do
  let p ← openSource source
  withCalls fun call => execAll call (p.body.take n)

theorem openSource_roams (source : Option String) : Roams tame (openSource source) :=
  (enter_roams _).bind fun _ => (Roams.of_walks fun _ => .lift _).bind fun p =>
    (enter_roams _).bind fun _ => (Roams.of_walks fun _ => hoist_walks p.body).bind fun _ =>
      .of_walks fun _ => .pure p

theorem walkFirst_zero {p : Program} (h : openSource source m = .ok p m') :
    walkFirst 0 source m = .ok .completed m' := by
  rw [walkFirst, bind_of_ok h]
  rfl

theorem openSource_inv {p : Program} (h : openSource source m = .ok p m') :
    readProgram source = .ok p ∧
      walkSource source m = execAll (invoke m'.callBudget) p.body m' := by
  rw [openSource] at h
  obtain ⟨_, m1, hparse, h⟩ := bind_eq_ok h
  obtain ⟨p', m2, hlift, h⟩ := bind_eq_ok h
  obtain ⟨_, m3, henter, h⟩ := bind_eq_ok h
  obtain ⟨_, m4, hhoist, h⟩ := bind_eq_ok h
  cases h
  have hread : readProgram source = .ok p := by
    cases hread : readProgram source with
    | ok p' =>
      rw [hread] at hlift
      cases hlift
      rfl
    | error fault =>
      rw [hread] at hlift
      cases hlift
  refine ⟨hread, ?_⟩
  rw [walkSource, bind_of_ok hparse, bind_of_ok hlift, bind_of_ok henter, runProgram,
    bind_of_ok hhoist]
  rfl

theorem walkFirst_open {n limit : Nat} {log : Log}
    (h : walkFirst n source (Machine.start limit log) = .ok .completed m) :
    ∃ p m1, openSource source (Machine.start limit log) = .ok p m1 ∧
      m1.callBudget = m.callBudget ∧
      execAll (invoke m.callBudget) (p.body.take n) m1 = .ok .completed m ∧
      (Machine.start limit log).Walk false (Machine.start limit log).callBudget .done m := by
  have hwalk : (Machine.start limit log).Walk false (Machine.start limit log).callBudget .done
      m := by
    have hleads : (Machine.start limit log).Leads false (Machine.start limit log).callBudget
        Outcome.ending (walkFirst n source (Machine.start limit log)) :=
      (openSource_roams source).bind_leads fun p m' _ => withCalls_leads fun call hcall =>
        execAll_leads hcall _ m' (by simp)
    exact hleads.walk_of_ok h
  obtain ⟨p, m1, hopen, hfirst⟩ := bind_eq_ok h
  have hframes1 : m1.frames = [] :=
    (((@openSource_roams false source).cases _).2 _ m1 hopen).context.2
  have hframes : m.frames = [] := hwalk.context.2
  have hbudget : m1.callBudget = m.callBudget := callBudget_of_frames (hframes1.trans hframes.symm)
  refine ⟨p, m1, hopen, hbudget, ?_, hwalk⟩
  rw [← hbudget]
  exact hfirst

section

variable {source : Option String} {p : Program} (hread : readProgram source = .ok p)
  {n limit : Nat} {log : Log} {m : Machine}
  (h : walkFirst n source (Machine.start limit log) = .ok .completed m)

include hread h

/-- The first statements of a program take nothing from the queue, and the other ones run after
    them. -/
theorem walkFirst_inv : m.Bounded ∧ m.cursor = 0 ∧ walkSource source (Machine.start limit log) =
      execAll (invoke m.callBudget) (p.body.drop n) m := by
  obtain ⟨p', m1, hopen, hbudget, hfirst, hwalk⟩ := walkFirst_open h
  obtain ⟨hread', hsource⟩ := openSource_inv hopen
  cases hread.symm.trans hread'
  refine ⟨hwalk.course.bounded (.start limit log), hwalk.grows.cursor, ?_⟩
  rw [hsource, hbudget]
  conv_lhs => rw [← List.take_append_drop n p.body]
  exact execAll_append_of_ok hfirst

theorem walkFirst_add {k : Nat}
    (hmore : execAll (invoke m.callBudget) ((p.body.drop n).take k) m = .ok .completed m') :
    walkFirst (n + k) source (Machine.start limit log) = .ok .completed m' := by
  obtain ⟨p', m1, hopen, hbudget, hfirst, _⟩ := walkFirst_open h
  obtain ⟨hread', _⟩ := openSource_inv hopen
  cases hread.symm.trans hread'
  rw [walkFirst, bind_of_ok hopen]
  change execAll (invoke m1.callBudget) (p.body.take (n + k)) m1 = _
  rw [hbudget, List.take_add, execAll_append_of_ok hfirst, hmore]

end

end Run

/-- The turns of some links in a generation, by the numbers of their promises. -/
def Generator.linkServings (g : Generator) (source : Option String) (own : Nat → Bool) :
    List Serving :=
  (g.servings source).filter (·.task.isOf own)

/-- In the turn of a link its callback is called as `Serving.call?` says. -/
theorem Generator.calls_of_succeeded {g : Generator}
    (hsucceeded : (g.generate source).1.succeeded = true) :
    ∀ σ ∈ g.linkServings source own, ∀ r, σ.call? = some r ↔ σ.Calls r := by
  intro σ hσ
  obtain ⟨m, log, hrun, -, -, -⟩ := Generator.generate_succeeded hsucceeded
  rw [linkServings, Generator.servings_of_succeeded hsucceeded] at hσ
  have hwithin := (Run.served_generate source hrun).chain.within.2 σ (List.mem_of_mem_filter hσ)
  exact Serving.call?_iff hwithin.1

/-- Where the later microtasks are not of the links, it is enough to look at the first ones. -/
theorem Generator.linkServings_eq {g : Generator}
    (hsucceeded : (g.generate source).1.succeeded = true) {first later : List Serving}
    (hservings : Run.servings source (Machine.start g.limit g.machine.log) = first ++ later)
    (hlater : ∀ σ ∈ later, σ.task.isOf own = false) :
    g.linkServings source own = first.filter (·.task.isOf own) := by
  have hnone : later.filter (·.task.isOf own) = [] := by
    rw [List.filter_eq_nil_iff]
    intro σ hσ
    rw [hlater σ hσ]
    exact Bool.false_ne_true
  rw [linkServings, Generator.servings_of_succeeded hsucceeded, hservings, List.filter_append,
    hnone, List.append_nil]

end EventLoop
