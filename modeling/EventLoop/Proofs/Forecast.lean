/-
  A link that is passed over when it is added would not apply later, either.

  Behind a call that makes a promise, a link is added or passed over by the state that the chain
  below it says, long before its receiver settles.  A `Forecast` gives to some promises the state in
  which they settle, if they do.  Each advance of a run keeps to it, as long as the `catch` links in
  question find functions when they have their turns (`Advance.foretold`), and evaluating a chain
  extends the forecast by one promise for each link that is attached (`foretold_linked`).

  A `catch` without a function for its callback hands on the rejection, and then a link that was
  passed over would apply (`unhandled_rejection_is_lost`).
-/
import EventLoop.Proofs.Launch
import EventLoop.Proofs.Settlement
import Mathlib.Logic.Function.Basic

namespace EventLoop

open Script

variable {m m' : Machine} {id : Nat} {state : PromiseState} {l : Link}

/-! ## Forecasts -/

/-- The states in which some promises settle, if they do. -/
abbrev Forecast := Nat → Option PromiseState

variable {f : Forecast}

/-- The link that waits hands on what is foreseen, if it is released in the given state. -/
def Waiter.Suits (f : Forecast) (state : PromiseState) (w : Waiter) : Prop :=
  ∀ l callback derived s, w.reaction = .link l callback derived → f derived = some s →
    chainState state [l] = s

/-- The link that is queued applies, and hands on what is foreseen. -/
def Microtask.Suits (f : Forecast) (t : Microtask) : Prop :=
  ∀ l callback derived s, t.reaction = some (.link l callback derived) → f derived = some s →
    l.runs t.state = true ∧ chainState t.state [l] = s

/-- No promise has settled otherwise than foreseen, and what is foreseen of a link that waits
    follows from what is foreseen of the promise that it waits for. -/
structure Foreseen (f : Forecast) (ps : Array Promise) : Prop where
  state : ∀ id s p, f id = some s → ps[id]? = some p → p.state = .pending ∨ p.state = s
  waiters : ∀ id, ∀ w ∈ waitersAt ps id,
    (∀ d ∈ w.derived, f d = none) ∨ ∃ s, f id = some s ∧ w.Suits f s

theorem Waiter.suits_of_none {w : Waiter} (h : ∀ d ∈ w.derived, f d = none)
    (state : PromiseState) : w.Suits f state := by
  intro l callback derived s hw hs
  rw [h derived (by simp [Waiter.derived, hw])] at hs
  cases hs

namespace Foreseen

variable {ps : Array Promise}

/-- Those who wait for a promise are released as foreseen, if it settles so. -/
theorem suits (h : Foreseen f ps) (hid : ∀ s, f id = some s → s = state) :
    ∀ w ∈ waitersAt ps id, w.Suits f state := by
  intro w hw
  rcases h.waiters id w hw with hnone | ⟨s, hs, hsuits⟩
  · exact Waiter.suits_of_none hnone state
  · rwa [← hid s hs]

theorem settledAt (h : Foreseen f ps) (hid : ∀ s, f id = some s → s = state) (value : Value) :
    Foreseen f (settledAt ps id state value) := by
  refine ⟨fun i s p hs hp => ?_, fun i w hw => h.waiters i w (mem_waitersAt_settledAt hw)⟩
  rw [EventLoop.settledAt, Array.getElem?_modify] at hp
  split at hp
  · rename_i hi
    subst hi
    obtain ⟨q, _, rfl⟩ := Option.map_eq_some_iff.1 hp
    exact .inr (hid s hs).symm
  · exact h.state i s p hs hp

theorem push (h : Foreseen f ps) {p : Promise} (hp : p.waiters = [])
    (hnew : ∀ s, f ps.size = some s → p.state = .pending) : Foreseen f (ps.push p) := by
  refine ⟨fun i s q hs hq => ?_, fun i w hw => h.waiters i w ?_⟩
  · rw [Array.getElem?_push] at hq
    split at hq
    · rename_i hi
      subst hi
      cases hq
      exact .inl (hnew s hs)
    · exact h.state i s q hs hq
  · rwa [waitersAt_push hp] at hw

theorem parked (h : Foreseen f ps) {id : Nat} {w : Waiter}
    (hw : (∀ d ∈ w.derived, f d = none) ∨ ∃ s, f id = some s ∧ w.Suits f s) :
    Foreseen f (ps.modify id fun p => { p with waiters := p.waiters ++ [w] }) := by
  refine ⟨fun i s p hs hp => ?_, fun i w' hw' => ?_⟩
  · rw [Array.getElem?_modify] at hp
    split at hp
    · obtain ⟨q, hq, rfl⟩ := Option.map_eq_some_iff.1 hp
      exact h.state i s q hs hq
    · exact h.state i s p hs hp
  · rcases mem_waitersAt_parked hw' with hold | ⟨rfl, rfl⟩
    · exact h.waiters i w' hold
    · exact hw

end Foreseen

/-- A settlement that goes as foreseen does so all the way.  Those who are passed over hand it on,
    and those who are queued will do what is foreseen of them. -/
theorem Cascade.foreseen {value : Value} {ps ps' : Array Promise} {ws queue passed : List Waiter}
    (h : Cascade state value ps ws ps' queue passed) (hps : Foreseen f ps)
    (hws : ∀ w ∈ ws, w.Suits f state) :
    Foreseen f ps' ∧ ∀ w ∈ queue, w.Suits f state ∧ w.reaction.runs state = true := by
  induction h with
  | nil => exact ⟨hps, by simp⟩
  | queue hruns _ ih =>
    rw [List.forall_mem_cons] at hws
    obtain ⟨hps', hqueue⟩ := ih hps hws.2
    exact ⟨hps', List.forall_mem_cons.2 ⟨⟨hws.1, hruns⟩, hqueue⟩⟩
  | @pass ps _ w ws _ _ l callback derived hw hruns _ ih =>
    rw [List.forall_mem_cons] at hws
    have hderived (s : PromiseState) (hs : f derived = some s) : s = state := by
      rw [← hws.1 l callback derived s hw hs, chainState_of_not_runs hruns]
    refine ih (hps.settledAt hderived value) fun w' hw' => ?_
    rcases List.mem_append.1 hw' with hw' | hw'
    · exact hps.suits hderived w' hw'
    · exact hws.2 w' hw'

/-! ## States of a run -/

/-- The callback of a `catch` is a function when the link has its turn. -/
def LinkTurn.Recovers (turn : LinkTurn) : Prop :=
  ∀ callback derived, turn.task.reaction = some (.link .catchLink callback derived) →
    ∃ e ∈ callback, ∃ g m', Run.resolveCallback e turn.task.scope turn.before = .ok (some g) m'

namespace Machine

/-- The state agrees with a forecast, and promises of calls are none of those foreseen. -/
structure Foretold (f : Forecast) (m : Machine) : Prop where
  promises : Foreseen f m.promises
  tasks : ∀ t ∈ m.microtasks.toList, t.Suits f
  calls : ∀ id ∈ m.callPromises, f id = none
  made : ∀ id s, f id = some s → id < m.promises.size

namespace Foretold

variable {m m' : Machine}

section

variable (h : m.Foretold f)

include h

theorem lt_size {d : Nat} (hd : f d ≠ none) : d < m.promises.size := by
  obtain ⟨s, hs⟩ := Option.ne_none_iff_exists'.1 hd
  exact h.made d s hs

theorem size : f m.promises.size = none := by
  by_contra hd
  exact Nat.lt_irrefl _ (h.lt_size hd)

omit h in
theorem nothing (m : Machine) : m.Foretold fun _ => none where
  promises := ⟨nofun, fun _ _ _ => .inl fun _ _ => rfl⟩
  tasks := fun _ _ _ _ _ _ _ hs => by cases hs
  calls := fun _ _ => rfl
  made := nofun

theorem of_eq (hpromises : m'.promises = m.promises)
    (htasks : m'.microtasks = m.microtasks) (hcalls : m'.callPromises ⊆ m.callPromises) :
    m'.Foretold f := by
  refine ⟨by rw [hpromises]; exact h.promises, by rw [htasks]; exact h.tasks,
    fun id hid => h.calls id (hcalls hid), by rw [hpromises]; exact h.made⟩

theorem push {p : Promise} (hp : p.waiters = [])
    (hpromises : m'.promises = m.promises.push p) (htasks : m'.microtasks = m.microtasks)
    (hcalls : m'.callPromises ⊆ m.promises.size :: m.callPromises) : m'.Foretold f where
  promises := by
    rw [hpromises]
    exact h.promises.push hp fun s hs => by rw [h.size] at hs; cases hs
  tasks := by rw [htasks]; exact h.tasks
  calls := by
    intro id hid
    rcases List.mem_cons.1 (hcalls hid) with rfl | hid
    · exact h.size
    · exact h.calls id hid
  made := by
    intro id s hs
    rw [hpromises, Array.size_push]
    exact Nat.lt_succ_of_lt (h.made id s hs)

theorem placed {w : Waiter} (hw : ∀ d ∈ w.derived, f d = none)
    (hplaced : m.Placed w m') : m'.Foretold f := by
  cases hplaced with
  | parked log hp hpending =>
    refine ⟨h.promises.parked (.inl hw), h.tasks, h.calls, fun id s hs => ?_⟩
    exact Nat.lt_of_lt_of_eq (h.made id s hs) Array.size_modify.symm
  | queued state value log =>
    refine ⟨h.promises, fun t ht => ?_, h.calls, h.made⟩
    rcases Array.mem_push.1 (Array.mem_toList_iff.1 ht) with hold | rfl
    · exact h.tasks t (Array.mem_toList_iff.2 hold)
    · intro l callback derived s hr hs
      have hr : w.reaction = .link l callback derived := Option.some.inj hr
      rw [hw derived (by simp [Waiter.derived, hr])] at hs
      cases hs

theorem settle {id : Nat} {state : PromiseState} {value : Value}
    (hid : ∀ s, f id = some s → s = state) (hs : Run.settle id state value m = .ok () m') :
    m'.Foretold f := by
  obtain ⟨ps, queue, passed, log, hc, rfl⟩ := Run.settle_inv hs
  obtain ⟨hps, hqueue⟩ := hc.foreseen (h.promises.settledAt hid value) (h.promises.suits hid)
  have hsize : ps.size = m.promises.size := by rw [hc.size_eq, settledAt, Array.size_modify]
  refine ⟨hps, fun t ht => ?_, h.calls, fun i s hi => ?_⟩
  · have ht : t ∈ m.microtasks.toList ++ tasksOf state value m.microtaskCount queue := by
      simpa [released, logged] using ht
    rcases List.mem_append.1 ht with ht | ht
    · exact h.tasks t ht
    · obtain ⟨w, hw, _, _, _, hr, hstate, _⟩ := mem_derived_tasksOf ht
      intro l callback derived s hl hs
      rw [hr] at hl
      cases hl' : w.reaction with
      | resume k => simp [hl'] at hl
      | link l' callback' derived' =>
        obtain ⟨rfl, rfl, rfl⟩ : l' = l ∧ callback' = callback ∧ derived' = derived := by
          simpa [hl'] using hl
        -- the link was waiting, and applies to the settlement
        obtain ⟨hsuits, hruns⟩ := hqueue w hw
        rw [hl', Reaction.runs] at hruns
        rw [hstate]
        exact ⟨hruns, hsuits l' callback' derived' s hl' hs⟩
  · change i < ps.size
    rw [hsize]
    exact h.made i s hi

end

end Foretold

/-- What is foreseen stays so, as long as the `catch` links that it depends on find functions. -/
theorem Advance.foretold {turns : List LinkTurn} (h : Advance m turns m') (hm : m.Foretold f)
    (hturns : ∀ turn ∈ turns, (∃ d ∈ turn.task.derived, f d ≠ none) → turn.Recovers) :
    m'.Foretold f := by
  cases h with
  | quiet hpromises htasks hcalls => exact hm.of_eq hpromises htasks hcalls
  | promise state value => exact hm.push rfl rfl rfl (List.subset_cons_self _ _)
  | enter hpromises htasks hcalls => exact hm.push rfl hpromises htasks hcalls
  | mark h =>
    obtain ⟨log, rfl⟩ := Run.enqueue_inv h
    refine ⟨hm.promises, fun t ht => ?_, hm.calls, hm.made⟩
    rcases Array.mem_push.1 (Array.mem_toList_iff.1 ht) with hold | rfl
    · exact hm.tasks t (Array.mem_toList_iff.2 hold)
    · exact fun _ _ _ _ hr => by cases hr
  | @suspend m' frame _ target _ hframe h =>
    have hnew : (m.withContinuation frame target).Foretold f :=
      hm.of_eq rfl rfl (callPromises_withContinuation hframe target)
    exact hnew.placed (by simp [Waiter.derived]) (Run.suspend_inv h).2
  | attach h =>
    have hnew : (m.withPromise .pending .undefined).Foretold f :=
      hm.push rfl rfl rfl (List.subset_cons_self _ _)
    refine hnew.placed (fun d hd => ?_) (Run.attach_inv h).2
    rw [List.mem_singleton.1 hd]
    exact hm.size
  | finish hid hpromises htasks hcalls h =>
    refine (hm.of_eq hpromises htasks hcalls).settle (fun s hs => ?_) h
    -- promises of calls are not foreseen
    rw [hm.calls _ hid] at hs
    cases hs
  | @conclude turn l callback derived _ state value htask hreaction hrun h =>
    refine hm.settle (fun s hs => ?_) h
    -- the link applies, and hands on what is foreseen if its callback is found
    obtain ⟨hruns, hstate⟩ := hm.tasks _ htask l callback derived s hreaction hs
    have hderived : ∃ d ∈ turn.task.derived, f d ≠ none :=
      ⟨derived, by simp [Microtask.derived, hreaction], by simp [hs]⟩
    have hrecovers := hturns turn (List.mem_singleton.2 rfl) hderived
    rw [← hstate]
    refine (Run.runLink_state hrun hruns fun hl => ?_).symm
    subst hl
    exact hrecovers callback derived hreaction

theorem Course.foretold {turns : List LinkTurn} (h : Course m turns m') (hm : m.Foretold f)
    (hturns : ∀ turn ∈ turns, (∃ d ∈ turn.task.derived, f d ≠ none) → turn.Recovers) :
    m'.Foretold f := by
  induction h with
  | nil => exact hm
  | snoc _ hstep ih =>
    refine hstep.foretold (ih fun turn hturn => ?_) fun turn hturn => ?_
    · exact hturns turn (List.mem_append_left _ hturn)
    · exact hturns turn (List.mem_append_right _ hturn)

/-! ## Chains -/

/-- A promise is as the chain says: it is settled in that state, or this is foreseen. -/
def Expects (f : Forecast) (m : Machine) (id : Nat) (state : PromiseState) : Prop :=
  f id = some state ∨ (promiseAt m.promises id).state = state

namespace Foretold

variable {m m' : Machine}

/-- A forecast for the next promise that is made does not concern what is there. -/
theorem extend (h : m.Foretold f) (hb : m.Bounded) (s : PromiseState) :
    (m.withPromise .pending .undefined).Foretold (Function.update f m.promises.size (some s)) := by
  have hold {d : Nat} (hd : d < m.promises.size) :
      Function.update f m.promises.size (some s) d = f d :=
    Function.update_of_ne (Nat.ne_of_lt hd) _ _
  have hsize : (m.withPromise .pending .undefined).promises.size = m.promises.size + 1 := by
    simp [withPromise]
  constructor
  case promises =>
    constructor
    · intro id s' p hs' hp
      rw [withPromise, Array.getElem?_push] at hp
      split at hp
      · cases hp
        exact .inl rfl
      · rw [hold (Array.getElem?_eq_some_iff.1 hp).1] at hs'
        exact h.promises.state id s' p hs' hp
    · -- who waits was there before, and so was the promise of its link
      intro id w hw
      rw [withPromise, waitersAt_push rfl] at hw
      have hderived {d : Nat} (hd : d ∈ w.derived) := hold (hb.waiters w (mem_waitersAt hw) d hd)
      refine (h.promises.waiters id w hw).imp (fun hnone d hd => ?_) fun hs => ?_
      · rw [hderived hd]
        exact hnone d hd
      · obtain ⟨s', hs', hsuits⟩ := hs
        refine ⟨s', ?_, fun l callback d s'' hr hd => ?_⟩
        · rw [hold (h.made id s' hs'), hs']
        · rw [hderived (by simp [Waiter.derived, hr])] at hd
          exact hsuits l callback d s'' hr hd
  case tasks =>
    intro t ht l callback d s' hr hd
    rw [hold (hb.tasks t ht d (by simp [Microtask.derived, hr]))] at hd
    exact h.tasks t ht l callback d s' hr hd
  case calls =>
    intro id hid
    rw [hold (hb.calls id hid)]
    exact h.calls id hid
  case made =>
    intro id s' hs'
    rw [hsize]
    by_cases hid : id = m.promises.size
    · exact hid ▸ Nat.lt_succ_self _
    · rw [Function.update_of_ne hid] at hs'
      exact Nat.lt_succ_of_lt (h.made id s' hs')

/-- A link that applies in the state that the chain says is attached: what is foreseen of its
    promise is what the chain says behind it. -/
theorem attach (h : m.Foretold f) (hb : m.Bounded) {name : String} {callback : Option Expr}
    {derived : Nat} (hstate : state ≠ .pending) (hruns : l.runs state = true)
    (hid : Expects f m id state)
    (hattach : Run.attach name l callback state (.promise id) m = .ok derived m') :
    m'.Foretold (Function.update f derived (some (chainState state [l]))) := by
  obtain ⟨rfl, log, hcases⟩ := Run.attach_promise hattach
  have hnew := h.extend hb (chainState state [l])
  rcases hcases with ⟨hpending, rfl⟩ | ⟨hsettled, rfl⟩
  · refine ⟨hnew.promises.parked (.inr ?_), hnew.tasks, hnew.calls, fun i s hs => ?_⟩
    · -- the receiver is foreseen to settle as the chain says
      have hsuits (s : PromiseState) (hs : chainState s [l] = chainState state [l]) :
          Waiter.Suits (Function.update f m.promises.size (some (chainState state [l]))) s
            ⟨name, m.scope, .link l callback m.promises.size⟩ := by
        rintro l' callback' derived' s' ⟨⟩ hs'
        rw [Function.update_self] at hs'
        cases hs'
        exact hs
      by_cases hlt : id < m.promises.size
      · have hold : promiseAt (m.withPromise .pending .undefined).promises id =
            promiseAt m.promises id := by
          rw [promiseAt, withPromise, Array.getElem?_push, if_neg (Nat.ne_of_lt hlt), promiseAt]
        rw [hold] at hpending
        rcases hid with hid | hid
        · exact ⟨state, by rw [Function.update_of_ne (Nat.ne_of_lt hlt), hid], hsuits state rfl⟩
        · exact absurd (hid.symm.trans hpending) hstate
      · -- a number that is not in use counts as fulfilled, until it is that of the new promise
        have hnone : m.promises[id]? = none := Array.getElem?_eq_none (Nat.le_of_not_lt hlt)
        have hful : state = .fulfilled := by
          rcases hid with hid | hid
          · exact absurd (h.made id state hid) hlt
          · rw [← hid, promiseAt, hnone]
            rfl
        have heq : id = m.promises.size := by
          have hmade := (Array.getElem?_eq_some_iff.1 (getElem?_of_pending hpending)).1
          simp only [withPromise, Array.size_push] at hmade
          omega
        subst heq hful
        exact ⟨chainState .fulfilled [l], Function.update_self .., hsuits _ (by cases l <;> rfl)⟩
    · exact Nat.lt_of_lt_of_eq (hnew.made i s hs) Array.size_modify.symm
  · -- the receiver has settled as the chain says, and the link is queued
    refine ⟨hnew.promises, fun t ht => ?_, hnew.calls, hnew.made⟩
    rcases Array.mem_push.1 (Array.mem_toList_iff.1 ht) with hold | rfl
    · exact hnew.tasks t (Array.mem_toList_iff.2 hold)
    · rintro l' callback' derived' s ⟨⟩ hs
      rw [Function.update_self] at hs
      cases hs
      exact ⟨hruns, rfl⟩

end Foretold

end Machine

namespace Run

/-- A chain is evaluated: its promise is as the chain says, and what this depends on is foreseen. -/
theorem foretold_linked {depth : Nat} {root : Expr} (hroot : root.MakesPromise)
    {ks : List LinkCall} (hlen : ks.length < maxChainHops) {m m' : Machine} (hm : m.Bounded)
    {v : Value} (h : eval (invoke depth) true (linked root ks) m = .ok v m')
    (hstate : m'.rootState ≠ .pending) :
    ∃ id f, v = .promise id ∧ m'.Foretold f ∧ (∀ d, f d ≠ none → m.promises.size ≤ d) ∧
      m'.Expects f id (chainState m'.rootState (ks.map (·.link))) := by
  induction ks using List.reverseRecOn generalizing m m' v with
  | nil =>
    obtain ⟨id, rfl, hid⟩ := eval_root hroot h
    exact ⟨id, fun _ => none, rfl, .nothing m', by simp, .inr hid⟩
  | append_singleton ks k ih =>
    rw [List.length_append, List.length_singleton] at hlen
    rw [linked_snoc] at h
    obtain ⟨log, hbehind⟩ := eval_behind (invoke depth) true k (linked root ks) m
    rw [hbehind] at h
    obtain ⟨receiver, m1, heval, h⟩ := bind_eq_ok h
    have hchain : chainBelow maxChainHops (.member (linked root ks) k.link.method k.memberLine) =
        some ⟨root, ks.map (·.link)⟩ := by
      rw [chainBelow, chainFrom_linked hroot, if_pos (Nat.lt_of_succ_lt hlen), List.append_nil]
    obtain ⟨hcourse, hsize⟩ := Machine.course_eval heval
    have hlogged : (m.logged log).Bounded := ⟨hm.calls, hm.waiters, hm.tasks⟩
    have hm1 := hcourse.bounded hlogged
    rcases addLink_cases (receiverState_of_chain hchain receiver m1) h with
      ⟨_, hruns, rfl, log', rfl⟩ | ⟨hruns, shown, log', derived, rfl, hattach⟩
    · -- the link does not apply, and the promise of the chain stays the same
      obtain ⟨id, f, rfl, hf, hnew, hid⟩ := ih (Nat.lt_of_succ_lt hlen) hlogged heval hstate
      refine ⟨id, f, rfl, hf.of_eq rfl rfl (fun _ h => h), hnew, ?_⟩
      rw [List.map_append, List.map_singleton, chainState_snoc]
      exact (chainState_of_not_runs hruns).symm ▸ hid
    · -- the link is attached, and its promise is the new end of the chain
      have hroot' : m'.rootState = m1.rootState := by
        rw [attach_rootState hattach]
        rfl
      rw [hroot'] at hstate ⊢
      obtain ⟨id, f, rfl, hf, hnew, hid⟩ := ih (Nat.lt_of_succ_lt hlen) hlogged heval hstate
      have hsettled := chainState_ne_pending hstate (ks.map (·.link))
      have hshown : ((m1.emitted shown).logged log').Foretold f :=
        hf.of_eq rfl rfl fun _ h => h
      have hbounded : ((m1.emitted shown).logged log').Bounded :=
        ⟨hm1.calls, hm1.waiters, hm1.tasks⟩
      have hderived : derived = m1.promises.size := (attach_inv hattach).1
      refine ⟨derived, _, rfl, hshown.attach hbounded hsettled
        (hruns.resolve_left hsettled) hid hattach, fun d hd => ?_, .inl ?_⟩
      · by_cases heq : d = derived
        · rw [heq, hderived]
          exact hsize
        · rw [Function.update_of_ne heq] at hd
          exact hnew d hd
      · rw [Function.update_self, List.map_append, List.map_singleton, chainState_snoc]

end Run

/-! ## Links that are passed over -/

namespace Machine

/-- In the state `m` a link is added whose receiver is the promise `id`, and it is given back its
    receiver in the state `m'`. -/
structure SkipsLink (m : Machine) (l : Link) (callee : Expr) (id : Nat) (m' : Machine) : Prop where
  shape : CallShape.ofCallee callee = .link l
  run : ∃ depth callback line m1,
    Run.evalTarget (Run.invoke depth) callee m = .ok (.promise id) m1 ∧ id < m1.promises.size ∧
    Run.addLink l callee callback (.promise id) line m1 = .ok (.promise id) m'

theorem Path.steadfast (h : m.Path m') : m.Steadfast m' := by
  induction h with
  | refl => exact fun id p hp _ _ => ⟨p, hp, rfl, rfl⟩
  | tail _ honce ih =>
    obtain ⟨_, _, hchange⟩ := honce.change
    exact ih.trans honce.steadfast fun id => hchange.tainted

/-- The receiver of a link that is passed over is settled in a state in which the link does not
    apply, or else this is foreseen. -/
theorem SkipsLink.expects {callee : Expr} (hm : m.Bounded) (h : m.SkipsLink l callee id m') :
    id < m'.promises.size ∧ ∃ state f, state ≠ .pending ∧ l.runs state = false ∧ m'.Foretold f ∧
      (∀ d, f d ≠ none → m.promises.size ≤ d) ∧ m'.Expects f id state := by
  obtain ⟨hshape, depth, callback, line, m1, heval, hid, hadd⟩ := h
  -- it was passed over in the state that `receiverState` gives
  have hskip {state : PromiseState}
      (hs : Run.receiverState callee (.promise id) m1 = .ok state m1) :
      state ≠ .pending ∧ l.runs state = false ∧ ∃ log, m' = m1.logged log := by
    rcases Run.addLink_cases hs hadd with ⟨hstate, hruns, _, hlog⟩ |
      ⟨_, shown, log, derived, hv, hattach⟩
    · exact ⟨hstate, hruns, hlog⟩
    · cases hv
      exact absurd ((Run.attach_inv hattach).1 ▸ hid) (Nat.lt_irrefl _)
  cases hchain : chainBelow maxChainHops callee with
  | none =>
    obtain ⟨hstate, hruns, log, rfl⟩ := hskip (Run.receiverState_of_long hchain id m1)
    exact ⟨hid, _, fun _ => none, hstate, hruns, .nothing _, by simp, .inr rfl⟩
  | some chain =>
    obtain ⟨hstate, hruns, log, rfl⟩ := hskip (Run.receiverState_of_chain hchain _ m1)
    cases callee with
    | member target name memberLine =>
      obtain ⟨hroot, ks, rfl, hlinks, hlen⟩ := linked_of_chainFrom hchain
      rw [List.append_nil] at hlinks
      rw [hlinks] at hstate hruns
      have hrootState : m1.rootState ≠ .pending := by
        intro hpending
        rw [hpending, chainState_pending] at hstate
        exact hstate rfl
      obtain ⟨id', f, hv, hf, hnew, hexpects⟩ :=
        Run.foretold_linked hroot hlen hm heval hrootState
      cases hv
      exact ⟨hid, _, f, hstate, hruns, hf.of_eq rfl rfl fun _ h => h, hnew, hexpects⟩
    | _ => cases hchain

/-- Between operations, all that is done after a link was passed over settles pending promises
    only. -/
theorem SkipsLink.ready {callee : Expr} (hm : m.Ready) (h : m.SkipsLink l callee id m') :
    m'.Ready := by
  obtain ⟨_, depth, callback, line, m1, heval, _, hadd⟩ := h
  refine (hm.code fun tame _ => ⟨depth, .done, ?_⟩).2
  have hleads := (Run.evalTarget_walks (@Run.invoke_walks tame depth) callee).bind
    (fun v => Run.addLink_walks l callee callback v line) m
  exact hleads.walk_of_ok (by rw [Run.bind_of_ok heval, hadd])

end Machine

/-! ## Chains that are statements of a program -/

namespace Run

open Machine

/-- From each link of a chain on, the links behind it are evaluated. -/
theorem eval_from_link (call : Invoke) (consumed : Bool) (root : Expr) (ks : List LinkCall)
    (k : LinkCall) (post : List LinkCall) (m : Machine) : ∃ log, ∀ v m1 v' m',
      eval call true (linked root ks) (m.logged log) = .ok v m1 →
      addLink k.link (.member (linked root ks) k.link.method k.memberLine) k.args.head? v k.line
        m1 = .ok v' m' → ∀ R, Passes R →
          R m' (final (eval call consumed (linked root (ks ++ k :: post)) m)) := by
  induction post using List.reverseRecOn generalizing m consumed with
  | nil =>
    obtain ⟨log, h⟩ := eval_behind call consumed k (linked root ks) m
    refine ⟨log, fun v m1 v' m' heval hadd R hR => ?_⟩
    rw [linked_snoc, h, bind_of_ok heval, hadd]
    exact hR.refl m'
  | append_singleton post k' ih =>
    -- the last link is added once all before it are evaluated
    obtain ⟨log, h⟩ := eval_behind call consumed k' (linked root (ks ++ k :: post)) m
    obtain ⟨log', ih⟩ := ih true (m.logged log)
    refine ⟨log', fun v m1 v' m' heval hadd R hR => ?_⟩
    rw [← List.cons_append, ← List.append_assoc, linked_snoc, h]
    exact hR.bind (ih v m1 v' m' heval hadd R hR) fun v => hR.roams fun _ =>
      .of_walks fun _ => addLink_walks _ _ _ v _

namespace Passes

variable {R : Machine → Machine → Prop} (hR : Passes R) {source : Option String}

include hR

/-- What holds across a program holds across all that it leaves to do. -/
theorem generate (h : R m (final (walkSource source m'))) :
    R m (final (Run.generate source m')) := by
  have hafter (op : Operation) (m : Machine) : R m (final (op.act m)) := by
    rw [← after_eq]
    exact hR.after op m
  refine hR.bind (hR.bind h fun _ m => ?_) fun _ m => hR.bind (hR.enter _ m) fun _ m => ?_
  · exact hR.bind (hR.enter _ m) fun _ => hafter .microtasks
  · exact hR.bind (hafter .frames m) fun _ m => hR.bind (hR.enter _ m) fun _ m =>
      hR.bind (hafter .timers m) fun _ => hR.enter _

theorem execAll (depth : Nat) (stmts : List Stmt) (m : Machine) :
    R m (final (Run.execAll (invoke depth) stmts m)) :=
  hR.code (executes_of_leads fun _ hm =>
    execAll_leads (invoke_walks depth) stmts m fun ht => by simp [Covers, hm ht])

variable {p : Program} {n limit : Nat} {log : Log} {m0 : Machine}
  (hfirst : walkFirst n source (.start limit log) = .ok .completed m0)

include hfirst

theorem first (log' : Log) : R (.start limit log) (m0.logged log') := by
  have hm0 : R (.start limit log) (final (walkFirst n source (.start limit log))) :=
    hR.bind (hR.roams (fun _ => openSource_roams source) _) fun p m => hR.execAll m.callBudget _ m
  rw [hfirst] at hm0
  exact hR.trans hm0 (hR.code fun _ _ => ⟨0, _, walk_logged m0 log'⟩)

/-- From a chain that is the next statement on, the rest of the program follows. -/
theorem statement {line : Nat} {c : WrittenChain} (hread : readProgram source = .ok p)
    (hstmt : p.body[n]? = some (.expr c.expr line))
    (h : R m (final (eval (invoke m0.callBudget) false c.expr m0))) :
    R m (final (Run.generate source (.start limit log))) := by
  obtain ⟨hn, hget⟩ := List.getElem?_eq_some_iff.1 hstmt
  obtain ⟨callee, args, callLine, hcall⟩ := c.expr_eq_call
  refine hR.generate ?_
  rw [hcall] at h
  rw [(walkFirst_inv hread hfirst).2.2, List.drop_eq_getElem_cons hn, hget, Run.execAll, exec,
    hcall]
  simp only [execExpr, evalAwaiting, bind_assoc, pure_bind]
  exact hR.bind h fun _ => hR.execAll _ _

end Passes

end Run

/-- A link that is passed over would not apply later, either.  Take any state of a run, and a link
    that is added there and gives back its receiver, a promise.  Whatever happens from then on, the
    promise is pending or settled in a state in which the link does not apply, as long as every
    `catch` link that was added with the receiver finds a function for its callback when it has its
    turn.  The promise may be one that was settled before; then it must not be tainted, since all
    others stay as they are.  Operations lead along a course, and if a link is passed over between
    two of them then those after it settle pending promises only.  So it is in a generation, too,
    from a link on that is passed over in a chain that is a statement of the program. -/
theorem skipped_link_never_applies (limit : Nat) (log : Log) :
    (∀ ops : List Operation,
      (∃ turns, Machine.Course (.start limit log) turns
        (ops.foldl Machine.after (.start limit log))) ∧
      ∀ l callee id m',
        (ops.foldl Machine.after (.start limit log)).SkipsLink l callee id m' →
        ∀ ops' : List Operation, (∃ turns, m'.Course turns (ops'.foldl Machine.after m')) ∧
          m'.Path (ops'.foldl Machine.after m')) ∧
    (∀ source p n (c : WrittenChain) ks (k : LinkCall) post line m0,
      readProgram source = .ok p → p.body[n]? = some (.expr c.expr line) →
      c.links = ks ++ k :: post →
      Run.walkFirst n source (.start limit log) = .ok .completed m0 →
      let callee : Expr := .member (linked c.root ks) k.link.method k.memberLine
      let last := Run.final (Run.generate source (.start limit log))
      ∃ log', (∃ before, Machine.Course (.start limit log) before (m0.logged log')) ∧
        ∀ id m1 m',
          Run.evalTarget (Run.invoke m0.callBudget) callee (m0.logged log') =
            .ok (.promise id) m1 → id < m1.promises.size →
          Run.addLink k.link callee k.args.head? (.promise id) k.line m1 = .ok (.promise id) m' →
          (m0.logged log').SkipsLink k.link callee id m' ∧
            (∃ turns, m'.Course turns last) ∧ m'.Path last) ∧
    ∀ before m l callee id m', Machine.Course (.start limit log) before m →
      m.SkipsLink l callee id m' →
      ∀ turns m'', m'.Course turns m'' → m'.Path m'' → ¬ m''.Tainted id →
        (∀ turn ∈ turns, (∃ d ∈ turn.task.derived, m.promises.size ≤ d ∧ d < m'.promises.size) →
          turn.Recovers) →
        ∃ p, m''.promises[id]? = some p ∧ (p.state = .pending ∨ l.runs p.state = false) := by
  refine ⟨fun ops => ?_, ?_, ?_⟩
  · refine ⟨Machine.passes_course.afterAll ops _, fun l callee id m' hskip ops' => ?_⟩
    have hready := hskip.ready (Machine.passes_ready.afterAll ops _ (.start limit log)).2
    exact ⟨Machine.passes_course.afterAll ops' m', (Machine.passes_ready.afterAll ops' m' hready).1⟩
  · intro source p n c ks k post line m0 hread hstmt hlinks hfirst callee last
    obtain ⟨log', hchain⟩ :=
      Run.eval_from_link (Run.invoke m0.callBudget) false c.root ks k post m0
    refine ⟨log', Machine.passes_course.first hfirst log', fun id m1 m' heval hid hadd => ?_⟩
    have hskip : (m0.logged log').SkipsLink k.link callee id m' :=
      ⟨ofCallee_member _ _ _, _, _, _, m1, heval, hid, hadd⟩
    have hready := hskip.ready (Machine.passes_ready.first hfirst log' (.start limit log)).2
    have hlast {R : Machine → Machine → Prop} (hR : Run.Passes R) : R m' last := by
      refine hR.statement hfirst hread hstmt ?_
      rw [WrittenChain.expr, hlinks]
      exact hchain _ _ _ _ heval hadd R hR
    exact ⟨hskip, hlast Machine.passes_course, (hlast Machine.passes_ready hready).1⟩
  · intro before m l callee id m' hcourse hskip turns m'' hafter hpath htaint hturns
    obtain ⟨hid, state, f, hstate, hruns, hf, hnew, hexpects⟩ :=
      hskip.expects (hcourse.bounded (.start limit log))
    rcases hexpects with hforeseen | hsettled
    · have hf'' : m''.Foretold f := by
        refine hafter.foretold hf ?_
        rintro turn hturn ⟨d, hd, hsome⟩
        exact hturns turn hturn ⟨d, hd, hnew d hsome, hf.lt_size hsome⟩
      obtain ⟨p, hp⟩ : ∃ p, m''.promises[id]? = some p :=
        ⟨_, Array.getElem?_eq_getElem (hf''.made id state hforeseen)⟩
      refine ⟨p, hp, (hf''.promises.state id state p hforeseen hp).imp_right fun h => ?_⟩
      rw [h, hruns]
    · obtain ⟨p, hp⟩ : ∃ p, m'.promises[id]? = some p := ⟨_, Array.getElem?_eq_getElem hid⟩
      rw [promiseAt_of_getElem? hp] at hsettled
      obtain ⟨p', hp', hstate', _⟩ := hpath.steadfast id p hp (hsettled ▸ hstate) htaint
      refine ⟨p', hp', .inr ?_⟩
      rw [hstate', hsettled, hruns]

/-- Whether a link recovers can be seen from its text if its callback is written as a function. -/
def Reaction.recovers : Reaction → Bool
  | .link .catchLink (some (.function ..)) _ => true
  | .link .catchLink _ _ => false
  | .link .thenLink _ _ | .link .finallyLink _ _ | .resume _ => true

theorem LinkTurn.recovers_of_reaction {turn : LinkTurn}
    (h : turn.task.reaction.all (·.recovers) = true) : turn.Recovers := by
  intro callback derived hr
  rw [hr, Option.all_some] at h
  cases callback with
  | none => cases h
  | some e =>
    cases e with
    | function => exact ⟨_, rfl, _, _, rfl⟩
    | _ => cases h

theorem Machine.skipsLink_of_succeeds {m : Machine} {l : Link} {callee : Expr} {id depth : Nat}
    (hshape : CallShape.ofCallee callee = .link l) {callback : Option Expr} {line : Nat}
    {p : Machine → Bool} (h : Run.succeeds (Run.evalTarget (Run.invoke depth) callee) (fun v m1 =>
      v.promise? == some id && decide (id < m1.promises.size) &&
        Run.succeeds (Run.addLink l callee callback (.promise id) line)
          (fun v' m' => v'.promise? == some id && p m') m1) m = true) :
    ∃ m', m.SkipsLink l callee id m' ∧ p m' = true := by
  obtain ⟨v, m1, heval, h⟩ := Run.succeeds_inv h
  simp only [Bool.and_eq_true, beq_iff_eq, Value.promise?_eq_some, decide_eq_true_eq] at h
  obtain ⟨⟨rfl, hid⟩, hadd⟩ := h
  obtain ⟨v', m', hadd, h⟩ := Run.succeeds_inv hadd
  rw [Bool.and_eq_true, beq_iff_eq, Value.promise?_eq_some] at h
  obtain ⟨rfl, hp⟩ := h
  exact ⟨m', ⟨hshape, depth, callback, line, m1, heval, hid, hadd⟩, hp⟩

/-- The first `catch` recovers when it has its turn, and the second one, which was passed over, does
    not apply to what it gives. -/
theorem skipped_link_never_applies_recovered :
    let root : Expr :=
      .call (.member (.ident "Promise" 1) "reject" 1) [.literal (.number (.int 1)) 1] 1
    let two : Expr := .function [] (.value (.literal (.number (.int 2)) 1)) none true false 1
    let callee : Expr := .member (linked root [⟨.catchLink, [two], 1, 1⟩]) "catch" 1
    ∃ m', (Machine.start 100 {}).SkipsLink .catchLink callee 1 m' ∧
      ∃ p, (m'.after .microtasks).promises[1]? = some p ∧ p.state = .fulfilled ∧
        (p.state = .pending ∨ Link.catchLink.runs p.state = false) := by
  intro root two callee
  obtain ⟨m', hskip, hrun⟩ := @Machine.skipsLink_of_succeeds (.start 100 {}) .catchLink callee 1 400
    (ofCallee_member _ .catchLink 1) (some two) 1 (fun m' =>
      (m'.after .microtasks).promises[1]?.any (·.state == .fulfilled) &&
      (m'.after .microtasks).suspendedCalls.isEmpty &&
      (m'.after .microtasks).microtasks.toList.all fun t => t.reaction.all (·.recovers))
    (by decide +kernel)
  simp only [Bool.and_eq_true, Option.any_eq_true, beq_iff_eq, List.isEmpty_iff,
    List.all_eq_true] at hrun
  obtain ⟨⟨⟨p, hp, hstate⟩, hcalls⟩, hrecovers⟩ := hrun
  obtain ⟨hops, -, hall⟩ := skipped_link_never_applies 100 {}
  obtain ⟨⟨turns, hcourse⟩, hpath⟩ := (hops []).2 .catchLink callee 1 m' hskip [.microtasks]
  have htaint : ¬ (m'.after .microtasks).Tainted 1 := by
    rintro ⟨f, hf, _⟩
    rw [hcalls] at hf
    cases hf
  obtain ⟨p', hp', hlink⟩ := hall [] _ .catchLink callee 1 m' .nil hskip turns _ hcourse hpath
    htaint fun turn hturn _ =>
      LinkTurn.recovers_of_reaction (hrecovers _ (hcourse.mem_microtasks turn hturn))
  cases hp.symm.trans hp'
  exact ⟨m', hskip, p, hp, hstate, hlink⟩

/-- The first `catch` has no callback and hands on the rejection.  The second one, which was passed
    over, would apply to it. -/
theorem unhandled_rejection_is_lost :
    let root : Expr :=
      .call (.member (.ident "Promise" 1) "reject" 1) [.literal (.number (.int 1)) 1] 1
    let callee : Expr := .member (linked root [⟨.catchLink, [], 1, 1⟩]) "catch" 1
    ∃ m', (Machine.start 100 {}).SkipsLink .catchLink callee 1 m' ∧
      ∃ p, (m'.after .microtasks).promises[1]? = some p ∧ p.state = .rejected ∧
        Link.catchLink.runs p.state = true := by
  intro root callee
  obtain ⟨m', hskip, hrun⟩ := @Machine.skipsLink_of_succeeds (.start 100 {}) .catchLink callee 1 400
    (ofCallee_member _ .catchLink 1) none 1
    (fun m' => (m'.after .microtasks).promises[1]?.any (·.state == .rejected)) (by decide +kernel)
  obtain ⟨p, hp, hstate⟩ := (Option.any_eq_true _ _).1 hrun
  rw [beq_iff_eq] at hstate
  exact ⟨m', hskip, p, hp, hstate, by rw [hstate]; rfl⟩

end EventLoop
