/-
  What the promise of a call will be settled with.

  When the body of an async call has returned, the promise of the call is settled.  If the body
  returns what it awaits, all that is left of it is a task in the queue whose turn settles the
  promise.  In both cases the settlement is pledged (`Machine.Pledged`).  Code and the turns of other
  tasks leave a pledge as it is, the turn of the task itself meets it (`Run.runMicrotask_settles`),
  and so the promise is settled as it was pledged when the queue is drained (`Run.pledged_drained`).

  That others leave a settled promise alone rests on its being settled once, which holds if the call
  has a steady body (`Machine.Firm`).
-/
import EventLoop.Proofs.Checkpoint
import EventLoop.Proofs.Forecast
import EventLoop.Proofs.Queue
import EventLoop.Proofs.Suspension

namespace EventLoop

open Script

variable {tame : Bool} {depth id : Nat} {t : Microtask} {log : Log}

namespace Machine

variable {e : Ending} {m m' : Machine}

/-! ## Promises of steady calls -/

/-- The promise was made, and all calls that it belongs to have steady bodies. -/
structure Firm (id : Nat) (m : Machine) : Prop where
  made : id < m.promises.size
  frames : ∀ frame ∈ m.frames, frame.promise = some id → frame.function.body.steady = true
  calls : ∀ f, (f, some id) ∈ m.suspendedCalls → f.body.steady = true

namespace Firm

variable {m m' : Machine}

theorem not_tainted (h : m.Firm id) : ¬ m.Tainted id := by
  rintro ⟨f, hf, hsteady⟩
  rw [h.calls f hf] at hsteady
  cases hsteady

/-- Calls may be left, but none is suspended. -/
theorem of_calls (h : m.Firm id) (hsize : m.promises.size ≤ m'.promises.size)
    (hframes : m'.frames ⊆ m.frames) (hcalls : m'.suspendedCalls = m.suspendedCalls) :
    m'.Firm id where
  made := Nat.lt_of_lt_of_le h.made hsize
  frames := fun frame hframe => h.frames frame (hframes hframe)
  calls := by
    rw [hcalls]
    exact h.calls

theorem of_aside (h : m.Firm id) (ha : m.Aside m') : m'.Firm id := by
  refine h.of_calls ha.promises ?_ ?_
  · rw [ha.frames]
    exact fun _ hframe => hframe
  · rw [suspendedCalls, ha.continuations]
    rfl

theorem entered (h : m.Firm id) (f : Function) (args : List Value) (label : String) (line : Nat) :
    ((m.emitted [.highlight line, .push label]).entered f args).Firm id where
  made := Nat.lt_of_lt_of_le h.made (Grows.entered m f args label line).promises
  frames := by
    intro frame hframe hid
    rcases List.mem_cons.1 hframe with rfl | hframe
    · have hnew : (if f.isAsync then some m.promises.size else none) = some id := hid
      have hlt := h.made
      split at hnew
      · cases hnew
        exact absurd hlt (Nat.lt_irrefl _)
      · cases hnew
    · exact h.frames frame hframe hid
  calls := h.calls

end Firm

/-- A firm promise stays so along a walk. -/
theorem Walk.firm (h : m.Walk tame depth e m') (hm : m.Firm id) : m'.Firm id := by
  induction h with
  | refl | fail => exact hm
  | trans _ _ ih1 ih2 => exact ih2 (ih1 hm)
  | slip => exact hm.of_calls (Nat.le_refl _) (fun _ h => h) rfl
  | move h =>
    refine hm.of_calls h.grows.promises ?_ ?_
    · rw [h.context.2]
      exact fun _ h => h
    · rw [suspendedCalls, h.continuations_eq]
      rfl
  | @within _ m m' _ scope _ ih =>
    have hunder : (m.under scope).Firm id := hm.of_calls (Nat.le_refl _) (fun _ h => h) rfl
    exact (ih hunder).of_calls (Nat.le_refl _) (fun _ h => h) rfl
  | @suspend _ m m' k frame value target hframe _ h =>
    have hcall : (m.withContinuation frame target).Firm id := by
      refine ⟨hm.made, hm.frames, fun f hf => ?_⟩
      simp only [suspendedCalls, withContinuation, Array.toList_push, List.map_append,
        List.mem_append] at hf
      rcases hf with hf | hf
      · exact hm.calls f hf
      · -- the call has its promise from the innermost frame
        obtain ⟨rfl, hid⟩ : f = frame.function ∧ some id = frame.promise := by simpa using hf
        exact hm.frames frame (List.mem_of_mem_head? hframe) hid.symm
    exact hcall.of_aside (Run.suspend_inv h).2.aside
  | defer stmts _ _ ih =>
    exact (ih hm).of_calls (Nat.le_refl _) (fun _ h => h) (suspendedCalls_deferred _ _ stmts)
  | skip _ _ ih => exact ih hm
  | @call _ m m' _ f args label line _ h _ _ _ ih | @cut _ m m' _ f args label line _ h ih =>
    refine (ih (hm.entered f args label line)).of_calls (Nat.le_refl _) ?_ rfl
    rw [h.context.2]
    exact List.subset_cons_self _ _
  | @settled _ m m' _ f args label line value log _ _ h _ hsettle ih =>
    have hback : (((m'.back m).emitted [.pop]).logged log).Firm id := by
      refine (ih (hm.entered f args label line)).of_calls (Nat.le_refl _) ?_ rfl
      rw [h.context.2]
      exact List.subset_cons_self _ _
    exact hback.of_aside (aside_of_settle hsettle)

theorem Firm.resumed {m : Machine} (h : m.Firm id) (k : Nat) (l : List Step) :
    ((m.resumed (m.continuationAt k)).emitted l).Firm id where
  made := h.made
  frames := by
    intro frame hframe hid
    rcases List.mem_cons.1 hframe with rfl | hframe
    · refine h.calls _ ?_
      rw [continuationAt] at hid ⊢
      cases hk : m.continuations[k]? with
      | none =>
        rw [hk] at hid
        cases hid
      | some c =>
        rw [hk] at hid
        have hpromise : c.promise = some id := hid
        rw [suspendedCalls, List.mem_map]
        exact ⟨c, Array.mem_toList_iff.2 (Array.mem_of_getElem? hk), by rw [hpromise]; rfl⟩
    · exact h.frames frame hframe hid
  calls := h.calls

theorem Serves.firm (h : m.Serves tame t .done m') (hm : m.Firm id) : m'.Firm id := by
  have hbody {k depth : Nat} {label : String} {e : Ending} {m1 : Machine} (log : Log)
      (hw : ((m.resumed (m.continuationAt k)).emitted [.push label]).Walk tame depth e m1) :
      (((m1.back m).emitted [.pop]).logged log).Firm id := by
    refine (hw.firm (hm.resumed k _)).of_calls (Nat.le_refl _) ?_ rfl
    rw [hw.context.2]
    exact List.subset_cons_self _ _
  cases h with
  | mark => exact hm
  | link _ hw hs => exact (hw.firm hm).of_aside (aside_of_settle hs)
  | rejected log _ _ hs =>
    have hnote : (m.logged log).Firm id := hm.of_calls (Nat.le_refl _) (fun _ h => h) rfl
    exact hnote.of_aside (aside_of_settle hs)
  | abandoned => exact hm.of_calls (Nat.le_refl _) (fun _ h => h) rfl
  | resumed log _ _ hw => exact hbody log hw
  | finished log _ _ hw _ _ hs => exact (hbody log hw).of_aside (aside_of_settle hs)

/-! ## Suspended calls stay what they are -/

/-- Suspended calls are kept.  At most they have more left to do. -/
def Amends (m m' : Machine) : Prop :=
  ∀ (k : Nat) (c : Continuation), m.continuations[k]? = some c →
    ∃ statements, m'.continuations[k]? = some { c with statements }

namespace Amends

variable {m m1 m2 m' : Machine}

theorem of_eq (h : m'.continuations = m.continuations) : m.Amends m' := by
  intro k c hc
  exact ⟨c.statements, by rw [h, hc]⟩

theorem trans (h1 : m.Amends m1) (h2 : m1.Amends m2) : m.Amends m2 := by
  intro k c hc
  obtain ⟨stmts1, hc1⟩ := h1 k c hc
  obtain ⟨stmts2, hc2⟩ := h2 k _ hc1
  exact ⟨stmts2, hc2⟩

theorem withContinuation (m : Machine) (frame : Frame) (target : Target) :
    m.Amends (m.withContinuation frame target) := by
  intro k c hc
  have hk : k < m.continuations.size := (Array.getElem?_eq_some_iff.1 hc).1
  refine ⟨c.statements, ?_⟩
  rw [Machine.withContinuation, Array.getElem?_push, if_neg (Nat.ne_of_lt hk), hc]

theorem deferred (m : Machine) (k : Nat) (stmts : List Stmt) : m.Amends (m.deferred k stmts) := by
  intro j c hc
  rw [Machine.deferred, Array.getElem?_modify, hc]
  split
  · exact ⟨c.statements ++ stmts, rfl⟩
  · exact ⟨c.statements, rfl⟩

end Amends

theorem Walk.amends (h : m.Walk tame depth e m') : m.Amends m' := by
  induction h with
  | refl | fail | slip => exact .of_eq rfl
  | trans _ _ ih1 ih2 => exact ih1.trans ih2
  | move h => exact .of_eq h.continuations_eq
  | within _ _ ih => exact ih
  | suspend _ _ h =>
    exact (Amends.withContinuation _ _ _).trans
      (.of_eq (Run.suspend_inv h).2.aside.continuations)
  | defer stmts _ _ ih => exact ih.trans (.deferred _ _ stmts)
  | skip _ _ ih => exact ih
  | call _ _ _ _ _ ih => exact ih
  | cut _ _ ih => exact ih
  | settled _ _ _ _ _ hsettle ih =>
    exact Amends.trans ih (.of_eq (aside_of_settle hsettle).continuations)

theorem Serves.amends (h : m.Serves tame t e m') : m.Amends m' := by
  cases h with
  | mark | abandoned | stuck => exact .of_eq rfl
  | link _ hw hs => exact hw.amends.trans (.of_eq (aside_of_settle hs).continuations)
  | linkFailed _ hw => exact hw.amends
  | rejected _ _ _ hs => exact .of_eq (aside_of_settle hs).continuations
  | cut _ _ hw => exact hw.amends
  | resumed _ _ _ hw => exact hw.amends
  | finished _ _ _ hw _ _ hs =>
    exact Amends.trans hw.amends (.of_eq (aside_of_settle hs).continuations)

/-! ## Between turns -/

/-- No code is running, and the promise belongs to steady calls. -/
structure Secure (id : Nat) (m : Machine) : Prop where
  atRest : m.AtRest true
  rest : m.SteadyRest
  firm : m.Firm id

namespace Secure

variable {m m' : Machine}

theorem walk (h : m.Secure id) (hw : m.Walk true depth e m') : m.Path m' ∧ m'.Secure id := by
  obtain ⟨hpath, hrest⟩ := hw.atRest h.atRest
  exact ⟨hpath, hrest, hw.steadyRest h.rest, hw.firm h.firm⟩

theorem serves (h : m.Secure id) (ht : m.microtasks[m.cursor]? = some t) (hroom : m.Room 2)
    (hs : ((m.taken.emitted t.steps).logged log).Serves true t .done m') :
    ((m.taken.emitted t.steps).logged log).Path m' ∧ m'.Secure id := by
  rcases h.atRest with hfull | ⟨_, hframes, howned⟩
  · exact absurd hfull (hroom.not_full Nat.two_pos)
  · obtain ⟨hpath, hrest⟩ := hs.atRest hframes (howned.shown ht _ log).2
    have hfirm : ((m.taken.emitted t.steps).logged log).Firm id :=
      h.firm.of_calls (Nat.le_refl _) (fun _ h => h) rfl
    exact ⟨hpath, hrest, hs.steadyRest h.rest, hs.firm hfirm⟩

end Secure

/-! ## Pledges -/

/-- The promise has this state and this value. -/
def SettledAs (id : Nat) (s : PromiseState) (x : Value) (m : Machine) : Prop :=
  ∃ p, m.promises[id]? = some p ∧ p.state = s ∧ p.value = x

/-- The continuation belongs to a call of the promise, which returns what it waits for. -/
def ReturnsAwaited (id k : Nat) (m : Machine) : Prop :=
  ∃ c, m.continuations[k]? = some c ∧ c.promise = some id ∧ c.target = .ret

/-- The promise is settled in the state `s` with the value `x`, or a task is in the queue that will
    do so when it has its turn. -/
inductive Pledged (id : Nat) (s : PromiseState) (x : Value) (m : Machine) : Prop
  | settled (h : m.SettledAs id s x)
  | queued {i k : Nat} {t : Microtask} (hi : m.cursor ≤ i) (ht : m.microtasks[i]? = some t)
      (hreaction : t.reaction = some (.resume k)) (hstate : t.state = s) (hvalue : t.value = x)
      (hk : m.ReturnsAwaited id k)

namespace Pledged

variable {m m' : Machine} {s : PromiseState} {x : Value}

theorem of_eq (h : m.Pledged id s x) (hpromises : m'.promises = m.promises)
    (htasks : m'.microtasks = m.microtasks) (hcursor : m'.cursor = m.cursor)
    (hconts : m'.continuations = m.continuations) : m'.Pledged id s x := by
  cases h with
  | settled h =>
    refine .settled ?_
    rw [SettledAs, hpromises]
    exact h
  | @queued i _ _ hi ht hreaction hstate hvalue hk =>
    have hi' : m'.cursor ≤ i := by rwa [hcursor]
    refine .queued hi' (by rwa [htasks]) hreaction hstate hvalue ?_
    rw [ReturnsAwaited, hconts]
    exact hk

/-- What settles pending promises only, and takes no task, leaves a pledge as it is. -/
theorem kept (h : m.Pledged id s x) (hs : s ≠ .pending) (hg : Grows m m') (ha : m.Amends m')
    (hpath : m.Path m') (hfirm : m'.Firm id) : m'.Pledged id s x := by
  cases h with
  | settled h =>
    obtain ⟨p, hp, rfl, rfl⟩ := h
    exact .settled (hpath.steadfast id p hp hs hfirm.not_tainted)
  | @queued i k t hi ht hreaction hstate hvalue hk =>
    obtain ⟨l, hl⟩ := hg.microtasks
    obtain ⟨c, hc, hpromise, htarget⟩ := hk
    obtain ⟨statements, hc'⟩ := ha k c hc
    have ht' : m'.microtasks[i]? = some t := by
      have hlt : i < m.microtasks.toList.length := (Array.getElem?_eq_some_iff.1 ht).1
      rw [← Array.getElem?_toList, hl, List.getElem?_append_left hlt, Array.getElem?_toList, ht]
    exact .queued (hg.cursor ▸ hi) ht' hreaction hstate hvalue ⟨_, hc', hpromise, htarget⟩

theorem of_idle (h : m.Pledged id s x) (hidle : m.microtasks[m.cursor]? = none) :
    m.SettledAs id s x := by
  cases h with
  | settled h => exact h
  | queued hi ht =>
    have hlt := (Array.getElem?_eq_some_iff.1 ht).1
    have hle := Array.getElem?_eq_none_iff.1 hidle
    omega

theorem walk (h : m.Pledged id s x) (hs : s ≠ .pending) (hm : m.Secure id)
    (hw : m.Walk true depth e m') : m'.Pledged id s x :=
  have hsecure := hm.walk hw
  h.kept hs hw.grows hw.amends hsecure.1 hsecure.2.firm

end Pledged

end Machine

theorem Cascade.settled {state : PromiseState} {value : Value} {ps ps' : Array Promise}
    {ws queue passed : List Waiter} (h : Cascade state value ps ws ps' queue passed)
    (hp : ∃ p, ps[id]? = some p ∧ p.state = state ∧ p.value = value) :
    ∃ p, ps'[id]? = some p ∧ p.state = state ∧ p.value = value := by
  induction h with
  | nil => exact hp
  | queue _ _ ih => exact ih hp
  | @pass ps _ _ _ _ _ _ _ derived _ _ _ ih =>
    refine ih ?_
    obtain ⟨p, hp, hstate, hvalue⟩ := hp
    rw [settledAt, Array.getElem?_modify, hp]
    split
    · exact ⟨_, rfl, rfl, rfl⟩
    · exact ⟨p, rfl, hstate, hvalue⟩

namespace Run

open Machine

variable {m m' : Machine} {s : PromiseState} {x : Value} {v : Value}

theorem settle_settled (h : settle id s x m = .ok () m') (hid : id < m.promises.size) :
    m'.SettledAs id s x := by
  obtain ⟨ps, queue, passed, log, hc, rfl⟩ := settle_inv h
  refine hc.settled ?_
  rw [settledAt, Array.getElem?_modify, if_pos rfl, Array.getElem?_eq_getElem hid]
  exact ⟨_, rfl, rfl, rfl⟩

theorem settledValue_of_no_promise (h : v.promise? = none) (m : Machine) :
    settledValue v m = .ok v m := by
  cases v with
  | promise => cases h
  | _ => rfl

theorem emit_inv {step : Step} (h : emit step m = .ok () m') :
    ∃ log, m' = (m.emitted [step]).logged log := by
  rcases emit_cases step m with ⟨_, log, hok⟩ | ⟨_, herror⟩
  · rw [hok] at h
    cases h
    exact ⟨log, rfl⟩
  · rw [herror] at h
    cases h

/-- A suspended call that goes on: its frame is shown, the rest of its body runs, and its end is
    shown. -/
theorem resume_inv {c : Continuation} {state : PromiseState} {value : Value}
    (hstate : state ≠ .rejected) (h : resume c state value m = .ok () m') :
    ∃ m1 v outcome m2 m3, emit (.push (c.function.name ++ "()")) (m.resumed c) = .ok () m1 ∧
      settledValue value m1 = .ok v m1 ∧ runRest c v m1 = .ok outcome m2 ∧
      emit .pop (m2.back m) = .ok () m3 ∧ finish c.promise outcome m3 = .ok () m' := by
  simp only [resume, hstate, if_false] at h
  obtain ⟨_, _, ⟨⟩, h⟩ := bind_eq_ok h
  obtain ⟨_, _, ⟨⟩, h⟩ := bind_eq_ok h
  obtain ⟨_, m1, hpush, h⟩ := bind_eq_ok h
  obtain ⟨outcome, m2, hrest, h⟩ := bind_eq_ok h
  obtain ⟨_, m3, hpop, hfinish⟩ := bind_eq_ok h
  obtain ⟨v, hv⟩ : ∃ v, settledValue value m1 = .ok v m1 := by
    cases value <;> exact ⟨_, rfl⟩
  simp only [restoring, bind_apply, hv] at hrest
  cases hbody : runRest c v m1 with
  | error fault m4 =>
    rw [hbody] at hrest
    cases hrest
  | ok outcome' m4 =>
    rw [hbody] at hrest
    cases hrest
    exact ⟨m1, v, outcome, m4, m3, hpush, hv, hbody, hpop, hfinish⟩

/-- The task of a call that returns what it waits for settles the promise of the call. -/
theorem runMicrotask_settles {k : Nat} (hreaction : t.reaction = some (.resume k))
    (hk : m.ReturnsAwaited id k) (hid : id < m.promises.size) (hstate : t.state ≠ .pending)
    (hvalue : t.value.promise? = none) (h : runMicrotask t m = .ok () m') :
    m'.SettledAs id t.state t.value := by
  obtain ⟨c, hc, hpromise, htarget⟩ := hk
  have hcont : m.continuationAt k = c := by rw [continuationAt, hc, Option.getD_some]
  rw [runMicrotask, hreaction] at h
  change resume (m.continuationAt k) t.state t.value m = .ok () m' at h
  rw [hcont] at h
  by_cases hrejected : t.state = .rejected
  · simp only [resume, hrejected, if_true, hpromise, bind_apply, note_apply] at h
    rw [hrejected]
    exact settle_settled h hid
  · have hfulfilled : t.state = .fulfilled := by
      cases hs : t.state with
      | pending => exact absurd hs hstate
      | fulfilled => rfl
      | rejected => exact absurd hs hrejected
    obtain ⟨m1, v, outcome, m2, m3, hpush, hv, hrest, hpop, hfinish⟩ := resume_inv hrejected h
    -- the body returns the value at once
    rw [settledValue_of_no_promise hvalue] at hv
    cases hv
    have hreturned : runRest c t.value m1 = .ok (.returned t.value) m1 := by
      rw [runRest, htarget]
      rfl
    rw [hreturned] at hrest
    cases hrest
    obtain ⟨log, rfl⟩ := emit_inv hpush
    obtain ⟨log', rfl⟩ := emit_inv hpop
    rw [hpromise] at hfinish
    obtain ⟨_, _, hvalue', hsettle⟩ := bind_eq_ok hfinish
    rw [Outcome.value, settledValue_of_no_promise hvalue] at hvalue'
    cases hvalue'
    rw [hfulfilled]
    exact settle_settled hsettle hid

/-! ## How a call comes to a pledge -/

/-- The state and the value that a value is settled with. -/
def settlement (v : Value) : Run (PromiseState × Value) := do
  return (← stateOf v, ← settledValue v)

theorem settlement_inv (h : settlement v m = .ok (s, x) m') :
    stateOf v m = .ok s m ∧ settledValue v m = .ok x m ∧ m' = m := by
  cases v <;> cases h <;> exact ⟨rfl, rfl, rfl⟩

theorem settlement_of_no_promise (h : v.promise? = none) (m : Machine) :
    settlement v m = .ok (.fulfilled, v) m := by
  cases v with
  | promise => cases h
  | _ => rfl

theorem settlement_of_promises (h : settlement v m = .ok (s, x) m)
    (hpromises : m'.promises = m.promises) : settlement v m' = .ok (s, x) m' := by
  cases v with
  | promise j =>
    cases h
    rw [← hpromises]
    rfl
  | _ =>
    cases h
    rfl

/-- A call that returns what it awaits, if that is settled, leaves a task that settles its promise in
    the same way. -/
theorem suspend_pledged {frame : Frame} {k : Nat} (hpromise : frame.promise = some id)
    (hcursor : m.cursor ≤ m.microtasks.size) (hsettled : settlement v m = .ok (s, x) m)
    (hs : s ≠ .pending) (h : suspend frame v .ret m = .ok k m') : m'.Pledged id s x := by
  obtain ⟨hstate, hvalue, _⟩ := settlement_inv hsettled
  obtain ⟨log, hqueued⟩ := suspend_queued frame .ret hstate hvalue hs
  rw [hqueued] at h
  cases h
  exact .queued hcursor Array.getElem?_push_size rfl rfl rfl
    ⟨_, Array.getElem?_push_size, hpromise, rfl⟩

end Run

namespace Machine

/-- A call of the promise that ends in this way settles it, or leaves a task that does. -/
inductive Concludes (id : Nat) (x : Value) (m : Machine) : PromiseState → Outcome → Prop
  | returned {v : Value} {s : PromiseState} (h : Run.settlement v m = .ok (s, x) m) :
      Concludes id x m .fulfilled (.returned v)
  | suspended {s : PromiseState} {k : Nat} (h : m.Pledged id s x) :
      Concludes id x m s (.suspended k)

variable {m m' : Machine} {s : PromiseState} {x : Value} {outcome : Outcome}

theorem Concludes.of_eq (h : m.Concludes id x s outcome) (hpromises : m'.promises = m.promises)
    (htasks : m'.microtasks = m.microtasks) (hcursor : m'.cursor = m.cursor)
    (hconts : m'.continuations = m.continuations) : m'.Concludes id x s outcome := by
  cases h with
  | returned h => exact .returned (Run.settlement_of_promises h hpromises)
  | suspended h => exact .suspended (h.of_eq hpromises htasks hcursor hconts)

theorem Concludes.finish (h : m.Concludes id x s outcome) (hid : id < m.promises.size)
    (hf : Run.finish (some id) outcome m = .ok () m') : m'.Pledged id s x := by
  cases h with
  | returned h =>
    obtain ⟨_, _, hv, hsettle⟩ := Run.bind_eq_ok hf
    rw [Outcome.value, (Run.settlement_inv h).2.1] at hv
    cases hv
    exact .settled (Run.settle_settled hsettle hid)
  | suspended h =>
    cases hf
    exact h

end Machine

namespace Run

open Machine

variable {m m' : Machine} {s : PromiseState} {x : Value}

/-! ## Draining the queue -/

theorem secure_turn (hm : m.Secure id) (ht : m.microtasks[m.cursor]? = some t) (hroom : m.Room 2)
    (hrun : runMicrotask t ((m.taken.emitted t.steps).logged log) = .ok () m') :
    ((m.taken.emitted t.steps).logged log).Serves true t .done m' ∧
      ((m.taken.emitted t.steps).logged log).Path m' ∧ m'.Secure id := by
  have hserves := (@runMicrotask_serves true t ((m.taken.emitted t.steps).logged log)
    fun _ => hm.rest).of_ok hrun
  exact ⟨hserves, hm.serves ht hroom hserves⟩

/-- The turn of a task meets the pledge if it is its own, and leaves it as it is if not. -/
theorem pledged_turn (hm : m.Secure id) (h : m.Pledged id s x) (hs : s ≠ .pending)
    (hx : x.promise? = none) (ht : m.microtasks[m.cursor]? = some t) (hroom : m.Room 2)
    (hrun : runMicrotask t ((m.taken.emitted t.steps).logged log) = .ok () m') :
    m'.Pledged id s x := by
  obtain ⟨hserves, hpath, hsecure⟩ := secure_turn hm ht hroom hrun
  have hother (h : ((m.taken.emitted t.steps).logged log).Pledged id s x) : m'.Pledged id s x :=
    h.kept hs hserves.grows hserves.amends hpath hsecure.firm
  cases h with
  | settled h => exact hother (.settled h)
  | @queued i k t' hi ht' hreaction hstate hvalue hk =>
    rcases Nat.eq_or_lt_of_le hi with rfl | hi
    · -- the turn is that of the task itself
      obtain rfl : t = t' := Option.some.inj (ht.symm.trans ht')
      subst hstate hvalue
      have hk' : ((m.taken.emitted t.steps).logged log).ReturnsAwaited id k := hk
      exact .settled (runMicrotask_settles hreaction hk' hm.firm.made hs hx hrun)
    · exact hother (.queued hi ht' hreaction hstate hvalue hk)

/-- When the queue is drained, the promise is settled as it was pledged. -/
theorem pledged_drained (budget : Nat) (hm : m.Secure id) (h : m.Pledged id s x)
    (hs : s ≠ .pending) (hx : x.promise? = none) (hrun : microtaskTurns budget m = .ok () m') :
    m'.SettledAs id s x := by
  induction budget generalizing m with
  | zero =>
    obtain ⟨ht, rfl⟩ | ⟨n, _, _, _, hn, _⟩ := microtaskTurns_inv hrun
    · exact h.of_idle ht
    · cases hn
  | succ budget ih =>
    obtain ⟨ht, rfl⟩ | ⟨n, t, log, m1, hn, ht, hroom, _, hturn, hrest⟩ := microtaskTurns_inv hrun
    · exact h.of_idle ht
    · cases hn
      obtain ⟨_, _, hm1⟩ := secure_turn hm ht hroom hturn
      exact ih hm1 (pledged_turn hm h hs hx ht hroom hturn) hrest

end Run

end EventLoop
