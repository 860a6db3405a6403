/-
  Code runs to completion.

  While a statement or an expression runs, with all functions that it calls, no time passes and no
  microtask has its turn.  `Synchronous` says what else it leaves alone: the steps that were shown,
  the microtasks that were queued, and the promises that were there before, for which reactions may
  come to wait as long as they are pending.

  A call of an async function settles a promise at its end, but one that it has made itself.  What
  waits for that promise was attached by the same code, so all that a settlement reaches is new
  (`Undisturbed.apart`).
-/
import EventLoop.Generator
import EventLoop.Proofs.Strand
import EventLoop.Proofs.Upkeep

namespace EventLoop

open Script

/-- The first `n` promises are as they were, apart from reactions that came to wait for those that
    are pending. -/
def Untouched (n : Nat) (ps ps' : Array Promise) : Prop :=
  ∀ id < n, ∀ p, ps[id]? = some p →
    ∃ ws, ps'[id]? = some { p with waiters := p.waiters ++ ws } ∧ (p.state ≠ .pending → ws = [])

namespace Untouched

variable {n : Nat} {ps ps' ps'' : Array Promise}

theorem of_eq (h : ∀ id < n, ps'[id]? = ps[id]?) : Untouched n ps ps' := by
  intro id hid p hp
  exact ⟨[], by rw [h id hid, hp, List.append_nil], fun _ => rfl⟩

theorem trans (h : Untouched n ps ps') (h' : Untouched n ps' ps'') : Untouched n ps ps'' := by
  intro id hid p hp
  obtain ⟨ws, hp', hws⟩ := h id hid p hp
  obtain ⟨ws', hp'', hws'⟩ := h' id hid _ hp'
  refine ⟨ws ++ ws', by rw [hp'', List.append_assoc], fun hstate => ?_⟩
  rw [hws hstate, hws' hstate, List.append_nil]

end Untouched

namespace Machine

/-- What code did to the callbacks that wait, while it showed the steps `l`: the ones that are gone
    were cleared, and the new ones come last, in the order of their registration. -/
structure Timed (m m' : Machine) (l : List Step) (kept new : List Callback) : Prop where
  callbacks : m'.callbacks = kept ++ new
  sublist : kept.Sublist m.callbacks
  /-- A timer that is cleared is gone also if there is no room for the step that shows it. -/
  cleared : ∀ cb ∈ m.callbacks, cb ∈ kept ∨ .webapiRemove cb.id ∈ l ∨ m'.Full
  registered : ∀ cb ∈ new, .webapiAdd cb.id cb.kind.api cb.delay ∈ l ∧
    cb.due = m.clock + cb.delay ∧ m.timerCount < cb.id ∧ cb.id ≤ m'.timerCount
  ordered : new.Pairwise (·.id < ·.id)

/-- What code that runs to completion leaves alone. -/
structure Synchronous (m m' : Machine) : Prop where
  clock : m'.clock = m.clock
  cursor : m'.cursor = m.cursor
  processed : m'.processed = m.processed
  microtasks : m.microtasks.toList <+: m'.microtasks.toList
  promises : Untouched m.promises.size m.promises m'.promises
  limit : m'.steps.limit = m.steps.limit
  steps : ∃ l kept new, m'.steps.toList = m.steps.toList ++ l ∧ m.Timed m' l kept new

/-! ## Timers -/

namespace Timed

variable {m0 m m' : Machine} {l l' : List Step} {kept new : List Callback}

theorem of_callbacks_eq (h : m0.Timed m l kept new) (hcallbacks : m'.callbacks = m.callbacks)
    (hcount : m.timerCount ≤ m'.timerCount) (hl : l ⊆ l') (hfull : m.Full → m'.Full) :
    m0.Timed m' l' kept new where
  callbacks := hcallbacks.trans h.callbacks
  sublist := h.sublist
  cleared cb hcb := (h.cleared cb hcb).imp_right (.imp (@hl _) hfull)
  registered cb hcb := by
    obtain ⟨hadd, hdue, hnew, hle⟩ := h.registered cb hcb
    exact ⟨hl hadd, hdue, hnew, Nat.le_trans hle hcount⟩
  ordered := h.ordered

theorem register (h : m0.Timed m l kept new) (hclock : m.clock = m0.clock)
    (hcount : m0.timerCount ≤ m.timerCount) (kind : TimerKind) (callback : Option Expr)
    (delay line : Nat) (hroom : m.Room 4) : ∃ new', m0.Timed (m.registered kind callback delay line)
      (l ++ [.highlight line, .push (Run.timerLabel kind delay),
        .webapiAdd (m.timerCount + 1) kind.api delay, .pop]) kept new' := by
  let cb : Callback :=
    { id := m.timerCount + 1, kind, callback, delay, due := m.clock + delay, scope := m.scope }
  refine ⟨new ++ [cb], ?_, h.sublist, fun cb hcb => ?_, fun cb hcb => ?_, ?_⟩
  · rw [Machine.registered, ← List.append_assoc, ← h.callbacks]
  · refine (h.cleared cb hcb).imp_right (.imp (List.mem_append_left _) fun hfull => ?_)
    exact absurd hfull (hroom.not_full (by decide))
  · rcases List.mem_append.1 hcb with hold | hcb
    · obtain ⟨hadd, hdue, hnew, hle⟩ := h.registered cb hold
      exact ⟨List.mem_append_left _ hadd, hdue, hnew, Nat.le_succ_of_le hle⟩
    · obtain rfl := List.mem_singleton.1 hcb
      refine ⟨by simp [cb], by rw [← hclock], Nat.lt_succ_of_le hcount, Nat.le_refl _⟩
  · refine List.pairwise_append.2 ⟨h.ordered, List.pairwise_singleton _ _, fun a ha b hb => ?_⟩
    obtain rfl := List.mem_singleton.1 hb
    exact Nat.lt_succ_of_le (h.registered a ha).2.2.2

theorem drop (h : m0.Timed m l kept new) {id : Nat}
    (hcallbacks : m'.callbacks = (m.dropped id).callbacks) (hcount : m'.timerCount = m.timerCount)
    (hl : l ⊆ l') (hfull : m.Full → m'.Full) (hgone : .webapiRemove id ∈ l' ∨ m'.Full) :
    m0.Timed m' l' (kept.filter (·.id != id)) (new.filter (·.id != id)) where
  callbacks := by rw [hcallbacks, dropped, h.callbacks, List.filter_append]
  sublist := List.filter_sublist.trans h.sublist
  cleared cb hcb := by
    by_cases hid : cb.id = id
    · exact .inr (hid ▸ hgone)
    · rcases h.cleared cb hcb with hkept | hgone
      · exact .inl (List.mem_filter.2 ⟨hkept, by simpa using hid⟩)
      · exact .inr (hgone.imp (@hl _) hfull)
  registered cb hcb := by
    obtain ⟨hadd, hdue, hnew, hle⟩ := h.registered cb (List.mem_of_mem_filter hcb)
    exact ⟨hl hadd, hdue, hnew, hcount ▸ hle⟩
  ordered := h.ordered.filter _

end Timed

/-! ## What each action leaves alone -/

/-- The numbers of the promises that a state has. -/
def made (m : Machine) (id : Nat) : Bool := id < m.promises.size

/-- What holds all the time while code runs that began in `m0`: nobody who waits for a promise that
    is new settles one that is not. -/
structure Undisturbed (m0 m : Machine) : Prop where
  synchronous : m0.Synchronous m
  promises : m0.promises.size ≤ m.promises.size
  timerCount : m0.timerCount ≤ m.timerCount
  apart : Apart m0.made m.promises

namespace Undisturbed

variable {m0 m m' : Machine}

theorem refl (m : Machine) : m.Undisturbed m where
  synchronous := {
    clock := rfl
    cursor := rfl
    processed := rfl
    microtasks := List.prefix_rfl
    promises := .of_eq fun _ _ => rfl
    limit := rfl
    steps := ⟨[], m.callbacks, [], (List.append_nil _).symm, (List.append_nil _).symm,
      .refl _, fun _ => .inl, nofun, .nil⟩ }
  promises := Nat.le_refl _
  timerCount := Nat.le_refl _
  apart := by
    intro id hid w hw
    have hsize : m.promises.size ≤ id := by simpa [made] using hid
    simp [waitersAt, Array.getElem?_eq_none hsize] at hw

section

variable (h : m0.Undisturbed m)

include h

theorem of_steps (part : List Step)
    (hm' : ∃ steps callbacks timerCount, m' = { m with steps, callbacks, timerCount } ∧
      m.timerCount ≤ timerCount ∧ steps.limit = m.steps.limit ∧
      steps.toList = m.steps.toList ++ part) (htimed : ∀ l kept new, m0.Timed m l kept new →
      ∃ kept' new', m0.Timed m' (l ++ part) kept' new') : m0.Undisturbed m' := by
  obtain ⟨steps, callbacks, timerCount, rfl, hcount, hlimit, hsteps⟩ := hm'
  obtain ⟨⟨hclock, hcursor, hprocessed, hmicrotasks, hpromises, hlimit0, l, kept, new, hl, ht⟩,
    hsize, hcount0, hapart⟩ := h
  obtain ⟨kept', new', ht'⟩ := htimed l kept new ht
  refine ⟨⟨hclock, hcursor, hprocessed, hmicrotasks, hpromises, hlimit.trans hlimit0,
    l ++ part, kept', new', ?_, ht'⟩, hsize, Nat.le_trans hcount0 hcount, hapart⟩
  rw [hsteps, hl, List.append_assoc]

theorem elsewhere (tables : Tables) (arrays : Value.Arrays)
    (continuations : Array Continuation) (scope : Scope) (registry : List (String × Function))
    (functionCount : Nat) (frames : List Frame) (rootState : PromiseState)
    (warnings : Array String) (log : Log) : m0.Undisturbed
      { m with
        tables, arrays, continuations, scope, registry, functionCount, frames
        rootState, warnings, log } := by
  obtain ⟨⟨hclock, hcursor, hprocessed, hmicrotasks, hpromises, hlimit, l, kept, new, hl, ht⟩,
    hsize, hcount, hapart⟩ := h
  exact ⟨⟨hclock, hcursor, hprocessed, hmicrotasks, hpromises, hlimit, l, kept, new, hl,
    ht.of_callbacks_eq rfl (Nat.le_refl _) (List.Subset.refl l) id⟩, hsize, hcount, hapart⟩

theorem aside (haside : m.Aside m') (hpromises : Untouched m0.promises.size m.promises m'.promises)
    (hapart : Apart m0.made m'.promises) : m0.Undisturbed m' := by
  obtain ⟨tasks, htasks⟩ := haside.microtasks
  obtain ⟨l, kept, new, hl, ht⟩ := h.synchronous.steps
  have hfull : m.Full → m'.Full := by simp only [Full, haside.steps, imp_self]
  exact {
    synchronous := {
      clock := haside.clock.trans h.synchronous.clock
      cursor := haside.cursor.trans h.synchronous.cursor
      processed := haside.processed.trans h.synchronous.processed
      microtasks := h.synchronous.microtasks.trans ⟨tasks, htasks.symm⟩
      promises := h.synchronous.promises.trans hpromises
      limit := by rw [haside.steps, h.synchronous.limit]
      steps := ⟨l, kept, new, by rw [haside.steps, hl], ht.of_callbacks_eq haside.callbacks
        (Nat.le_of_eq haside.timerCount.symm) (List.Subset.refl l) hfull⟩ }
    promises := Nat.le_trans h.promises haside.promises
    timerCount := haside.timerCount ▸ h.timerCount
    apart := hapart }

theorem made_size : m0.made m.promises.size = false := by
  simpa [made] using h.promises

theorem withPromise (state : PromiseState) (value : Value) :
    m0.Undisturbed (m.withPromise state value) := by
  refine h.aside (aside_withPromise m state value) (.of_eq fun id hid => ?_) fun id hid => ?_
  · have hne : id ≠ m.promises.size := Nat.ne_of_lt (Nat.lt_of_lt_of_le hid h.promises)
    rw [Machine.withPromise, Array.getElem?_push, if_neg hne]
  · rw [Machine.withPromise, waitersAt_push rfl]
    exact h.apart id hid

theorem placed {w : Waiter} (hw : w.Foreign m0.made)
    (hplaced : m.Placed w m') : m0.Undisturbed m' := by
  have haside := hplaced.aside
  cases hplaced with
  | queued state value log => exact h.aside haside (.of_eq fun _ _ => rfl) h.apart
  | @parked id p log hp hpending =>
    refine h.aside haside (fun i _ q hq => ?_) fun i hi w' hw' => ?_
    · change ∃ ws, (m.promises.modify id _)[i]? = _ ∧ _
      rw [Array.getElem?_modify, hq]
      by_cases hid : id = i
      · -- only a pending promise is waited for
        subst hid
        obtain rfl : p = q := Option.some.inj (hp.symm.trans hq)
        exact ⟨[w], by simp, fun hstate => absurd hpending hstate⟩
      · exact ⟨[], by simp [hid], fun _ => rfl⟩
    · rcases mem_waitersAt_parked hw' with hold | ⟨_, rfl⟩
      · exact h.apart i hi w' hold
      · exact hw

/-- The settlement of a new promise reaches new ones only. -/
theorem settle {id : Nat} {state : PromiseState} {value : Value}
    (hid : m0.made id = false) (hs : Run.settle id state value m = .ok () m') :
    m0.Undisturbed m' := by
  have haside := aside_of_settle hs
  obtain ⟨ps, queue, passed, log, hc, rfl⟩ := Run.settle_inv hs
  obtain ⟨hps, _, hsame⟩ := hc.foreign (h.apart.settledAt id state value) (h.apart id hid)
  refine h.aside haside (.of_eq fun i hi => ?_) hps
  have hmade : m0.made i = true := by simpa [made] using hi
  have hne : id ≠ i := by
    rintro rfl
    rw [hid] at hmade
    cases hmade
  change ps[i]? = _
  rw [hsame i hmade, settledAt, Array.getElem?_modify, if_neg hne]

theorem emitted (s : Step) (hroom : m.Room 1) : m0.Undisturbed (m.emitted [s]) := by
  refine h.of_steps [s] ⟨_, _, _, rfl, Nat.le_refl _, rfl, m.toList_emitted [s]⟩ ?_
  intro l kept new ht
  exact ⟨kept, new, ht.of_callbacks_eq rfl (Nat.le_refl _) (List.subset_append_left _ _)
    fun hfull => absurd hfull (hroom.not_full (by decide))⟩

end

end Undisturbed

end Machine

namespace Run

open Machine

/-- No elementary change of evaluated code disturbs what was there when it began. -/
theorem undisturbed_upheld (m0 : Machine) :
    Upheld (fun _ => True) (fun _ => True) m0.Undisturbed where
  context _ _ h := h.elsewhere _ _ _ _ _ _ _ _ _ _
  data _ _ _ _ _ _ h := h.elsewhere _ _ _ _ _ _ _ _ _ _
  write _ _ h _ := h.elsewhere _ _ _ _ _ _ _ _ _ _
  nest _ _ h := h.elsewhere _ _ _ _ _ _ _ _ _ _
  emit s hroom h := h.emitted s hroom
  count h := by
    refine h.of_steps [] ⟨_, _, _, rfl, Nat.le_succ _, rfl, (List.append_nil _).symm⟩ ?_
    intro l kept new ht
    exact ⟨kept, new, ht.of_callbacks_eq rfl (Nat.le_succ _) (List.subset_append_left _ _) id⟩
  register kind callback delay line hroom h := by
    refine h.of_steps _ ⟨_, _, _, rfl, Nat.le_succ _, rfl, toList_emitted _ _⟩ ?_
    intro l kept new ht
    exact ⟨kept, ht.register h.synchronous.clock h.timerCount kind callback delay line hroom⟩
  drop {_ cb} _ hroom h := by
    refine h.of_steps [.webapiRemove cb.id]
      ⟨_, _, _, rfl, Nat.le_refl _, rfl, toList_emitted _ _⟩ ?_
    intro l kept new ht
    exact ⟨_, _, ht.drop rfl rfl (List.subset_append_left _ _)
      (fun hfull => absurd hfull (hroom.not_full (by decide))) (.inl (by simp))⟩
  lose _ hfull h := by
    refine h.of_steps [] ⟨_, _, _, rfl, Nat.le_refl _, rfl, (List.append_nil _).symm⟩ ?_
    intro l kept new ht
    exact ⟨_, _, ht.drop rfl rfl (List.subset_append_left _ _) id (.inr hfull)⟩
  promise state value h := h.withPromise state value
  mark name state value h := by
    exact h.aside (aside_queued _ name _ none state value _) (.of_eq fun _ _ => rfl) h.apart
  attach hm h := by
    refine (h.withPromise .pending .undefined).placed ?_ (attach_inv hm).2
    simpa [Waiter.Foreign, Waiter.derived] using h.made_size
  suspend {m _ frame _ target _} hm h := by
    have hk : m0.Undisturbed (m.withContinuation frame target) :=
      h.elsewhere _ _ _ _ _ _ _ _ _ _
    exact hk.placed (by simp [Waiter.Foreign, Waiter.derived]) (suspend_inv hm).2
  defer _ _ h := h.elsewhere _ _ _ _ _ _ _ _ _ _
  settle hs h h' := h'.settle h.made_size hs
  inside _ _ := trivial
  encloses := id
  renews := id

/-- A statement or an expression runs to completion, with all functions that it calls: nothing that
    was there before has its turn or is settled meanwhile.  This holds of the state in which the code
    ends, also when it fails. -/
theorem code_runs_to_completion (m : Machine) (depth : Nat) :
    (∀ consumed e, m.Synchronous (final (eval (invoke depth) consumed e m))) ∧
    (∀ s, m.Synchronous (final (exec (invoke depth) s m))) ∧
    (∀ f args label line, m.Synchronous (final (invoke depth f args label line m))) ∧
    (∀ node, m.Synchronous (final (evaluateNode node m))) ∧
    ∀ node, m.Synchronous (final (executeNode node m)) := by
  have h := undisturbed_upheld m
  have hcall := invoke_upholds h fun _ => trivial
  have heval (depth : Nat) (consumed : Bool) (e : Expr) :
      m.Synchronous (final (eval (invoke depth) consumed e m)) :=
    (eval_upholds h (hcall depth) consumed e m trivial (.refl m)).1.synchronous
  have hexec (depth : Nat) (s : Stmt) : m.Synchronous (final (exec (invoke depth) s m)) :=
    (exec_upholds h (hcall depth) s m trivial (.refl m)).1.synchronous
  refine ⟨heval depth, hexec depth, fun f args label line => ?_, fun node => ?_, fun node => ?_⟩
  · exact (hcall depth f args label line m trivial (.refl m)).1.synchronous
  · cases node with
    | expr e => exact heval m.callBudget false e
    | stmt s => exact (Undisturbed.refl m).synchronous
  · cases node with
    | expr e => exact (Undisturbed.refl m).synchronous
    | stmt s => exact hexec m.callBudget s

end Run

end EventLoop
