/-
  What a microtask leaves of the context when its turn fails.

  A function that was suspended goes on in its own context: its scope is set and its frame is put on
  the active calls, then the step that shows it on the stack is emitted, and from there on the
  context is put back whatever happens.  Every other failure in the turn of a microtask, inside of
  the body or at the step that shows its end, finds the context of before.  The one gap is the first
  step: if there is no room for it, the microtask `Stalls`, and its scope and frame stay.

  A drain of the queue keeps the context unless it comes to a microtask that stalls
  (`context_kept_unless_stalled`).
-/
import EventLoop.Proofs.Checkpoint
import EventLoop.Proofs.Context

namespace EventLoop

/-- A microtask that has to go on with a suspended function has no room for the step that shows the
    function on the stack. -/
structure Microtask.Stalls (t : Microtask) (k : Nat) (m : Machine) : Prop where
  reaction : t.reaction = some (.resume k)
  settled : t.state ≠ .rejected
  full : m.Full

namespace Machine

/-- A function that goes on has one more frame on top of the active calls. -/
theorem not_sameContext_resumed {m m1 : Machine} (h : m.SameContext m1) (c : Continuation) :
    ¬ m.SameContext (m1.resumed c) := by
  intro hsame
  have hlength : (m1.resumed c).frames.length = m1.frames.length := by rw [hsame.2, h.2]
  simp [resumed] at hlength

/-- A microtask that fails keeps the context, or is one that goes on with a function when there is
    no room for a step. -/
theorem Serves.failed_context {tame : Bool} {t : Microtask} {m m' : Machine}
    (h : m.Serves tame t .failed m') :
    m.SameContext m' ∨ ∃ k, t.reaction = some (.resume k) ∧ m.Full := by
  cases h with
  | linkFailed _ hw => exact .inl hw.context
  | stuck h hfull => exact .inr ⟨_, h, hfull⟩
  | cut => exact .inl ⟨rfl, rfl⟩

/-- A drain of the queue from `m` comes to a microtask that stalls: `m1` is the state in which it is
    run, in the context of the drain. -/
structure StopsAt (m : Machine) (t : Microtask) (k : Nat) (m1 : Machine) : Prop where
  context : m.SameContext m1
  taken : m1.microtasks[m1.cursor - 1]? = some t
  later : m.cursor < m1.cursor
  stalls : t.Stalls k m1

end Machine

namespace Run

open Machine

/-- If what a function waits for is rejected, nothing fails. -/
theorem resume_rejected (c : Continuation) (value : Value) (m : Machine) :
    ∃ m', resume c .rejected value m = .ok () m' := by
  simp only [resume, if_true, bind_apply, note_apply]
  cases c.promise with
  | none => exact ⟨_, rfl⟩
  | some id =>
    obtain ⟨ps, queue, passed, log, _, hs⟩ := settle_cascade id .rejected value (m.logged
      (m.log.write 2 ("await in " ++ c.function.name ++ " rejected; body abandoned")))
    exact ⟨_, hs⟩

/-- The frame of a function is there before the step that shows it, and stays if that fails. -/
theorem runMicrotask_of_stalls {t : Microtask} {k : Nat} {m : Machine} (h : t.Stalls k m) :
    runMicrotask t m = .error .stepLimit (m.resumed (m.continuationAt k)) := by
  have hfull : (m.resumed (m.continuationAt k)).Full := h.full
  have hpush := emit_of_full (.push ((m.continuationAt k).function.name ++ "()")) hfull
  rw [runMicrotask, h.reaction]
  show resume (m.continuationAt k) t.state t.value m = _
  simp only [resume, h.settled, if_false, bind_apply, get_apply, set_apply]
  rw [resumed] at hpush ⊢
  simp only [hpush]

/-- A microtask keeps the context unless it stalls, whether it succeeds or fails. -/
theorem runMicrotask_context (t : Microtask) (m : Machine) (h : ∀ k, ¬ t.Stalls k m) :
    m.SameContext (final (runMicrotask t m)) := by
  have hserves := @runMicrotask_serves false t m (by simp)
  cases hrun : runMicrotask t m with
  | ok a m' =>
    rw [hrun] at hserves
    cases hserves with
    | ok hs => exact hs.context
  | error fault m' =>
    rw [hrun] at hserves
    cases hserves with
    | error hs =>
      rcases hs.failed_context with hcontext | ⟨k, hreaction, hfull⟩
      · exact hcontext
      · -- a rejection does not fail, so the function was about to go on
        refine absurd ⟨hreaction, fun hstate => ?_, hfull⟩ (h k)
        obtain ⟨m1, hok⟩ := resume_rejected (m.continuationAt k) t.value m
        rw [← hstate] at hok
        have hrun' : runMicrotask t m = .ok () m1 := by
          rw [runMicrotask, hreaction]
          exact hok
        rw [hrun'] at hrun
        cases hrun

/-- Running microtasks one after the other keeps the context, unless one of them stalls. -/
theorem microtaskTurns_context (budget : Nat) (m : Machine) :
    m.SameContext (final (microtaskTurns budget m)) ∨ ∃ t k m1, m.StopsAt t k m1 ∧
      microtaskTurns budget m = .error .stepLimit (m1.resumed (m1.continuationAt k)) := by
  induction budget using Nat.strongRecOn generalizing m with
  | ind budget ih =>
    obtain ⟨-, h⟩ | ⟨t, ht, ⟨fault, log, part, -, h⟩ | ⟨n, log, rfl, -, -, h⟩⟩ :=
      microtaskTurns_cases budget m
    · rw [h]
      exact .inl ⟨rfl, rfl⟩
    · rw [h]
      exact .inl ⟨rfl, rfl⟩
    rw [h]
    have hshown : m.SameContext ((m.taken.emitted t.steps).logged log) := ⟨rfl, rfl⟩
    by_cases hstalls : ∃ k, t.Stalls k ((m.taken.emitted t.steps).logged log)
    · obtain ⟨k, hk⟩ := hstalls
      refine .inr ⟨t, k, _, ⟨hshown, ?_, Nat.lt_succ_self _, hk⟩, ?_⟩
      · exact ht
      · exact bind_of_error (runMicrotask_of_stalls hk) _
    · have hturn := runMicrotask_context t ((m.taken.emitted t.steps).logged log)
        fun k hk => hstalls ⟨k, hk⟩
      have hserves := @runMicrotask_serves false t ((m.taken.emitted t.steps).logged log)
        (by simp)
      cases hrun : runMicrotask t ((m.taken.emitted t.steps).logged log) with
      | error fault m' =>
        rw [hrun] at hturn
        rw [bind_of_error hrun]
        exact .inl (hshown.trans hturn)
      | ok a m1 =>
        rw [hrun] at hturn hserves
        rw [bind_of_ok hrun]
        have hcontext : m.SameContext m1 := hshown.trans hturn
        rcases ih n (Nat.lt_succ_self n) m1 with hsame | ⟨t', k, m2, hstops, hrest⟩
        · exact .inl (hcontext.trans hsame)
        · cases hserves with
          | ok hs =>
            -- a later microtask stalls, and the context is the same until then
            have hcursor : m1.cursor = m.cursor + 1 := hs.grows.cursor
            have hlater := hstops.later
            exact .inr ⟨t', k, m2, ⟨hcontext.trans hstops.context, hstops.taken,
              by omega, hstops.stalls⟩, hrest⟩

/-- The turn of a microtask, and a drain of the queue, end in the context in which they started,
    also if they fail, unless a suspended function has to go on when there is no room for the step
    that shows it.  Such a turn fails with the scope of the function, and with its frame on top of
    the active calls. -/
theorem context_kept_unless_stalled (t : Microtask) (m : Machine) :
    (m.SameContext (final (runMicrotask t m)) ↔ ∀ k, ¬ t.Stalls k m) ∧
    (∀ k, t.Stalls k m →
      runMicrotask t m = .error .stepLimit (m.resumed (m.continuationAt k))) ∧
    (m.SameContext (final (drainMicrotasks m)) ∨
      ∃ t k m1, m.StopsAt t k m1 ∧
        drainMicrotasks m = .error .stepLimit (m1.resumed (m1.continuationAt k))) := by
  refine ⟨⟨fun hsame k hk => ?_, runMicrotask_context t m⟩, fun k hk => runMicrotask_of_stalls hk,
    microtaskTurns_context _ m⟩
  rw [runMicrotask_of_stalls hk] at hsame
  exact not_sameContext_resumed (SameContext.refl m) _ hsame

/-- The limit is met by the step that shows a suspended function again: the drain fails, and the
    function is still on the stack, in its scope. -/
theorem stalled_function_stays_active :
    let m := final (walkSource (some "async function f() { await 1 }\nf()") (Machine.start 6 {}))
    m.frames.length = 0 ∧ m.scope = Scope.global ∧
    succeeds drainMicrotasks (fun _ _ => true) m = false ∧
    (final (drainMicrotasks m)).frames.map (·.function.name) = ["f"] ∧
    (final (drainMicrotasks m)).scope ≠ Scope.global := by
  decide +kernel

end Run

end EventLoop
