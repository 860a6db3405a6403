/-
  Replay shows each step once, and in order.

  Runs, single steps, pauses and stops may be interleaved in any way: they share one place in the
  steps, and every one of them takes the step at that place and moves it on.  `Engine.Plays` says
  what one event does to that place, to the picture and to the listener, and from it comes what any
  list of events does (`Stage.after_playsAll`).

  A run that fails writes a line to the console, which is part of the picture.  A step can be
  applied and then fail its run (`unscalable_wait_shows_error`), so the statement on the picture in
  `replay_applies_in_order` speaks of steps whose runs do not fail.
-/
import EventLoop.Proofs.Interleaving
import EventLoop.Proofs.Picture

namespace EventLoop

/-! ## Pictures without flags -/

/-- Whether a store can show steps of the kind. -/
def StepKind.isKnown : StepKind → Bool
  | .unknown _ => false
  | _ => true

namespace Store

variable {s s' : Store} {step : Step}

/-- The picture alone: call stack, queues, Web APIs, console and current line. -/
def bare (s : Store) : Store := { s with running := false, paused := false }

theorem bare_show? (h : s.show? step = some s') : s.bare.show? step = some s'.bare := by
  rw [show?] at h ⊢
  cases hkind : step.kind <;> rw [hkind] at h <;> cases h <;> rfl

theorem replay?_append (s : Store) (l l' : List Step) :
    s.replay? (l ++ l') = (s.replay? l).bind (·.replay? l') := List.foldlM_append

theorem isSome_show? (s : Store) (step : Step) : (s.show? step).isSome = step.kind.isKnown := by
  rw [show?]
  cases step.kind <;> rfl

end Store

namespace Listener

@[simp] theorem steps_hearLine (l : Listener) (message : Json) :
    (l.hearLine message).steps = l.steps := by
  simp [steps, hearLine]

@[simp] theorem steps_hearStep (l : Listener) (s : Step) :
    (l.hearStep s).1.steps = l.steps ++ [s] := by
  rw [hearStep]
  cases l.failure <;> simp [steps]

end Listener

/-! ## What one event does -/

namespace Handing

variable {h : Handing}

/-- Whether the step was applied and, if a run has handed it over, its time can be waited for. -/
def succeeds (h : Handing) : Bool := h.fault?.isNone && (!h.byRun || h.wait.isOk)

theorem show?_of_applied (hf : h.fault? = none) :
    h.engine.store.show? h.step = some h.after.store := by
  rw [fault?, Engine.apply] at hf
  rw [after, Engine.apply]
  cases hshow : h.engine.store.show? h.step with
  | none =>
    rw [hshow] at hf
    cases hf
  | some store => rfl

/-- The listener hears the step, if the store can show it. -/
theorem steps_after (h : Handing) :
    h.after.listener.steps = h.engine.listener.steps ++ [h.step].filter (·.kind.isKnown) := by
  have hknown := h.engine.store.isSome_show? h.step
  rw [after, Engine.apply]
  cases hshow : h.engine.store.show? h.step with
  | none =>
    rw [hshow] at hknown
    simp [← hknown]
  | some store =>
    rw [hshow] at hknown
    have hfilter : [h.step].filter (·.kind.isKnown) = [h.step] := by simp [← hknown]
    rw [hfilter]
    by_cases hkind : h.step.kind = .consoleOutput <;> simp [hkind, Engine.note]

theorem succeeds_of_failed {f : ReplayFault} (hrun : h.byRun = true) (hf : h.taken = .failed f) :
    h.succeeds = false := by
  rw [taken] at hf
  rw [succeeds, hrun]
  cases hfault : h.fault? with
  | some f => rfl
  | none =>
    cases hwait : h.wait with
    | error f => rfl
    | ok ms =>
      rw [hfault, hwait] at hf
      cases hf

end Handing

namespace Engine

variable {e e' : Engine} {speed : Speed} {epoch : Nat} {hand : Option Handing} {h : Handing}

/-- A step at most is handed over, the one at the place of the engine; the place moves on, the
    picture shows the step, and the listener hears it. -/
structure Plays (e : Engine) (hand : Option Handing) (e' : Engine) : Prop where
  steps : e'.steps = e.steps
  cursor : e'.cursor = e.cursor + hand.toList.length
  next : ∀ h, hand = some h → e.steps[e.cursor]? = some h.step
  heard : e'.listener.steps =
    e.listener.steps ++ (hand.toList.map Handing.step).filter (·.kind.isKnown)
  shown : (∀ h, hand = some h → h.succeeds = true) →
    e.store.bare.replay? (hand.toList.map Handing.step) = some e'.store.bare

theorem Plays.still (hsteps : e'.steps = e.steps) (hcursor : e'.cursor = e.cursor)
    (hlistener : e'.listener.steps = e.listener.steps) (hstore : e'.store.bare = e.store.bare) :
    e.Plays none e' where
  steps := hsteps
  cursor := hcursor
  next _ h := nomatch h
  heard := by simp [hlistener]
  shown _ := by rw [hstore]; rfl

theorem handing?_plays {byRun : Bool} (hh : e.handing? speed byRun = some h) :
    e.Plays (some h) h.after := by
  obtain ⟨hnext, hengine, _, _⟩ := handing?_eq_some hh
  obtain ⟨hsteps, hcursor⟩ := handing?_place hh
  refine ⟨hsteps, hcursor, ?_, ?_, ?_⟩
  · rintro _ ⟨⟩
    exact hnext
  · rw [h.steps_after, hengine]
    rfl
  · intro hsucceeds
    have happlied : h.fault? = none :=
      Option.isNone_iff_eq_none.1 (Bool.and_eq_true_iff.1 (hsucceeds h rfl)).1
    have hshow := Handing.show?_of_applied happlied
    rw [hengine] at hshow
    have hbare := Store.bare_show? hshow
    simp [Store.replay?, hbare]

theorem take_plays (e : Engine) (speed : Speed) :
    e.Plays (e.handing? speed false) (e.take speed).1 := by
  cases hh : e.handing? speed false with
  | none =>
    rw [take_of_done (handing?_eq_none.1 hh)]
    exact .still rfl rfl rfl rfl
  | some h =>
    rw [take_of_handing hh]
    exact handing?_plays hh

theorem finishRun_plays (e : Engine) (epoch : Nat) (finished : Bool) :
    e.Plays none (e.finishRun epoch finished).1 := by
  rcases e.finishRun_eq epoch finished with h | ⟨h, _⟩ <;> rw [h] <;> exact .still rfl rfl rfl rfl

namespace RunTurn

variable {q : Engine × RunProgress}

theorem plays (ht : RunTurn e speed epoch hand q) : e.Plays hand q.1 := by
  have hplace := ht.place
  cases ht with
  | cancelled _ => exact e.finishRun_plays epoch false
  | held _ _ _ => exact .still rfl rfl rfl rfl
  | done _ _ => exact e.finishRun_plays epoch true
  | @failed h f _ hh hf =>
    have hplays := handing?_plays hh
    have hend := (h.after.reported f).finishRun_plays epoch false
    refine ⟨hplace.1, hplace.2, hplays.next, ?_, ?_⟩
    · have hreported : (h.after.reported f).listener.steps = h.after.listener.steps :=
        Listener.steps_hearLine _ _
      rw [failRun_eq, hend.heard, hreported, hplays.heard]
      simp
    · intro hsucceeds
      have hfails := Handing.succeeds_of_failed (handing?_eq_some hh).2.2.2 hf
      rw [hsucceeds h rfl] at hfails
      cases hfails
  | applied _ hh _ => exact handing?_plays hh

theorem isDone_of_finished (ht : RunTurn e speed epoch hand q) (hq : q.2.result? = some true) :
    q.1.isDone = true := by
  cases ht with
  | done _ hdone =>
    obtain ⟨hsteps, hcursor⟩ := e.finishRun_place epoch true
    rw [isDone, hsteps, hcursor]
    exact hdone
  | _ => cases hq

end RunTurn

/-- A run begins on an engine with its flags set, which neither the picture nor the steps show. -/
theorem Plays.of_started (hplays : e.started.Plays hand e') : e.Plays hand e' :=
  ⟨hplays.steps, hplays.cursor, hplays.next, hplays.heard, hplays.shown⟩

end Engine

/-- Whether an event puts other steps, or none, in the place of those that were loaded. -/
def Event.reloads : Event → Bool
  | .load _ => true
  | .reset => true
  | _ => false

theorem Stage.perform_plays {s : Stage} {ev : Event} (hev : ev.reloads = false) :
    s.engine.Plays (s.handing? ev) (s.perform ev).engine := by
  cases ev with
  | load steps => cases hev
  | reset => cases hev
  | run speed =>
    cases hrunning : s.engine.running with
    | true =>
      rw [handing?, hrunning, perform, Engine.startRun_of_running hrunning]
      exact .still rfl rfl rfl rfl
    | false =>
      rw [handing?, hrunning]
      exact (Engine.startRun_turn hrunning speed).plays.of_started
  | advance speed => exact s.engine.take_plays speed
  | proceed i =>
    cases hr : s.run? i with
    | none =>
      rw [handing?, perform, hr]
      exact .still rfl rfl rfl rfl
    | some r =>
      rw [handing?, perform_proceed hr, hr]
      exact (s.engine.continueRun_turn r).plays
  | _ => exact .still rfl rfl rfl rfl

/-! ## What any number of events do -/

namespace Engine

variable {e e1 e' : Engine} {hand : Option Handing} {hands : List Handing}

/-- Steps are handed over one after the other, from the place of one engine to that of another. -/
structure PlaysAll (e : Engine) (hands : List Handing) (e' : Engine) : Prop where
  steps : e'.steps = e.steps
  handed : e.steps.toList.take e.cursor ++ hands.map Handing.step = e.steps.toList.take e'.cursor
  cursor_le : e.cursor ≤ e'.cursor ∧ (e.cursor ≤ e.steps.size → e'.cursor ≤ e.steps.size)
  heard : e'.listener.steps =
    e.listener.steps ++ (hands.map Handing.step).filter (·.kind.isKnown)
  shown : (∀ h ∈ hands, h.succeeds = true) →
    e.store.bare.replay? (hands.map Handing.step) = some e'.store.bare

namespace PlaysAll

theorem nil (e : Engine) : e.PlaysAll [] e where
  steps := rfl
  handed := by simp
  cursor_le := ⟨Nat.le_refl _, id⟩
  heard := by simp
  shown _ := rfl

theorem cons (h : e.Plays hand e1) (hall : e1.PlaysAll hands e') :
    e.PlaysAll (hand.toList ++ hands) e' := by
  have hcursor := h.cursor
  have hle := hall.cursor_le
  rw [h.steps] at hle
  refine ⟨hall.steps.trans h.steps, ?_, ?_, ?_, ?_⟩
  · have hhanded := hall.handed
    rw [h.steps] at hhanded
    rw [← hhanded, List.map_append, ← List.append_assoc]
    congr 1
    cases hand with
    | none => simp [hcursor]
    | some step =>
      have hnext := h.next step rfl
      simp [hcursor, List.take_add_one, hnext]
  · cases hand with
    | none =>
      simp only [Option.toList_none, List.length_nil, Nat.add_zero] at hcursor
      rwa [← hcursor]
    | some step =>
      have hlt := (Array.getElem?_eq_some_iff.1 (h.next step rfl)).1
      simp only [Option.toList_some, List.length_singleton] at hcursor
      omega
  · rw [hall.heard, h.heard, List.map_append, List.filter_append, List.append_assoc]
  · -- a step that fails may leave no picture, so all of them have to succeed
    intro hsucceed
    have hfirst := h.shown fun step hstep =>
      hsucceed step (List.mem_append_left _ (by rw [hstep]; exact List.mem_singleton_self _))
    have hrest := hall.shown fun step hstep => hsucceed step (List.mem_append_right _ hstep)
    rw [List.map_append, Store.replay?_append, hfirst]
    exact hrest

end PlaysAll

end Engine

namespace Stage

variable {s : Stage} {events : List Event}

theorem after_playsAll (hevents : ∀ ev ∈ events, ev.reloads = false) :
    s.engine.PlaysAll (s.handings events) (s.after events).engine := by
  induction events generalizing s with
  | nil => exact .nil s.engine
  | cons ev rest ih =>
    have hfirst := perform_plays (hevents ev List.mem_cons_self) (s := s)
    exact .cons hfirst (ih fun ev' hev' => hevents ev' (List.mem_cons_of_mem ev hev'))

theorem isDone_of_finished {ev : Event} {i : Nat} (hbefore : s.result? i ≠ some true)
    (hafter : (s.perform ev).result? i = some true) : (s.perform ev).engine.isDone = true := by
  cases ev with
  | run speed =>
    have hlast : (s.engine.startRun speed).2.result? = some true := by
      rw [result?, perform, List.getElem?_append] at hafter
      by_cases hlt : i < s.runs.length
      · rw [if_pos hlt] at hafter
        exact absurd hafter hbefore
      · rw [if_neg hlt] at hafter
        obtain ⟨p, hp, hresult⟩ := Option.bind_eq_some_iff.1 hafter
        rwa [List.mem_singleton.1 (List.mem_of_getElem? hp)] at hresult
    cases hrunning : s.engine.running with
    | true =>
      -- a run that is refused has not finished
      rw [Engine.startRun_of_running hrunning] at hlast
      cases hlast
    | false => exact (Engine.startRun_turn hrunning speed).isDone_of_finished hlast
  | proceed j =>
    cases hr : s.run? j with
    | none =>
      rw [perform, hr] at hafter
      exact absurd hafter hbefore
    | some r =>
      rw [perform_proceed hr] at hafter ⊢
      by_cases hji : j = i
      · subst hji
        rw [result?, proceed, List.getElem?_set_self (run?_lt hr)] at hafter
        exact (s.engine.continueRun_turn r).isDone_of_finished hafter
      · rw [result?, proceed, List.getElem?_set_ne hji] at hafter
        exact absurd hafter hbefore
  | _ => exact absurd hafter hbefore

theorem after_isDone_of_finished {i : Nat} (hevents : ∀ ev ∈ events, ev.reloads = false)
    (hbefore : s.result? i ≠ some true) (hafter : (s.after events).result? i = some true) :
    (s.after events).engine.isDone = true := by
  induction events generalizing s with
  | nil => exact absurd hafter hbefore
  | cons ev rest ih =>
    have hrest : ∀ ev' ∈ rest, ev'.reloads = false :=
      fun ev' hev' => hevents ev' (List.mem_cons_of_mem ev hev')
    by_cases hfirst : (s.perform ev).result? i = some true
    · -- Nothing puts steps behind the ones that were taken.
      have hdone := isDone_of_finished hbefore hfirst
      have hplays := after_playsAll hrest (s := s.perform ev)
      simp only [Engine.isDone, decide_eq_true_eq] at hdone ⊢
      show (Stage.after (s.perform ev) rest).engine.steps.size ≤ _
      rw [hplays.steps]
      exact Nat.le_trans hdone hplays.cursor_le.1
    · exact ih hrest hfirst hafter

/-- Replay applies each step once, and in order.  After steps were loaded, in whatever state, and
    as long as no others are loaded and the engine is not reset, whatever else happens and in
    whatever order: the steps that were handed to the store are the first ones, up to the place of
    the engine; the listener has heard those of them that can be shown.  A run that finishes since
    leaves no step.  If all steps could be applied, and no run has failed because it could not wait,
    the picture is the one that the steps so far draw one after the other. -/
theorem replay_applies_in_order (s : Stage) (steps : List Step) (events : List Event)
    (hevents : ∀ ev ∈ events, ev.reloads = false) :
    let loaded := s.perform (.load steps)
    let t := loaded.after events
    let taken := steps.take t.engine.cursor
    (loaded.handings events).map Handing.step = taken ∧ t.engine.cursor ≤ steps.length ∧
    t.engine.listener.steps = s.engine.listener.steps ++ taken.filter (·.kind.isKnown) ∧
    (∀ i, s.result? i ≠ some true → t.result? i = some true →
      t.engine.cursor = steps.length ∧ taken = steps) ∧
    ((∀ h ∈ loaded.handings events, h.succeeds = true) →
      s.engine.store.bare.replay? taken = some t.engine.store.bare) := by
  intro loaded t taken
  have hplays := after_playsAll hevents (s := loaded)
  have hsteps : loaded.engine.steps.toList = steps := rfl
  have hhanded : (loaded.handings events).map Handing.step = taken := by
    have h := hplays.handed
    rw [hsteps] at h
    exact h
  have hle : t.engine.cursor ≤ steps.length := hplays.cursor_le.2 (Nat.zero_le _)
  refine ⟨hhanded, hle, ?_, ?_, ?_⟩
  · rw [← hhanded]
    exact hplays.heard
  · intro i hbefore hafter
    have hdone := after_isDone_of_finished hevents (s := loaded) hbefore hafter
    simp only [Engine.isDone, decide_eq_true_eq, hplays.steps] at hdone
    have hend : t.engine.cursor = steps.length := Nat.le_antisymm hle hdone
    exact ⟨hend, List.take_of_length_le (Nat.le_of_eq hend.symm)⟩
  · intro hsucceed
    rw [← hhanded]
    exact hplays.shown hsucceed

/-- Two single steps are taken while a run is held, and the run is stopped after one more.  Another
    run finishes. -/
theorem replay_applies_in_order_mixed :
    let steps : List Step := [.push "f", .console "a", .console "b", .pop]
    let events : List Event := [.pause, .run (some (.int 9)), .advance (some (.int 2)),
      .advance (some (.int 0)), .resume, .proceed 0, .stop, .proceed 0, .run (some (.int 1)),
      .proceed 1]
    let loaded := (Stage.start {} {}).perform (.load steps)
    let t := loaded.after events
    (∀ ev ∈ events, ev.reloads = false) ∧
    (loaded.handings events).map Handing.byRun = [false, false, true, true] ∧
    t.result? 0 = some false ∧ t.result? 1 = some true ∧
    (loaded.handings events).map Handing.step = steps ∧
    Store.replay? {} steps = some t.engine.store.bare :=
  have hevents : _ := by decide +kernel
  have hplayed := replay_applies_in_order (Stage.start {} {})
    [.push "f", .console "a", .console "b", .pop]
    [.pause, .run (some (.int 9)), .advance (some (.int 2)), .advance (some (.int 0)), .resume,
      .proceed 0, .stop, .proceed 0, .run (some (.int 1)), .proceed 1] hevents
  have hresult : _ = some true := by decide +kernel
  have htaken := (hplayed.2.2.2.1 1 (by decide) hresult).2
  ⟨hevents, by decide +kernel, by decide +kernel, hresult, hplayed.1.trans htaken,
    htaken ▸ hplayed.2.2.2.2 (by decide +kernel)⟩

/-- A step that lasts too long to be waited for is applied without a failure, and fails its run all
    the same.  The line that the run writes to the console stays when another run finishes. -/
theorem unscalable_wait_shows_error :
    let long : Step :=
      { kind := .consoleOutput, duration := .ms (Int.pow 10 400), message := .str "a" }
    let steps : List Step := [long, .console "b"]
    let events : List Event := [.run (some (.int 500)), .run (some (.int 0)), .proceed 1]
    let loaded := (Stage.start {} {}).perform (.load steps)
    let t := loaded.after events
    (∀ h ∈ loaded.handings events, h.fault? = none) ∧ t.result? 1 = some true ∧
    (Store.replay? {} steps).map (·.console.map Json.plain) = some ["a", "b"] ∧
    t.engine.store.console.map Json.plain =
      ["a", "Error: integer division result too large for a float", "b"] := by
  decide +kernel

end Stage

end EventLoop
