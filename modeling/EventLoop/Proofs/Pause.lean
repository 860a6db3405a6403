/-
  A pause holds.

  The flag that holds a run is cleared by resuming and resetting, and by runs that end.  A run looks
  at the flag in the same turn in which it would take its next step, so a paused engine hands no
  step to a run (`Engine.runHanding?_of_paused`).

  What is left is who clears the flag.  A run that ends clears it if it belongs to the current epoch,
  or if the engine was stopped.  `Stage.Sole` says that a run of the current epoch is alone: while it
  waits, the engine is running and not stopped, so no second run begins, and the other runs that
  wait belong to past epochs and leave the flags alone when they end.
-/
import EventLoop.Proofs.Playback

namespace EventLoop

/-- Whether a run has a turn in an event. -/
def Event.isTurn : Event → Bool
  | .run _ => true
  | .proceed _ => true
  | _ => false

namespace Engine

variable {e : Engine} {speed : Speed} {epoch : Nat}

theorem runHanding?_of_paused (h : e.paused = true) (speed : Speed) (epoch : Nat) :
    e.runHanding? speed epoch = none := by
  rw [runHanding?, h, Bool.or_true, if_pos rfl]

end Engine

namespace Stage

variable {s t : Stage} {i : Nat} {r : Engine.RunState} {ev : Event}

/-! ## From a pause to the next return of a run -/

/-- A run returns in an event.  A run that is refused returns at once, and does not count. -/
def Returns (s : Stage) (ev : Event) : Prop :=
  (∃ i finished, s.result? i = none ∧ (s.perform ev).result? i = some finished) ∧
    ¬(s.engine.running = true ∧ ∃ speed, ev = .run speed)

/-- Some events, in none of which the engine is resumed or reset or a run returns. -/
def Undisturbed (s : Stage) : List Event → Prop
  | [] => True
  | ev :: rest =>
    ev ≠ .resume ∧ ev ≠ .reset ∧ ¬s.Returns ev ∧ (s.perform ev).Undisturbed rest

theorem handing?_of_paused (hpaused : s.engine.paused = true) (hturn : ev.isTurn = true) :
    s.handing? ev = none := by
  cases ev with
  | run speed =>
    have hstarted : s.engine.started.paused = true := hpaused
    rw [handing?, Engine.runHanding?_of_paused hstarted, ite_self]
  | proceed i =>
    rw [handing?]
    cases s.run? i with
    | none => rfl
    | some r => exact Engine.runHanding?_of_paused hpaused r.speed r.epoch
  | _ => cases hturn

/-- An event that hands no step over leaves the place, the picture and what was heard. -/
theorem still_of_no_handing (hturn : ev.isTurn = true) (hnone : s.handing? ev = none) :
    (s.perform ev).engine.cursor = s.engine.cursor ∧
      (s.perform ev).engine.listener.steps = s.engine.listener.steps ∧
      (s.perform ev).engine.store.bare = s.engine.store.bare := by
  have hreloads : ev.reloads = false := by
    cases ev with
    | run _ => rfl
    | proceed _ => rfl
    | _ => cases hturn
  have hplays := perform_plays (s := s) hreloads
  rw [hnone] at hplays
  have hshown := hplays.shown (by
    intro h hh
    cases hh)
  refine ⟨hplays.cursor, ?_, ?_⟩
  · simpa using hplays.heard
  · exact (Option.some.inj hshown).symm

theorem result?_proceed (hr : s.run? i = some r) :
    (s.proceed i r).result? i = (s.engine.continueRun r).2.result? := by
  rw [result?, proceed, List.getElem?_set_self (run?_lt hr)]
  rfl

theorem result?_perform_run (s : Stage) (speed : Speed) :
    (s.perform (.run speed)).result? s.runs.length = (s.engine.startRun speed).2.result? := by
  rw [result?, perform, List.getElem?_concat_length]
  rfl

theorem result?_of_waits (hr : s.run? i = some r) : s.result? i = none := by
  cases hresult : s.result? i with
  | none => rfl
  | some finished =>
    rw [run?_of_ended hresult] at hr
    cases hr

theorem isSome_result?_of_ended {p : Engine.RunProgress} (h : p.run? = none) :
    ∃ finished, p.result? = some finished := by
  cases p with
  | waits ms r => cases h
  | ended finished => exact ⟨finished, rfl⟩

/-- A pause outlives every event in which the engine is not resumed or reset and no run returns. -/
theorem paused_perform (hpaused : s.engine.paused = true) (hresume : ev ≠ .resume)
    (hreset : ev ≠ .reset) (hreturns : ¬s.Returns ev) : (s.perform ev).engine.paused = true := by
  cases ev with
  | resume => exact absurd rfl hresume
  | reset => exact absurd rfl hreset
  | pause => rfl
  | run speed =>
    cases hrunning : s.engine.running with
    | true =>
      rw [perform, Engine.startRun_of_running hrunning]
      exact hpaused
    | false =>
      cases hq : (s.engine.startRun speed).2.run? with
      | some r =>
        obtain ⟨_, _, hcontrol⟩ := (Engine.startRun_turn hrunning speed).waits hq
        exact hcontrol.paused.trans hpaused
      | none =>
        obtain ⟨finished, hfinished⟩ := isSome_result?_of_ended hq
        refine absurd ⟨⟨s.runs.length, finished, ?_, ?_⟩, ?_⟩ hreturns
        · rw [result?, List.getElem?_eq_none (Nat.le_refl _)]
          rfl
        · rw [result?_perform_run, hfinished]
        · rw [hrunning]
          rintro ⟨⟨⟩, _⟩
  | advance speed => exact (s.engine.take_control speed).paused.trans hpaused
  | proceed i =>
    cases hr : s.run? i with
    | none =>
      rw [perform, hr]
      exact hpaused
    | some r =>
      rw [perform_proceed hr]
      cases hq : (s.engine.continueRun r).2.run? with
      | some r' =>
        obtain ⟨_, _, hcontrol⟩ := (s.engine.continueRun_turn r).waits hq
        exact hcontrol.paused.trans hpaused
      | none =>
        obtain ⟨finished, hfinished⟩ := isSome_result?_of_ended hq
        refine absurd ⟨⟨i, finished, result?_of_waits hr, ?_⟩, ?_⟩ hreturns
        · rw [perform_proceed hr, result?_proceed hr, hfinished]
        · rintro ⟨_, _, ⟨⟩⟩
  | _ => exact hpaused

theorem paused_after {events : List Event} (hpaused : s.engine.paused = true)
    (hevents : s.Undisturbed events) : (s.after events).engine.paused = true := by
  induction events generalizing s with
  | nil => exact hpaused
  | cons ev rest ih =>
    obtain ⟨hresume, hreset, hreturns, hrest⟩ := hevents
    exact ih (paused_perform hpaused hresume hreset hreturns) hrest

/-! ## The run of the current epoch -/

/-- While a run of the current epoch waits, the engine is running and was not stopped, and there is
    no other such run. -/
structure Sole (s : Stage) : Prop where
  active : ∀ i r, s.run? i = some r → r.epoch = s.engine.epoch →
    s.engine.running = true ∧ s.engine.stopped = false
  unique : ∀ i j r r', s.run? i = some r → s.run? j = some r' →
    r.epoch = s.engine.epoch → r'.epoch = s.engine.epoch → i = j

namespace Sole

theorem of_none (h : ∀ i r, s.run? i = some r → r.epoch ≠ s.engine.epoch) : s.Sole where
  active i r hr hepoch := absurd hepoch (h i r hr)
  unique i _ r _ hr _ hepoch _ := absurd hepoch (h i r hr)

theorem start (listener : Listener) (log : Log) : (Stage.start listener log).Sole :=
  of_none fun _ _ hr => nomatch hr

/-- Epoch and flags are as they were, and every run that waits did so before. -/
theorem of_waiting (hs : s.Sole) (hrunning : t.engine.running = s.engine.running)
    (hstopped : t.engine.stopped = s.engine.stopped) (hepoch : t.engine.epoch = s.engine.epoch)
    (hruns : ∀ i r, t.run? i = some r → ∃ r', s.run? i = some r' ∧ r'.epoch = r.epoch) :
    t.Sole where
  active i r hr hcurrent := by
    obtain ⟨r', hr', hsame⟩ := hruns i r hr
    rw [hrunning, hstopped]
    exact hs.active i r' hr' (by omega)
  unique i j r1 r2 h1 h2 hcurrent1 hcurrent2 := by
    obtain ⟨r1', hr1, hsame1⟩ := hruns i r1 h1
    obtain ⟨r2', hr2, hsame2⟩ := hruns j r2 h2
    exact hs.unique i j r1' r2' hr1 hr2 (by omega) (by omega)

theorem of_control (hs : s.Sole) (hcontrol : s.engine.SameControl t.engine)
    (hruns : ∀ i r, t.run? i = some r → ∃ r', s.run? i = some r' ∧ r'.epoch = r.epoch) : t.Sole :=
  hs.of_waiting hcontrol.running hcontrol.stopped hcontrol.epoch hruns

/-- A run that begins is the only one, or it ends at once. -/
theorem run (hs : s.Sole) (speed : Speed) : (s.perform (.run speed)).Sole := by
  have hlookup := s.run?_perform_run speed
  cases hrunning : s.engine.running with
  | true =>
    have hrefused := Engine.startRun_of_running hrunning speed
    apply hs.of_control
    · rw [perform, hrefused]
      exact ⟨rfl, rfl, rfl, rfl, rfl, rfl⟩
    · intro j r hr
      rw [run?_perform_refused hrunning] at hr
      exact ⟨r, hr, rfl⟩
  | false =>
    -- The engine is not running, so no run of the current epoch has waited.
    have hnone : ∀ i r, s.run? i = some r → r.epoch ≠ s.engine.epoch := by
      intro i r hr hcurrent
      rw [(hs.active i r hr hcurrent).1] at hrunning
      cases hrunning
    have hturn := Engine.startRun_turn hrunning speed
    have hepoch : (s.perform (.run speed)).engine.epoch = s.engine.epoch := hturn.epoch_stopped.1
    have hnew : ∀ j r, (s.perform (.run speed)).run? j = some r → r.epoch = s.engine.epoch →
        j = s.runs.length ∧ (s.engine.startRun speed).2.run? = some r := by
      intro j r hr hcurrent
      rw [hlookup] at hr
      by_cases hj : s.runs.length = j
      · rw [if_pos hj] at hr
        exact ⟨hj.symm, hr⟩
      · rw [if_neg hj] at hr
        exact absurd hcurrent (hnone j r hr)
    refine ⟨?_, ?_⟩
    · intro j r hr hcurrent
      rw [hepoch] at hcurrent
      obtain ⟨_, _, hcontrol⟩ := hturn.waits (hnew j r hr hcurrent).2
      exact ⟨hcontrol.running, hcontrol.stopped⟩
    · intro i j r r' hr hr' hcurrent hcurrent'
      rw [hepoch] at hcurrent hcurrent'
      rw [(hnew i r hr hcurrent).1, (hnew j r' hr' hcurrent').1]

/-- A run goes on.  If it belongs to a past epoch it ends, and touches the flags only of an engine
    that was stopped, where no run of the current epoch waits. -/
theorem proceed (hs : s.Sole) (hin : s.InStep) (hr : s.run? i = some r) : (s.proceed i r).Sole := by
  have hturn := s.engine.continueRun_turn r
  have hepoch : (s.proceed i r).engine.epoch = s.engine.epoch := hturn.epoch_stopped.1
  cases hq : (s.engine.continueRun r).2.run? with
  | some r' =>
    -- it waits again, with the flags as they were
    obtain ⟨hsame, _, hcontrol⟩ := hturn.waits hq
    apply hs.of_control hcontrol
    intro j r1 hr1
    rw [run?_proceed hr] at hr1
    by_cases hij : i = j
    · rw [if_pos hij, hq] at hr1
      cases hr1
      exact ⟨r, hij ▸ hr, hsame.symm⟩
    · rw [if_neg hij] at hr1
      exact ⟨r1, hr1, rfl⟩
  | none =>
    have hothers : ∀ j r1, (s.proceed i r).run? j = some r1 → i ≠ j ∧ s.run? j = some r1 := by
      intro j r1 hr1
      rw [run?_proceed hr] at hr1
      by_cases hij : i = j
      · rw [if_pos hij, hq] at hr1
        cases hr1
      · rw [if_neg hij] at hr1
        exact ⟨hij, hr1⟩
    by_cases hcurrent : r.epoch = s.engine.epoch
    · -- it was the only run of the epoch, so none is left
      apply of_none
      intro j r1 hr1 hcurrent1
      obtain ⟨hij, hr1⟩ := hothers j r1 hr1
      rw [hepoch] at hcurrent1
      exact hij (hs.unique i j r r1 hr hr1 hcurrent hcurrent1)
    · -- a stale run: only an engine that was stopped has its flags cleared
      have hle := hin.epochs i r hr
      have hstale : s.Stale i r := ⟨hr, by omega⟩
      obtain ⟨_, _, _, hengine⟩ := hstale.proceed
      rw [perform_proceed hr] at hengine
      cases hstopped : s.engine.stopped with
      | false =>
        have hsame := hengine hstopped
        apply hs.of_waiting
        · rw [hsame]
        · rw [hsame]
        · rw [hsame]
        · intro j r1 hr1
          exact ⟨r1, (hothers j r1 hr1).2, rfl⟩
      | true =>
        apply of_none
        intro j r1 hr1 hcurrent1
        rw [hepoch] at hcurrent1
        have hactive := hs.active j r1 (hothers j r1 hr1).2 hcurrent1
        rw [hstopped] at hactive
        cases hactive.2

theorem of_next_epoch (hin : s.InStep) (hruns : ∀ j, t.run? j = s.run? j)
    (hepoch : t.engine.epoch = s.engine.epoch + 1) : t.Sole := by
  apply of_none
  intro i r hr
  rw [hruns] at hr
  have hle := hin.epochs i r hr
  omega

theorem perform (hs : s.Sole) (hin : s.InStep) (ev : Event) : (s.perform ev).Sole := by
  cases ev with
  | stop => exact of_next_epoch hin (fun _ => rfl) rfl
  | reset => exact of_next_epoch hin (fun _ => rfl) rfl
  | run speed => exact hs.run speed
  | advance speed =>
    exact hs.of_control (s.engine.take_control speed) fun _ r hr => ⟨r, hr, rfl⟩
  | proceed i =>
    cases hr : s.run? i with
    | none =>
      rw [Stage.perform, hr]
      exact hs
    | some r =>
      rw [perform_proceed hr]
      exact hs.proceed hin hr
  | _ => exact hs.of_waiting rfl rfl rfl fun _ r hr => ⟨r, hr, rfl⟩

theorem after (hs : s.Sole) (hin : s.InStep) (events : List Event) : (s.after events).Sole := by
  induction events generalizing s with
  | nil => exact hs
  | cons ev rest ih => exact ih (hs.perform hin ev) (hin.perform ev)

/-- While a run of the current epoch waits, a pause outlives every event but a resumption and those
    that end the run or its epoch. -/
theorem paused_perform (hs : s.Sole) (hin : s.InStep) (hr : s.run? i = some r)
    (hcurrent : r.epoch = s.engine.epoch) (hpaused : s.engine.paused = true)
    (hresume : ev ≠ .resume) (hwaits : ((s.perform ev).run? i).isSome)
    (hepoch : (s.perform ev).engine.epoch = s.engine.epoch) :
    (s.perform ev).engine.paused = true := by
  obtain ⟨hrunning, hstopped⟩ := hs.active i r hr hcurrent
  cases ev with
  | resume => exact absurd rfl hresume
  | pause => rfl
  | reset =>
    have hnext : s.engine.epoch + 1 = s.engine.epoch := hepoch
    omega
  | run speed =>
    rw [Stage.perform, Engine.startRun_of_running hrunning]
    exact hpaused
  | advance speed => exact (s.engine.take_control speed).paused.trans hpaused
  | proceed j =>
    cases hr' : s.run? j with
    | none =>
      rw [Stage.perform, hr']
      exact hpaused
    | some r' =>
      rw [perform_proceed hr'] at hwaits ⊢
      by_cases hji : j = i
      · rw [run?_proceed hr', if_pos hji] at hwaits
        obtain ⟨r1, hq⟩ := Option.isSome_iff_exists.1 hwaits
        obtain ⟨_, _, hcontrol⟩ := (s.engine.continueRun_turn r').waits hq
        exact hcontrol.paused.trans hpaused
      · -- The other run belongs to a past epoch, and the engine is not stopped.
        have hpast : r'.epoch ≠ s.engine.epoch := by
          intro hcurrent'
          exact hji (hs.unique j i r' r hr' hr hcurrent' hcurrent)
        have hle := hin.epochs j r' hr'
        have hstale : s.Stale j r' := ⟨hr', by omega⟩
        have hengine := hstale.proceed.2.2.2 hstopped
        rw [perform_proceed hr'] at hengine
        rw [hengine]
        exact hpaused
  | _ => exact hpaused

end Sole

theorem epoch_perform {r' : Engine.RunState} (hr : s.run? i = some r)
    (hr' : (s.perform ev).run? i = some r') : r'.epoch = r.epoch := by
  by_cases hev : ev = .proceed i
  · rw [hev, perform_proceed hr, run?_proceed hr, if_pos rfl] at hr'
    exact ((s.engine.continueRun_turn r).waits hr').1
  · rw [run?, getElem?_perform (run?_lt hr) hev] at hr'
    have hsame : some r = some r' := hr.symm.trans hr'
    rw [Option.some.inj hsame]

theorem ended_perform (hr : s.run? i = some r) (hnone : (s.perform ev).run? i = none) :
    ∃ finished, (s.perform ev).result? i = some finished := by
  by_cases hev : ev = .proceed i
  · rw [hev, perform_proceed hr] at hnone ⊢
    rw [run?_proceed hr, if_pos rfl] at hnone
    rw [result?_proceed hr]
    exact isSome_result?_of_ended hnone
  · rw [run?, getElem?_perform (run?_lt hr) hev] at hnone
    rw [run?, hnone] at hr
    cases hr

/-- While a run waits that was not stopped, a pause outlives whatever else happens. -/
theorem Sole.paused_after {events : List Event} {r' : Engine.RunState} (hs : s.Sole)
    (hin : s.InStep) (hr : s.run? i = some r) (hcurrent : r.epoch = s.engine.epoch)
    (hpaused : s.engine.paused = true) (hresume : Event.resume ∉ events)
    (hr' : (s.after events).run? i = some r')
    (hover : (s.after events).engine.isOver r'.epoch = false) :
    (s.after events).engine.paused = true := by
  induction events generalizing s r with
  | nil => exact hpaused
  | cons ev rest ih =>
    obtain ⟨hev, hrest⟩ := not_or.1 (List.mem_cons.not.1 hresume)
    cases hr1 : (s.perform ev).run? i with
    | none =>
      -- The run has returned, and would not wait at the end.
      obtain ⟨finished, hended⟩ := ended_perform hr hr1
      have hnone : (s.after (ev :: rest)).run? i = none :=
        run?_of_ended (ended_after hended rest)
      rw [hnone] at hr'
      cases hr'
    | some r1 =>
      have hsame : r1.epoch = r.epoch := epoch_perform hr hr1
      have hle := s.epoch_le_perform ev
      by_cases hepoch : (s.perform ev).engine.epoch = s.engine.epoch
      · have hwaits : ((s.perform ev).run? i).isSome := by rw [hr1]; rfl
        have hheld := hs.paused_perform hin hr hcurrent hpaused (Ne.symm hev) hwaits hepoch
        exact ih (hs.perform hin ev) (hin.perform ev) hr1 (by omega) hheld hrest hr' hover
      · -- Another epoch has begun, and the run would be over at the end.
        have hstale : (s.perform ev).Stale i r1 := ⟨hr1, by omega⟩
        rcases hstale.after rest with ⟨hr2, hlt⟩ | hended
        · have hfinal : (s.after (ev :: rest)).run? i = some r1 := hr2
          rw [hfinal, Option.some.injEq] at hr'
          have hcurrent' := Engine.epoch_of_isOver hover
          have hlt' : r1.epoch < (s.after (ev :: rest)).engine.epoch := hlt
          rw [hr'] at hlt'
          omega
        · have hnone : (s.after (ev :: rest)).run? i = none := run?_of_ended hended
          rw [hnone] at hr'
          cases hr'

/-- Pause holds.  Whatever has happened to a new engine, and in whatever order: from a pause on, no
    run applies a step, up to and with the event in which a run returns, unless the engine is
    resumed or reset before.  The engine stays paused, and a turn of a run leaves the place in the
    steps, the picture and what the listener has heard.

    And as long as a run waits that was neither stopped nor reset, a pause lasts until the engine is
    resumed, whichever other runs begin, go on, are refused or return meanwhile. -/
theorem pause_holds (listener : Listener) (log : Log) (before : List Event) :
    let s := (Stage.start listener log).after before
    (∀ later, (s.perform .pause).Undisturbed later →
      let t := (s.perform .pause).after later
      t.engine.paused = true ∧
      ∀ ev, ev.isTurn = true →
        t.handing? ev = none ∧
        (t.perform ev).engine.cursor = t.engine.cursor ∧
        (t.perform ev).engine.listener.steps = t.engine.listener.steps ∧
        (t.perform ev).engine.store.bare = t.engine.store.bare) ∧
    ∀ i r, s.run? i = some r → s.engine.isOver r.epoch = false → s.engine.paused = true →
      ∀ later r', .resume ∉ later → (s.after later).run? i = some r' →
        (s.after later).engine.isOver r'.epoch = false → (s.after later).engine.paused = true := by
  intro s
  have hin : s.InStep := (InStep.start listener log).after before
  have hs : s.Sole := (Sole.start listener log).after (InStep.start listener log) before
  refine ⟨?_, ?_⟩
  · intro later hlater t
    have hpaused : t.engine.paused = true := paused_after rfl hlater
    refine ⟨hpaused, ?_⟩
    intro ev hturn
    have hnone := handing?_of_paused hpaused hturn
    exact ⟨hnone, still_of_no_handing hturn hnone⟩
  · intro i r hr hover hpaused later r' hresume hr' hover'
    have hcurrent : r.epoch = s.engine.epoch := (Engine.epoch_of_isOver hover).symm
    exact hs.paused_after hin hr hcurrent hpaused hresume hr' hover'

/-- A run waits for the time of its first step when the engine is paused, and is then held.  It is
    reset, other steps are loaded, and another run begins and is paused: the first run ends, a third
    one is refused, and the pause holds. -/
theorem pause_holds_reloaded :
    let begun : List Event := [.load [.push "f", .pop], .run (some (.int 0))]
    let s := (Stage.start {} {}).after begun
    let t := s.after [.reset, .load [.push "g", .pop], .run (some (.int 0)), .pause]
    ((s.perform .pause).perform (.proceed 0)).engine.paused = true ∧
    (((s.perform .pause).perform (.proceed 0)).perform (.proceed 0)).engine.cursor = 1 ∧
    (t.perform (.proceed 0)).result? 0 = some false ∧
    ((t.perform (.proceed 0)).perform (.run none)).result? 2 = some false ∧
    ((t.perform (.proceed 0)).perform (.run none)).engine.paused = true := by
  intro begun s t
  have hlater : (s.perform .pause).Undisturbed [.proceed 0] := by
    refine ⟨by simp, by simp, ?_, trivial⟩
    rintro ⟨⟨i, finished, _, hresult⟩, _⟩
    cases i with
    | zero => cases hresult
    | succ i => cases hresult
  obtain ⟨hpaused, hturn⟩ := (pause_holds {} {} begun).1 [.proceed 0] hlater
  have hheld := (pause_holds {} {}
    (begun ++ [.reset, .load [.push "g", .pop], .run (some (.int 0)), .pause])).2
    1 ⟨some (.int 0), 1, .step⟩ rfl rfl rfl [.proceed 0, .run none] _ (by simp) rfl rfl
  exact ⟨hpaused, (hturn (.proceed 0) rfl).2.1, rfl, rfl, hheld⟩

end Stage

end EventLoop
