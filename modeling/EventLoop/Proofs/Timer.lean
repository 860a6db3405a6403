/-
  Each timeout fires once, in order.

  A part of a run that succeeds is described by its firings and by what it did to the books (`Ran`):
  the timeouts among the firings are the timers whose turns were entered, and they fire in turn
  (`Firing.InTurn`), each while the clock shows the time of the one before it.  The parts of a
  generation are put together by `Ran.bind`.  The loop over the timers ends with none left: its fuel
  is more than the room for steps, and every turn takes some of that.

  `timeouts_fire_once` says what follows for the steps that a generation gives.
-/
import EventLoop.Proofs.Ledger
import EventLoop.Proofs.Passing

namespace EventLoop

variable {tame : Bool} {m m' : Machine} {T : List Tile} {due last limit : Nat} {cb : Callback}

namespace Machine

/-! ## Turns, one after the other -/

theorem passes_clock : Run.Passes fun m m' => m.clock ≤ m'.clock where
  refl m := Nat.le_refl _
  trans := Nat.le_trans
  code hcode := by
    obtain ⟨_, _, hw⟩ := hcode.walk
    exact Nat.le_of_eq hw.grows.clock.symm
  cut _ _ := Nat.le_refl _
  turn {m t} log _ _ := by
    obtain ⟨_, hs⟩ := (@Run.runMicrotask_serves false t ((m.taken.emitted t.steps).logged log)
      (by simp)).final
    exact Nat.le_of_eq hs.grows.clock.symm
  take _ _ _ _ _ hclock := hclock

end Machine

namespace Firing

/-- The timeouts among some firings. -/
def timeouts (fs : List Firing) : List Firing := fs.filter (·.callback.kind == .timeout)

/-- One firing comes before another: it is due before it, or at the same time but registered before
    it. -/
def Before (f f' : Firing) : Prop :=
  f.callback.due < f'.callback.due ∨
    (f.callback.due = f'.callback.due ∧ f.callback.id < f'.callback.id)

/-- Timers fire one after the other.  The last one before was due at `due` and has the number
    `last`, the last one after is due at `due'` and has the number `last'`; each fires while the
    clock still shows the time of the one before it. -/
inductive InTurn : Nat → Nat → List Firing → Nat → Nat → Prop
  | nil (due last : Nat) : InTurn due last [] due last
  | cons {due last due' last' : Nat} {f : Firing} {fs : List Firing} (hclock : f.before.clock = due)
      (hlater : due < f.callback.due ∨ (due = f.callback.due ∧ last < f.callback.id))
      (h : InTurn f.callback.due f.callback.id fs due' last') : InTurn due last (f :: fs) due' last'

namespace InTurn

variable {due last due1 last1 due2 last2 : Nat} {fs fs' : List Firing}

theorem append (h1 : InTurn due last fs due1 last1) (h2 : InTurn due1 last1 fs' due2 last2) :
    InTurn due last (fs ++ fs') due2 last2 := by
  induction h1 with
  | nil => exact h2
  | cons hclock hlater _ ih => exact .cons hclock hlater (ih h2)

section

variable (h : InTurn due last fs due1 last1)

include h

theorem later : ∀ f ∈ fs, due < f.callback.due ∨ (due = f.callback.due ∧ last < f.callback.id) := by
  induction h with
  | nil => simp
  | cons _ hlater _ ih =>
    rintro f' (_ | ⟨_, hf'⟩)
    · exact hlater
    · have := ih f' hf'
      omega

theorem pairwise : fs.Pairwise Before := by
  induction h with
  | nil => exact .nil
  | cons _ _ h ih => exact .cons h.later ih

/-- The times on the clock are those at which the timers are due, one behind. -/
theorem clocks : fs.map (·.before.clock) ++ [due1] = due :: fs.map (·.callback.due) := by
  induction h with
  | nil => rfl
  | cons hclock _ _ ih => rw [List.map_cons, List.cons_append, ih, hclock, List.map_cons]

theorem clock_le : ∀ f ∈ fs, f.before.clock ≤ f.callback.due := by
  induction h with
  | nil => simp
  | cons hclock hlater _ ih =>
    rintro f' (_ | ⟨_, hf'⟩)
    · omega
    · exact ih f' hf'

end

end InTurn

end Firing

namespace Machine

open Firing

/-- A part of a run with the given firings has kept the books. -/
structure Ran (limit : Nat) (T : List Tile) (due last : Nat) (fs : List Firing) (due' last' : Nat)
    (m' : Machine) : Prop where
  books : BookedSince limit T ((timeouts fs).map (·.callback.id)) due' last' m'
  turns : InTurn due last (timeouts fs) due' last'
  kinds : ∀ f ∈ fs, f.callback.kind ≠ .interval

namespace Ran

variable {limit due last due1 last1 due2 last2 : Nat} {T : List Tile} {fs fs' : List Firing}
  {m m1 m2 : Machine}

theorem quiet (h : BookedSince limit T [] due last m) : Ran limit T due last [] due last m :=
  ⟨h, .nil due last, by simp⟩

theorem prepend {T1 : List Tile}
    (hfired : T1.flatMap Tile.firing = (timeouts fs).map (·.callback.id))
    (hturns : InTurn due last (timeouts fs) due1 last1)
    (hkinds : ∀ f ∈ fs, f.callback.kind ≠ .interval)
    (h : Ran limit (T ++ T1) due1 last1 fs' due2 last2 m2) :
    Ran limit T due last (fs ++ fs') due2 last2 m2 := by
  obtain ⟨T2, hfired2, hbooked2⟩ := h.books
  have hsplit : timeouts (fs ++ fs') = timeouts fs ++ timeouts fs' := List.filter_append _ _
  refine ⟨⟨T1 ++ T2, ?_, ?_⟩, ?_, List.forall_mem_append.2 ⟨hkinds, h.kinds⟩⟩
  · rw [List.flatMap_append, hfired, hfired2, hsplit, List.map_append]
  · rwa [← List.append_assoc]
  · rw [hsplit]
    exact hturns.append h.turns

theorem bind (h : Ran limit T due last fs due1 last1 m1)
    (hnext : ∀ T', Booked limit (T ++ T') due1 last1 m1 →
      Ran limit (T ++ T') due1 last1 fs' due2 last2 m2) :
    Ran limit T due last (fs ++ fs') due2 last2 m2 := by
  obtain ⟨T1, hfired, hbooked⟩ := h.books
  exact prepend hfired h.turns h.kinds (hnext T1 hbooked)

end Ran

theorem ran_frameTurn (hm : Booked limit T due last m) (hcb : cb ∈ T.flatMap Tile.registration)
    (hkind : cb.kind = .frame) (h : Run.frameTurn cb m = .ok () m') :
    Ran limit T due last [⟨cb, m⟩] due last m' := by
  obtain ⟨hall, hf⟩ := Run.frameTurn_ok h
  have hid : cb.id ∈ m.callbacks.map (·.id) := by simpa using hall
  obtain ⟨T', hfired, hbooked⟩ := hf.booked fun log hroom => hm.frameTurn log hid hcb hkind hroom
  have htimeouts : timeouts [⟨cb, m⟩] = [] := by simp [timeouts, hkind]
  refine ⟨⟨.frame cb :: T', ?_, by simpa using hbooked⟩, ?_, by simp [hkind]⟩
  · rw [htimeouts, List.flatMap_cons, hfired]
    rfl
  · rw [htimeouts]
    exact .nil due last

theorem ran_timerTurn (hm : Booked limit T due last m) (hnext : Run.nextTimer m.callbacks = some cb)
    (h : Run.timerTurn cb m = .ok () m') : Ran limit T due last [⟨cb, m⟩] cb.due cb.id m' := by
  have hf := (Run.timerTurn_fires cb m).of_ok h
  obtain ⟨T', hfired, hbooked⟩ := hf.booked fun log hroom => hm.timerTurn log hnext hroom
  obtain ⟨hcb, hkind, _⟩ := Run.nextTimer_some hnext
  have htimeouts : timeouts [⟨cb, m⟩] = [⟨cb, m⟩] := by simp [timeouts, hkind]
  refine ⟨⟨.timer cb :: T', ?_, by simpa using hbooked⟩, ?_, by simp [hkind]⟩
  · rw [htimeouts, List.flatMap_cons, hfired]
    rfl
  · rw [htimeouts]
    exact .cons hm.clock (hm.later cb hcb hkind) (.nil _ _)

end Machine

namespace Run

open Machine

theorem firingsAfter_of_ok {act : Run Unit} {next : Machine → List Firing} (h : act m = .ok () m') :
    firingsAfter act next m = next m' := by
  rw [firingsAfter, h]

theorem ran_frameTurns (cbs : List Callback) (hm : Booked limit T due last m)
    (hcbs : ∀ cb ∈ cbs, cb ∈ T.flatMap Tile.registration ∧ cb.kind = .frame)
    (h : frameTurns cbs m = .ok () m') : Ran limit T due last (frameFirings cbs m) due last m' := by
  induction cbs generalizing m T with
  | nil =>
    cases h
    exact .quiet hm.since
  | cons cb rest ih =>
    obtain ⟨_, m1, hturn, hrest⟩ := bind_eq_ok h
    obtain ⟨⟨hcb, hkind⟩, hcbs⟩ := List.forall_mem_cons.1 hcbs
    rw [frameFirings, (frameTurn_ok hturn).1, firingsAfter_of_ok hturn]
    refine (ran_frameTurn hm hcb hkind hturn).bind fun T' hm1 => ih hm1 (fun cb hcb => ?_) hrest
    rw [List.flatMap_append]
    exact ⟨List.mem_append_left _ (hcbs cb hcb).1, (hcbs cb hcb).2⟩

theorem ran_drainFrames (hm : Booked limit T due last m) (h : drainFrames m = .ok () m') :
    Ran limit T due last (drainFramesFirings m) due last m' := by
  refine ran_frameTurns _ hm (fun cb hcb => ?_) h
  obtain ⟨hcb, hkind⟩ := List.mem_filter.1 hcb
  exact ⟨hm.waiting cb hcb, by simpa using hkind⟩

/-- Timers fire until none is left.  Every one of them emits a step, so that the fuel lasts as long
    as it is more than the room for steps. -/
theorem ran_timerTurns (fuel : Nat) (hm : Booked limit T due last m)
    (hfuel : limit < (T.flatMap Tile.steps).length + fuel) (h : timerTurns fuel m = .ok () m') :
    ∃ due' last', Ran limit T due last (timerFirings fuel m) due' last' m' ∧
      ∀ cb ∈ m'.callbacks, cb.kind ≠ .timeout := by
  induction fuel generalizing m T due last with
  | zero =>
    have := hm.fits
    omega
  | succ fuel ih =>
    rw [timerTurns, bind_apply, get_apply] at h
    rw [timerFirings]
    dsimp only at h
    cases hnext : nextTimer m.callbacks with
    | none =>
      rw [hnext] at h
      cases h
      exact ⟨due, last, .quiet hm.since, nextTimer_none hnext⟩
    | some cb =>
      rw [hnext] at h
      obtain ⟨_, m1, hturn, h1⟩ := bind_eq_ok h
      obtain ⟨_, m2, hframes, h2⟩ := bind_eq_ok h1
      have hran : Ran limit T due last ([⟨cb, m⟩] ++ drainFramesFirings m1) cb.due cb.id m2 :=
        (ran_timerTurn hm hnext hturn).bind fun T' hm1 => ran_drainFrames hm1 hframes
      obtain ⟨T1, hfired, hm2⟩ := hran.books
      -- the timer has left its tile behind
      have hlen : 1 ≤ (T1.flatMap Tile.firing).length := by
        simp [hfired, Firing.timeouts, (nextTimer_some hnext).2.1]
      have hsteps := Tile.length_firing_le T1
      have hfuel' : limit < ((T ++ T1).flatMap Tile.steps).length + fuel := by
        rw [List.flatMap_append, List.length_append]
        omega
      obtain ⟨due', last', hrest, hnone⟩ := ih hm2 hfuel' h2
      refine ⟨due', last', ?_, hnone⟩
      simp only [firingsAfter_of_ok hturn, firingsAfter_of_ok hframes]
      exact Ran.prepend hfired hran.turns hran.kinds hrest

theorem ran_enter (p : Phase) (hm : Booked limit T due last m) (h : enter p m = .ok () m') :
    Ran limit T due last [] due last m' := by
  cases h
  refine .quiet (Booked.since ?_)
  exact hm.of_eq rfl rfl rfl rfl

theorem ran_runSource (source : Option String) (hm : Booked limit T due last m)
    (h : runSource source m = .ok () m') : Ran limit T due last [] due last m' := by
  obtain ⟨outcome, m1, hwalk, h1⟩ := bind_eq_ok h
  obtain ⟨_, m2, henter, hdrain⟩ := bind_eq_ok h1
  have hw := (@walkSource_leads false source m (by simp)).walk_of_ok hwalk
  have hd := (drainMicrotasks_drains m2).of_ok hdrain
  have hwalked : Ran limit T due last [] due last m1 :=
    .quiet (hw.booked (by cases outcome <;> simp [Outcome.ending]) hm)
  have hentered : Ran limit T due last [] due last m2 :=
    hwalked.bind fun T' hm1 => ran_enter .drainMicrotasks hm1 henter
  exact hentered.bind fun T' hm2 => .quiet (hd.booked hm2)

theorem generate_ok {source : Option String} (h : generate source m = .ok () m') :
    ∃ m1 m2 m3 m4 m5, runSource source m = .ok () m1 ∧ enter .drainFrames m1 = .ok () m2 ∧
      drainFrames m2 = .ok () m3 ∧ enter .drainTimers m3 = .ok () m4 ∧
      drainTimers m4 = .ok () m5 ∧ enter .done m5 = .ok () m' ∧
      firings source m = drainFramesFirings m2 ++ drainTimersFirings m4 := by
  obtain ⟨_, m1, hsource, h1⟩ := bind_eq_ok h
  obtain ⟨_, m2, henter, h2⟩ := bind_eq_ok h1
  obtain ⟨_, m3, hframes, h3⟩ := bind_eq_ok h2
  obtain ⟨_, m4, henter', h4⟩ := bind_eq_ok h3
  obtain ⟨_, m5, htimers, hdone⟩ := bind_eq_ok h4
  refine ⟨m1, m2, m3, m4, m5, hsource, henter, hframes, henter', htimers, hdone, ?_⟩
  simp only [firings, firingsAfter_of_ok hsource, firingsAfter_of_ok henter,
    firingsAfter_of_ok hframes, firingsAfter_of_ok henter']

/-- A generation that succeeds keeps the books, and leaves no timeout behind. -/
theorem ran_generate (source : Option String) (hm : Booked limit T due last m)
    (h : generate source m = .ok () m') :
    ∃ due' last', Ran limit T due last (firings source m) due' last' m' ∧
      ∀ cb ∈ m'.callbacks, cb.kind ≠ .timeout := by
  obtain ⟨m1, m2, m3, m4, m5, hsource, henter, hframes, henter', htimers, hdone, hfirings⟩ :=
    generate_ok h
  have hran : Ran limit T due last (drainFramesFirings m2) due last m4 := by
    have hran2 := (ran_runSource source hm hsource).bind fun T' h => ran_enter .drainFrames h henter
    have hran3 := hran2.bind fun T' h => ran_drainFrames h hframes
    have hran4 := hran3.bind fun T' h => ran_enter .drainTimers h henter'
    simpa only [List.nil_append, List.append_nil] using hran4
  obtain ⟨T1, hfired, hm4⟩ := hran.books
  -- there are more turns than steps that still fit
  have hfuel : limit < ((T ++ T1).flatMap Tile.steps).length +
      (m4.steps.limit - m4.steps.steps.size + 1) := by
    have hsize : m4.steps.steps.size = ((T ++ T1).flatMap Tile.steps).length := hm4.size_eq
    rw [hm4.limit_eq, hsize]
    omega
  obtain ⟨due', last', hrest, hnone⟩ := ran_timerTurns _ hm4 hfuel htimers
  refine ⟨due', last', ?_, ?_⟩
  · have hall := (Ran.prepend hfired hran.turns hran.kinds hrest).bind
      fun T' h => ran_enter .done h hdone
    rw [List.append_nil] at hall
    rw [hfirings]
    exact hall
  · cases hdone
    exact hnone

end Run

/-! ## What the steps show -/

namespace Machine.Booked

variable {limit due last : Nat} {T : List Tile} {m : Machine}

section

variable (h : Booked limit T due last m)

include h

theorem timeout_of_firing {id : Nat} (hid : id ∈ T.flatMap Tile.firing) :
    ∃ cb ∈ T.flatMap Tile.registration, cb.id = id ∧ cb.kind = .timeout := by
  obtain ⟨t, ht, hid⟩ := List.mem_flatMap.1 hid
  have hproper := h.proper t ht
  cases t with
  | timer cb => exact ⟨cb, hproper.1, (List.mem_singleton.1 hid).symm, hproper.2⟩
  | _ => cases hid

theorem frame_of_framing {id : Nat} (hid : id ∈ T.flatMap Tile.framing) :
    ∃ cb ∈ T.flatMap Tile.registration, cb.id = id ∧ cb.kind = .frame := by
  obtain ⟨t, ht, hid⟩ := List.mem_flatMap.1 hid
  have hproper := h.proper t ht
  cases t with
  | frame cb => exact ⟨cb, hproper.1, (List.mem_singleton.1 hid).symm, hproper.2⟩
  | _ => cases hid

theorem kind_eq {kind : TimerKind} (hcb : cb ∈ T.flatMap Tile.registration)
    (hex : ∃ cb' ∈ T.flatMap Tile.registration, cb'.id = cb.id ∧ cb'.kind = kind) :
    cb.kind = kind := by
  obtain ⟨cb', hcb', hid, hkind⟩ := hex
  rwa [h.eq_of_id_eq hcb hcb' hid.symm]

/-- If no timeout waits, then every timeout was cleared or has fired, but not both, and once. -/
theorem settled (hnone : ∀ cb ∈ m.callbacks, cb.kind ≠ .timeout)
    {cb : Callback} (hcb : cb ∈ T.flatMap Tile.registration) (hkind : cb.kind = .timeout) :
    (cb.id ∈ T.flatMap Tile.clearing ∧ cb.id ∉ T.flatMap Tile.firing) ∨
    (cb.id ∉ T.flatMap Tile.clearing ∧ (T.flatMap Tile.firing).count cb.id = 1) := by
  have hwaiting : cb.id ∉ m.callbacks.map (·.id) := by
    intro hmem
    obtain ⟨cb', hcb', hid⟩ := List.mem_map.1 hmem
    exact hnone cb' hcb' (h.kind_eq (h.waiting cb' hcb') ⟨cb, hcb, hid.symm, hkind⟩)
  have hframing : cb.id ∉ T.flatMap Tile.framing := by
    intro hmem
    have hframe := h.kind_eq hcb (h.frame_of_framing hmem)
    rw [hkind] at hframe
    cases hframe
  have hplace := h.one_place hcb
  rw [List.count_eq_zero_of_not_mem hwaiting, List.count_eq_zero_of_not_mem hframing] at hplace
  simp only [← List.count_pos_iff]
  omega

end

end Machine.Booked

theorem TimerKind.api_injective {kind kind' : TimerKind} (h : kind.api = kind'.api) :
    kind = kind' := by
  cases kind <;> cases kind' <;> first | rfl | exact absurd h (by decide)

theorem Generator.active_of_succeeded {g : Generator} {source : Option String}
    (h : (g.generate source).1.succeeded = true) : g.active = false := by
  rw [Generator.generate] at h
  cases hg : g.active with
  | true =>
    rw [hg] at h
    cases h
  | false => rfl

theorem Generator.generate_succeeded {g : Generator} {source : Option String}
    (h : (g.generate source).1.succeeded = true) :
    ∃ m log, Run.generate source (Machine.start g.limit g.machine.log) = .ok () m ∧
      (g.generate source).1.steps = m.steps.toList ∧
      (g.generate source).2.machine = m.logged log ∧
      g.firings source = Run.firings source (Machine.start g.limit g.machine.log) := by
  have hg := active_of_succeeded h
  rw [Generator.generate] at h
  cases hrun : Run.generate source g.reset.machine with
  | error fault m =>
    rw [hg, hrun] at h
    cases h
  | ok a m =>
    refine ⟨m, m.log.write 1 ("generated " ++ toString m.steps.toList.length ++ " steps"),
      hrun, ?_, ?_, ?_⟩
    · rw [Generator.generate, hg, hrun]
      rfl
    · rw [Generator.generate, hg, hrun]
      rfl
    · rw [Generator.firings, hg]
      rfl

/-- Each timeout fires once, in order.  In a generation that succeeds, the callbacks that enter the
    task queue are the timeouts that fire.  A timeout fires once, or it was cleared and does not
    fire; intervals never fire.  Timeouts fire in the order by the time at which they are due and
    then by their numbers, each of them at the time at which it is due; the clock shows the time of
    the last one until the next one fires, and no operation sets it back.  At the end no timeout is
    left. -/
theorem timeouts_fire_once (g : Generator) (source : Option String)
    (h : (g.generate source).1.succeeded = true) :
    let steps := (g.generate source).1.steps
    let fired := Firing.timeouts (g.firings source)
    let m := (g.generate source).2.machine
    Step.items .taskqueueAdd steps = fired.map (·.callback.id) ∧
    (∀ id delay, .webapiAdd id "setTimeout" delay ∈ steps →
      (id ∈ Step.cleared steps ∧ id ∉ fired.map (·.callback.id)) ∨
      (id ∉ Step.cleared steps ∧ (fired.map (·.callback.id)).count id = 1)) ∧
    (∀ id delay, .webapiAdd id "setInterval" delay ∈ steps → id ∉ fired.map (·.callback.id)) ∧
    (∀ f ∈ g.firings source, f.callback.kind ≠ .interval) ∧
    fired.Pairwise Firing.Before ∧
    (∀ f ∈ fired, ∃ m1, Run.takeTimer f.callback f.before = .ok () m1 ∧
      m1.clock = f.callback.due) ∧
    fired.map (·.before.clock) ++ [m.clock] = 0 :: fired.map (·.callback.due) ∧
    (∀ (m : Machine) (op : Operation), m.clock ≤ (m.after op).clock) ∧
    ∀ cb ∈ m.callbacks, cb.kind ≠ .timeout := by
  obtain ⟨m, log, hrun, hsteps, hmachine, hfirings⟩ := Generator.generate_succeeded h
  obtain ⟨due, last, hran, hnone⟩ := Run.ran_generate source
    (Machine.Booked.start g.limit g.machine.log) hrun
  obtain ⟨T, hfired, hbooked⟩ := hran.books
  rw [List.nil_append] at hbooked
  rw [← hfirings] at hran hfired
  have hapi {id delay : Nat} (kind : TimerKind)
      (hadd : Step.webapiAdd id kind.api delay ∈ (g.generate source).1.steps) :
      ∃ cb ∈ T.flatMap Tile.registration, cb.id = id ∧ cb.kind = kind := by
    rw [hsteps, hbooked.steps] at hadd
    obtain ⟨cb, hcb, hid, hkind⟩ := Tile.registered_of_webapiAdd hadd
    exact ⟨cb, hcb, hid, TimerKind.api_injective hkind⟩
  dsimp only
  rw [hmachine, ← hfired]
  refine ⟨?_, fun id delay hadd => ?_, fun id delay hadd hid => ?_, hran.kinds, hran.turns.pairwise,
    fun f hf => ⟨_, rfl, Nat.max_eq_right (hran.turns.clock_le f hf)⟩, ?_,
    fun m op => Machine.passes_clock.after op m, hnone⟩
  · rw [hsteps, hbooked.steps, Tile.items_taskqueueAdd]
  · obtain ⟨cb, hcb, rfl, hkind⟩ := hapi .timeout hadd
    rw [hsteps, hbooked.steps, Tile.cleared_steps]
    exact hbooked.settled hnone hcb hkind
  · -- what fires is a timeout, and a number is not given out twice
    obtain ⟨cb, hcb, rfl, hkind⟩ := hapi .interval hadd
    have htimeout := hbooked.kind_eq hcb (hbooked.timeout_of_firing hid)
    rw [hkind] at htimeout
    cases htimeout
  · -- at the end the clock shows when the last timeout was due
    have hclock : (m.logged log).clock = due := hbooked.clock
    rw [hclock]
    exact hran.turns.clocks

/-- The first timer clears the third one and sets a fourth one, which is due at the same time as the
    second; the interval never fires. -/
theorem timeouts_fire_once_nested :
    let g := Generator.new 100 0
    let source := some ("setTimeout(() => { clearTimeout(3); setTimeout(() => 1, 5) }, 5); " ++
      "setTimeout(() => 2, 10); setTimeout(() => 3, 7); setInterval(() => 4, 1)")
    (g.generate source).1.succeeded = true ∧
    (Firing.timeouts (g.firings source)).map (fun f => (f.callback.id, f.callback.due)) =
      [(1, 5), (2, 10), (5, 10)] ∧
    Step.items .taskqueueAdd (g.generate source).1.steps =
      (Firing.timeouts (g.firings source)).map (·.callback.id) :=
  have hsucceeded : _ = true := by decide +kernel
  ⟨hsucceeded, by decide +kernel, (timeouts_fire_once (Generator.new 100 0) _ hsucceeded).1⟩

end EventLoop
