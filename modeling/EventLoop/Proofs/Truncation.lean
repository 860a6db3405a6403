/-
  The limit on steps only cuts runs short.

  Two runs that differ in their limits go in step until the lower limit is reached.  `Truncated`
  compares their results: they are the same, apart from the limit itself, or the run with the lower
  limit failed with the fault of the limit, and the other one emitted more steps than the lower
  limit allows.  Every composed action has this property, and so has a whole generation: the one
  place that looks at the room for steps is the number of turns that timers get, and this is never
  what ends them.
-/
import EventLoop.Proofs.Composition
import EventLoop.Proofs.Termination

namespace EventLoop

open Script

variable {α β : Type} {low high : Nat}

/-- The state with another limit on steps. -/
def Machine.limited (m : Machine) (limit : Nat) : Machine := m.withSteps { m.steps with limit }

namespace Machine

@[simp] theorem limited_limit (m : Machine) (limit : Nat) :
    (m.limited limit).steps.limit = limit := rfl

@[simp] theorem limited_size (m : Machine) (limit : Nat) :
    (m.limited limit).steps.size = m.steps.size := rfl

end Machine

namespace Run

/-! ## Results under two limits -/

/-- The results of two runs of one action, of which the first has the lower limit. -/
inductive Truncated (low high : Nat) :
    EStateM.Result Fault Machine α → EStateM.Result Fault Machine α → Prop
  | ok {a : α} {m : Machine} (hm : m.steps.size ≤ low) :
      Truncated low high (.ok a (m.limited low)) (.ok a (m.limited high))
  | error {fault : Fault} {m : Machine} (hfault : fault ≠ .stepLimit) :
      Truncated low high (.error fault (m.limited low)) (.error fault (m.limited high))
  | cut {m : Machine} {r : EStateM.Result Fault Machine α} (hr : low < (final r).steps.size) :
      Truncated low high (.error .stepLimit m) r

/-- An action that never takes steps back. -/
def Appends (act : Run α) : Prop := ∀ m : Machine, m.steps.size ≤ (final (act m)).steps.size

/-- An action that a lower limit only cuts short. -/
structure Truncates (act : Run α) : Prop where
  appends : Appends act
  truncated : ∀ (low high : Nat) (m : Machine), low < high → m.steps.size ≤ low →
    Truncated low high (act (m.limited low)) (act (m.limited high))

theorem Appends.bind {act : Run α} {f : α → Run β} (h : Appends act) (hf : ∀ a, Appends (f a)) :
    Appends (act >>= f) :=
  fun m => final_bind (h m) fun a m1 hm1 => Nat.le_trans hm1 (hf a m1)

/-- The state after a step that fits. -/
def shown (m : Machine) (s : Step) : Machine :=
  (m.emitted [s]).logged (m.log.write 3 ("step " ++ s.describe))

theorem emit_of_lt {m : Machine} (s : Step) (h : m.steps.size < m.steps.limit) :
    emit s m = .ok () (shown m s) := by
  have hfull : m.steps.isFull = false := decide_eq_false (Nat.not_le.2 h)
  simp [emit, hfull, shown, Machine.emitted, Machine.logged, StepSequence.push]

theorem final_restoring (scope : Scope) (frames : List Frame) (act : Run α) (m : Machine) :
    (final (restoring scope frames act m)).steps = (final (act m)).steps := by
  rw [restoring]
  cases act m <;> rfl

namespace Truncates

theorem bind {act : Run α} {f : α → Run β} (h : Truncates act) (hf : ∀ a, Truncates (f a)) :
    Truncates (act >>= f) where
  appends := h.appends.bind fun a => (hf a).appends
  truncated low high m hlt hm := by
    rw [bind_apply, bind_apply]
    have hact := h.truncated low high m hlt hm
    generalize act (m.limited low) = r at hact
    generalize act (m.limited high) = r' at hact
    cases hact with
    | @ok a m1 hm1 => exact (hf a).truncated low high m1 hlt hm1
    | error hfault => exact .error hfault
    | cut hr =>
      cases r' with
      | ok a m1 =>
        -- whatever the longer run does next, its steps stay beyond the lower limit
        have hnext : m1.steps.size ≤ (final (f a m1)).steps.size := (hf a).appends m1
        exact .cut (hr.trans_le hnext)
      | error fault m1 => exact .cut hr

theorem of_quiet {act : Run α} (h : Quiet act) : Truncates act where
  appends m := by
    rw [h.steps_eq m]
    cases act m <;> exact Nat.le_refl _
  truncated low high m hlt hm := by
    rw [Machine.limited, Machine.limited, h.blind, h.blind]
    cases hact : act m with
    | ok a m' => exact .ok (m := m'.withSteps m.steps) hm
    | error fault m' =>
      have hordinary := h.ordinary m m' fault hact
      rw [Fault.isOrdinary, Bool.and_eq_true, bne_iff_ne] at hordinary
      exact .error (m := m'.withSteps m.steps) hordinary.2

theorem emit (s : Step) : Truncates (Run.emit s) where
  appends m := by
    rcases emit_cases s m with ⟨_, log, h⟩ | ⟨_, h⟩
    · rw [h]
      simp
    · rw [h]
      exact Nat.le_refl _
  truncated low high m hlt hm := by
    have hhigh : Run.emit s (m.limited high) = .ok () (shown (m.limited high) s) :=
      emit_of_lt s (hm.trans_lt hlt)
    rw [hhigh]
    rcases Nat.lt_or_ge m.steps.size low with hroom | hfull
    · have hlow : Run.emit s (m.limited low) = .ok () (shown (m.limited low) s) :=
        emit_of_lt s hroom
      have hsize : (shown m s).steps.size ≤ low := by
        simpa [shown] using Nat.succ_le_of_lt hroom
      rw [hlow]
      exact .ok (m := shown m s) hsize
    · have hlow : Run.emit s (m.limited low) = .error .stepLimit (m.limited low) :=
        emit_of_full s hfull
      have hsize : low < (shown (m.limited high) s).steps.size := by
        simpa [shown] using Nat.lt_succ_of_le hfull
      rw [hlow]
      exact .cut hsize

theorem restoring {act : Run α} (scope : Scope) (frames : List Frame) (h : Truncates act) :
    Truncates (restoring scope frames act) where
  appends m := by
    rw [final_restoring]
    exact h.appends m
  truncated low high m hlt hm := by
    have hact := h.truncated low high m hlt hm
    have hfinal := final_restoring scope frames act (m.limited high)
    rw [Run.restoring] at hfinal ⊢
    rw [Run.restoring]
    generalize act (m.limited low) = r at hact
    generalize act (m.limited high) = r' at hact hfinal
    cases hact with
    | @ok a m1 hm1 => exact .ok (m := { m1 with scope, frames }) hm1
    | @error fault m1 hfault => exact .error (m := { m1 with scope, frames }) hfault
    | cut hr => exact .cut (hfinal ▸ hr)

end Truncates

theorem Composed.truncates {act : Run α} (h : Composed act) : Truncates act := by
  induction h with
  | quiet h => exact .of_quiet h
  | emit s => exact .emit s
  | bind _ _ ih ihf => exact ih.bind ihf
  | restoring scope frames _ ih => exact ih.restoring scope frames

/-! ## Timers and generations -/

/-- More turns than there is room for steps are as good as any number of them. -/
theorem timerTurns_eq_drainTimers {fuel : Nat} {m : Machine}
    (hfuel : m.steps.limit - m.steps.size < fuel) : timerTurns fuel m = drainTimers m := by
  rw [← timerTurns_unrolled (pure ()) hfuel hfuel]
  exact drainTimers_unrolled (pure ()) hfuel

theorem drainTimers_truncates : Truncates drainTimers where
  appends m := (timerTurns_composed _).truncates.appends m
  truncated low high m hlt hm := by
    have hlow : timerTurns (high + 1) (m.limited low) = drainTimers (m.limited low) :=
      timerTurns_eq_drainTimers (by rw [Machine.limited_limit]; omega)
    have hhigh : timerTurns (high + 1) (m.limited high) = drainTimers (m.limited high) :=
      timerTurns_eq_drainTimers (by rw [Machine.limited_limit]; omega)
    rw [← hlow, ← hhigh]
    exact (timerTurns_composed (high + 1)).truncates.truncated low high m hlt hm

theorem generate_truncates (source : Option String) : Truncates (generate source) :=
  (runSource_composed source).truncates.bind fun _ => (enter_composed _).truncates.bind fun _ =>
    drainFrames_composed.truncates.bind fun _ => (enter_composed _).truncates.bind fun _ =>
      drainTimers_truncates.bind fun _ => (enter_composed _).truncates

end Run

/-! ## Reports -/

/-- The report of the limit on steps. -/
def Report.stepLimit : Report := ⟨.complexity, "Code complexity exceeds limit"⟩

/-- What a generation gives, by the result of its run. -/
def Generation.ofResult : EStateM.Result Fault Machine Unit → Generation
  | .ok _ m => { result := .ok m.steps.toList, warnings := m.warnings.toList }
  | .error fault m => { result := .error fault.report, warnings := m.warnings.toList }

theorem Generation.result_eq_ok {r : Generation} (h : r.succeeded = true) :
    r.result = .ok r.steps := by
  rw [succeeded] at h
  rw [steps]
  cases hr : r.result with
  | ok l => rfl
  | error report =>
    rw [hr] at h
    cases h

/-- The phase in which a generation ends, by the result of its run. -/
def Phase.ofResult : EStateM.Result Fault Machine Unit → Phase
  | .ok _ _ => .done
  | .error _ _ => .error

namespace Generator

/-- The generator with another limit on steps. -/
def limitedTo (g : Generator) (limit : Nat) : Generator := { g with limit }

theorem reset_limitedTo (g : Generator) (limit : Nat) :
    (g.limitedTo limit).reset.machine = (Machine.start 0 g.machine.log).limited limit := rfl

theorem generate_eq_ofResult {g : Generator} (hg : g.active = false) (source : Option String) :
    (g.generate source).1 = .ofResult (Run.generate source g.reset.machine) ∧
      (g.generate source).2.phase = some (.ofResult (Run.generate source g.reset.machine)) := by
  simp only [generate, hg]
  cases Run.generate source g.reset.machine with
  | ok a m => exact ⟨rfl, rfl⟩
  | error fault m => exact ⟨rfl, rfl⟩

theorem generate_of_active {g : Generator} (hg : g.active = true) (source : Option String) :
    (g.generate source).1 = { result := .error Fault.generationActive.report } ∧
      (g.generate source).2.phase = g.phase := by
  simp only [generate, hg]
  exact ⟨rfl, rfl⟩

/-- Two generations that differ in their limits.  Either they give the same, and the steps fit under
    the lower limit, or the lower limit is exceeded. -/
theorem generate_cases (g : Generator) (source : Option String) (hlt : low < high) :
    (((g.limitedTo low).generate source).1 = ((g.limitedTo high).generate source).1 ∧
      ((g.limitedTo low).generate source).2.phase = ((g.limitedTo high).generate source).2.phase ∧
      ∀ steps, ((g.limitedTo low).generate source).1.result = .ok steps → steps.length ≤ low) ∨
    ((g.limitedTo low).generate source).1.result = .error Report.stepLimit ∧
      ∀ steps, ((g.limitedTo high).generate source).1.result = .ok steps → low < steps.length := by
  cases hg : g.active with
  | true =>
    obtain ⟨hlow, hphase⟩ := generate_of_active (g := g.limitedTo low) hg source
    obtain ⟨hhigh, hphase'⟩ := generate_of_active (g := g.limitedTo high) hg source
    refine .inl ⟨hlow.trans hhigh.symm, hphase.trans hphase'.symm, fun steps hsteps => ?_⟩
    rw [hlow] at hsteps
    cases hsteps
  | false =>
    obtain ⟨hlow, hphase⟩ := generate_eq_ofResult (g := g.limitedTo low) hg source
    obtain ⟨hhigh, hphase'⟩ := generate_eq_ofResult (g := g.limitedTo high) hg source
    have htrunc := (Run.generate_truncates source).truncated low high
      (Machine.start 0 g.machine.log) hlt (Nat.zero_le low)
    rw [hlow, hhigh, hphase, hphase', reset_limitedTo, reset_limitedTo]
    generalize Run.generate source (Machine.limited _ low) = r at htrunc
    generalize Run.generate source (Machine.limited _ high) = r' at htrunc
    cases htrunc with
    | ok hm =>
      refine .inl ⟨rfl, rfl, fun steps hsteps => ?_⟩
      cases hsteps
      exact hm
    | error hfault => exact .inl ⟨rfl, rfl, nofun⟩
    | cut hr =>
      -- the lower limit was reached, and with the higher one there are more steps
      refine .inr ⟨rfl, fun steps hsteps => ?_⟩
      cases r' with
      | ok a m =>
        cases hsteps
        exact hr
      | error fault m => cases hsteps

theorem length_steps_le {g : Generator} {source : Option String} {limit : Nat} {steps : List Step}
    (h : ((g.limitedTo limit).generate source).1.result = .ok steps) : steps.length ≤ limit := by
  rcases generate_cases g source (Nat.lt_succ_self limit) with ⟨_, _, hfits⟩ | ⟨hcut, _⟩
  · exact hfits steps h
  · rw [hcut] at h
    cases h

/-- A generation that the limit on steps does not end gives the same with any higher limit: the same
    steps or the same report, the same warnings and the same phase.  And a generation of some number
    of steps gives these steps with just the limits that are no lower than that number; with a lower
    one it fails, reports the limit and has no steps. -/
theorem limit_only_truncates (g : Generator) (source : Option String) (low high : Nat)
    (hle : low ≤ high) :
    (((g.limitedTo low).generate source).1.report? ≠ some Report.stepLimit →
      ((g.limitedTo high).generate source).1 = ((g.limitedTo low).generate source).1 ∧
      ((g.limitedTo high).generate source).2.phase =
        ((g.limitedTo low).generate source).2.phase) ∧
    ∀ steps, ((g.limitedTo high).generate source).1.result = .ok steps → ∀ limit,
      (steps.length ≤ limit →
        ((g.limitedTo limit).generate source).1 = ((g.limitedTo high).generate source).1) ∧
      (limit < steps.length →
        ((g.limitedTo limit).generate source).1.result = .error Report.stepLimit ∧
        ((g.limitedTo limit).generate source).1.steps = []) := by
  refine ⟨fun hlow => ?_, fun steps hsteps limit => ?_⟩
  · rcases hle.eq_or_lt with rfl | hlt
    · exact ⟨rfl, rfl⟩
    rcases generate_cases g source hlt with ⟨heq, hphase, _⟩ | ⟨hcut, _⟩
    · exact ⟨heq.symm, hphase.symm⟩
    · exact absurd (by rw [Generation.report?, hcut]) hlow
  · have hfits := length_steps_le hsteps
    rcases Nat.lt_trichotomy limit high with hlt | rfl | hlt
    · rcases generate_cases g source hlt with ⟨heq, _, hlimit⟩ | ⟨hcut, hover⟩
      · have hlength := hlimit steps (heq ▸ hsteps)
        exact ⟨fun _ => heq, fun h => absurd h (Nat.not_lt.2 hlength)⟩
      · have hlength := hover steps hsteps
        refine ⟨fun h => absurd h (Nat.not_le.2 hlength), fun _ => ⟨hcut, ?_⟩⟩
        rw [Generation.steps, hcut]
        rfl
    · exact ⟨fun _ => rfl, fun h => absurd h (Nat.not_lt.2 hfits)⟩
    · rcases generate_cases g source hlt with ⟨heq, _, _⟩ | ⟨hcut, _⟩
      · exact ⟨fun _ => heq.symm, fun h => absurd h (Nat.not_lt.2 (hfits.trans hlt.le))⟩
      · rw [hcut] at hsteps
        cases hsteps

/-- A timer and a promise chain that take 29 steps are shown with every limit from 29 upwards, and
    with no lower one. -/
theorem limit_only_truncates_chain :
    let source := some
      "setTimeout(() => console.log(1), 0); Promise.resolve(2).then(v => console.log(v))"
    let g := Generator.new 100 0
    29 ≤ 100 ∧ ((g.limitedTo 29).generate source).1.report? ≠ some Report.stepLimit ∧
    ((g.limitedTo 100).generate source).1 = ((g.limitedTo 29).generate source).1 ∧
    ((g.limitedTo 100).generate source).1.steps.length = 29 ∧
    ∀ limit, (29 ≤ limit →
        ((g.limitedTo limit).generate source).1 = ((g.limitedTo 100).generate source).1) ∧
      (limit < 29 →
        ((g.limitedTo limit).generate source).1.result = .error Report.stepLimit) := by
  intro source g
  have hlow : ((g.limitedTo 29).generate source).1.succeeded = true ∧
      ((g.limitedTo 29).generate source).1.steps.length = 29 := by decide +kernel
  have hresult := Generation.result_eq_ok hlow.1
  have hreport : ((g.limitedTo 29).generate source).1.report? ≠ some Report.stepLimit := by
    rw [Generation.report?, hresult]
    exact nofun
  have htrunc := limit_only_truncates g source 29 100 (by decide)
  have heq := (htrunc.1 hreport).1
  have hsteps := htrunc.2 _ ((congrArg Generation.result heq).trans hresult)
  rw [hlow.2] at hsteps
  exact ⟨by decide, hreport, heq, (congrArg (·.steps.length) heq).trans hlow.2,
    fun limit => ⟨(hsteps limit).1, fun h => ((hsteps limit).2 h).1⟩⟩

end Generator

end EventLoop
