/-
  Runs that share an engine, and may go on in any order.

  A run does something only from one wait to the next.  In between, the engine can be loaded,
  paused, resumed, stopped and reset, single steps can be taken, and other runs can begin or go
  on.  A list of events is one order in which things happen on a `Stage`.  No clock chooses the
  order: the wait of a run can end at any time, and the listener can begin to fail at any time.

  `Engine.RunTurn` says once what a run does in its turn.  From it come the facts that every event
  keeps (`Stage.InStep`): the flags of the store are those of the engine, no run belongs to a later
  epoch, and a running engine has a run that will clear the flag.
-/
import EventLoop.Replay.Visualizer
import Mathlib.Data.List.Basic

namespace EventLoop

/-! ## Steps handed to the store -/

/-- A step that is handed to the store, at a given speed. -/
structure Handing where
  step : Step
  /-- The engine to which the step is applied. -/
  engine : Engine
  speed : Speed
  /-- Whether a run hands the step over; otherwise it is taken singly. -/
  byRun : Bool

namespace Handing

/-- The engine after the step. -/
def after (h : Handing) : Engine := (h.engine.apply h.step).1

/-- Why the step could not be applied. -/
def fault? (h : Handing) : Option ReplayFault := (h.engine.apply h.step).2

/-- The time to wait after the step. -/
def wait (h : Handing) : Except ReplayFault Float := Engine.scaled h.step.duration h.speed

/-- What comes of the step. -/
def taken (h : Handing) : Engine.Taken :=
  match h.fault?, h.wait with
  | some f, _ => .failed f
  | none, .error f => .failed f
  | none, .ok ms => .applied h.step ms

theorem taken_cases (h : Handing) :
    (∃ f, h.taken = .failed f) ∨ ∃ ms, h.taken = .applied h.step ms := by
  rw [taken]
  cases h.fault? with
  | some f => exact .inl ⟨f, rfl⟩
  | none =>
    cases h.wait with
    | error f => exact .inl ⟨f, rfl⟩
    | ok ms => exact .inr ⟨ms, rfl⟩

end Handing

namespace Engine

variable {e : Engine} {speed : Speed} {epoch : Nat} {byRun : Bool} {h : Handing}

/-- The step that is handed over when the next step is taken. -/
def handing? (e : Engine) (speed : Speed) (byRun : Bool) : Option Handing :=
  (e.steps[e.cursor]?).map fun step =>
    { step, engine := { e with cursor := e.cursor + 1 }, speed, byRun }

/-- The step that a run of an epoch hands over in its turn. -/
def runHanding? (e : Engine) (speed : Speed) (epoch : Nat) : Option Handing :=
  if e.isOver epoch || e.paused then none else e.handing? speed true

theorem handing?_eq_some (hh : e.handing? speed byRun = some h) :
    e.steps[e.cursor]? = some h.step ∧ h.engine = { e with cursor := e.cursor + 1 } ∧
      h.speed = speed ∧ h.byRun = byRun := by
  obtain ⟨step, hstep, rfl⟩ := Option.map_eq_some_iff.1 hh
  exact ⟨hstep, rfl, rfl, rfl⟩

theorem handing?_eq_none : e.handing? speed byRun = none ↔ e.isDone = true := by
  simp [handing?, isDone]

theorem take_of_done (hd : e.isDone = true) : e.take speed = (e, .nothing) := by
  have hnone : e.steps[e.cursor]? = none := by simpa [isDone] using hd
  rw [take, hnone]

theorem take_of_handing (hh : e.handing? speed byRun = some h) :
    e.take speed = (h.after, h.taken) := by
  obtain ⟨hstep, hengine, hspeed, _⟩ := handing?_eq_some hh
  rw [take, hstep]
  simp only [Handing.taken, Handing.after, Handing.fault?, Handing.wait, hengine, hspeed]
  cases hfault : ({ e with cursor := e.cursor + 1 }.apply h.step).2 with
  | some f => rfl
  | none => cases scaled h.step.duration speed <;> rfl

/-! ## Turns of a run -/

/-- What a run of an epoch does in its turn: the step that it hands over, the engine that it
    leaves, and what it comes to. -/
inductive RunTurn (e : Engine) (speed : Speed) (epoch : Nat) :
    Option Handing → Engine × RunProgress → Prop
  /-- It was stopped. -/
  | cancelled (hover : e.isOver epoch = true) : RunTurn e speed epoch none (e.finishRun epoch false)
  /-- It is held. -/
  | held (hover : e.isOver epoch = false) (hpaused : e.paused = true) (ms : Float) :
      RunTurn e speed epoch none (e, .waits ms { speed, epoch, wait := .hold })
  /-- No step is left. -/
  | done (hover : e.isOver epoch = false) (hdone : e.isDone = true) :
      RunTurn e speed epoch none (e.finishRun epoch true)
  /-- The next step fails, or cannot be waited for. -/
  | failed {h : Handing} {f : ReplayFault} (hover : e.isOver epoch = false)
      (hh : e.handing? speed true = some h) (hf : h.taken = .failed f) :
      RunTurn e speed epoch (some h) (h.after.failRun epoch f)
  /-- The next step is applied. -/
  | applied {h : Handing} {ms : Float} (hover : e.isOver epoch = false)
      (hh : e.handing? speed true = some h) (ht : h.taken = .applied h.step ms) :
      RunTurn e speed epoch (some h) (h.after, .waits ms { speed, epoch, wait := .step })

namespace RunProgress

/-- The run, if it waits. -/
def run? : RunProgress → Option RunState
  | .waits _ r => some r
  | .ended _ => none

/-- What the run has given, if it has ended. -/
def result? : RunProgress → Option Bool
  | .waits _ _ => none
  | .ended finished => some finished

end RunProgress

theorem runHeld_turn (e : Engine) (speed : Speed) (epoch : Nat) :
    RunTurn e speed epoch (e.runHanding? speed epoch) (e.runHeld speed epoch) := by
  cases hover : e.isOver epoch with
  | true =>
    rw [runHanding?, runHeld, hover]
    exact .cancelled hover
  | false =>
    cases hpaused : e.paused with
    | true =>
      rw [runHanding?, runHeld, hover, hpaused]
      exact .held hover hpaused _
    | false =>
      rw [runHanding?, runHeld, hover, hpaused]
      simp only [Bool.or_self, Bool.false_eq_true, if_false]
      cases hh : e.handing? speed true with
      | none =>
        have hdone := handing?_eq_none.1 hh
        rw [take_of_done hdone]
        exact .done hover hdone
      | some h =>
        rw [take_of_handing hh]
        rcases h.taken_cases with ⟨f, hf⟩ | ⟨ms, ht⟩
        · rw [hf]
          exact .failed hover hh hf
        · rw [ht]
          exact .applied hover hh ht

theorem runNext_turn (hover : e.isOver epoch = false) (speed : Speed) :
    RunTurn e speed epoch (e.runHanding? speed epoch) (e.runNext speed epoch) := by
  rw [runNext]
  cases hdone : e.isDone with
  | true =>
    have hnone : e.runHanding? speed epoch = none := by
      rw [runHanding?, handing?_eq_none.2 hdone, ite_self]
    rw [hnone]
    exact .done hover hdone
  | false => exact runHeld_turn e speed epoch

theorem continueRun_turn (e : Engine) (r : RunState) :
    RunTurn e r.speed r.epoch (e.runHanding? r.speed r.epoch) (e.continueRun r) := by
  rw [continueRun]
  cases r.wait with
  | hold => exact runHeld_turn e r.speed r.epoch
  | step =>
    cases hover : e.isOver r.epoch with
    | true =>
      simp only [runHanding?, hover, Bool.true_or, if_true]
      exact .cancelled hover
    | false => exact runNext_turn hover r.speed

/-- The engine on which a run begins. -/
def started (e : Engine) : Engine :=
  { e with running := true, stopped := false, store := e.store.setRunning true }

theorem isOver_started (e : Engine) : e.started.isOver e.epoch = false := by
  simp [isOver, started]

theorem startRun_turn (hr : e.running = false) (speed : Speed) :
    RunTurn e.started speed e.epoch (e.started.runHanding? speed e.epoch) (e.startRun speed) := by
  rw [startRun, hr]
  exact runNext_turn e.isOver_started speed

end Engine

/-! ## Stages -/

/-- What happens to an engine in one go. -/
inductive Event where
  | load (steps : List Step)
  | pause
  | resume
  | stop
  | reset
  /-- A run begins. -/
  | run (speed : Speed)
  /-- A single step is taken.  When its time has passed, nothing else happens. -/
  | advance (speed : Speed)
  /-- A run goes on, if it waits. -/
  | proceed (run : Nat)
  /-- From now on the listener fails at another step, or at none. -/
  | arm (failure : Option (Nat × String))

/-- An engine, and the runs that were begun on it, with what each of them came to last. -/
structure Stage where
  engine : Engine := {}
  runs : List Engine.RunProgress := []

namespace Stage

/-- A new engine.  The listener and the log can be any. -/
def start (listener : Listener) (log : Log) : Stage := { engine := { listener, log } }

/-- The run with a number, if it waits. -/
def run? (s : Stage) (i : Nat) : Option Engine.RunState := (s.runs[i]?).bind (·.run?)

/-- What the run with a number has given, if it has ended. -/
def result? (s : Stage) (i : Nat) : Option Bool := (s.runs[i]?).bind (·.result?)

/-- A run goes on. -/
def proceed (s : Stage) (i : Nat) (r : Engine.RunState) : Stage :=
  { engine := (s.engine.continueRun r).1, runs := s.runs.set i (s.engine.continueRun r).2 }

/-- What an event makes of a stage. -/
def perform (s : Stage) : Event → Stage
  | .load steps => { s with engine := s.engine.load steps }
  | .pause => { s with engine := s.engine.pause }
  | .resume => { s with engine := s.engine.resume }
  | .stop => { s with engine := s.engine.stop }
  | .reset => { s with engine := s.engine.reset }
  | .run speed =>
    { engine := (s.engine.startRun speed).1, runs := s.runs ++ [(s.engine.startRun speed).2] }
  | .advance speed => { s with engine := (s.engine.take speed).1 }
  | .proceed i =>
    match s.run? i with
    | some r => s.proceed i r
    | none => s
  | .arm failure =>
    { s with engine := { s.engine with listener := { s.engine.listener with failure } } }

/-- The stage after some events. -/
def after (s : Stage) (events : List Event) : Stage := events.foldl perform s

/-- The step that is handed to the store in an event. -/
def handing? (s : Stage) : Event → Option Handing
  | .run speed =>
    if s.engine.running then none else s.engine.started.runHanding? speed s.engine.epoch
  | .advance speed => s.engine.handing? speed false
  | .proceed i => (s.run? i).bind fun r => s.engine.runHanding? r.speed r.epoch
  | _ => none

/-- The steps that are handed to the store in some events. -/
def handings (s : Stage) : List Event → List Handing
  | [] => []
  | ev :: rest => (s.handing? ev).toList ++ (s.perform ev).handings rest

end Stage

/-! ## Flags -/

theorem Store.show?_flags {s s' : Store} {step : Step} (h : s.show? step = some s') :
    s'.running = s.running ∧ s'.paused = s.paused := by
  rw [show?] at h
  cases hkind : step.kind <;> rw [hkind] at h <;> cases h <;> exact ⟨rfl, rfl⟩

namespace Engine

variable {e : Engine} {speed : Speed} {epoch : Nat} {hand : Option Handing}
  {q : Engine × RunProgress}

/-- Two engines agree in their flags and in their epoch. -/
structure SameControl (e e' : Engine) : Prop where
  running : e'.running = e.running
  paused : e'.paused = e.paused
  stopped : e'.stopped = e.stopped
  epoch : e'.epoch = e.epoch
  storeRunning : e'.store.running = e.store.running
  storePaused : e'.store.paused = e.store.paused

namespace SameControl

variable {e' e'' : Engine}

theorem rfl : SameControl e e :=
  ⟨.refl _, .refl _, .refl _, .refl _, .refl _, .refl _⟩

theorem trans (h : SameControl e e') (h' : SameControl e' e'') : SameControl e e'' where
  running := h'.running.trans h.running
  paused := h'.paused.trans h.paused
  stopped := h'.stopped.trans h.stopped
  epoch := h'.epoch.trans h.epoch
  storeRunning := h'.storeRunning.trans h.storeRunning
  storePaused := h'.storePaused.trans h.storePaused

theorem isOver_eq (h : SameControl e e') (epoch : Nat) : e'.isOver epoch = e.isOver epoch := by
  rw [isOver, isOver, h.stopped, h.epoch]

end SameControl

theorem apply_control (e : Engine) (s : Step) : SameControl e (e.apply s).1 := by
  rw [apply]
  cases hshow : e.store.show? s with
  | none => exact .rfl
  | some store =>
    have hflags := Store.show?_flags hshow
    exact ⟨rfl, rfl, rfl, rfl, hflags.1, hflags.2⟩

theorem handing?_control {byRun : Bool} {h : Handing} (hh : e.handing? speed byRun = some h) :
    SameControl e h.after := by
  obtain ⟨_, hengine, _, _⟩ := handing?_eq_some hh
  rw [Handing.after, hengine]
  have hmoved : SameControl e { e with cursor := e.cursor + 1 } := ⟨rfl, rfl, rfl, rfl, rfl, rfl⟩
  exact hmoved.trans (apply_control _ h.step)

theorem take_control (e : Engine) (speed : Speed) : SameControl e (e.take speed).1 := by
  cases hh : e.handing? speed false with
  | none =>
    rw [take_of_done (handing?_eq_none.1 hh)]
    exact .rfl
  | some h =>
    rw [take_of_handing hh]
    exact handing?_control hh

/-- The engine after the failure of a run was written to the log and to the console. -/
def reported (e : Engine) (f : ReplayFault) : Engine :=
  (e.note 1 ("replay error: " ++ f.report.text)).print ("Error: " ++ f.message)

theorem reported_control (e : Engine) (f : ReplayFault) : SameControl e (e.reported f) :=
  ⟨rfl, rfl, rfl, rfl, rfl, rfl⟩

/-- The engine with its flags cleared. -/
def cleared (e : Engine) : Engine :=
  { e with running := false, paused := false, store := (e.store.setRunning false).setPaused false }

/-- A run that ends clears the flags, unless another epoch has begun and goes on. -/
theorem finishRun_eq (e : Engine) (epoch : Nat) (finished : Bool) :
    e.finishRun epoch finished = (e.cleared, .ended finished) ∨
      e.finishRun epoch finished = (e, .ended finished) ∧ e.epoch ≠ epoch ∧ e.stopped = false := by
  rw [finishRun]
  by_cases hepoch : e.epoch = epoch
  · left
    simp [hepoch, cleared]
  · cases hstopped : e.stopped with
    | true =>
      left
      simp [cleared, hstopped]
    | false =>
      right
      simp [hepoch]

theorem epoch_of_isOver (h : e.isOver epoch = false) : e.epoch = epoch := by
  simpa using (Bool.or_eq_false_iff.1 h).2

theorem finishRun_of_current (h : e.isOver epoch = false) (finished : Bool) :
    e.finishRun epoch finished = (e.cleared, .ended finished) := by
  rw [finishRun, decide_eq_true (epoch_of_isOver h)]
  rfl

theorem failRun_eq (e : Engine) (epoch : Nat) (f : ReplayFault) :
    e.failRun epoch f = (e.reported f).finishRun epoch false := rfl

theorem finishRun_place (e : Engine) (epoch : Nat) (finished : Bool) :
    (e.finishRun epoch finished).1.steps = e.steps ∧
      (e.finishRun epoch finished).1.cursor = e.cursor := by
  rcases e.finishRun_eq epoch finished with h | ⟨h, _⟩ <;> rw [h] <;> exact ⟨rfl, rfl⟩

theorem handing?_place {byRun : Bool} {h : Handing} (hh : e.handing? speed byRun = some h) :
    h.after.steps = e.steps ∧ h.after.cursor = e.cursor + 1 := by
  obtain ⟨_, hengine, _, _⟩ := handing?_eq_some hh
  rw [Handing.after, hengine, apply]
  cases Store.show? _ h.step <;> exact ⟨rfl, rfl⟩

namespace RunTurn

section

variable (ht : RunTurn e speed epoch hand q)

include ht

/-- A run that waits has left the flags alone, and belongs to the same epoch as before. -/
theorem waits {r : RunState} (hq : q.2.run? = some r) :
    r.epoch = epoch ∧ e.isOver epoch = false ∧ SameControl e q.1 := by
  cases ht with
  | cancelled hover => cases hq
  | held hover _ _ =>
    cases hq
    exact ⟨rfl, hover, .rfl⟩
  | done _ _ => cases hq
  | failed _ _ _ => cases hq
  | applied hover hh _ =>
    cases hq
    exact ⟨rfl, hover, handing?_control hh⟩

/-- A run that ends has cleared the flags, unless another epoch has begun and goes on; then it
    has touched nothing. -/
theorem ends (hq : q.2.run? = none) : (∃ e1, SameControl e e1 ∧ q.1 = e1.cleared) ∨
      q.1 = e ∧ e.epoch ≠ epoch ∧ e.stopped = false := by
  cases ht with
  | cancelled _ =>
    rcases e.finishRun_eq epoch false with h | ⟨h, hother⟩
    · exact .inl ⟨e, .rfl, by rw [h]⟩
    · exact .inr ⟨by rw [h], hother⟩
  | held _ _ _ => cases hq
  | done hover _ => exact .inl ⟨e, .rfl, by rw [finishRun_of_current hover]⟩
  | @failed h f hover hh _ =>
    have hreported := (handing?_control hh).trans (h.after.reported_control f)
    have hcurrent : (h.after.reported f).isOver epoch = false :=
      (hreported.isOver_eq epoch).trans hover
    refine .inl ⟨h.after.reported f, hreported, ?_⟩
    rw [failRun_eq, finishRun_of_current hcurrent]
  | applied _ _ _ => cases hq

theorem place : q.1.steps = e.steps ∧ q.1.cursor = e.cursor + hand.toList.length := by
  cases ht with
  | cancelled _ => exact finishRun_place e epoch false
  | held _ _ _ => exact ⟨rfl, rfl⟩
  | done _ _ => exact finishRun_place e epoch true
  | @failed h f _ hh _ =>
    obtain ⟨hsteps, hcursor⟩ := finishRun_place (h.after.reported f) epoch false
    obtain ⟨hsteps', hcursor'⟩ := handing?_place hh
    rw [failRun_eq]
    exact ⟨hsteps.trans hsteps', hcursor.trans hcursor'⟩
  | applied _ hh _ => exact handing?_place hh

theorem epoch_stopped : q.1.epoch = e.epoch ∧ q.1.stopped = e.stopped := by
  cases hq : q.2.run? with
  | some r =>
    obtain ⟨_, _, hcontrol⟩ := ht.waits hq
    exact ⟨hcontrol.epoch, hcontrol.stopped⟩
  | none =>
    rcases ht.ends hq with ⟨e1, hcontrol, hcleared⟩ | ⟨hsame, _, _⟩
    · rw [hcleared]
      exact ⟨hcontrol.epoch, hcontrol.stopped⟩
    · rw [hsame]
      exact ⟨rfl, rfl⟩

end

end RunTurn

theorem startRun_of_running (h : e.running = true) (speed : Speed) :
    e.startRun speed = (e.note 1 "replay already running; run refused", .ended false) := by
  rw [startRun, h]
  rfl

/-- A run that begins is accepted: it is finished at once if no step is left, it is held if the
    engine is paused, and otherwise it takes the next step. -/
structure Accepts (e : Engine) (speed : Speed) : Prop where
  done : e.isDone = true → (e.startRun speed).2 = .ended true
  held : e.isDone = false → e.paused = true →
    ∃ ms, e.startRun speed = (e.started, .waits ms { speed, epoch := e.epoch, wait := .hold })
  taken : e.isDone = false → e.paused = false → (e.startRun speed).1.cursor = e.cursor + 1

theorem accepts (h : e.running = false) (speed : Speed) : e.Accepts speed := by
  have hnext : e.startRun speed = e.started.runNext speed e.epoch := by
    rw [startRun, h]
    rfl
  have hdone : e.started.isDone = e.isDone := rfl
  have hpaused : e.started.paused = e.paused := rfl
  refine ⟨?_, ?_, ?_⟩
  · intro hd
    rw [hnext, runNext, hdone, hd]
    rfl
  · intro hd hp
    rw [hnext, runNext, hdone, hd, runHeld, isOver_started, hpaused, hp]
    exact ⟨_, rfl⟩
  · intro hd hp
    have hhand : e.started.runHanding? speed e.epoch ≠ none := by
      rw [runHanding?, isOver_started, hpaused, hp]
      intro hnone
      rw [if_neg (by decide), handing?_eq_none, hdone, hd] at hnone
      cases hnone
    have hplace := (startRun_turn h speed).place.2
    cases hh : e.started.runHanding? speed e.epoch with
    | none => exact absurd hh hhand
    | some hand => rwa [hh] at hplace

theorem continueRun_of_isOver {r : RunState} (h : e.isOver r.epoch = true) :
    e.continueRun r = e.finishRun r.epoch false := by
  rw [continueRun]
  cases r.wait <;> simp [runHeld, h]

end Engine

namespace Stage

variable {s : Stage} {i : Nat} {r : Engine.RunState}

theorem run?_lt (h : s.run? i = some r) : i < s.runs.length := by
  obtain ⟨p, hp, _⟩ := Option.bind_eq_some_iff.1 h
  exact (List.getElem?_eq_some_iff.1 hp).1

theorem perform_proceed (h : s.run? i = some r) : s.perform (.proceed i) = s.proceed i r := by
  rw [perform, h]

theorem run?_proceed (h : s.run? i = some r) (j : Nat) :
    (s.proceed i r).run? j = if i = j then (s.engine.continueRun r).2.run? else s.run? j := by
  by_cases hij : i = j
  · subst hij
    rw [if_pos rfl, run?, proceed, List.getElem?_set_self (run?_lt h)]
    rfl
  · rw [if_neg hij, run?, proceed, List.getElem?_set_ne hij]
    rfl

theorem run?_perform_run (s : Stage) (speed : Speed) (j : Nat) : (s.perform (.run speed)).run? j =
      if s.runs.length = j then (s.engine.startRun speed).2.run? else s.run? j := by
  rw [run?, perform, List.getElem?_append]
  by_cases hj : s.runs.length = j
  · subst hj
    simp
  · rw [if_neg hj]
    by_cases hlt : j < s.runs.length
    · rw [if_pos hlt]
      rfl
    · have hpast : j - s.runs.length = j - s.runs.length - 1 + 1 := by omega
      have hnone : s.runs[j]? = none := List.getElem?_eq_none (by omega)
      rw [if_neg hlt, hpast, run?, hnone]
      rfl

theorem run?_perform_refused (hrunning : s.engine.running = true) (speed : Speed) (j : Nat) :
    (s.perform (.run speed)).run? j = s.run? j := by
  rw [run?_perform_run, Engine.startRun_of_running hrunning]
  by_cases hj : s.runs.length = j
  · have hnone : s.runs[j]? = none := List.getElem?_eq_none (by omega)
    rw [if_pos hj, run?, hnone]
    rfl
  · rw [if_neg hj]

/-- The flags of the store are those of the engine, no run belongs to an epoch to come, and a
    running engine has a run that will clear the flag. -/
structure InStep (s : Stage) : Prop where
  running : s.engine.store.running = s.engine.running
  paused : s.engine.store.paused = s.engine.paused
  epochs : ∀ i r, s.run? i = some r → r.epoch ≤ s.engine.epoch
  owner : s.engine.running = true →
    ∃ i r, s.run? i = some r ∧ (r.epoch = s.engine.epoch ∨ s.engine.stopped = true)

namespace InStep

theorem start (listener : Listener) (log : Log) : (Stage.start listener log).InStep where
  running := rfl
  paused := rfl
  epochs _ _ h := nomatch h
  owner h := nomatch h

section

variable (hs : s.InStep)

include hs

/-- What leaves flags and epoch alone, and the runs that wait. -/
theorem of_control {t : Stage} (hcontrol : s.engine.SameControl t.engine)
    (hruns : ∀ j, t.run? j = s.run? j) : t.InStep where
  running := by rw [hcontrol.storeRunning, hcontrol.running, hs.running]
  paused := by rw [hcontrol.storePaused, hcontrol.paused, hs.paused]
  epochs j r hr := by
    rw [hruns] at hr
    rw [hcontrol.epoch]
    exact hs.epochs j r hr
  owner hrunning := by
    rw [hcontrol.running] at hrunning
    obtain ⟨j, r, hr, howner⟩ := hs.owner hrunning
    refine ⟨j, r, by rw [hruns, hr], ?_⟩
    rwa [hcontrol.epoch, hcontrol.stopped]

/-- A run of an earlier epoch ends and leaves the engine as it is.  It is not the run that will
    clear the flag. -/
theorem left {t : Stage} (hengine : t.engine = s.engine)
    (hlookup : ∀ j, t.run? j = if i = j then none else s.run? j)
    (hstopped : s.engine.stopped = false)
    (hearlier : ∀ r, s.run? i = some r → r.epoch ≠ s.engine.epoch) : t.InStep where
  running := by rw [hengine, hs.running]
  paused := by rw [hengine, hs.paused]
  epochs j r hr := by
    rw [hlookup] at hr
    by_cases hij : i = j
    · rw [if_pos hij] at hr
      cases hr
    · rw [if_neg hij] at hr
      rw [hengine]
      exact hs.epochs j r hr
  owner hrunning := by
    rw [hengine] at hrunning
    obtain ⟨j, r, hr, howner⟩ := hs.owner hrunning
    rw [hstopped] at howner
    have hcurrent : r.epoch = s.engine.epoch := howner.resolve_right Bool.false_ne_true
    -- the run that the engine is running for is another one
    have hij : i ≠ j := by
      rintro rfl
      exact hearlier r hr hcurrent
    refine ⟨j, r, ?_, .inl ?_⟩
    · rw [hlookup, if_neg hij, hr]
    · rw [hengine, hcurrent]

/-- A run has its turn on an engine whose flags agree.  If it was stopped and leaves everything as
    it is, then it is not the run that will clear the flags of the engine. -/
theorem turn {t : Stage} {e : Engine} {speed : Speed} {epoch : Nat} {hand : Option Handing}
    {q : Engine × Engine.RunProgress} (hturn : e.RunTurn speed epoch hand q)
    (hengine : t.engine = q.1) (hlookup : ∀ j, t.run? j = if i = j then q.2.run? else s.run? j)
    (hrunning : e.store.running = e.running) (hpaused : e.store.paused = e.paused)
    (hepoch : e.epoch = s.engine.epoch)
    (hstale : e.epoch ≠ epoch → e = s.engine ∧ ∀ r, s.run? i = some r → r.epoch = epoch) :
    t.InStep := by
  have hepochs : ∀ j r, t.run? j = some r → r.epoch ≤ s.engine.epoch := by
    intro j r hr
    rw [hlookup] at hr
    by_cases hij : i = j
    · rw [if_pos hij] at hr
      obtain ⟨hr, hover, _⟩ := hturn.waits hr
      have hcurrent : e.epoch = epoch := Engine.epoch_of_isOver hover
      omega
    · rw [if_neg hij] at hr
      exact hs.epochs j r hr
  cases hq : q.2.run? with
  | some r =>
    -- The run still waits, so the flags are its own.
    obtain ⟨hr, hover, hcontrol⟩ := hturn.waits hq
    rw [← hengine] at hcontrol
    have hself : t.run? i = some r := by rw [hlookup, if_pos rfl, hq]
    have howner : r.epoch = t.engine.epoch := by
      rw [hcontrol.epoch, Engine.epoch_of_isOver hover, hr]
    refine ⟨?_, ?_, ?_, fun _ => ⟨i, r, hself, .inl howner⟩⟩
    · rw [hcontrol.storeRunning, hcontrol.running, hrunning]
    · rw [hcontrol.storePaused, hcontrol.paused, hpaused]
    · rw [hcontrol.epoch, hepoch]
      exact hepochs
  | none =>
    rcases hturn.ends hq with ⟨e1, hcontrol, hcleared⟩ | ⟨hsame, hother, hstopped⟩
    · rw [hcleared] at hengine
      have hsame : t.engine.epoch = s.engine.epoch := by
        rw [hengine]
        exact hcontrol.epoch.trans hepoch
      refine ⟨?_, ?_, ?_, ?_⟩
      · rw [hengine]
        rfl
      · rw [hengine]
        rfl
      · rw [hsame]
        exact hepochs
      · intro h
        rw [hengine] at h
        cases h
    · obtain ⟨he, hold⟩ := hstale hother
      have hsettled : s.engine.stopped = false := he ▸ hstopped
      rw [hsame, he] at hengine
      refine hs.left hengine (fun j => by rw [hlookup, hq]) hsettled fun r hr => ?_
      rw [hold r hr, ← he]
      exact Ne.symm hother

theorem run (speed : Speed) : (s.perform (.run speed)).InStep := by
  have hlookup := s.run?_perform_run speed
  cases hrunning : s.engine.running with
  | true =>
    have hrefused := Engine.startRun_of_running hrunning speed
    apply hs.of_control
    · rw [perform, hrefused]
      exact ⟨rfl, rfl, rfl, rfl, rfl, rfl⟩
    · exact run?_perform_refused hrunning speed
  | false =>
    apply hs.turn (Engine.startRun_turn hrunning speed) rfl hlookup
    · rfl
    · exact hs.paused
    · rfl
    · intro hother
      exact absurd rfl hother

theorem proceed (hr : s.run? i = some r) : (s.proceed i r).InStep := by
  apply hs.turn (s.engine.continueRun_turn r) rfl (run?_proceed hr) hs.running hs.paused rfl
  intro _
  refine ⟨rfl, fun r' hr' => ?_⟩
  rw [hr, Option.some.injEq] at hr'
  rw [hr']

/-- Every event keeps the flags in step. -/
theorem perform (ev : Event) : (s.perform ev).InStep := by
  cases ev with
  | load steps => exact hs.of_control ⟨rfl, rfl, rfl, rfl, rfl, rfl⟩ fun _ => rfl
  | pause => exact ⟨hs.running, rfl, hs.epochs, hs.owner⟩
  | resume => exact ⟨hs.running, rfl, hs.epochs, hs.owner⟩
  | stop =>
    refine ⟨hs.running, hs.paused, ?_, ?_⟩
    · intro j r hr
      exact Nat.le_succ_of_le (hs.epochs j r hr)
    · intro hrunning
      -- the run still waits, and is over in its next turn
      obtain ⟨j, r, hr, _⟩ := hs.owner hrunning
      exact ⟨j, r, hr, .inr rfl⟩
  | reset =>
    refine ⟨rfl, rfl, ?_, ?_⟩
    · intro j r hr
      exact Nat.le_succ_of_le (hs.epochs j r hr)
    · intro hrunning
      cases hrunning
  | run speed => exact hs.run speed
  | advance speed => exact hs.of_control (s.engine.take_control speed) fun _ => rfl
  | proceed i =>
    cases hr : s.run? i with
    | none =>
      rw [Stage.perform, hr]
      exact hs
    | some r =>
      rw [perform_proceed hr]
      exact hs.proceed hr
  | arm failure => exact hs.of_control ⟨rfl, rfl, rfl, rfl, rfl, rfl⟩ fun _ => rfl

theorem after (events : List Event) : (s.after events).InStep := by
  induction events generalizing s with
  | nil => exact hs
  | cons ev rest ih => exact ih (hs.perform ev)

end

end InStep

/-- The flags of engine and store are in step, and are never stuck.  Whatever happens to a new
    engine, and in whatever order: the store is shown as running or paused exactly if the engine is,
    and a running engine has a run that waits.  So when all runs have ended, the engine is not
    running, and a run that begins then is accepted. -/
theorem running_flags_in_step (listener : Listener) (log : Log) (events : List Event) :
    let s := (Stage.start listener log).after events
    s.engine.store.running = s.engine.running ∧ s.engine.store.paused = s.engine.paused ∧
    (s.engine.running = true → ∃ i r, s.run? i = some r) ∧
    ((∀ i, s.run? i = none) → s.engine.running = false ∧ ∀ speed, s.engine.Accepts speed) := by
  intro s
  have hs : s.InStep := (InStep.start listener log).after events
  have hwaits : s.engine.running = true → ∃ i r, s.run? i = some r := by
    intro hrunning
    obtain ⟨i, r, hr, _⟩ := hs.owner hrunning
    exact ⟨i, r, hr⟩
  refine ⟨hs.running, hs.paused, hwaits, ?_⟩
  intro hended
  have hrunning : s.engine.running = false := by
    rw [← Bool.not_eq_true]
    intro hrunning
    obtain ⟨i, r, hr⟩ := hwaits hrunning
    rw [hended i] at hr
    cases hr
  exact ⟨hrunning, Engine.accepts hrunning⟩

/-! ## Runs that were stopped -/

/-- Stopping and resetting begin a new epoch, and only a stop leaves the engine stopped. -/
theorem perform_epoch (s : Stage) (ev : Event) : let e := (s.perform ev).engine
    ((ev = .stop ∨ ev = .reset) ∧ e.epoch = s.engine.epoch + 1 ∨ e.epoch = s.engine.epoch) ∧
      (ev = .stop ∨ e.stopped = s.engine.stopped ∨ e.stopped = false) := by
  cases ev with
  | stop => exact ⟨.inl ⟨.inl rfl, rfl⟩, .inl rfl⟩
  | reset => exact ⟨.inl ⟨.inr rfl, rfl⟩, .inr (.inr rfl)⟩
  | run speed =>
    cases hrunning : s.engine.running with
    | true =>
      rw [perform, Engine.startRun_of_running hrunning]
      exact ⟨.inr rfl, .inr (.inl rfl)⟩
    | false =>
      obtain ⟨hepoch, hstopped⟩ := (Engine.startRun_turn hrunning speed).epoch_stopped
      exact ⟨.inr hepoch, .inr (.inr hstopped)⟩
  | advance speed =>
    have hcontrol := s.engine.take_control speed
    exact ⟨.inr hcontrol.epoch, .inr (.inl hcontrol.stopped)⟩
  | proceed i =>
    cases hr : s.run? i with
    | none =>
      rw [perform, hr]
      exact ⟨.inr rfl, .inr (.inl rfl)⟩
    | some r =>
      obtain ⟨hepoch, hstopped⟩ := (s.engine.continueRun_turn r).epoch_stopped
      rw [perform_proceed hr]
      exact ⟨.inr hepoch, .inr (.inl hstopped)⟩
  | _ => exact ⟨.inr rfl, .inr (.inl rfl)⟩

theorem epoch_le_perform (s : Stage) (ev : Event) :
    s.engine.epoch ≤ (s.perform ev).engine.epoch := by
  rcases (s.perform_epoch ev).1 with ⟨_, h⟩ | h <;> omega

/-- An engine that is not stopped stays so until the next stop. -/
theorem stopped_after {events : List Event} (hevents : ∀ ev ∈ events, ev ≠ .stop)
    (hs : s.engine.stopped = false) : (s.after events).engine.stopped = false := by
  induction events generalizing s with
  | nil => exact hs
  | cons ev rest ih =>
    refine ih (fun ev' h => hevents ev' (List.mem_cons_of_mem ev h)) ?_
    rcases (s.perform_epoch ev).2 with h | h | h
    · exact absurd h (hevents ev List.mem_cons_self)
    · exact h.trans hs
    · exact h

theorem getElem?_perform {ev : Event} (hi : i < s.runs.length) (hev : ev ≠ .proceed i) :
    (s.perform ev).runs[i]? = s.runs[i]? := by
  cases ev with
  | run speed => exact List.getElem?_append_left hi
  | proceed j =>
    cases hr : s.run? j with
    | none => rw [perform, hr]
    | some r =>
      have hji : j ≠ i := fun h => hev (by rw [h])
      rw [perform_proceed hr]
      exact List.getElem?_set_ne hji
  | _ => rfl

theorem run?_of_ended {finished : Bool} (h : s.result? i = some finished) : s.run? i = none := by
  obtain ⟨p, hp, hresult⟩ := Option.bind_eq_some_iff.1 h
  rw [run?, hp]
  cases p with
  | waits ms r => cases hresult
  | ended b => rfl

theorem perform_of_ended {finished : Bool} (h : s.result? i = some finished) :
    s.perform (.proceed i) = s := by
  rw [perform, run?_of_ended h]

theorem ended_after {finished : Bool} (h : s.result? i = some finished) (events : List Event) :
    (s.after events).result? i = some finished := by
  induction events generalizing s with
  | nil => exact h
  | cons ev rest ih =>
    apply ih
    by_cases hev : ev = .proceed i
    · rw [hev, perform_of_ended h]
      exact h
    · obtain ⟨p, hp, _⟩ := Option.bind_eq_some_iff.1 h
      rw [result?, getElem?_perform (List.getElem?_eq_some_iff.1 hp).1 hev]
      exact h

/-- A run that waits and belongs to a past epoch. -/
def Stale (s : Stage) (i : Nat) (r : Engine.RunState) : Prop :=
  s.run? i = some r ∧ r.epoch < s.engine.epoch

namespace Stale

variable {r : Engine.RunState}

/-- Its turn hands no step over, ends it, and changes flags at most. -/
theorem proceed (h : s.Stale i r) : s.handing? (.proceed i) = none ∧
    (s.perform (.proceed i)).result? i = some false ∧
    ((s.perform (.proceed i)).engine = s.engine.cleared ∨
      (s.perform (.proceed i)).engine = s.engine) ∧
    (s.engine.stopped = false → (s.perform (.proceed i)).engine = s.engine) := by
  obtain ⟨hr, hlt⟩ := h
  have hne : s.engine.epoch ≠ r.epoch := by omega
  have hover : s.engine.isOver r.epoch = true := by simp [Engine.isOver, hne]
  have hhanding : s.handing? (.proceed i) = none := by
    simp [handing?, hr, Engine.runHanding?, hover]
  have hturn : s.perform (.proceed i) =
      { engine := (s.engine.finishRun r.epoch false).1, runs := s.runs.set i (.ended false) } := by
    rw [perform_proceed hr, Stage.proceed, Engine.continueRun_of_isOver hover]
    rfl
  rw [hturn]
  refine ⟨hhanding, ?_, ?_, ?_⟩
  · rw [result?, List.getElem?_set_self (run?_lt hr)]
    rfl
  · rcases s.engine.finishRun_eq r.epoch false with h | ⟨h, _⟩
    · exact .inl (by rw [h])
    · exact .inr (by rw [h])
  · intro hstopped
    simp [Engine.finishRun, hne, hstopped]

/-- A stale run stays stale until its turn, and then it has ended. -/
theorem perform (h : s.Stale i r) (ev : Event) :
    (s.perform ev).Stale i r ∨ (s.perform ev).result? i = some false := by
  by_cases hev : ev = .proceed i
  · rw [hev]
    exact .inr h.proceed.2.1
  · refine .inl ⟨?_, Nat.lt_of_lt_of_le h.2 (s.epoch_le_perform ev)⟩
    rw [run?, getElem?_perform (run?_lt h.1) hev]
    exact h.1

theorem after (h : s.Stale i r) (events : List Event) :
    (s.after events).Stale i r ∨ (s.after events).result? i = some false := by
  induction events generalizing s with
  | nil => exact .inl h
  | cons ev rest ih =>
    rcases h.perform ev with hstale | hended
    · exact ih hstale
    · exact .inr (ended_after hended rest)

end Stale

/-- An engine with a run that still waits was not stopped, if nothing has stopped it since the run
    began. -/
theorem not_stopped_of_waits {speed : Speed} {events : List Event}
    (hevents : ∀ ev ∈ events, ev ≠ .stop)
    (hrun : (((s.perform (.run speed)).after events).run? s.runs.length).isSome) :
    ((s.perform (.run speed)).after events).engine.stopped = false := by
  cases hrunning : s.engine.running with
  | true =>
    have hended : (s.perform (.run speed)).result? s.runs.length = some false := by
      rw [result?, Stage.perform, Engine.startRun_of_running hrunning,
        List.getElem?_concat_length]
      rfl
    rw [run?_of_ended (ended_after hended events)] at hrun
    cases hrun
  | false => exact stopped_after hevents (Engine.startRun_turn hrunning speed).epoch_stopped.2

/-- A run that was stopped is dead.  Whatever happens to a new engine, and in whatever order: if a
    run waits when the engine is stopped or reset, then at any later time the run still waits or has
    ended unfinished; its turn hands no step to the store, be it of the steps loaded then or of
    others, and ends it unfinished; all that it can do is to clear the flags.  It does not even do
    that while another run waits that was begun after the stop or reset, unless the engine has been
    stopped again since. -/
theorem invalidated_run_is_dead (listener : Listener) (log : Log) (before later : List Event)
    (cut : Event) (i : Nat) (r : Engine.RunState) (hcut : cut = .stop ∨ cut = .reset)
    (hrun : ((Stage.start listener log).after before).run? i = some r) :
    let s := ((Stage.start listener log).after before).perform cut
    let t := s.after later
    (t.run? i = some r ∨ t.result? i = some false) ∧
    t.handing? (.proceed i) = none ∧
    (t.perform (.proceed i)).result? i = some false ∧
    ((t.perform (.proceed i)).engine = t.engine.cleared ∨
      (t.perform (.proceed i)).engine = t.engine) ∧
    ∀ later1 speed later2, later = later1 ++ .run speed :: later2 →
      (t.run? (s.after later1).runs.length).isSome → (∀ ev ∈ later2, ev ≠ .stop) →
      (t.perform (.proceed i)).engine = t.engine := by
  intro s t
  have hbefore := (InStep.start listener log).after before
  have hstale : s.Stale i r := by
    have hle := hbefore.epochs i r hrun
    rcases hcut with rfl | rfl <;> exact ⟨hrun, Nat.lt_succ_of_le hle⟩
  rcases hstale.after later with hwaits | hended
  · obtain ⟨hhanding, hend, hengine, hflags⟩ := hwaits.proceed
    refine ⟨.inl hwaits.1, hhanding, hend, hengine, ?_⟩
    intro later1 speed later2 hlater hnewer hevents
    have ht : t = ((s.after later1).perform (.run speed)).after later2 := by
      show s.after later = _
      rw [hlater, Stage.after, List.foldl_append]
      rfl
    apply hflags
    show t.engine.stopped = false
    rw [ht] at hnewer ⊢
    exact not_stopped_of_waits hevents hnewer
  · -- The run has ended, and has no more turns.
    have hidle : t.perform (.proceed i) = t := perform_of_ended hended
    have hhanding : t.handing? (.proceed i) = none := by
      rw [handing?, run?_of_ended hended]
      rfl
    rw [hidle]
    exact ⟨.inr hended, hhanding, hended, .inr rfl, fun _ _ _ _ _ _ => rfl⟩

/-- A run waits for the time of its first step when the engine is reset.  Other steps are loaded,
    and another run waits for the time of the first of these. -/
theorem invalidated_run_is_dead_reloaded :
    let before : List Event := [.load [.push "f", .pop], .run (some (.int 2))]
    let later : List Event := [.load [.push "g", .pop], .run (some (.int 0))]
    let s := ((Stage.start {} {}).after before).perform .reset
    let t := s.after later
    ((Stage.start {} {}).after before).run? 0 = some ⟨some (.int 2), 0, .step⟩ ∧
    t.engine.store.callStack = [.str "g"] ∧ t.engine.running = true ∧
    t.handing? (.proceed 0) = none ∧ (t.perform (.proceed 0)).result? 0 = some false ∧
    (t.perform (.proceed 0)).engine = t.engine :=
  have hrun : _ = some (⟨some (.int 2), 0, .step⟩ : Engine.RunState) := by rfl
  have hdead := invalidated_run_is_dead {} {} [.load [.push "f", .pop], .run (some (.int 2))]
    [.load [.push "g", .pop], .run (some (.int 0))] .reset 0 _ (.inr rfl) hrun
  ⟨hrun, rfl, rfl, hdead.2.1, hdead.2.2.1,
    hdead.2.2.2.2 [.load [.push "g", .pop]] (some (.int 0)) [] rfl rfl (by simp)⟩

end Stage

end EventLoop
