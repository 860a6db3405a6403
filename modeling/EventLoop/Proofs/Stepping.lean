/-
  A program that is stepped through shows what it shows when it is played at once.

  A job gives what it does from one wait to the next.  `Visualizer.Does` puts these together for a
  job that is done alone: nothing else happens while it waits.  `Visualizer.StepsThrough` counts the
  single steps of a program until one of them reports that no step is left.

  What playing and stepping have in common is an engine with a list of steps before it, all of which
  can be shown (`Engine.Ready`).  Each of the two is then followed by induction on that list.
-/
import EventLoop.Proofs.Playback

namespace EventLoop

/-! ## Jobs that are done alone -/

namespace Visualizer

variable {v v' v1 v2 : Visualizer} {job : Job} {source : Json} {speed : Speed}

/-- What a job ends with that goes on alone. -/
inductive Ends : Visualizer × JobProgress → Visualizer × JobResult → Prop
  | ended (v : Visualizer) (result : JobResult) : Ends (v, .ended result) (v, result)
  | waits {v : Visualizer} {job : JobState} {q : Visualizer × JobResult} (ms : Float)
      (h : Ends (v.continueJob job) q) : Ends (v, .waits ms job) q

/-- A job is done from its start to its end, and nothing else happens meanwhile. -/
def Does (v : Visualizer) (job : Job) (q : Visualizer × JobResult) : Prop := Ends (v.startJob job) q

/-- A program is stepped through: so many single steps are taken, up to the first one that reports
    that no step is left. -/
inductive StepsThrough (source : Json) (speed : Speed) : Visualizer → Nat → Visualizer → Prop
  | last {v v' : Visualizer} {step : Option Step}
      (h : v.Does (.step source speed) (v', .progress true step)) : StepsThrough source speed v 1 v'
  | more {v v1 v' : Visualizer} {step : Option Step} {n : Nat}
      (h : v.Does (.step source speed) (v1, .progress false step))
      (hrest : StepsThrough source speed v1 n v') : StepsThrough source speed v (n + 1) v'

theorem Ends.unique {p : Visualizer × JobProgress} {q q' : Visualizer × JobResult}
    (h : Ends p q) (h' : Ends p q') : q = q' := by
  induction h with
  | ended v result =>
    cases h'
    rfl
  | waits ms _ ih =>
    cases h' with
    | waits _ hrest => exact ih hrest

theorem StepsThrough.unique {n n' : Nat} (h : StepsThrough source speed v n v1)
    (h' : StepsThrough source speed v n' v2) : n = n' ∧ v1 = v2 := by
  induction h generalizing n' with
  | last hlast =>
    cases h' with
    | last hlast' =>
      cases hlast.unique hlast'
      exact ⟨rfl, rfl⟩
    | more hfirst' _ => cases hlast.unique hfirst'
  | more hfirst _ ih =>
    cases h' with
    | last hlast' => cases hfirst.unique hlast'
    | more hfirst' hrest' =>
      cases hfirst.unique hfirst'
      obtain ⟨hn, hv⟩ := ih hrest'
      exact ⟨by rw [hn], hv⟩

/-- Stepping depends on a visualizer only through the first of the single steps. -/
theorem StepsThrough.of_startJob {n : Nat} (h : StepsThrough source speed v n v')
    (hsame : v1.startJob (.step source speed) = v.startJob (.step source speed)) :
    StepsThrough source speed v1 n v' := by
  cases h with
  | last hlast =>
    rw [Does, ← hsame] at hlast
    exact .last hlast
  | more hfirst hrest =>
    rw [Does, ← hsame] at hfirst
    exact .more hfirst hrest

end Visualizer

/-! ## Engines with steps before them -/

theorem Store.bare_of_flags {s : Store} (hrunning : s.running = false) (hpaused : s.paused = false) :
    s.bare = s := by
  cases s
  cases hrunning
  cases hpaused
  rfl

/-- What a listener hears of a step that is applied: its line, if it writes one to the console, and
    the step. -/
def Step.signals (s : Step) : List Signal :=
  if s.kind = .consoleOutput then [.line s.message, .step s] else [.step s]

namespace Engine

variable {e : Engine} {speed : Speed} {epoch : Nat} {step : Step} {rest : List Step}
  {target : Store}

/-- A listener that does not fail hears a step, and does not fail after it. -/
theorem apply_of_heard {store : Store} (hlistener : e.listener.failure = none)
    (hshow : e.store.show? step = some store) :
    ∃ e', e.apply step = (e', none) ∧ e'.store = store ∧ e'.steps = e.steps ∧
      e'.cursor = e.cursor ∧ e'.listener.failure = none ∧
      e'.listener.heard.toList = e.listener.heard.toList ++ step.signals := by
  rw [apply, hshow]
  by_cases hkind : step.kind = .consoleOutput
  · simp [hkind, Listener.hearStep, Listener.hearLine, hlistener, note, Step.signals]
  · simp [hkind, Listener.hearStep, hlistener, note, Step.signals]

/-- Some steps are left, and they draw a given picture.  The listener does not fail. -/
structure Ready (e : Engine) (rest : List Step) (target : Store) : Prop where
  left : e.steps.toList.drop e.cursor = rest
  listener : e.listener.failure = none
  picture : e.store.bare.replay? rest = some target

/-- Every step of a list can be waited for. -/
def Waitable (speed : Speed) (steps : List Step) : Prop :=
  ∀ step ∈ steps, ∃ ms, scaled step.duration speed = .ok ms

theorem Waitable.tail (h : Waitable speed (step :: rest)) : Waitable speed rest :=
  fun s hs => h s (List.mem_cons_of_mem step hs)

theorem waitable_zero (steps : List Step) : Waitable (some (.int 0)) steps := by
  intro step _
  rw [scaled]
  cases hnumber : step.duration.number with
  | int n =>
    rw [scaledBy, Int.mul_zero]
    exact ⟨_, rfl⟩
  | float x => exact ⟨_, rfl⟩

namespace Ready

theorem isDone_eq (h : e.Ready rest target) : e.isDone = rest.isEmpty := by
  have hlength := congrArg List.length h.left
  rw [List.length_drop, Array.length_toList] at hlength
  rw [isDone, Bool.eq_iff_iff, decide_eq_true_iff, List.isEmpty_iff_length_eq_zero]
  omega

theorem store_eq (h : e.Ready [] target) : e.store.bare = target := Option.some.inj h.picture

/-- The first of the steps that are left is taken, and the listener hears it. -/
theorem take (h : e.Ready (step :: rest) target) {ms : Float}
    (hwait : scaled step.duration speed = .ok ms) :
    ∃ e', e.take speed = (e', .applied step ms) ∧ e'.Ready rest target ∧ SameControl e e' ∧
      e'.listener.heard.toList = e.listener.heard.toList ++ step.signals := by
  have hnext : e.steps[e.cursor]? = some step := by
    have hhead := congrArg List.head? h.left
    rwa [List.head?_drop, List.head?_cons, Array.getElem?_toList] at hhead
  have htarget := h.picture
  rw [Store.replay?, List.foldlM_cons] at htarget
  obtain ⟨shown, hbare, hrest⟩ := Option.bind_eq_some_iff.1 htarget
  -- whether a step can be shown does not depend on the flags
  obtain ⟨store, hstore⟩ : ∃ store, e.store.show? step = some store := by
    rw [← Option.isSome_iff_exists, Store.isSome_show?, ← e.store.bare.isSome_show?, hbare]
    rfl
  have hshown : shown = store.bare :=
    Option.some.inj (hbare.symm.trans (Store.bare_show? hstore))
  obtain ⟨e', happly, hstore', hsteps, hcursor, hlistener, hheard⟩ :=
    apply_of_heard (e := { e with cursor := e.cursor + 1 }) h.listener hstore
  have htake : e.take speed = (e', .applied step ms) := by
    rw [Engine.take, hnext]
    simp only [happly, hwait]
  have hcontrol : SameControl e e' := by
    have hcontrol := e.take_control speed
    rwa [htake] at hcontrol
  refine ⟨e', htake, ⟨?_, hlistener, ?_⟩, hcontrol, hheard⟩
  · rw [hsteps, hcursor, List.drop_add_one_eq_tail_drop, h.left, List.tail_cons]
  · rw [hstore', ← hshown]
    exact hrest

end Ready

theorem continueRun_of_step (h : e.isOver epoch = false) :
    e.continueRun { speed, epoch, wait := .step } = e.runNext speed epoch := by
  rw [continueRun]
  simp only [h, Bool.false_eq_true, if_false]

theorem runNext_of_applied {e' : Engine} {ms : Float} (hdone : e.isDone = false)
    (hover : e.isOver epoch = false) (hpaused : e.paused = false)
    (htake : e.take speed = (e', .applied step ms)) :
    e.runNext speed epoch = (e', .waits ms { speed, epoch, wait := .step }) := by
  rw [runNext, hdone, if_neg (by decide), runHeld, hover, if_neg (by decide), hpaused,
    if_neg (by decide), htake]

end Engine

/-! ## Playing and stepping -/

namespace Visualizer

open Engine

variable {v : Visualizer} {source : Json} {speed : Speed} {epoch : Nat} {rest : List Step}
  {target : Store}

/-- A job that goes on as a run shows all steps that are left, and then clears the flags. -/
theorem viaRun_ends {e : Engine} (wait : RunState → JobState) (result : Bool → JobResult)
    (hcontinue : ∀ (v : Visualizer) r,
      v.continueJob (wait r) = v.viaRun (v.engine.continueRun r) wait result)
    (hready : e.Ready rest target) (hwaitable : Waitable speed rest)
    (hover : e.isOver epoch = false) (hpaused : e.paused = false) :
    ∃ e', Ends (v.viaRun (e.runNext speed epoch) wait result) ({ v with engine := e' }, result true) ∧
      e'.store = target := by
  induction rest generalizing v e with
  | nil =>
    have hnext : e.runNext speed epoch = (e.cleared, .ended true) := by
      rw [runNext, hready.isDone_eq, List.isEmpty_nil, if_pos rfl, finishRun_of_current hover]
    rw [hnext]
    exact ⟨e.cleared, .ended _ _, hready.store_eq⟩
  | cons step rest ih =>
    obtain ⟨ms, hwait⟩ := hwaitable step List.mem_cons_self
    obtain ⟨e1, htake, hready1, hcontrol, _⟩ := hready.take hwait
    have hover1 : e1.isOver epoch = false := (hcontrol.isOver_eq epoch).trans hover
    have hpaused1 : e1.paused = false := hcontrol.paused.trans hpaused
    obtain ⟨e', hends, hstore⟩ :=
      ih (v := { v with engine := e1 }) hready1 hwaitable.tail hover1 hpaused1
    refine ⟨e', ?_, hstore⟩
    rw [runNext_of_applied hready.isDone_eq hover hpaused htake]
    apply Ends.waits
    rw [hcontinue, continueRun_of_step hover1]
    exact hends

/-- The single steps of a program, once it was generated: as many as there are steps, and one if
    there is none.  Flags of the engine are left alone. -/
theorem stepsThrough_of_prepared (hprepared : v.isPrepared source = true)
    (hready : v.engine.Ready rest target) (hwaitable : Waitable speed rest) :
    ∃ e', StepsThrough source speed v (max 1 rest.length) { v with engine := e' } ∧
      SameControl v.engine e' ∧ e'.store.bare = target := by
  induction rest generalizing v with
  | nil =>
    have hstart : v.startJob (.step source speed) = (v, .ended (.progress true none)) := by
      rw [startJob, if_pos hprepared, advance, take_of_done hready.isDone_eq]
    have hdoes : v.Does (.step source speed) (v, .progress true none) := by
      rw [Does, hstart]
      exact .ended _ _
    exact ⟨v.engine, .last hdoes, .rfl, hready.store_eq⟩
  | cons step rest ih =>
    obtain ⟨ms, hwait⟩ := hwaitable step List.mem_cons_self
    obtain ⟨e1, htake, hready1, hcontrol, _⟩ := hready.take hwait
    have hdoes : v.Does (.step source speed)
        ({ v with engine := e1 }, .progress rest.isEmpty (some step)) := by
      rw [Does, startJob, if_pos hprepared, advance, htake, ← hready1.isDone_eq]
      exact .waits ms (.ended _ _)
    cases rest with
    | nil => exact ⟨e1, .last hdoes, hcontrol, hready1.store_eq⟩
    | cons next rest =>
      obtain ⟨e', hrest, hcontrol', hstore⟩ :=
        ih (v := { v with engine := e1 }) hprepared hready1 hwaitable.tail
      have hcount : max 1 (step :: next :: rest).length = max 1 (next :: rest).length + 1 := by
        simp only [List.length_cons]
        omega
      rw [hcount]
      exact ⟨e', .more hdoes hrest, hcontrol.trans hcontrol', hstore⟩

/-- A visualizer on which nothing was played. -/
def fresh (log : Log) : Visualizer := { engine := { log } }

theorem prepare_engine {log : Log} {source : String} {steps : List Step}
    (h : ((Generator.withLog log).generate (some source)).1.result = .ok steps) :
    ((fresh log).reset.prepare (.str source)).2.engine = { (fresh log).engine.reset with
      log := ((Generator.withLog log).generate (some source)).2.machine.log
      steps := steps.toArray } := by
  have hresult : ((Generator.withLog (fresh log).reset.engine.log).generate
      (Json.str source).text?).1.result = .ok steps := h
  rw [prepare]
  simp only [hresult]
  rfl

/-- A program that was generated has its steps loaded, and the engine is at rest. -/
theorem prepare_ready (log : Log) (source : String)
    (hsuccess : ((Generator.withLog log).generate (some source)).1.succeeded = true) :
    let v := ((fresh log).reset.prepare (.str source)).2
    (∃ target, v.engine.Ready ((Generator.withLog log).generate (some source)).1.steps target) ∧
    SameControl (fresh log).engine.reset v.engine ∧ v.engine.listener = {} ∧
    v.isPrepared (.str source) = true := by
  intro v
  obtain ⟨target, _, _, hreplay⟩ := Generator.generate_pictured hsuccess
  have hprepared : v.isPrepared (.str source) = true := by
    show Json.same (.str source) (.str source) = true
    rw [Json.same, beq_self_eq_true]
  cases hresult : ((Generator.withLog log).generate (some source)).1.result with
  | error report =>
    rw [Generation.succeeded, hresult] at hsuccess
    cases hsuccess
  | ok steps =>
    have hsteps : ((Generator.withLog log).generate (some source)).1.steps = steps := by
      rw [Generation.steps, hresult]
      rfl
    have hengine : v.engine = { (fresh log).engine.reset with
        log := ((Generator.withLog log).generate (some source)).2.machine.log
        steps := steps.toArray } := prepare_engine hresult
    rw [hsteps] at hreplay ⊢
    rw [hengine]
    exact ⟨⟨target, rfl, rfl, hreplay.replay?_eq⟩, ⟨rfl, rfl, rfl, rfl, rfl, rfl⟩, rfl, hprepared⟩

theorem startJob_play_eq (log : Log) (source : String) (speed : Speed) :
    let generation := ((Generator.withLog log).generate (some source)).1
    let prepared := ((fresh log).reset.prepare (.str source)).2
    (fresh log).startJob (.play (.str source) speed) =
      if generation.succeeded then prepared.viaRun (prepared.engine.startRun speed)
        (.play generation) fun _ => .play generation
      else (prepared, .ended (.play generation)) := rfl

theorem startJob_play (log : Log) (source : String) (speed : Speed)
    (hsuccess : ((Generator.withLog log).generate (some source)).1.succeeded = true) :
    let generation := ((Generator.withLog log).generate (some source)).1
    let prepared := ((fresh log).reset.prepare (.str source)).2
    (fresh log).startJob (.play (.str source) speed) =
      prepared.viaRun (prepared.engine.started.runNext speed prepared.engine.epoch)
        (.play generation) fun _ => .play generation := by
  intro generation prepared
  obtain ⟨_, hcontrol, _⟩ := prepare_ready log source hsuccess
  have hrun : prepared.engine.startRun speed =
      prepared.engine.started.runNext speed prepared.engine.epoch := by
    rw [startRun, hcontrol.running]
    rfl
  rw [startJob_play_eq, hsuccess, if_pos rfl, hrun]

/-- Playing and stepping, at any two speeds at which the steps can be waited for. -/
theorem steps_as_played {speed speed' : Speed} (log : Log) (source : String)
    (hplay : Waitable speed ((Generator.withLog log).generate (some source)).1.steps)
    (hstep : Waitable speed' ((Generator.withLog log).generate (some source)).1.steps) :
    let generation := ((Generator.withLog log).generate (some source)).1
    ∃ played stepped,
      (fresh log).Does (.play (.str source) speed) (played, .play generation) ∧
      StepsThrough (.str source) speed' (fresh log) (max 1 generation.steps.length) stepped ∧
      stepped.engine.store = played.engine.store := by
  intro generation
  let prepared := ((fresh log).reset.prepare (.str source)).2
  have hsteps : (fresh log).startJob (.step (.str source) speed') =
      if generation.succeeded then prepared.advance speed'
      else (prepared, .ended (.progress true none)) := rfl
  cases hsuccess : generation.succeeded with
  | false =>
    -- Both show the failure, and are at their end.
    have hfailed : ¬ generation.succeeded = true := Bool.eq_false_iff.1 hsuccess
    rw [if_neg hfailed] at hsteps
    have hempty : generation.steps = [] := by
      cases hresult : generation.result with
      | ok steps =>
        rw [Generation.succeeded, hresult] at hsuccess
        cases hsuccess
      | error report =>
        rw [Generation.steps, hresult]
        rfl
    have hdoes : (fresh log).Does (.step (.str source) speed') (prepared, .progress true none) := by
      rw [Does, hsteps]
      exact .ended _ _
    refine ⟨prepared, prepared, ?_, ?_, rfl⟩
    · rw [Does, startJob_play_eq, if_neg hfailed]
      exact .ended _ _
    · rw [hempty]
      exact .last hdoes
  | true =>
    rw [hsuccess, if_pos rfl] at hsteps
    obtain ⟨⟨target, hready⟩, hcontrol, _, hprepared⟩ := prepare_ready log source hsuccess
    have hstarted : prepared.engine.started.Ready generation.steps target :=
      ⟨hready.left, hready.listener, hready.picture⟩
    obtain ⟨e, hends, hstore⟩ := viaRun_ends (v := prepared)
      (.play generation) (fun _ => .play generation) (fun _ _ => rfl) hstarted hplay
      prepared.engine.isOver_started hcontrol.paused
    obtain ⟨e', hthrough, hcontrol', hstore'⟩ :=
      stepsThrough_of_prepared hprepared hready hstep
    -- The first single step generates the program, and is otherwise like the others.
    have hsame : (fresh log).startJob (.step (.str source) speed') =
        prepared.startJob (.step (.str source) speed') := by
      rw [hsteps, startJob, if_pos hprepared]
    have hbare : e'.store.bare = e'.store := Store.bare_of_flags
      (hcontrol'.storeRunning.trans hcontrol.storeRunning)
      (hcontrol'.storePaused.trans hcontrol.storePaused)
    refine ⟨{ prepared with engine := e }, _, ?_, hthrough.of_startJob hsame, ?_⟩
    · rw [Does, startJob_play log source speed hsuccess]
      exact hends
    · show e'.store = e.store
      rw [hstore, ← hbare, hstore']

/-- Stepping equals running.  A program is played on a visualizer on which nothing was played, and
    it is stepped through on another one.  It takes as many single steps as the program has steps,
    or one if it has none because it is empty or its generation fails.  Both leave the same picture:
    call stack, queues, Web APIs, console and current line, and with them the flags. -/
theorem stepping_equals_playing (log : Log) (source : String) :
    let generation := ((Generator.withLog log).generate (some source)).1
    ∃ played,
      (fresh log).Does (.play (.str source) (some (.int 0))) (played, .play generation) ∧
      (∃ n stepped, StepsThrough (.str source) (some (.int 0)) (fresh log) n stepped) ∧
      ∀ n stepped, StepsThrough (.str source) (some (.int 0)) (fresh log) n stepped →
        n = max 1 generation.steps.length ∧ stepped.engine.store = played.engine.store := by
  intro generation
  obtain ⟨played, stepped, hplayed, hstepped, hstore⟩ :=
    steps_as_played log source (waitable_zero _) (waitable_zero _)
  refine ⟨played, hplayed, ⟨_, stepped, hstepped⟩, ?_⟩
  intro n stepped' hstepped'
  obtain ⟨hn, hsame⟩ := hstepped'.unique hstepped
  rw [hsame]
  exact ⟨hn, hstore⟩

end Visualizer

end EventLoop
