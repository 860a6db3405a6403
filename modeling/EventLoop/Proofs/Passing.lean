/-
  The loops of a run, gone through once for everything that holds across them.

  The microtasks that are served in a part of a run are listed by functions that follow its loops,
  each with the state in which it is taken from the queue and the state in which it has run.
  `Operation.stops` are the states in which the turns of an operation begin and end.

  `Run.Passes` lists the parts that every operation is made of: code that is evaluated, a microtask
  that is taken and runs, and a callback that is taken from the Web APIs and shown.  A relation
  between states that holds across each of these parts, and of two parts one after the other, holds
  from each stop of an operation to the next one, whether it succeeds or fails
  (`Run.Passes.through`).
-/
import EventLoop.Proofs.Turn

namespace EventLoop

variable {α β : Type}

/-! ## Turns of an operation -/

/-- A microtask that is served: the state in which it is taken from the queue, and the state in
    which it has run. -/
structure Serving where
  task : Microtask
  before : Machine
  after : Machine

namespace Run

/-- Shows a microtask and runs it. -/
def serve (t : Microtask) : Run Unit := do
  emitAll [.microtaskAdd t.id t.name, .microtaskRemove t.id]
  runMicrotask t

/-- The microtasks that are served after an action, if that succeeds. -/
def servingsAfter (act : Run α) (next : Machine → List Serving) (m : Machine) : List Serving :=
  match act m with
  | .ok _ m' => next m'
  | .error _ _ => []

/-- The microtasks that are served until none is left, `budget` of them. -/
def turnServings : Nat → Machine → List Serving
  | 0, _ => []
  | budget + 1, m =>
    match takeMicrotask m with
    | .ok (some t) m1 =>
      servingsAfter (serve t) (fun m2 => ⟨t, m, m2⟩ :: turnServings budget m2) m1
    | _ => []

/-- The microtasks that are served when the queue is drained. -/
def drainServings (m : Machine) : List Serving := turnServings (maxMicrotasks - m.processed) m

end Run

/-- What a callback that fires does before the microtasks have their turn. -/
def Firing.opening (f : Firing) : Run Unit := do
  match f.callback.kind with
  | .frame =>
    Run.takeCallback f.callback.id
    Run.emitAll f.callback.frameSteps
    Run.runCallback f.callback
  | .timeout | .interval =>
    Run.takeTimer f.callback
    Run.tell (.fired f.callback)
    Run.emitAll f.callback.timerSteps
    Run.runCallback f.callback

theorem Firing.frameTurn_eq {cb : Callback} (hkind : cb.kind = .frame) (m : Machine) :
    Run.frameTurn cb = opening ⟨cb, m⟩ >>= fun _ => Run.drainMicrotasks := by
  simp only [opening, hkind, bind_assoc]
  rfl

theorem Firing.timerTurn_eq {cb : Callback} (hkind : cb.kind = .timeout) (m : Machine) :
    Run.timerTurn cb = opening ⟨cb, m⟩ >>= fun _ => Run.drainMicrotasks := by
  simp only [opening, hkind, bind_assoc]
  rfl

/-- The microtasks that are served in the turn of a callback. -/
def Firing.servings (f : Firing) : List Serving :=
  Run.servingsAfter f.opening Run.drainServings f.before

/-- The states in which a microtask is taken from the queue and in which it has run. -/
def Serving.stops (s : Serving) : List Machine := [s.before, s.after]

/-- The state in which a callback fires, and those of the microtasks in its turn. -/
def Firing.stops (f : Firing) : List Machine := f.before :: f.servings.flatMap (·.stops)

/-- The states of an operation in which turns begin and end, in order. -/
def Operation.stops (m : Machine) : Operation → List Machine
  | .generate source => (Run.servingsAfter (do
        discard (Run.walkSource source)
        Run.enter .drainMicrotasks) Run.drainServings m).flatMap (·.stops) ++
      (Run.firings source m).flatMap (·.stops)
  | .run _ | .evaluate _ | .execute _ => []
  | .microtasks => (Run.drainServings m).flatMap (·.stops)
  | .frames => (Run.drainFramesFirings m).flatMap (·.stops)
  | .timers => (Run.drainTimersFirings m).flatMap (·.stops)

namespace Machine

/-- The states in which turns begin and end, and those after each operation. -/
def stops : List Operation → Machine → List Machine
  | [], _ => []
  | op :: ops, m => op.stops m ++ m.after op :: stops ops (m.after op)

/-- A relation holds from each of the given states to the next one. -/
def Through (R : Machine → Machine → Prop) : List Machine → Machine → Machine → Prop
  | [], m, m' => R m m'
  | s :: ss, m, m' => R m s ∧ Through R ss s m'

/-- Code leads from one state to the other, along steady bodies if it starts between turns. -/
def Executes (m m' : Machine) : Prop :=
  ∀ tame, (tame = true → m.frames = [] ∧ m.SteadyRest) → ∃ depth e, m.Walk tame depth e m'

theorem Executes.walk {m m' : Machine} (h : m.Executes m') : ∃ depth e, m.Walk false depth e m' :=
  h false (by simp)

theorem executes_of_leads {m : Machine} {r : EStateM.Result Fault Machine α} {depth : Nat}
    {e : α → Ending} (h : ∀ tame, (tame = true → m.frames = []) → m.Leads tame depth e r) :
    m.Executes (Run.final r) := by
  intro tame hm
  cases h tame fun ht => (hm ht).1 with
  | ok hw => exact ⟨_, _, hw⟩
  | error hw => exact ⟨_, _, hw⟩

end Machine

/-! ## Relations across the parts of a run -/

namespace Run

open Machine

/-- A relation between states that holds across every part of a run, also if the part fails. -/
structure Passes (R : Machine → Machine → Prop) : Prop where
  refl : ∀ m : Machine, R m m
  trans : ∀ {m m1 m2 : Machine}, R m m1 → R m1 m2 → R m m2
  code : ∀ {m m' : Machine}, m.Executes m' → R m m'
  /-- A microtask is taken and not run. -/
  cut : ∀ {m : Machine} {t : Microtask} {part : List Step} (log : Log),
    m.microtasks[m.cursor]? = some t → R m ((m.taken.emitted part).logged log)
  /-- A microtask is taken, shown and run. -/
  turn : ∀ {m : Machine} {t : Microtask} (log : Log), m.microtasks[m.cursor]? = some t →
    m.Room 2 → R m (final (runMicrotask t ((m.taken.emitted t.steps).logged log)))
  /-- A callback is taken from the Web APIs, and its turn is shown. -/
  take : ∀ (m : Machine) (id : Nat) {clock : Nat} (part : List Step) (log : Log), m.clock ≤ clock →
    R m ((Machine.emitted { m.dropped id with clock } part).logged log)

namespace Passes

variable {R : Machine → Machine → Prop} (hR : Passes R) {m m1 m' : Machine}
  {ss ss' : List Machine}

include hR

theorem lead (h : R m m1) (hss : Through R ss m1 m') : Through R ss m m' := by
  cases ss with
  | nil => exact hR.trans h hss
  | cons s ss => exact ⟨hR.trans h hss.1, hss.2⟩

theorem append (h : Through R ss m m1) (h' : Through R ss' m1 m') :
    Through R (ss ++ ss') m m' := by
  induction ss generalizing m with
  | nil => exact hR.lead h h'
  | cons s ss ih => exact ⟨h.1, ih h.2⟩

/-- What holds from stop to stop holds from the first state to the last. -/
theorem across (h : Through R ss m m') : R m m' := by
  induction ss generalizing m with
  | nil => exact h
  | cons s ss ih => exact hR.trans h.1 (ih h.2)

theorem bind {act : Run α} {f : α → Run β} (h : R m (final (act m1)))
    (hf : ∀ a m', R m' (final (f a m'))) : R m (final ((act >>= f) m1)) :=
  final_bind h fun a m' hm' => hR.trans hm' (hf a m')

theorem roams {act : Run α} (h : ∀ tame, Roams tame act) (m : Machine) : R m (final (act m)) :=
  hR.code (executes_of_leads fun tame _ => h tame m)

theorem enter (p : Phase) (m : Machine) : R m (final (enter p m)) :=
  hR.roams (fun _ => enter_roams p) m

/-! ## Microtasks -/

theorem serve {t : Microtask} (ht : m.microtasks[m.cursor]? = some t) :
    R m (final (serve t m.taken)) := by
  rcases emitAll_cases (.microtaskAdd t.id t.name) [.microtaskRemove t.id] m.taken with
    ⟨hroom, log, h⟩ | ⟨log, part, _, h⟩
  · rw [Run.serve, bind_of_ok h]
    exact hR.turn log ht hroom
  · rw [Run.serve, bind_of_error h]
    exact hR.cut log ht

/-- The turns of microtasks go through the state in which each begins and ends. -/
theorem microtaskTurns (budget : Nat) (m : Machine) :
    Through R ((turnServings budget m).flatMap (·.stops)) m (final (microtaskTurns budget m)) := by
  induction budget generalizing m with
  | zero =>
    obtain ⟨-, h⟩ | ⟨t, ht, ⟨fault, log, part, -, h⟩ | ⟨_, _, hn, _⟩⟩ := microtaskTurns_cases 0 m
    · rw [h]
      exact hR.refl m
    · rw [h]
      exact hR.cut log ht
    · cases hn
  | succ budget ih =>
    rw [turnServings, takeMicrotask_apply]
    cases ht : m.microtasks[m.cursor]? with
    | none =>
      rw [Run.microtaskTurns, bind_apply, takeMicrotask_apply, ht]
      exact hR.refl m
    | some t =>
      have hserve := hR.serve ht
      have hturn : Run.microtaskTurns (budget + 1) m =
          (Run.serve t >>= fun _ => Run.microtaskTurns budget) m.taken := by
        rw [microtaskTurns_succ ht, Run.serve, bind_assoc]
        rfl
      rw [hturn, bind_apply]
      dsimp only [servingsAfter]
      cases hr : Run.serve t m.taken with
      | error fault m1 =>
        rw [hr] at hserve
        exact hserve
      | ok _ m1 =>
        -- the turn starts in `m` and ends in `m1`
        rw [hr] at hserve
        exact ⟨hR.refl m, hserve, ih m1⟩

/-- An action, and the microtasks that have their turn after it. -/
theorem thenDrain {act : Run α} (h : R m (final (act m))) :
    Through R ((servingsAfter act drainServings m).flatMap (·.stops)) m
      (final ((act >>= fun _ => drainMicrotasks) m)) := by
  rw [bind_apply, servingsAfter]
  cases hr : act m with
  | error fault m1 =>
    rw [hr] at h
    exact h
  | ok _ m1 =>
    rw [hr] at h
    exact hR.lead h (hR.microtaskTurns _ m1)

/-! ## Callbacks -/

/-- A callback fires, up to the microtasks of its turn. -/
theorem opening (cb : Callback) (m : Machine) : R m (final (Firing.opening ⟨cb, m⟩ m)) := by
  have hshow {clock : Nat} (hclock : m.clock ≤ clock) (log : Log) (s : Step) (l : List Step) :
      R m (final ((do emitAll (s :: l); runCallback cb : Run Unit)
        (Machine.logged { m.dropped cb.id with clock } log))) := by
    rcases emitAll_cases s l (Machine.logged { m.dropped cb.id with clock } log) with
      ⟨_, log', h⟩ | ⟨log', part, _, h⟩
    · rw [bind_of_ok h]
      exact hR.trans (hR.take m cb.id (s :: l) log' hclock)
        (hR.roams (fun _ => roams_callbacks.runCallback cb) _)
    · rw [bind_of_error h]
      exact hR.take m cb.id part log' hclock
  have htimer : R m (final ((do
      takeTimer cb
      Run.tell (.fired cb)
      emitAll cb.timerSteps
      runCallback cb : Run Unit) m)) := by
    have htake : takeTimer cb m = .ok () (m.advanced cb) := rfl
    rw [bind_of_ok htake]
    rcases tell_apply (.fired cb) (m.advanced cb) with ⟨log, h⟩ | ⟨fault, h⟩
    · rw [bind_of_ok h]
      exact hshow (Nat.le_max_left _ _) log _ _
    · have htaken := hR.take m cb.id [] m.log (Nat.le_max_left m.clock cb.due)
      rw [emitted_nil] at htaken
      rw [bind_of_error h]
      exact htaken
  rw [Firing.opening]
  cases cb.kind with
  | timeout | interval => exact htimer
  | frame =>
    dsimp only
    rw [bind_apply, takeCallback, bind_apply, get_apply]
    dsimp only
    cases m.callbacks.all (·.id != cb.id) with
    | true => exact hR.refl m
    | false => exact hshow (Nat.le_refl _) m.log _ _

theorem fire (cb : Callback) (m : Machine) : Through R ([Firing.mk cb m].flatMap (·.stops)) m
    (final ((Firing.opening ⟨cb, m⟩ >>= fun _ => drainMicrotasks) m)) := by
  rw [List.flatMap_singleton]
  exact ⟨hR.refl m, hR.thenDrain (hR.opening cb m)⟩

theorem stages : Stages (fun _ => True) fun m fs _ m' =>
    Through R (fs.flatMap (·.stops)) m m' where
  idle _ := hR.refl _
  trans h h' := by
    rw [List.flatMap_append]
    exact hR.append h h'
  next _ _ := trivial
  enter p _ := gives_of_final fun _ => hR.enter p _
  missing _ := hR.refl _
  frame {m cb} _ hkind _ := gives_of_final fun _ => by
    rw [Firing.frameTurn_eq hkind m]
    exact hR.fire cb m
  timer {m cb} _ hnext := gives_of_final fun _ => by
    rw [Firing.timerTurn_eq (nextTimer_some hnext).2.1 m]
    exact hR.fire cb m

/-! ## Operations -/

theorem runSource (source : Option String) (m : Machine) :
    Through R ((servingsAfter (do discard (walkSource source); Run.enter .drainMicrotasks)
      drainServings m).flatMap (·.stops)) m (final (runSource source m)) := by
  have hwalk : R m (final ((discard (walkSource source) : Run PUnit) m)) := by
    rw [final_discard]
    exact hR.code (executes_of_leads fun _ => walkSource_leads source)
  have heq : Run.runSource source = (do discard (walkSource source); Run.enter .drainMicrotasks) >>=
      fun _ => drainMicrotasks := by
    funext m
    rw [Run.runSource, bind_apply, bind_apply, bind_apply, discard_apply]
    cases walkSource source m <;> rfl
  rw [heq]
  exact hR.thenDrain (hR.bind hwalk fun _ => hR.enter _)

/-- What holds across the parts of a run holds from stop to stop of every operation. -/
theorem through (op : Operation) (m : Machine) : Through R (op.stops m) m (m.after op) := by
  have hfinal {ss : List Machine} {m : Machine} {r : EStateM.Result Fault Machine Unit}
      (h : Gives (fun _ => Through R ss m) r) : Through R ss m (final r) := by
    obtain ⟨_, h⟩ := h.final
    exact h
  rw [after_eq]
  cases op with
  | generate source =>
    have hsource := hR.runSource source m
    rw [Operation.act, Run.generate, bind_apply, Operation.stops, firings, firingsAfter]
    cases hr : Run.runSource source m with
    | error fault m1 =>
      rw [hr] at hsource
      simpa using hsource
    | ok _ m1 =>
      rw [hr] at hsource
      exact hR.append hsource (hfinal (hR.stages.callbacks trivial))
  | run p =>
    rw [Operation.act, final_discard]
    exact hR.code (executes_of_leads fun _ => runProgram_leads p)
  | evaluate node =>
    rw [Operation.act, final_discard]
    exact hR.code (executes_of_leads fun _ _ => evaluateNode_leads node m)
  | execute node =>
    rw [Operation.act, final_discard]
    exact hR.code (executes_of_leads fun _ => executeNode_leads node)
  | microtasks => exact hR.microtaskTurns _ m
  | frames => exact hfinal (hR.stages.drainFrames trivial)
  | timers => exact hfinal (hR.stages.drainTimers trivial)

theorem throughAll (ops : List Operation) (m : Machine) :
    Through R (m.stops ops) m (ops.foldl Machine.after m) := by
  induction ops generalizing m with
  | nil => exact hR.refl m
  | cons op ops ih => exact hR.append (hR.through op m) ⟨hR.refl _, ih _⟩

theorem after (op : Operation) (m : Machine) : R m (m.after op) := hR.across (hR.through op m)

theorem afterAll (ops : List Operation) (m : Machine) : R m (ops.foldl Machine.after m) :=
  hR.across (hR.throughAll ops m)

end Passes

end Run

end EventLoop
