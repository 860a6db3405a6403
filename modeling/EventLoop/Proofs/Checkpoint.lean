/-
  The microtask checkpoint: whenever a timer or an animation frame is taken from the Web APIs to
  fire, no microtask is waiting, no call is active and the scope is the global one.  So every
  microtask that was queued before a callback enters its queue was shown before.

  The callbacks that fire in a generation are listed, with the state in which each of them is taken,
  by functions that follow the loops of the run (`Run.firings`).  `Checked` is what is shown of
  every part of a run that starts at a checkpoint: its firings happen at checkpoints, they account
  for every step by which a callback enters a queue, and if the part succeeds it ends at a
  checkpoint.
-/
import EventLoop.Proofs.Turn

namespace EventLoop

variable {α β : Type} {tame : Bool} {m m' : Machine} {t : Microtask} {e : Ending}

/-! ## Firings -/

/-- The callbacks that fire in a generation, in order. -/
def Generator.firings (g : Generator) (source : Option String) : List Firing :=
  if g.active then [] else Run.firings source g.reset.machine

/-! ## Between two turns -/

namespace Machine

/-- No code is running, and every microtask that was taken was shown. -/
structure Idle (m : Machine) : Prop where
  frames : m.frames = []
  scope : m.scope = Scope.global
  cursor : m.cursor ≤ m.microtasks.size
  shown : ∀ t ∈ m.microtasks.toList.take m.cursor, .microtaskAdd t.id t.name ∈ m.steps.toList

/-- No code is running and no microtask is waiting. -/
structure Checkpoint (m : Machine) : Prop extends Idle m where
  drained : m.cursor = m.microtasks.size

theorem Idle.of_grows (h : m.Idle) (hg : Grows m m')
    (hcontext : m'.scope = m.scope ∧ m'.frames = m.frames) : m'.Idle := by
  obtain ⟨tasks, htasks⟩ := hg.microtasks
  obtain ⟨l, hl, _⟩ := hg.steps
  have hlen : m.cursor ≤ m.microtasks.toList.length := h.cursor
  refine ⟨hcontext.2.trans h.frames, hcontext.1.trans h.scope, ?_, ?_⟩
  · rw [hg.cursor, ← Array.length_toList, htasks, List.length_append]
    omega
  · rw [hg.cursor, htasks, List.take_append_of_le_length hlen, hl]
    intro t ht
    exact List.mem_append_left l (h.shown t ht)

theorem Serves.context (h : m.Serves tame t .done m') :
    m'.scope = m.scope ∧ m'.frames = m.frames := by
  cases h with
  | mark | abandoned | resumed => exact ⟨rfl, rfl⟩
  | link _ hw hs =>
    have haside := aside_of_settle hs
    exact ⟨haside.scope.trans hw.context.1, haside.frames.trans hw.context.2⟩
  | rejected _ _ _ hs | finished _ _ _ _ _ _ hs =>
    exact ⟨(aside_of_settle hs).scope, (aside_of_settle hs).frames⟩

theorem Serves.grows (h : m.Serves tame t e m') : Grows m m' := by
  have hpush (c : Continuation) (label : String) :
      Grows m ((m.resumed c).emitted [.push label]) :=
    { Grows.of_emitted m (l := [.push label]) (by simp [Step.ofCode, Step.push]) with }
  have hpop (m1 : Machine) (log : Log) : Grows m1 (((m1.back m).emitted [.pop]).logged log) :=
    { Grows.of_emitted (m1.back m) pop_ofCode with }
  cases h with
  | mark => exact .refl m
  | link _ hw hs => exact hw.grows.trans (.of_aside (aside_of_settle hs))
  | linkFailed _ hw => exact hw.grows
  | rejected log _ _ hs =>
    have haside := Grows.of_aside (aside_of_settle hs)
    exact { haside with }
  | abandoned | stuck => exact { Grows.refl m with }
  | cut _ _ hw => exact (hpush _ _).trans { hw.grows with }
  | resumed log _ _ hw => exact (hpush _ _).trans (hw.grows.trans (hpop _ log))
  | finished log _ _ hw _ _ hs =>
    exact (hpush _ _).trans (hw.grows.trans ((hpop _ log).trans (.of_aside (aside_of_settle hs))))

/-- The microtask that has its turn is shown by the first of its steps. -/
theorem Idle.taken (h : m.Idle) (ht : m.microtasks[m.cursor]? = some t) (log : Log) :
    ((m.taken.emitted t.steps).logged log).Idle := by
  have hlt : m.cursor < m.microtasks.size := (Array.getElem?_eq_some_iff.1 ht).1
  have htake : m.microtasks.toList.take (m.cursor + 1) =
      m.microtasks.toList.take m.cursor ++ [t] := by
    rw [List.take_add_one, Array.getElem?_toList, ht]
    rfl
  refine ⟨h.frames, h.scope, hlt, ?_⟩
  change ∀ t' ∈ m.microtasks.toList.take (m.cursor + 1), _ ∈ (m.taken.emitted t.steps).steps.toList
  rw [htake, toList_emitted]
  intro t' ht'
  rcases List.mem_append.1 ht' with hold | hnew
  · exact List.mem_append_left _ (h.shown t' hold)
  · rw [List.mem_singleton.1 hnew]
    exact List.mem_append_right _ List.mem_cons_self

theorem Drains.checkpoint (h : m.Drains .done m') (hm : m.Idle) : m'.Checkpoint := by
  generalize he : Ending.done = e at h
  induction h with
  | idle hnone =>
    have hle := Array.getElem?_eq_none_iff.1 hnone
    exact { hm with drained := Nat.le_antisymm hm.cursor hle }
  | cut | failed => cases he
  | turn log ht _ hs _ ih => exact ih ((hm.taken ht log).of_grows hs.grows hs.context) he

end Machine

/-! ## Callbacks that enter a queue -/

/-- Whether a step shows that a timer or an animation frame enters its queue. -/
def Step.entersQueue (s : Step) : Prop := s.kind = .taskqueueAdd ∨ s.kind = .rafqueueAdd

theorem Step.ofCode.not_entersQueue {s : Step} (h : s.ofCode) : ¬ s.entersQueue := by
  rintro (hs | hs) <;> simp [Step.ofCode, hs] at h

theorem Microtask.steps_not_entersQueue (t : Microtask) : ∀ s ∈ t.steps, ¬ s.entersQueue := by
  simp [Microtask.steps, Step.entersQueue, Step.microtaskAdd, Step.microtaskRemove, Step.enqueue,
    Step.dequeue]

/-- Of the steps of a turn, only the second one lets the callback enter a queue. -/
theorem Callback.enters_second {cb : Callback} {shown : List Step}
    (hshown : shown = cb.frameSteps ∨ shown = cb.timerSteps) (i : Nat) (s : Step)
    (hs : shown[i]? = some s) (henters : s.entersQueue) : i = 1 := by
  rcases i with _ | _ | _ | i
  · -- the callback leaves the Web APIs
    rcases hshown with rfl | rfl <;> cases hs <;> rcases henters with h | h <;> cases h
  · rfl
  · -- it leaves its queue
    rcases hshown with rfl | rfl <;> cases hs <;> rcases henters with h | h <;> cases h
  · rcases hshown with rfl | rfl <;> cases hs

namespace Machine

/-- The steps by which callbacks enter their queues between two states are those of some firings:
    each is the second step after the state in which its callback was taken. -/
structure Accounts (m : Machine) (fs : List Firing) (m' : Machine) : Prop where
  steps : m.steps.toList <+: m'.steps.toList
  firing : ∀ (i : Nat) (s : Step), m'.steps.toList[i]? = some s → m.steps.toList.length ≤ i →
    s.entersQueue → ∃ f ∈ fs, i = f.before.steps.size + 1 ∧
      f.before.steps.toList <+: m'.steps.toList

namespace Accounts

variable {m m1 m2 : Machine} {fs fs' : List Firing}

theorem of_steps {l : List Step} (h : m1.steps.toList = m.steps.toList ++ l)
    (hl : ∀ s ∈ l, ¬ s.entersQueue) : m.Accounts [] m1 where
  steps := ⟨l, h.symm⟩
  firing := by
    intro i s hs hi henters
    rw [h, List.getElem?_append_right hi] at hs
    exact absurd henters (hl s (List.mem_of_getElem? hs))

theorem refl (m : Machine) : m.Accounts [] m := of_steps (l := []) (by simp) (by simp)

theorem trans (h1 : m.Accounts fs m1) (h2 : m1.Accounts fs' m2) : m.Accounts (fs ++ fs') m2 where
  steps := h1.steps.trans h2.steps
  firing := by
    intro i s hs hi henters
    by_cases hlt : i < m1.steps.toList.length
    · -- the step was there before the second part began
      obtain ⟨l, hl⟩ := h2.steps
      rw [← hl, List.getElem?_append_left hlt] at hs
      obtain ⟨f, hf, hidx, hbefore⟩ := h1.firing i s hs hi henters
      exact ⟨f, List.mem_append_left _ hf, hidx, hbefore.trans h2.steps⟩
    · obtain ⟨f, hf, hidx, hbefore⟩ := h2.firing i s hs (Nat.le_of_not_lt hlt) henters
      exact ⟨f, List.mem_append_right _ hf, hidx, hbefore⟩

theorem of_grows (h : Grows m m1) : m.Accounts [] m1 := by
  obtain ⟨l, hl, hcode⟩ := h.steps
  exact of_steps hl fun s hs => (hcode s hs).not_entersQueue

theorem of_drains (h : m.Drains e m1) : m.Accounts [] m1 := by
  have hshown {m : Machine} {t : Microtask} {part : List Step} (log : Log)
      (hpart : part <+: t.steps) : m.Accounts [] ((m.taken.emitted part).logged log) :=
    of_steps (toList_emitted m.taken part) fun s hs =>
      t.steps_not_entersQueue s (hpart.subset hs)
  induction h with
  | @idle m => exact refl m
  | cut log _ hpart => exact hshown log hpart
  | failed log _ _ hs => exact (hshown log (List.prefix_refl _)).trans (of_grows hs.grows)
  | turn log _ _ hs _ ih =>
    exact ((hshown log (List.prefix_refl _)).trans (of_grows hs.grows)).trans ih

/-- The second of the steps that show the turn of a callback is the one by which it enters its
    queue. -/
theorem of_fires {cb : Callback} {shown : List Step} (hm : m1.steps = m.steps)
    (hshown : ∀ (i : Nat) (s : Step), shown[i]? = some s → s.entersQueue → i = 1)
    (h : m1.Fires shown e m') : m.Accounts [⟨cb, m⟩] m' := by
  have hemitted {part : List Step} (log : Log) (hpart : part <+: shown) :
      m.Accounts [⟨cb, m⟩] ((m1.emitted part).logged log) := by
    have hsteps : ((m1.emitted part).logged log).steps.toList = m.steps.toList ++ part := by
      rw [logged_steps, toList_emitted, hm]
    refine ⟨⟨part, hsteps.symm⟩, fun i s hs hi henters => ?_⟩
    rw [hsteps, List.getElem?_append_right hi] at hs
    obtain ⟨rest, rfl⟩ := hpart
    have hlt := (List.getElem?_eq_some_iff.1 hs).1
    have hi1 := hshown _ s (by rw [List.getElem?_append_left hlt, hs]) henters
    have hsize : m.steps.toList.length = m.steps.size := Array.length_toList
    refine ⟨⟨cb, m⟩, List.mem_singleton.2 rfl, ?_, ⟨part, hsteps.symm⟩⟩
    change i = m.steps.size + 1
    omega
  cases h with
  | cut log hpart => exact hemitted log hpart
  | failed log _ hw => exact (hemitted log (List.prefix_refl _)).trans (of_grows hw.grows)
  | fired log _ hw hd =>
    exact ((hemitted log (List.prefix_refl _)).trans (of_grows hw.grows)).trans
      (of_drains hd)

end Accounts

/-! ## Runs from one checkpoint to the next -/

/-- A part of a run with the given firings, from `m` to `m'`. -/
structure Spans (m : Machine) (fs : List Firing) (e : Ending) (m' : Machine) : Prop where
  firings : ∀ f ∈ fs, f.before.Checkpoint
  accounts : m.Accounts fs m'
  ending : e = .done → m'.Checkpoint

/-- A part of a run that starts in `m` with the given firings. -/
def Checked (m : Machine) (fs : List Firing) (r : EStateM.Result Fault Machine α) : Prop :=
  Run.Gives (m.Spans fs) r

/-- A callback fires at a checkpoint, and at the next checkpoint its turn ends. -/
theorem checked_of_fires {m1 : Machine} {cb : Callback} {shown : List Step}
    {r : EStateM.Result Fault Machine α} (hm : m.Checkpoint) (hidle : m1.Idle)
    (hsteps : m1.steps = m.steps)
    (hshown : ∀ (i : Nat) (s : Step), shown[i]? = some s → s.entersQueue → i = 1)
    (h : Run.Gives (m1.Fires shown) r) : m.Checked [⟨cb, m⟩] r := by
  have hfirings : ∀ f ∈ [(⟨cb, m⟩ : Firing)], f.before.Checkpoint := by simpa using hm
  refine h.imp fun e m' hf => ⟨hfirings, .of_fires hsteps hshown hf, ?_⟩
  rintro rfl
  cases hf with
  | fired log _ hw hd =>
    have hemitted : ((m1.emitted shown).logged log).Idle :=
      { hidle with
        shown := fun t ht => by
          rw [logged_steps, toList_emitted]
          exact List.mem_append_left _ (hidle.shown t ht) }
    exact hd.checkpoint (hemitted.of_grows hw.grows hw.context)

theorem checked_stages : Run.Stages Checkpoint Spans where
  idle {m} hm := ⟨by simp, .refl m, fun _ => hm⟩
  trans h1 h2 := ⟨List.forall_mem_append.2 ⟨h1.firings, h2.firings⟩, h1.accounts.trans h2.accounts,
    h2.ending⟩
  next _ h := h.ending rfl
  enter _ hm := .ok ⟨by simp, .of_steps (l := []) (by simp) (by simp), fun _ => { hm with }⟩
  missing {m} _ := ⟨by simp, .refl m, by simp⟩
  frame {m cb} hm _ hall := by
    have hidle : (m.dropped cb.id).Idle := { hm.toIdle with }
    exact checked_of_fires hm hidle rfl (Callback.enters_second (.inl rfl)) (Run.frameTurn_fires hall)
  timer {m cb} hm _ := by
    have hidle : (m.advanced cb).Idle := { hm.toIdle with }
    exact checked_of_fires hm hidle rfl (Callback.enters_second (.inr rfl)) (Run.timerTurn_fires cb m)

theorem runSource_checked (source : Option String) (hm : m.Checkpoint) :
    m.Checked [] (Run.runSource source m) := by
  have hleads : m.Leads false m.callBudget Outcome.ending (Run.walkSource source m) :=
    Run.walkSource_leads source (by simp)
  rw [Run.runSource, Run.bind_apply]
  generalize Run.walkSource source m = r at hleads
  cases hleads with
  | error hw => exact .error ⟨by simp, .of_grows hw.grows, by simp⟩
  | @ok outcome m1 hw =>
    simp only [Run.bind_apply, Run.enter, Run.note_apply]
    generalize m1.log.write 1 _ = log
    have hgrows : Grows m (m1.logged log) := { hw.grows with }
    have hdrains := Run.drainMicrotasks_drains (m1.logged log)
    refine hdrains.imp fun e m' hd =>
      ⟨by simp, (Accounts.of_grows hgrows).trans (.of_drains hd), ?_⟩
    rintro rfl
    exact hd.checkpoint (hm.toIdle.of_grows hgrows hw.context)

theorem generate_checked (source : Option String) (hm : m.Checkpoint) :
    m.Checked (Run.firings source m) (Run.generate source m) :=
  checked_stages.generate hm (runSource_checked source hm)

theorem checkpoint_start (limit : Nat) (log : Log) : (Machine.start limit log).Checkpoint where
  frames := rfl
  scope := rfl
  cursor := Nat.le_refl _
  shown := by simp [Machine.start]
  drained := rfl

/-- Whatever was queued at a checkpoint is shown by a step before it. -/
theorem Checkpoint.shown_before (h : m.Checkpoint) (ht : t ∈ m.microtasks) {steps : List Step}
    (hsteps : m.steps.toList <+: steps) :
    ∃ j < m.steps.size, steps[j]? = some (.microtaskAdd t.id t.name) := by
  have htake : m.microtasks.toList.take m.cursor = m.microtasks.toList := by
    rw [h.drained, ← Array.length_toList, List.take_length]
  have hmem := h.shown t (by rw [htake]; exact Array.mem_toList_iff.2 ht)
  obtain ⟨j, hj, hget⟩ := List.mem_iff_getElem.1 hmem
  obtain ⟨rest, rfl⟩ := hsteps
  exact ⟨j, hj, by rw [List.getElem?_append_left hj, List.getElem?_eq_getElem hj, hget]⟩

theorem Checked.after {m : Machine} {fs : List Firing} {op : Operation}
    (h : m.Checked fs (op.act m)) :
    (∀ f ∈ fs, f.before.Checkpoint) ∧ m.Accounts fs (m.after op) := by
  obtain ⟨_, hspans⟩ := after_of_gives h
  exact ⟨hspans.firings, hspans.accounts⟩

end Machine

theorem Generator.generate_steps {g : Generator} (hg : g.active = false) (source : Option String) :
    (g.generate source).2.machine.steps = (g.reset.machine.after (.generate source)).steps := by
  simp only [Generator.generate, hg, Machine.after, Operation.act]
  cases Run.generate source g.reset.machine <;> rfl

/-- Timers and animation frames fire at checkpoints only.  When a callback is taken from the Web
    APIs, all microtasks were taken, no call is active and the scope is the global one.  So every
    step by which a callback enters its queue comes after the steps that show all microtasks queued
    before it. -/
theorem fires_at_checkpoint (g : Generator) (source : Option String) (hg : g.active = false) :
    (∀ f ∈ g.firings source, f.before.cursor = f.before.microtasks.size ∧ f.before.frames = [] ∧
      f.before.scope = Scope.global) ∧
    ∀ (i : Nat) (s : Step), (g.generate source).2.machine.steps.toList[i]? = some s →
      s.kind = .taskqueueAdd ∨ s.kind = .rafqueueAdd →
      ∃ f ∈ g.firings source, i = f.before.steps.size + 1 ∧
        f.before.steps.toList <+: (g.generate source).2.machine.steps.toList ∧
        ∀ t ∈ f.before.microtasks, ∃ j < i,
          (g.generate source).2.machine.steps.toList[j]? = some (.microtaskAdd t.id t.name) := by
  have hfs : g.firings source = Run.firings source g.reset.machine := by
    simp [Generator.firings, hg]
  have hstart : g.reset.machine.Checkpoint := Machine.checkpoint_start g.limit g.machine.log
  have hchecked : g.reset.machine.Checked (Run.firings source g.reset.machine)
      ((Operation.generate source).act g.reset.machine) := Machine.generate_checked source hstart
  obtain ⟨hfirings, haccounts⟩ := hchecked.after
  rw [← hfs] at hfirings haccounts
  rw [Generator.generate_steps hg]
  refine ⟨fun f hf => ?_, fun i s hs henters => ?_⟩
  · exact ⟨(hfirings f hf).drained, (hfirings f hf).frames, (hfirings f hf).scope⟩
  · obtain ⟨f, hf, hi, hbefore⟩ := haccounts.firing i s hs (Nat.zero_le i) henters
    refine ⟨f, hf, hi, hbefore, fun t ht => ?_⟩
    obtain ⟨j, hj, hget⟩ := (hfirings f hf).shown_before ht hbefore
    exact ⟨j, by omega, hget⟩

/-- A timer sets a frame and queues a microtask; all three have their turns at checkpoints. -/
theorem fires_at_checkpoint_nested :
    let source :=
      "setTimeout(() => { requestAnimationFrame(() => 1); Promise.resolve(2).then(v => v) }, 5)"
    ((Generator.new 100 0).firings (some source)).length = 2 ∧
    ∀ f ∈ (Generator.new 100 0).firings (some source),
      f.before.cursor = f.before.microtasks.size ∧ f.before.frames = [] ∧
        f.before.scope = Scope.global :=
  ⟨by decide +kernel, (fires_at_checkpoint (Generator.new 100 0) _ rfl).1⟩

end EventLoop
