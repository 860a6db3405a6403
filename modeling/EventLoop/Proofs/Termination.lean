/-
  Every generation comes to an end.

  What can go on without end in a program are its calls, settlements, loops and texts, for which see
  `EventLoop.Proofs.Unrolling`, and the turns of the event loop, which are treated here in the same
  way (`microtaskOnce`, `timerOnce`).  A microtask has its turn only if fewer than the limit were
  taken before.  A callback has its turn only if its three steps fit under the limit on steps, and
  the next one comes behind them (`Consumes`).

  `Spends` is what is shown of every part of a run, whether it succeeds or fails; it is put together
  along the loops of the run (`Run.Stages`).
-/
import EventLoop.Proofs.Queue
import EventLoop.Proofs.Unrolling

namespace EventLoop

open Script

variable {α β : Type} {tame : Bool} {m : Machine} {act : Run α} {cb : Callback} {f : α → Run β}
  {l : List Step} {r : EStateM.Result Fault Machine α}

/-! ## Steps that are consumed -/

namespace Firing

/-- The steps that show the turn of the callback. -/
def shown (f : Firing) : List Step :=
  match f.callback.kind with
  | .frame => f.callback.frameSteps
  | .timeout | .interval => f.callback.timerSteps

/-- The steps of the turn had room, and stand right behind those before it. -/
def Shown (f : Firing) (m : Machine) : Prop :=
  f.before.Room 3 ∧ f.before.steps.toList ++ f.shown <+: m.steps.toList

theorem length_shown (f : Firing) : f.shown.length = 3 := by
  rw [shown]
  cases f.callback.kind <;> rfl

theorem Shown.size_le {f : Firing} (h : f.Shown m) : f.before.steps.size + 3 ≤ m.steps.size := by
  have hlen := h.2.length_le
  rw [List.length_append, f.length_shown] at hlen
  exact hlen

end Firing

namespace Machine

variable {m' : Machine}

/-- The steps of a part of a run with the given firings: each callback takes its three steps, behind
    those of all callbacks before it.  Only a part that fails can end among such steps. -/
structure Consumes (m : Machine) (fs : List Firing) (m' : Machine) : Prop where
  limit : m'.steps.limit = m.steps.limit
  steps : m.steps.toList <+: m'.steps.toList
  inside : ∀ f ∈ fs, f.before.steps.limit = m.steps.limit ∧
    m.steps.toList <+: f.before.steps.toList
  apart : fs.Pairwise fun f f' => f.before.steps.toList ++ f.shown <+: f'.before.steps.toList
  shown : ∀ f ∈ fs, f.Shown m' ∨ m'.steps.toList <+: f.before.steps.toList ++ f.shown

namespace Consumes

variable {m m1 m2 : Machine} {fs fs' : List Firing}

theorem quiet (hlimit : m1.steps.limit = m.steps.limit)
    (hsteps : m.steps.toList <+: m1.steps.toList) : m.Consumes [] m1 :=
  ⟨hlimit, hsteps, by simp, .nil, by simp⟩

theorem refl (m : Machine) : m.Consumes [] m := quiet rfl (List.prefix_refl _)

theorem of_grows (h : Grows m m1) : m.Consumes [] m1 := by
  obtain ⟨l, hl, _⟩ := h.steps
  exact quiet h.limit ⟨l, hl.symm⟩

theorem single (hlimit : m1.steps.limit = m.steps.limit)
    (hsteps : m.steps.toList <+: m1.steps.toList)
    (hend : Firing.Shown ⟨cb, m⟩ m1 ∨ m1.steps.toList <+: m.steps.toList ++ Firing.shown ⟨cb, m⟩) :
    m.Consumes [⟨cb, m⟩] m1 where
  limit := hlimit
  steps := hsteps
  inside := by
    intro f hf
    rw [List.mem_singleton.1 hf]
    exact ⟨rfl, List.prefix_refl _⟩
  apart := List.pairwise_singleton _ _
  shown := by
    intro f hf
    rw [List.mem_singleton.1 hf]
    exact hend

theorem trans (h1 : m.Consumes fs m1) (hshown : ∀ f ∈ fs, f.Shown m1)
    (h2 : m1.Consumes fs' m2) : m.Consumes (fs ++ fs') m2 where
  limit := h2.limit.trans h1.limit
  steps := h1.steps.trans h2.steps
  inside := by
    refine List.forall_mem_append.2 ⟨h1.inside, fun f hf => ?_⟩
    obtain ⟨hlimit, hsteps⟩ := h2.inside f hf
    exact ⟨hlimit.trans h1.limit, h1.steps.trans hsteps⟩
  apart := by
    refine List.pairwise_append.2 ⟨h1.apart, h2.apart, fun f hf f' hf' => ?_⟩
    exact (hshown f hf).2.trans (h2.inside f' hf').2
  shown := by
    refine List.forall_mem_append.2 ⟨fun f hf => .inl ?_, h2.shown⟩
    exact ⟨(hshown f hf).1, (hshown f hf).2.trans h2.steps⟩

end Consumes

theorem Drains.consumes {e : Ending} (h : m.Drains e m') : m.Consumes [] m' := by
  have hshown {m : Machine} (part : List Step) (log : Log) :
      m.Consumes [] ((m.taken.emitted part).logged log) := by
    refine .quiet rfl ⟨part, ?_⟩
    rw [logged_steps, toList_emitted]
    rfl
  induction h with
  | @idle m => exact .refl m
  | @cut m t part log _ _ => exact hshown part log
  | failed log _ _ hs => exact (hshown _ log).trans (by simp) (.of_grows hs.grows)
  | turn log _ _ hs _ ih =>
    exact ((hshown _ log).trans (by simp) (.of_grows hs.grows)).trans (by simp) ih

/-! ## Microtasks that are run -/

/-- How many microtasks were shown.  Each of them is shown before it runs. -/
def taskSteps (m : Machine) : Nat := m.steps.toList.countP (·.kind == .microtaskAdd)

/-- No more microtasks were shown than were taken, and not too many were taken. -/
structure Counted (m : Machine) : Prop where
  shown : m.taskSteps ≤ m.processed
  processed : m.processed ≤ maxMicrotasks

theorem Counted.taskSteps_le (h : m.Counted) : m.taskSteps ≤ maxMicrotasks :=
  Nat.le_trans h.shown h.processed

theorem taskSteps_of_append (h : m'.steps.toList = m.steps.toList ++ l) :
    m'.taskSteps = m.taskSteps + l.countP (·.kind == .microtaskAdd) := by
  rw [taskSteps, h, List.countP_append, taskSteps]

theorem taskSteps_of_forall_ne (h : m'.steps.toList = m.steps.toList ++ l)
    (hl : ∀ s ∈ l, s.kind ≠ .microtaskAdd) : m'.taskSteps = m.taskSteps := by
  rw [taskSteps_of_append h, List.countP_eq_zero.2, Nat.add_zero]
  intro s hs hkind
  exact hl s hs (by simpa using hkind)

theorem Grows.taskSteps (h : Grows m m') : m'.taskSteps = m.taskSteps := by
  obtain ⟨l, hl, hcode⟩ := h.steps
  refine taskSteps_of_forall_ne hl fun s hs hkind => ?_
  have hofCode := hcode s hs
  simp [Step.ofCode, hkind] at hofCode

/-- The steps that show a microtask count once, or not at all if they are cut short. -/
theorem taskSteps_taken_le {t : Microtask} {part : List Step} (log : Log) (h : part <+: t.steps) :
    ((m.taken.emitted part).logged log).taskSteps ≤ m.taskSteps + 1 := by
  have hsteps : ((m.taken.emitted part).logged log).steps.toList = m.steps.toList ++ part := by
    rw [logged_steps, toList_emitted]
    rfl
  rw [taskSteps_of_append hsteps]
  have hcount := h.sublist.countP_le (p := (·.kind == .microtaskAdd))
  have hone : t.steps.countP (·.kind == .microtaskAdd) = 1 := rfl
  omega

/-- Where a part of a run ends in which not too many microtasks were shown. -/
def Tally (e : Ending) (m : Machine) : Prop :=
  m.taskSteps ≤ maxMicrotasks ∧ (e = .done → m.Counted)

theorem Counted.tally (h : m.Counted) : m.Tally e := ⟨h.taskSteps_le, fun _ => h⟩

theorem Counted.of_grows (hm : m.Counted) (h : Grows m m') : m'.Counted := by
  constructor
  · rw [h.taskSteps, h.processed]
    exact hm.shown
  · rw [h.processed]
    exact hm.processed

end Machine

namespace Run

open Machine

/-- An action that does not let too many microtasks run. -/
def Tallies (act : Run α) : Prop := ∀ m : Machine, m.Counted → Gives Tally (act m)

namespace Tallies

theorem bind (h : Tallies act) (hf : ∀ a, Tallies (f a)) : Tallies (act >>= f) := by
  intro m hm
  have htally := h m hm
  refine gives_bind (fun fault m' hact => ?_) fun a m' hact => ?_
  · rw [hact] at htally
    cases htally with
    | error htally => exact htally
  · exact hf a m' ((htally.of_ok hact).2 rfl)

theorem of_leads {e : α → Ending} {depth : Machine → Nat}
    (h : ∀ m : Machine, m.Leads false (depth m) e (act m)) : Tallies act := by
  intro m hm
  exact gives_of_leads (h m) fun _ _ _ hw => (hm.of_grows hw.grows).tally

theorem of_roams (h : Roams false act) : Tallies act := of_leads h

theorem emitAll {s : Step} (hl : ∀ s' ∈ s :: l, s'.kind ≠ .microtaskAdd) :
    Tallies (emitAll (s :: l)) := by
  intro m hm
  have hsame {part : List Step} (log : Log) (hpart : part <+: s :: l) :
      ((m.emitted part).logged log).taskSteps = m.taskSteps := by
    refine taskSteps_of_forall_ne (l := part) ?_ fun s' hs' => hl s' (hpart.subset hs')
    rw [logged_steps, toList_emitted]
  rcases emitAll_cases s l m with ⟨_, log, h⟩ | ⟨log, part, hpart, h⟩
  · rw [h]
    refine .ok (Counted.tally ⟨?_, hm.processed⟩)
    rw [hsame log (List.prefix_refl _)]
    exact hm.shown
  · rw [h]
    refine .error ⟨?_, by simp⟩
    rw [hsame log hpart]
    exact hm.taskSteps_le

end Tallies

/-- Among the microtasks that have their turn, no more are shown than the budget allows. -/
theorem microtaskTurns_tallied (budget : Nat) (hm : m.taskSteps ≤ m.processed)
    (hbudget : m.processed + budget ≤ maxMicrotasks) : Gives Tally (microtaskTurns budget m) := by
  induction budget generalizing m with
  | zero =>
    simp only [microtaskTurns, bind_apply, takeMicrotask_apply]
    cases m.microtasks[m.cursor]? with
    | none => exact .ok (Counted.tally ⟨hm, hbudget⟩)
    | some t => exact .error ⟨Nat.le_trans hm hbudget, by simp⟩
  | succ budget ih =>
    simp only [microtaskTurns, bind_apply, takeMicrotask_apply]
    cases m.microtasks[m.cursor]? with
    | none => exact .ok (Counted.tally ⟨hm, by omega⟩)
    | some t =>
      refine gives_bind (fun fault m' hact => ⟨?_, by simp⟩) fun _ m1 hact => ?_
      · -- the microtask is taken, and shown as far as there is room
        rcases emitAll_cases (.microtaskAdd t.id t.name) [.microtaskRemove t.id] m.taken with
          ⟨_, log, h⟩ | ⟨log, part, hpart, h⟩
        · rw [h] at hact
          cases hact
        · rw [h] at hact
          cases hact
          have hshown := taskSteps_taken_le (m := m) log hpart
          omega
      · obtain ⟨log, hm1⟩ : ∃ log, m1 = (m.taken.emitted t.steps).logged log :=
          emitAll_ok hact
        subst hm1
        have hshown : ((m.taken.emitted t.steps).logged log).taskSteps ≤ m.taskSteps + 1 :=
          taskSteps_taken_le log (List.prefix_refl _)
        have hserves := @runMicrotask_serves false t ((m.taken.emitted t.steps).logged log)
          (by simp)
        refine gives_bind (fun fault m' hrun => ⟨?_, by simp⟩) fun _ m' hrun => ?_
        · rw [hrun] at hserves
          cases hserves with
          | error hs =>
            rw [hs.grows.taskSteps]
            omega
        · -- running it shows no further one, whatever it queues
          have hgrows := (hserves.of_ok hrun).grows
          have hprocessed : m'.processed = m.processed + 1 := hgrows.processed
          refine ih ?_ ?_
          · rw [hgrows.taskSteps, hprocessed]
            omega
          · rw [hprocessed]
            omega

theorem drainMicrotasks_tallies : Tallies drainMicrotasks := by
  intro m hm
  have hprocessed := hm.processed
  exact microtaskTurns_tallied (maxMicrotasks - m.processed) hm.shown (by omega)

theorem takeCallback_tallies (id : Nat) : Tallies (takeCallback id) := by
  intro m hm
  simp only [takeCallback, bind_apply, get_apply]
  cases m.callbacks.all (·.id != id) with
  | true => exact .error hm.tally
  | false => exact .ok (Counted.tally ⟨hm.shown, hm.processed⟩)

theorem takeTimer_tallies (cb : Callback) : Tallies (takeTimer cb) :=
  fun _ hm => .ok (Counted.tally ⟨hm.shown, hm.processed⟩)

theorem frameTurn_tallies (cb : Callback) : Tallies (frameTurn cb) := by
  have hshown : ∀ s ∈ cb.frameSteps, s.kind ≠ .microtaskAdd := by
    simp [Callback.frameSteps, Step.webapiRemove, Step.rafqueueAdd, Step.rafqueueRemove,
      Step.enqueue, Step.dequeue]
  exact (takeCallback_tallies cb.id).bind fun _ => (Tallies.emitAll hshown).bind fun _ =>
    (Tallies.of_roams (roams_callbacks.runCallback cb)).bind fun _ => drainMicrotasks_tallies

theorem timerTurn_tallies (cb : Callback) : Tallies (timerTurn cb) := by
  have hshown : ∀ s ∈ cb.timerSteps, s.kind ≠ .microtaskAdd := by
    simp [Callback.timerSteps, Step.webapiRemove, Step.taskqueueAdd, Step.taskqueueRemove,
      Step.enqueue, Step.dequeue]
  have htell : Tallies (Run.tell (.fired cb)) := .of_roams (Roams.of_walks fun _ => tell_walks _)
  exact (takeTimer_tallies cb).bind fun _ => htell.bind fun _ =>
    (Tallies.emitAll hshown).bind fun _ =>
      (Tallies.of_roams (roams_callbacks.runCallback cb)).bind fun _ => drainMicrotasks_tallies

theorem tally_stages : Stages Counted fun _ _ => Tally where
  idle := Counted.tally
  trans _ h := h
  next _ h := h.2 rfl
  enter p hm := Tallies.of_roams (enter_roams p) _ hm
  missing := Counted.tally
  frame {m cb} hm _ _ := frameTurn_tallies cb m hm
  timer {m cb} hm _ := timerTurn_tallies cb m hm

theorem generate_tallies (source : Option String) : Tallies (generate source) := by
  intro m hm
  have hwalk : Tallies (walkSource source) := .of_leads fun m => walkSource_leads source (by simp)
  exact tally_stages.generate hm
    (tally_stages.runSource hm (hwalk m hm) fun hm => drainMicrotasks_tallies _ hm)

end Run

/-! ## The steps of a whole run -/

namespace Machine

/-- A part of a run with the given firings, from `m` to `m'`. -/
def Spends (m : Machine) (fs : List Firing) (e : Ending) (m' : Machine) : Prop :=
  m.Consumes fs m' ∧ (e = .done → ∀ f ∈ fs, f.Shown m')

namespace Spends

variable {m m1 m2 : Machine} {fs fs' : List Firing}

theorem quiet (h : m.Consumes [] m1) : m.Spends [] e m1 := ⟨h, by simp⟩

theorem trans (h1 : m.Spends fs .done m1) (h2 : m1.Spends fs' e m2) : m.Spends (fs ++ fs') e m2 := by
  refine ⟨h1.1.trans (h1.2 rfl) h2.1, fun he => List.forall_mem_append.2 ⟨fun f hf => ?_, h2.2 he⟩⟩
  obtain ⟨hroom, hshown⟩ := h1.2 rfl f hf
  exact ⟨hroom, hshown.trans h2.1.steps⟩

theorem of_leads {e : α → Ending} {depth : Nat} (h : m.Leads tame depth e r) :
    Run.Gives (m.Spends []) r :=
  Run.gives_of_leads h fun _ _ _ hw => quiet (.of_grows hw.grows)

theorem drainMicrotasks (m : Machine) : Run.Gives (m.Spends []) (Run.drainMicrotasks m) :=
  (Run.drainMicrotasks_drains m).imp fun _ _ hd => quiet hd.consumes

theorem bind_quiet (h : Run.Gives (m.Spends fs) (act m1))
    (hf : ∀ (a : α) (m' : Machine), Run.Gives (m'.Spends []) (f a m')) :
    Run.Gives (m.Spends fs) ((act >>= f) m1) := by
  refine Run.gives_bind (fun fault m' hact => ?_) fun a m' hact => ?_
  · rw [hact] at h
    cases h with
    | error h => exact h
  · refine (hf a m').imp fun _ _ hrest => ?_
    simpa only [List.append_nil] using (h.of_ok hact).trans hrest

theorem turn {cb : Callback} {s : Step} {l : List Step}
    (hshown : Firing.shown ⟨cb, m⟩ = s :: l) (hsteps : m1.steps = m.steps) :
    Run.Gives (m.Spends [⟨cb, m⟩]) (Run.showAndRun (s :: l) cb m1) := by
  have hlist (part : List Step) (log : Log) :
      ((m1.emitted part).logged log).steps.toList = m.steps.toList ++ part := by
    rw [logged_steps, toList_emitted, hsteps]
  have hlen : (s :: l).length = 3 := hshown ▸ Firing.length_shown ⟨cb, m⟩
  have hemit : Run.Gives (m.Spends [⟨cb, m⟩]) (Run.emitAll (s :: l) m1) := by
    have hlimit (part : List Step) (log : Log) :
        ((m1.emitted part).logged log).steps.limit = m.steps.limit := by
      rw [logged_steps, limit_emitted, hsteps]
    rcases Run.emitAll_cases s l m1 with ⟨hroom, log, h⟩ | ⟨log, part, hpart, h⟩
    · have hall : Firing.Shown ⟨cb, m⟩ ((m1.emitted (s :: l)).logged log) := by
        refine ⟨?_, ?_⟩
        · rw [Room, hsteps] at hroom
          rw [List.length_cons] at hlen
          show m.steps.size + 3 ≤ m.steps.limit
          omega
        · rw [hlist, hshown]
      rw [h]
      refine .ok ⟨.single (hlimit _ log) ⟨_, (hlist _ log).symm⟩ (.inl hall), fun _ f hf => ?_⟩
      rw [List.mem_singleton.1 hf]
      exact hall
    · rw [h]
      refine .error ⟨.single (hlimit _ log) ⟨_, (hlist _ log).symm⟩ (.inr ?_), by simp⟩
      rw [hlist, hshown]
      exact (List.prefix_append_right_inj _).2 hpart
  exact bind_quiet hemit fun _ m2 =>
    bind_quiet (of_leads ((@Run.roams_callbacks false).runCallback cb m2)) fun _ => drainMicrotasks

theorem frameTurn (hkind : cb.kind = .frame) (h : m.callbacks.all (·.id != cb.id) = false) :
    Run.Gives (m.Spends [⟨cb, m⟩]) (Run.frameTurn cb m) := by
  have hshown : Firing.shown ⟨cb, m⟩ = cb.frameSteps := by rw [Firing.shown, hkind]
  rw [Run.frameTurn_waiting h]
  exact turn hshown rfl

theorem timerTurn (hkind : cb.kind = .timeout) (m : Machine) :
    Run.Gives (m.Spends [⟨cb, m⟩]) (Run.timerTurn cb m) := by
  have hshown : Firing.shown ⟨cb, m⟩ = cb.timerSteps := by rw [Firing.shown, hkind]
  rcases Run.timerTurn_cases cb m with ⟨log, h⟩ | ⟨fault, h⟩
  · rw [h]
    exact turn hshown rfl
  · rw [h]
    exact .error ⟨.single rfl (List.prefix_refl _) (.inr (List.prefix_append _ _)), by simp⟩

theorem stages : Run.Stages (fun _ => True) Spends where
  idle _ := quiet (.refl _)
  trans := trans
  next _ _ := trivial
  enter p _ := of_leads (@Run.enter_roams false p _)
  missing _ := quiet (.refl _)
  frame _ hkind hall := frameTurn hkind hall
  timer _ hnext := timerTurn (Run.nextTimer_some hnext).2.1 _

theorem generate (source : Option String) (m : Machine) :
    Run.Gives (m.Spends (Run.firings source m)) (Run.generate source m) := by
  have hwalk := of_leads (@Run.walkSource_leads false source m (by simp))
  exact stages.generate trivial (stages.runSource trivial hwalk fun _ => drainMicrotasks _)

end Spends

end Machine

/-! ## The turns of the event loop -/

namespace Run

open Machine

variable {n : Nat}

/-- The body of the loop over microtasks, in which `drain` stands for the rest of the loop.  It
    looks at the number of microtasks that were taken and at no other bound. -/
def microtaskOnce (drain : Run Unit) : Run Unit := do
  match ← takeMicrotask with
  | none => pure ()
  | some t =>
    if maxMicrotasks < (← get).processed then throw .microtaskLimit
    else
      emitAll [.microtaskAdd t.id t.name, .microtaskRemove t.id]
      runMicrotask t
      drain

/-- Two actions that go on in the same way wherever the first part succeeds. -/
theorem bind_congr_ok {g : α → Run β} (h : ∀ a m', act m = .ok a m' → f a m' = g a m') :
    (act >>= f) m = (act >>= g) m := by
  rw [bind_apply, bind_apply]
  cases hact : act m with
  | ok a m' => exact h a m' hact
  | error fault m' => rfl

theorem processed_of_turn {t : Microtask} {m1 m2 : Machine}
    (hemit : emitAll [.microtaskAdd t.id t.name, .microtaskRemove t.id] m.taken = .ok () m1)
    (hrun : runMicrotask t m1 = .ok () m2) : m2.processed = m.processed + 1 := by
  obtain ⟨log, hm1⟩ := emitAll_ok hemit
  have htaken : m1.processed = m.processed + 1 := by
    rw [hm1]
    rfl
  rw [((@runMicrotask_serves false t m1 (by simp)).of_ok hrun).grows.processed, htaken]

/-- The turns of microtasks end within the turns that the budget leaves. -/
theorem microtaskTurns_unrolled (stuck : Run Unit) (hn : maxMicrotasks - m.processed < n) :
    microtaskOnce^[n] stuck m = microtaskTurns (maxMicrotasks - m.processed) m := by
  induction n generalizing m with
  | zero => omega
  | succ n ih =>
    rw [Function.iterate_succ_apply', microtaskOnce, bind_apply, takeMicrotask_apply]
    cases hbudget : maxMicrotasks - m.processed with
    | zero =>
      -- one microtask more is too many on both sides
      have hlimit : maxMicrotasks < m.taken.processed := by
        show maxMicrotasks < m.processed + 1
        omega
      rw [microtaskTurns, bind_apply, takeMicrotask_apply]
      cases m.microtasks[m.cursor]? with
      | none => rfl
      | some t => simp [hlimit]
    | succ budget =>
      have hroom : ¬ maxMicrotasks < m.taken.processed := by
        show ¬ maxMicrotasks < m.processed + 1
        omega
      rw [microtaskTurns, bind_apply, takeMicrotask_apply]
      cases m.microtasks[m.cursor]? with
      | none => rfl
      | some t =>
        have hturn : (do
              emitAll [.microtaskAdd t.id t.name, .microtaskRemove t.id]
              runMicrotask t
              microtaskOnce^[n] stuck : Run Unit) m.taken =
            (do
              emitAll [.microtaskAdd t.id t.name, .microtaskRemove t.id]
              runMicrotask t
              microtaskTurns budget : Run Unit) m.taken := by
          -- a turn counts one microtask, and takes one from the budget
          refine bind_congr_ok fun _ m1 hemit => bind_congr_ok fun _ m2 hrun => ?_
          have hprocessed := processed_of_turn hemit hrun
          have hrest : maxMicrotasks - m2.processed = budget := by omega
          rw [← hrest]
          exact ih (by omega)
        show (if maxMicrotasks < m.taken.processed then throw .microtaskLimit
          else do
            emitAll [.microtaskAdd t.id t.name, .microtaskRemove t.id]
            runMicrotask t
            microtaskOnce^[n] stuck : Run Unit) m.taken = _
        rw [if_neg hroom]
        exact hturn

/-- The loop over microtasks, unrolled once more than microtasks may be taken. -/
theorem drainMicrotasks_unrolled (stuck : Run Unit) :
    microtaskOnce^[maxMicrotasks + 1] stuck = drainMicrotasks := by
  funext m
  exact microtaskTurns_unrolled stuck (by omega)

/-- The body of the loop over timers, in which `drain` stands for the rest of the loop. -/
def timerOnce (drain : Run Unit) : Run Unit := do
  match nextTimer (← get).callbacks with
  | none => pure ()
  | some cb =>
    timerTurn cb
    drainFrames
    drain

theorem room_of_timerTurn {m1 m2 : Machine} (hkind : cb.kind = .timeout)
    (hturn : timerTurn cb m = .ok () m1) (hframes : drainFrames m1 = .ok () m2) :
    m2.steps.limit - m2.steps.size < m.steps.limit - m.steps.size := by
  obtain ⟨h, hshown⟩ := (Spends.timerTurn hkind m).of_ok hturn
  obtain ⟨h1, _⟩ := (Spends.stages.drainFrames trivial).of_ok hframes
  have hfired := hshown rfl ⟨cb, m⟩ (List.mem_singleton.2 rfl)
  have hroom : m.steps.size + 3 ≤ m.steps.limit := hfired.1
  have hsize : m.steps.size + 3 ≤ m1.steps.size := hfired.size_le
  have hsize1 : m1.steps.size ≤ m2.steps.size := h1.steps.length_le
  rw [h1.limit, h.limit]
  omega

theorem timerTurns_unrolled (stuck : Run Unit) {fuel : Nat} (hn : m.steps.limit - m.steps.size < n)
    (hfuel : m.steps.limit - m.steps.size < fuel) : timerOnce^[n] stuck m = timerTurns fuel m := by
  induction n generalizing fuel m with
  | zero => omega
  | succ n ih =>
    obtain ⟨fuel, rfl⟩ : ∃ k, fuel = k + 1 := ⟨fuel - 1, by omega⟩
    rw [Function.iterate_succ_apply', timerOnce, timerTurns, bind_apply, bind_apply, get_apply]
    cases hnext : nextTimer m.callbacks with
    | none => simp only [hnext]
    | some cb =>
      simp only [hnext]
      refine bind_congr_ok fun _ m1 hturn => bind_congr_ok fun _ m2 hframes => ?_
      have hless := room_of_timerTurn (nextTimer_some hnext).2.1 hturn hframes
      exact ih (by omega) (by omega)

/-- The loop over timers, unrolled more often than there is room for steps. -/
theorem drainTimers_unrolled (stuck : Run Unit) (hn : m.steps.limit - m.steps.size < n) :
    timerOnce^[n] stuck m = drainTimers m :=
  timerTurns_unrolled stuck hn (Nat.lt_succ_self _)

/-! ## Generation -/

/-- What is evaluated ends by itself.  Each recursion, unrolled often enough, gives the result of
    the definition with a bound, whatever stands innermost. -/
structure Terminates : Prop where
  expressions : ∀ (stuck : Invoke) (consumed : Bool) (e : Expr),
    eval (callOnce^[maxCallDepth + 1] stuck) consumed e = withCalls fun call => eval call consumed e
  statement : ∀ (stuck : Invoke) (s : Stmt),
    exec (callOnce^[maxCallDepth + 1] stuck) s = withCalls fun call => exec call s
  statements : ∀ (stuck : Invoke) (l : List Stmt),
    execAll (callOnce^[maxCallDepth + 1] stuck) l = withCalls fun call => execAll call l
  calls : ∀ (stuck : Invoke) (f : Function) (args : List Value) (label : String) (line : Nat),
    callOnce^[maxCallDepth + 1] stuck f args label line =
      withCalls fun call => call f args label line
  settlements : ∀ (stuck : Nat → PromiseState → Value → Run Unit) (id : Nat) (state : PromiseState)
    (value : Value) (m : Machine) (n : Nat), parkedCount m < n →
      settleOnce^[n] stuck id state value m = settle id state value m
  loops : ∀ (line : Nat) (test : Run Bool) (body : Run Outcome) (step : Run Unit)
    (residue : List Stmt) (stuck : Nat → Run Outcome),
    (roundOnce line test body step residue)^[maxLoopRounds + 1] stuck 0 =
      iterate line test body step residue maxLoopRounds
  /-- A text without end is an error at once. -/
  texts : ∀ (arrays : Value.Arrays) (v : Value),
    (∀ stuck, (Value.textOnce arrays)^[arrays.size + 1] stuck v = v.toText arrays) ∨
      v.toText arrays = .error .endlessText ∧ v.Endless arrays
  microtasks : ∀ stuck : Run Unit, microtaskOnce^[maxMicrotasks + 1] stuck = drainMicrotasks
  timers : ∀ (stuck : Run Unit) (m : Machine) (n : Nat), m.steps.limit - m.steps.size < n →
    timerOnce^[n] stuck m = drainTimers m

theorem terminates : Terminates where
  expressions stuck consumed e :=
    withCalls_unrolled (fun _ _ _ h => eval_coincide h consumed e) stuck
  statement stuck s := withCalls_unrolled (fun _ _ _ h => exec_coincide h s) stuck
  statements stuck l := withCalls_unrolled (fun _ _ _ h => execAll_coincide h l) stuck
  calls stuck f args label line :=
    @withCalls_unrolled Value (fun call => call f args label line)
      (fun _ _ _ h => h f args label line) stuck
  settlements stuck id state value m n hn := settle_unrolled stuck id hn
  loops line test body step residue stuck :=
    iterate_unrolled line test body step residue stuck (by omega)
  texts := Value.toText_unrolled
  microtasks := drainMicrotasks_unrolled
  timers stuck m n hn := drainTimers_unrolled stuck hn

end Run

theorem Firing.length_le_of_apart {fs : List Firing} {start limit : Nat} (hstart : start ≤ limit)
    (hfs : ∀ f ∈ fs, start ≤ f.before.steps.size ∧ f.before.steps.size + 3 ≤ limit)
    (hapart : fs.Pairwise fun f f' => f.before.steps.size + 3 ≤ f'.before.steps.size) :
    start + 3 * fs.length ≤ limit := by
  induction fs generalizing start with
  | nil => exact hstart
  | cons f fs ih =>
    obtain ⟨⟨hle, hfit⟩, hrest⟩ := List.forall_mem_cons.1 hfs
    obtain ⟨hlater, hapart⟩ := List.pairwise_cons.1 hapart
    have hfs' := ih hfit (fun f' hf' => ⟨hlater f' hf', (hrest f' hf').2⟩) hapart
    rw [List.length_cons]
    omega

namespace Generator

variable {g : Generator} {source : Option String}

theorem phase_generate (hg : g.active = false) :
    (g.generate source).2.phase = some .done ∧ (g.generate source).1.succeeded = true ∨
      (g.generate source).2.phase = some .error ∧ (g.generate source).1.succeeded = false := by
  simp only [generate, hg]
  cases Run.generate source g.reset.machine with
  | ok a m => exact .inl ⟨rfl, rfl⟩
  | error fault m => exact .inr ⟨rfl, rfl⟩

theorem taskSteps_generate_le (hg : g.active = false) :
    (g.generate source).2.machine.taskSteps ≤ maxMicrotasks := by
  have hstart : g.reset.machine.Counted := ⟨Nat.le_refl _, Nat.zero_le _⟩
  have htallied : Run.Gives Machine.Tally ((Operation.generate source).act g.reset.machine) :=
    Run.generate_tallies source g.reset.machine hstart
  rw [Machine.taskSteps, generate_steps hg]
  obtain ⟨_, htally⟩ := Machine.after_of_gives htallied
  exact htally.1

theorem consumes_generate (hg : g.active = false) :
    g.reset.machine.Consumes (g.firings source) (g.reset.machine.after (.generate source)) := by
  have hfs : g.firings source = Run.firings source g.reset.machine := by
    simp [Generator.firings, hg]
  have hspent : Run.Gives (g.reset.machine.Spends (Run.firings source g.reset.machine))
      ((Operation.generate source).act g.reset.machine) :=
    Machine.Spends.generate source g.reset.machine
  obtain ⟨_, hspends⟩ := Machine.after_of_gives hspent
  rw [hfs]
  exact hspends.1

end Generator

/-- A generation ends, with success or with an error.  Whatever it evaluates ends by itself, it runs
    no more microtasks than are allowed, and every callback that fires uses up three of the allowed
    steps, behind those of the callbacks before it, unless the generation ends among these steps and
    the callback does not run. -/
theorem generation_terminates (g : Generator) (source : Option String) (hg : g.active = false) :
    let result := (g.generate source).1
    let final := (g.generate source).2
    let fs := g.firings source
    Run.Terminates ∧
    (final.phase = some .done ∧ result.succeeded = true ∨
      final.phase = some .error ∧ result.succeeded = false) ∧
    final.machine.taskSteps ≤ maxMicrotasks ∧
    fs.Pairwise (fun f f' => f.before.steps.toList ++ f.shown <+: f'.before.steps.toList) ∧
    (∀ f ∈ fs, f.shown.length = 3 ∧
      (f.before.steps.size + 3 ≤ g.limit ∧
          f.before.steps.toList ++ f.shown <+: final.machine.steps.toList ∨
        final.machine.steps.toList <+: f.before.steps.toList ++ f.shown)) ∧
    3 * (fs.filter fun f => f.before.steps.size + 3 ≤ g.limit).length ≤ g.limit := by
  intro result final fs
  have hconsumes : g.reset.machine.Consumes fs _ := Generator.consumes_generate hg
  have hsteps : final.machine.steps = _ := Generator.generate_steps hg source
  have hshown : ∀ f ∈ fs, f.shown.length = 3 ∧
      (f.before.steps.size + 3 ≤ g.limit ∧
          f.before.steps.toList ++ f.shown <+: final.machine.steps.toList ∨
        final.machine.steps.toList <+: f.before.steps.toList ++ f.shown) := by
    intro f hf
    have hlimit : f.before.steps.limit = g.limit := (hconsumes.inside f hf).1
    refine ⟨f.length_shown, ?_⟩
    rw [hsteps, ← hlimit]
    exact hconsumes.shown f hf
  refine ⟨Run.terminates, Generator.phase_generate hg, Generator.taskSteps_generate_le hg,
    hconsumes.apart, hshown, ?_⟩
  have hcount : 0 + 3 * (fs.filter fun f => f.before.steps.size + 3 ≤ g.limit).length ≤
      g.limit := by
    refine Firing.length_le_of_apart (Nat.zero_le _) (fun f hf => ?_) ?_
    · exact ⟨Nat.zero_le _, by simpa using (List.mem_filter.1 hf).2⟩
    · refine (hconsumes.apart.imp fun {f f'} h => ?_).filter _
      have hlen := h.length_le
      rw [List.length_append, f.length_shown] at hlen
      exact hlen
  omega

/-- A callback that sets a timer and a frame for itself goes on until the limit on steps ends it. -/
theorem generation_terminates_rearmed :
    let source := some
      "let f = () => { setTimeout(f, 0); requestAnimationFrame(f); Promise.resolve(1) }; f()"
    let g := Generator.new 70 0
    let fs := g.firings source
    g.active = false ∧ (g.generate source).2.phase = some .error ∧
    fs.map (·.before.steps.size) = [16, 35, 54] ∧
    (g.generate source).2.machine.taskSteps ≤ maxMicrotasks ∧
    fs.Pairwise (fun f f' => f.before.steps.toList ++ f.shown <+: f'.before.steps.toList) ∧
    3 * (fs.filter fun f => f.before.steps.size + 3 ≤ g.limit).length ≤ g.limit :=
  have hends := generation_terminates (Generator.new 70 0) (some
    "let f = () => { setTimeout(f, 0); requestAnimationFrame(f); Promise.resolve(1) }; f()") rfl
  ⟨rfl, by decide +kernel, by decide +kernel, hends.2.2.1, hends.2.2.2.1, hends.2.2.2.2.2⟩

end EventLoop
