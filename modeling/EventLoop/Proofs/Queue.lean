/-
  Microtasks run first in, first out, with consecutive numbers.

  A microtask gets its number when it enters the queue, so the numbers in the queue go up from one
  (`Trail.numbered`, by induction on the changes that promises and tasks can go through).

  `Served` is what is shown of every part of a run that succeeds: the microtasks that it serves are
  the next ones in the queue, each is shown by a step, and they run one after the other
  (`Serving.Chain`): everything that one of them emits is there before the next one is taken.
-/
import EventLoop.Proofs.Invariant
import EventLoop.Proofs.Task

namespace EventLoop

variable {α : Type} {m m' : Machine} {l : List Step} {limit : Nat} {log : Log}
  {source : Option String}

/-! ## Numbers -/

theorem map_id_tasksOf (state : PromiseState) (value : Value) (n : Nat) (ws : List Waiter) :
    (tasksOf state value n ws).map (·.id) = List.range' (n + 1) ws.length := by
  induction ws generalizing n with
  | nil => rfl
  | cons w ws ih => rw [tasksOf, List.map_cons, ih, List.length_cons, List.range'_succ]

namespace Machine

/-- The microtasks that were ever queued are numbered from one on. -/
def Numbered (m : Machine) : Prop :=
  m.microtasks.toList.map (·.id) = List.range' 1 m.microtaskCount

namespace Numbered

variable {m m' : Machine}

theorem of_eq (h : m.Numbered) (htasks : m'.microtasks = m.microtasks)
    (hcount : m'.microtaskCount = m.microtaskCount) : m'.Numbered := by
  rw [Numbered, htasks, hcount]
  exact h

theorem queued (h : m.Numbered) (name : String) (scope : Scope) (reaction : Option Reaction)
    (state : PromiseState) (value : Value) :
    (m.queued name scope reaction state value).Numbered := by
  rw [Numbered, Machine.queued, Array.toList_push, List.map_append, h, List.range'_concat]
  simp [Nat.add_comm]

theorem placed (h : m.Numbered) {w : Waiter} (hplaced : m.Placed w m') : m'.Numbered := by
  cases hplaced with
  | parked log _ _ => exact h.of_eq rfl rfl
  | queued state value log =>
    exact (h.queued w.name w.scope (some w.reaction) state value).of_eq rfl rfl

theorem released (h : m.Numbered) (state : PromiseState) (value : Value) (ps : Array Promise)
    (queue : List Waiter) : (m.released state value ps queue).Numbered := by
  rw [Numbered, Machine.released, Array.toList_append, List.map_append, h, map_id_tasksOf,
    Nat.add_comm, List.range'_append_1]

end Numbered

theorem Change.numbered {created passed : List TaskKey} (hc : m.Change created passed m')
    (h : m.Numbered) : m'.Numbered := by
  cases hc with
  | quiet _ htasks hcount _ => exact h.of_eq htasks hcount
  | promise state value => exact h.of_eq rfl rfl
  | mark hm =>
    obtain ⟨log, rfl⟩ := Run.enqueue_inv hm
    exact (h.queued _ _ none _ _).of_eq rfl rfl
  | @suspend _ frame value target k hm =>
    have hnew : (m.withContinuation frame target).Numbered := h.of_eq rfl rfl
    exact hnew.placed (Run.suspend_inv hm).2
  | attach hm =>
    have hnew : (m.withPromise .pending .undefined).Numbered := h.of_eq rfl rfl
    exact hnew.placed (Run.attach_inv hm).2
  | settle hs =>
    obtain ⟨ps, log, _, rfl⟩ := hs.cascade
    exact (h.released _ _ ps _).of_eq rfl rfl

theorem Trail.numbered {created passed : List TaskKey}
    (h : (Machine.start limit log).Trail created passed m) : m.Numbered := by
  induction h with
  | nil => rfl
  | snoc _ hc ih => exact hc.numbered ih

end Machine

/-! ## Microtasks that are served -/

/-- The microtasks that are served in the run of a program: first those that its statements leave,
    then those of every callback that fires. -/
def Run.servings (source : Option String) (m : Machine) : List Serving :=
  Run.servingsAfter (do discard (Run.walkSource source); Run.enter .drainMicrotasks)
    Run.drainServings m ++ (Run.firings source m).flatMap (·.servings)

/-- The microtasks that are served in a generation, in order. -/
def Generator.servings (g : Generator) (source : Option String) : List Serving :=
  if g.active then [] else Run.servings source g.reset.machine

namespace Serving

/-- The microtask is taken from the queue in one state, and running it leads to the other. -/
def Runs (s : Serving) : Prop :=
  ∃ m, Run.takeMicrotask s.before = .ok (some s.task) m ∧ Run.serve s.task m = .ok () s.after

/-- Microtasks are served one after the other, between two points of the steps. -/
inductive Chain : List Step → List Serving → List Step → Prop
  | nil {l l' : List Step} (h : l <+: l') : Chain l [] l'
  | cons {l l' : List Step} {s : Serving} {ss : List Serving}
      (hbefore : l <+: s.before.steps.toList) (hruns : s.Runs)
      (hshown : s.before.steps.toList ++ s.task.steps <+: s.after.steps.toList)
      (h : Chain s.after.steps.toList ss l') : Chain l (s :: ss) l'

namespace Chain

variable {l l1 l' : List Step} {ss ss' : List Serving}

theorem weaken (hl : l <+: l1) (h : Chain l1 ss l') : Chain l ss l' := by
  cases h with
  | nil h => exact .nil (hl.trans h)
  | cons hbefore hruns hshown h => exact .cons (hl.trans hbefore) hruns hshown h

theorem append (h1 : Chain l ss l1) (h2 : Chain l1 ss' l') : Chain l (ss ++ ss') l' := by
  induction h1 with
  | nil hl => exact h2.weaken hl
  | cons hbefore hruns hshown _ ih => exact .cons hbefore hruns hshown (ih h2)

theorem within (h : Chain l ss l') : l <+: l' ∧ ∀ s ∈ ss, s.Runs ∧ l <+: s.before.steps.toList ∧
    s.before.steps.toList ++ s.task.steps <+: s.after.steps.toList ∧
    s.after.steps.toList <+: l' := by
  induction h with
  | nil h => exact ⟨h, by simp⟩
  | @cons l l' s ss hbefore hruns hshown h ih =>
    obtain ⟨hle, hall⟩ := ih
    have hafter : l <+: s.after.steps.toList :=
      hbefore.trans ((List.prefix_append _ _).trans hshown)
    refine ⟨hafter.trans hle, ?_⟩
    rintro s' (_ | ⟨_, hs'⟩)
    · exact ⟨hruns, hbefore, hshown, hle⟩
    · obtain ⟨hruns', hbefore', hrest⟩ := hall s' hs'
      exact ⟨hruns', hafter.trans hbefore', hrest⟩

theorem pairwise (h : Chain l ss l') :
    ss.Pairwise fun s s' => s.after.steps.toList <+: s'.before.steps.toList := by
  induction h with
  | nil => exact .nil
  | cons _ _ _ h ih => exact .cons (fun s' hs' => (h.within.2 s' hs').2.1) ih

end Chain

end Serving

namespace Run

theorem emitAll_ok {s : Step} (h : emitAll (s :: l) m = .ok () m') :
    ∃ log, m' = (m.emitted (s :: l)).logged log := by
  rcases emitAll_cases s l m with ⟨_, log, hok⟩ | ⟨log, part, _, herror⟩
  · rw [hok] at h
    cases h
    exact ⟨log, rfl⟩
  · rw [herror] at h
    cases h

end Run

namespace Machine

theorem getElem?_of_append {l : List Microtask} {i : Nat} {t : Microtask}
    (h : m'.microtasks.toList = m.microtasks.toList ++ l) (ht : m.microtasks[i]? = some t) :
    m'.microtasks[i]? = some t := by
  rw [← Array.getElem?_toList] at ht ⊢
  rw [h, List.getElem?_append_left (List.getElem?_eq_some_iff.1 ht).1, ht]

theorem size_le_of_append (h : ∃ l, m'.microtasks.toList = m.microtasks.toList ++ l) :
    m.microtasks.size ≤ m'.microtasks.size := by
  obtain ⟨l, hl⟩ := h
  rw [← Array.length_toList, ← Array.length_toList, hl, List.length_append]
  exact Nat.le_add_right _ _

/-- A part of a run serves microtasks: the next ones in the queue, one after the other. -/
structure Served (m : Machine) (ss : List Serving) (m' : Machine) : Prop where
  chain : Serving.Chain m.steps.toList ss m'.steps.toList
  shown : Step.items .microtaskAdd m'.steps.toList =
    Step.items .microtaskAdd m.steps.toList ++ ss.map (·.task.id)
  cursor : m'.cursor = m.cursor + ss.length
  processed : m'.processed = m.processed + ss.length
  bound : m'.processed ≤ max m.processed maxMicrotasks
  microtasks : ∃ l, m'.microtasks.toList = m.microtasks.toList ++ l
  next : ∀ (i : Nat) (s : Serving), ss[i]? = some s → m'.microtasks[m.cursor + i]? = some s.task

namespace Served

variable {m m1 m' : Machine} {ss ss' : List Serving}

theorem quiet (hsteps : m'.steps.toList = m.steps.toList ++ l)
    (hl : ∀ s ∈ l, s.kind ≠ .microtaskAdd) (hcursor : m'.cursor = m.cursor)
    (hprocessed : m'.processed = m.processed)
    (htasks : ∃ l, m'.microtasks.toList = m.microtasks.toList ++ l) : m.Served [] m' where
  chain := .nil ⟨l, hsteps.symm⟩
  shown := by
    have hnone : l.filterMap (fun s => if s.kind = .microtaskAdd then s.item? else none) = [] := by
      refine List.filterMap_eq_nil_iff.2 fun s hs => ?_
      rw [if_neg (hl s hs)]
    rw [hsteps, Step.items, List.filterMap_append, hnone]
    rfl
  cursor := hcursor
  processed := hprocessed
  bound := by
    rw [hprocessed]
    exact Nat.le_max_left _ _
  microtasks := htasks
  next := by simp

theorem of_grows (h : Grows m m') : m.Served [] m' := by
  obtain ⟨l, hl, hcode⟩ := h.steps
  refine quiet hl (fun s hs hkind => ?_) h.cursor h.processed h.microtasks
  have hofCode := hcode s hs
  simp [Step.ofCode, hkind] at hofCode

theorem trans (h1 : m.Served ss m1) (h2 : m1.Served ss' m') : m.Served (ss ++ ss') m' where
  chain := h1.chain.append h2.chain
  shown := by rw [h2.shown, h1.shown, List.map_append, List.append_assoc]
  cursor := by rw [h2.cursor, h1.cursor, List.length_append, Nat.add_assoc]
  processed := by rw [h2.processed, h1.processed, List.length_append, Nat.add_assoc]
  bound := by
    have hbound1 := h1.bound
    have hbound2 := h2.bound
    omega
  microtasks := by
    obtain ⟨l1, hl1⟩ := h1.microtasks
    obtain ⟨l2, hl2⟩ := h2.microtasks
    exact ⟨l1 ++ l2, by rw [hl2, hl1, List.append_assoc]⟩
  next := by
    intro i s hs
    by_cases hlt : i < ss.length
    · -- the task is in its place since the first part
      rw [List.getElem?_append_left hlt] at hs
      obtain ⟨l, hl⟩ := h2.microtasks
      exact getElem?_of_append hl (h1.next i s hs)
    · rw [List.getElem?_append_right (by omega)] at hs
      have htask := h2.next _ s hs
      rw [h1.cursor] at htask
      rw [← htask]
      congr 1
      omega

/-- The turn of one microtask serves that microtask. -/
theorem serve {t : Microtask} (ht : m.microtasks[m.cursor]? = some t)
    (hroom : m.processed < maxMicrotasks) (h : Run.serve t m.taken = .ok () m') :
    m.Served [⟨t, m, m'⟩] m' := by
  obtain ⟨_, m1, hemit, hrun⟩ := Run.bind_eq_ok h
  obtain ⟨log, rfl⟩ : ∃ log, m1 = (m.taken.emitted t.steps).logged log := Run.emitAll_ok hemit
  have hs := (@Run.runMicrotask_serves false t ((m.taken.emitted t.steps).logged log)
    (by simp)).of_ok hrun
  have hrest := of_grows hs.grows
  have hsteps : ((m.taken.emitted t.steps).logged log).steps.toList =
      m.steps.toList ++ t.steps := toList_emitted m.taken t.steps
  have hprefix : m.steps.toList ++ t.steps <+: m'.steps.toList := by
    rw [← hsteps]
    exact hrest.chain.within.1
  have hruns : Serving.Runs ⟨t, m, m'⟩ := by
    refine ⟨m.taken, ?_, h⟩
    rw [Run.takeMicrotask_apply, ht]
  obtain ⟨tasks, htasks⟩ := hrest.microtasks
  constructor
  case chain =>
    exact .cons (List.prefix_refl _) hruns hprefix (.nil (List.prefix_refl _))
  case shown =>
    rw [hrest.shown, hsteps, List.map_nil, List.append_nil, Step.items, List.filterMap_append]
    rfl
  case cursor => exact hrest.cursor
  case processed => exact hrest.processed
  case bound =>
    have hprocessed : m'.processed = m.processed + 1 := hrest.processed
    omega
  case microtasks => exact ⟨tasks, htasks⟩
  case next =>
    intro i s hs
    obtain ⟨rfl, rfl⟩ : i = 0 ∧ (⟨t, m, m'⟩ : Serving) = s := by
      cases i with
      | zero => exact ⟨rfl, Option.some.inj hs⟩
      | succ i => cases hs
    exact getElem?_of_append htasks ht

end Served

end Machine

/-! ## Runs serve the queue in order -/

namespace Run

open Machine

theorem servingsAfter_of_ok {act : Run α} {next : Machine → List Serving} {m m' : Machine} {a : α}
    (h : act m = .ok a m') : servingsAfter act next m = next m' := by
  rw [servingsAfter, h]

/-- What is served when the queue is drained: nothing, or its first microtask and then the rest. -/
theorem turnServings_inv {budget : Nat} (h : microtaskTurns budget m = .ok () m') :
    (m.microtasks[m.cursor]? = none ∧ m' = m ∧ turnServings budget m = []) ∨
    ∃ n t log m1, budget = n + 1 ∧ m.microtasks[m.cursor]? = some t ∧
      runMicrotask t ((m.taken.emitted t.steps).logged log) = .ok () m1 ∧
      serve t m.taken = .ok () m1 ∧ microtaskTurns n m1 = .ok () m' ∧
      turnServings budget m = ⟨t, m, m1⟩ :: turnServings n m1 := by
  obtain ⟨ht, rfl⟩ | ⟨n, t, log, m1, rfl, ht, _, hemit, hrun, hrest⟩ := microtaskTurns_inv h
  · refine .inl ⟨ht, rfl, ?_⟩
    cases budget with
    | zero => rfl
    | succ n => rw [turnServings, takeMicrotask_apply, ht]
  · have hserve : serve t m.taken = .ok () m1 := (bind_of_ok hemit _).trans hrun
    refine .inr ⟨n, t, log, m1, rfl, ht, hrun, hserve, hrest, ?_⟩
    rw [turnServings, takeMicrotask_apply, ht]
    exact servingsAfter_of_ok hserve

theorem served_microtaskTurns (budget : Nat) (hbudget : budget ≤ maxMicrotasks - m.processed)
    (h : microtaskTurns budget m = .ok () m') : m.Served (turnServings budget m) m' := by
  induction budget generalizing m with
  | zero =>
    obtain ⟨_, rfl, _⟩ | ⟨_, _, _, _, hn, _⟩ := turnServings_inv h
    · exact .of_grows (.refl _)
    · cases hn
  | succ budget ih =>
    obtain ⟨_, rfl, hnone⟩ | ⟨_, t, _, m1, hn, ht, _, hserve, hrest, hturn⟩ := turnServings_inv h
    · rw [hnone]
      exact .of_grows (.refl _)
    · cases hn
      have hserved : m.Served [⟨t, m, m1⟩] m1 := .serve ht (by omega) hserve
      have hprocessed : m1.processed = m.processed + 1 := hserved.processed
      rw [hturn]
      exact hserved.trans (ih (by omega) hrest)

theorem served_drainMicrotasks (h : drainMicrotasks m = .ok () m') :
    m.Served (drainServings m) m' :=
  served_microtaskTurns _ (Nat.le_refl _) h

end Run

namespace Firing

variable {cb : Callback}

/-- What a callback does before the microtasks have their turn serves none of them. -/
theorem served_shown {s : Step} {m1 m2 : Machine} (hemit : Run.emitAll (s :: l) m1 = .ok () m2)
    (hrun : Run.runCallback cb m2 = .ok () m') (hsteps : m1.steps = m.steps)
    (hcursor : m1.cursor = m.cursor) (hprocessed : m1.processed = m.processed)
    (htasks : m1.microtasks = m.microtasks) (hl : ∀ step ∈ s :: l, step.kind ≠ .microtaskAdd) :
    m.Served [] m' := by
  obtain ⟨log, rfl⟩ := Run.emitAll_ok hemit
  have hshown : m.Served [] ((m1.emitted (s :: l)).logged log) := by
    refine .quiet (l := s :: l) ?_ hl hcursor hprocessed ⟨[], ?_⟩
    · rw [Machine.logged_steps, Machine.toList_emitted, hsteps]
    · rw [List.append_nil, ← htasks]
      rfl
  have hwalk := (((@Run.roams_callbacks false).runCallback cb).cases _).2 () m' hrun
  exact hshown.trans (.of_grows hwalk.grows)

theorem served_frameTurn (hkind : cb.kind = .frame) (h : Run.frameTurn cb m = .ok () m') :
    m.Served (servings ⟨cb, m⟩) m' := by
  obtain ⟨_, m1, htake, h1⟩ := Run.bind_eq_ok h
  obtain ⟨_, m2, hemit, h2⟩ := Run.bind_eq_ok h1
  obtain ⟨_, m3, hrun, hdrain⟩ := Run.bind_eq_ok h2
  have hopening : opening ⟨cb, m⟩ m = .ok () m3 := by
    simp only [opening, hkind, Run.bind_apply, htake, Callback.frameSteps, hemit, hrun]
  have hdropped : m1 = m.dropped cb.id := by
    simp only [Run.takeCallback, Run.bind_apply, Run.get_apply] at htake
    cases hall : m.callbacks.all (·.id != cb.id) with
    | true =>
      rw [hall] at htake
      cases htake
    | false =>
      rw [hall] at htake
      cases htake
      rfl
  have hshown : m.Served [] m3 := by
    subst hdropped
    refine served_shown hemit hrun rfl rfl rfl rfl ?_
    simp [Step.webapiRemove, Step.rafqueueAdd, Step.rafqueueRemove, Step.enqueue, Step.dequeue]
  rw [servings, Run.servingsAfter_of_ok hopening]
  exact hshown.trans (Run.served_drainMicrotasks hdrain)

theorem served_timerTurn (hkind : cb.kind = .timeout) (h : Run.timerTurn cb m = .ok () m') :
    m.Served (servings ⟨cb, m⟩) m' := by
  obtain ⟨_, m1, htake, h1⟩ := Run.bind_eq_ok h
  obtain ⟨_, m2, hnote, h2⟩ := Run.bind_eq_ok h1
  obtain ⟨_, m3, hemit, h3⟩ := Run.bind_eq_ok h2
  obtain ⟨_, m4, hrun, hdrain⟩ := Run.bind_eq_ok h3
  have hopening : opening ⟨cb, m⟩ m = .ok () m4 := by
    simp only [opening, hkind, Run.bind_apply, htake, hnote, Callback.timerSteps, hemit, hrun]
  have hadvanced : m1 = m.advanced cb := by
    cases htake
    rfl
  obtain ⟨log, hlogged⟩ : ∃ log, m2 = m1.logged log := by
    rcases Run.tell_apply (.fired cb) m1 with ⟨log, hok⟩ | ⟨fault, herror⟩
    · rw [hok] at hnote
      cases hnote
      exact ⟨log, rfl⟩
    · rw [herror] at hnote
      cases hnote
  have hshown : m.Served [] m4 := by
    subst hlogged hadvanced
    refine served_shown hemit hrun rfl rfl rfl rfl ?_
    simp [Step.webapiRemove, Step.taskqueueAdd, Step.taskqueueRemove, Step.enqueue, Step.dequeue]
  rw [servings, Run.servingsAfter_of_ok hopening]
  exact hshown.trans (Run.served_drainMicrotasks hdrain)

end Firing

namespace Run

open Machine

theorem served_enter {p : Phase} (h : enter p m = .ok () m') : m.Served [] m' := by
  cases h
  exact .of_grows { Grows.refl m with }

theorem served_stages : Stages (fun _ => True)
    fun m fs e m' => e = .done → m.Served (fs.flatMap (·.servings)) m' where
  idle _ _ := .of_grows (.refl _)
  trans h1 h2 he := by
    rw [List.flatMap_append]
    exact (h1 rfl).trans (h2 he)
  next _ _ := trivial
  enter _ _ := gives_done fun _ _ h => served_enter h
  missing _ := by simp
  frame _ hkind _ := gives_done fun _ _ h => by simpa using Firing.served_frameTurn hkind h
  timer _ hnext := gives_done fun _ _ h => by
    simpa using Firing.served_timerTurn (nextTimer_some hnext).2.1 h

theorem served_generate (source : Option String) (h : generate source m = .ok () m') :
    m.Served (servings source m) m' := by
  obtain ⟨_, m2, hsource, hrest⟩ := bind_eq_ok h
  obtain ⟨outcome, m0, hwalk, h5⟩ := bind_eq_ok hsource
  obtain ⟨_, m1, hdrains, hdrain⟩ := bind_eq_ok h5
  have hstatements : m.Served (drainServings m1) m2 := by
    have hw := (@walkSource_leads false source m (by simp)).walk_of_ok hwalk
    have hwalked := (Served.of_grows hw.grows).trans (served_enter hdrains)
    exact hwalked.trans (served_drainMicrotasks hdrain)
  have hfirst : (do discard (walkSource source); enter .drainMicrotasks : Run Unit) m =
      .ok () m1 := by
    rw [bind_apply, discard_apply, hwalk]
    exact hdrains
  rw [servings, servingsAfter_of_ok hfirst, firings, firingsAfter_of_ok hsource]
  exact hstatements.trans ((served_stages.callbacks trivial).of_ok hrest rfl)

end Run

/-! ## First in, first out -/

theorem Machine.numbered_generate (h : Run.generate source (Machine.start limit log) = .ok () m) :
    m.Numbered := by
  have hon := (passes_on _).after (.generate source) (Machine.start limit log) (.refl _)
  rw [after, Operation.act, h] at hon
  obtain ⟨created, passed, htrail⟩ := hon
  exact htrail.numbered

/-- At the end of a generation every microtask was served, in the order of the queue. -/
theorem Run.servings_generate (h : Run.generate source (Machine.start limit log) = .ok () m) :
    (Run.servings source (Machine.start limit log)).map (·.task) = m.microtasks.toList := by
  have hserved := Run.served_generate source h
  have hend := ((Machine.generate_checked source (Machine.checkpoint_start limit log)).of_ok h).ending
  have hcursor : m.microtasks.size = (Run.servings source (Machine.start limit log)).length := by
    rw [← (hend rfl).drained, hserved.cursor]
    exact Nat.zero_add _
  have hstart : (Machine.start limit log).cursor = 0 := rfl
  apply List.ext_getElem?
  intro i
  rw [List.getElem?_map]
  cases hs : (Run.servings source (Machine.start limit log))[i]? with
  | none =>
    rw [List.getElem?_eq_none_iff, ← hcursor, ← Array.length_toList] at hs
    exact (List.getElem?_eq_none hs).symm
  | some s =>
    have hnext := hserved.next i s hs
    rw [hstart, Nat.zero_add, ← Array.getElem?_toList] at hnext
    exact hnext.symm

theorem Generator.servings_of_succeeded {g : Generator} {source : Option String}
    (h : (g.generate source).1.succeeded = true) :
    g.servings source = Run.servings source (Machine.start g.limit g.machine.log) := by
  rw [Generator.servings, active_of_succeeded h]
  rfl

/-- Microtasks run first in, first out.  In a generation that succeeds, the microtasks that are
    shown have the numbers from one up to the number of microtasks that were ever queued, which is
    at most 1000, and each of them leaves the queue by the step after the one by which it enters it.
    They are served in the order in which they were queued, and all that one of them emits comes
    before the step that shows the next one. -/
theorem microtasks_run_in_order (g : Generator) (source : Option String)
    (h : (g.generate source).1.succeeded = true) :
    let steps := (g.generate source).1.steps
    let m := (g.generate source).2.machine
    let servings := g.servings source
    Step.items .microtaskAdd steps = List.range' 1 m.microtaskCount ∧ m.microtaskCount ≤ 1000 ∧
    Step.Grouped .microtaskAdd 0 Step.microtaskTurn steps ∧
    servings.map (·.task) = m.microtasks.toList ∧
    servings.map (·.task.id) = List.range' 1 m.microtaskCount ∧
    (∀ s ∈ servings, s.Runs ∧
      s.before.steps.toList ++ [.microtaskAdd s.task.id s.task.name] <+: s.after.steps.toList ∧
      s.after.steps.toList <+: steps) ∧
    servings.Pairwise fun s s' => s.after.steps.toList <+: s'.before.steps.toList := by
  obtain ⟨m, log, hrun, hsteps, hmachine, _⟩ := Generator.generate_succeeded h
  have hserved := Run.served_generate source hrun
  have htasks := Run.servings_generate hrun
  have hnumbered := Machine.numbered_generate hrun
  rw [← Generator.servings_of_succeeded h] at hserved htasks
  have hids : (g.servings source).map (·.task.id) = List.range' 1 m.microtaskCount := by
    rw [← hnumbered, ← htasks, List.map_map]
    rfl
  have hcount : m.microtaskCount ≤ 1000 := by
    have hlength : (g.servings source).length = m.microtaskCount := by
      rw [← List.length_map, hids, List.length_range']
    have hprocessed : m.processed = 0 + (g.servings source).length := hserved.processed
    have hbound : m.processed ≤ max 0 1000 := hserved.bound
    omega
  dsimp only
  rw [hmachine, hsteps]
  refine ⟨?_, hcount, ?_, htasks, hids, ?_, hserved.chain.pairwise⟩
  · rw [hserved.shown, hids]
    rfl
  · exact Run.keeps_microtaskTurn.generate .nil hrun
  · intro s hs
    obtain ⟨hruns, _, hshown, hafter⟩ := hserved.chain.within.2 s hs
    refine ⟨hruns, ?_, hafter⟩
    have hadd : [Step.microtaskAdd s.task.id s.task.name] <+: s.task.steps := ⟨[_], rfl⟩
    exact ((List.prefix_append_right_inj _).2 hadd).trans hshown

/-- An await and a link whose callback queues another microtask. -/
theorem microtasks_run_in_order_nested :
    let g := Generator.new 100 0
    let source := some ("async function f() { await 1 }; f(); " ++
      "Promise.resolve(2).then(x => Promise.resolve(x).then(y => y))")
    (g.generate source).1.succeeded = true ∧
    Step.items .microtaskAdd (g.generate source).1.steps = [1, 2, 3] ∧
    ((g.servings source).Pairwise fun s s' => s.after.steps.toList <+: s'.before.steps.toList) :=
  have hsucceeded : _ = true := by decide +kernel
  have hordered := microtasks_run_in_order (Generator.new 100 0) _ hsucceeded
  ⟨hsucceeded, by decide +kernel, hordered.2.2.2.2.2.2⟩

end EventLoop
