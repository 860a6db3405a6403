/-
  Properties of the state that hold all through a run that succeeds.

  The loops of a run are gone through once, here.  `Run.Keeps` says what the parts of a run have to
  keep: the statements of the program and of callbacks, the steps by which a microtask or a callback
  has its turn, and the reaction of a microtask.  `Run.Keeps.generate` then carries a property from
  the start of a generation to its end.

  The first such property is that the steps of a turn stand together: wherever something enters a
  queue, the step by which it leaves the queue comes next, and what comes from the Web APIs has left
  them just before (`Step.Grouped`).
-/
import EventLoop.Proofs.Timer

namespace EventLoop

/-! ## What the parts of a run keep -/

namespace Run

open Machine

/-- A property that every part of a run keeps, if that part succeeds. -/
structure Keeps (P : Machine → Prop) : Prop where
  logged : ∀ {m : Machine} (log : Log), P m → P (m.logged log)
  walk : ∀ {m m' : Machine} {e : Ending}, P m → m.Walk false m.callBudget e m' → e ≠ .failed → P m'
  /-- A microtask is taken and shown. -/
  taken : ∀ {m : Machine} {t : Microtask}, P m → m.microtasks[m.cursor]? = some t →
    P (m.taken.emitted t.steps)
  /-- A microtask runs. -/
  serves : ∀ {m m' : Machine} {t : Microtask}, P m → m.Serves false t .done m' → P m'
  /-- A callback that waits is taken from the Web APIs and shown. -/
  fired : ∀ {m : Machine} {cb : Callback} {shown : List Step} (clock : Nat), P m →
    cb.id ∈ m.callbacks.map (·.id) → (shown = cb.frameSteps ∨ shown = cb.timerSteps) →
    P (Machine.emitted { m.dropped cb.id with clock } shown)

namespace Keeps

variable {P : Machine → Prop} {m m' : Machine}

section

variable (h : Keeps P)

include h

theorem drains (hm : P m) (hd : m.Drains .done m') : P m' := by
  generalize he : Ending.done = e at hd
  induction hd with
  | idle => exact hm
  | cut | failed => cases he
  | turn log ht _ hs _ ih => exact ih (h.serves (h.logged log (h.taken hm ht)) hs) he

theorem drainMicrotasks (hm : P m) (hrun : drainMicrotasks m = .ok () m') : P m' := by
  exact h.drains hm ((drainMicrotasks_drains m).of_ok hrun)

theorem fires {cb : Callback} {shown : List Step} {clock : Nat} (hm : P m)
    (hcb : cb.id ∈ m.callbacks.map (·.id)) (hshown : shown = cb.frameSteps ∨ shown = cb.timerSteps)
    (hf : Machine.Fires shown { m.dropped cb.id with clock } .done m') : P m' := by
  cases hf with
  | fired log _ hw hd =>
    have hemitted := h.logged log (h.fired clock hm hcb hshown)
    exact h.drains (h.walk hemitted hw (by simp)) hd

theorem enter {p : Phase} (hm : P m) (hrun : enter p m = .ok () m') : P m' := by
  cases hrun
  exact h.logged _ hm

theorem runSource {source : Option String} (hm : P m)
    (hrun : runSource source m = .ok () m') : P m' := by
  obtain ⟨outcome, m1, hwalk, h1⟩ := bind_eq_ok hrun
  obtain ⟨_, m2, henter, hdrain⟩ := bind_eq_ok h1
  have hw := (@walkSource_leads false source m (by simp)).walk_of_ok hwalk
  have hm1 : P m1 := h.walk hm hw (by cases outcome <;> simp [Outcome.ending])
  exact h.drainMicrotasks (h.enter hm1 henter) hdrain

theorem stages : Stages P fun _ _ e m' => e = .done → P m' where
  idle hm _ := hm
  trans _ h := h
  next _ h := h rfl
  enter _ hm := gives_done fun _ _ hrun => h.enter hm hrun
  missing _ := by simp
  frame hm _ hall := by
    refine (frameTurn_fires hall).imp fun e m' hf he => ?_
    subst he
    exact h.fires hm (by simpa using hall) (.inl rfl) hf
  timer {m cb} hm hnext := by
    refine (timerTurn_fires cb m).imp fun e m' hf he => ?_
    subst he
    exact h.fires hm (List.mem_map_of_mem (nextTimer_some hnext).1) (.inr rfl) hf

/-- What every part keeps holds at the end of a run that succeeds. -/
theorem generate {source : Option String} (hm : P m)
    (hrun : generate source m = .ok () m') : P m' :=
  (h.stages.generate hm (gives_done fun _ _ => h.runSource hm)).of_ok hrun rfl

end

end Keeps

end Run

/-! ## Steps that stand together -/

namespace Step

/-- Wherever a step of a kind stands, a whole group of steps stands, with that step at the position
    `offset` of the group. -/
def Grouped (kind : StepKind) (offset : Nat) (group : Nat → String → List Step)
    (steps : List Step) : Prop :=
  ∀ (i : Nat) (s : Step), steps[i]? = some s → s.kind = kind →
    ∃ id name j, i = j + offset ∧ group id name <+: steps.drop j

namespace Grouped

variable {kind : StepKind} {offset : Nat} {group : Nat → String → List Step} {l l' : List Step}

theorem of_forall_ne (h : ∀ s ∈ l, s.kind ≠ kind) : Grouped kind offset group l := by
  intro i s hs hkind
  exact absurd hkind (h s (List.mem_of_getElem? hs))

theorem nil : Grouped kind offset group [] := of_forall_ne (by simp)

theorem append (h : Grouped kind offset group l) (h' : Grouped kind offset group l') :
    Grouped kind offset group (l ++ l') := by
  intro i s hs hkind
  by_cases hlt : i < l.length
  · rw [List.getElem?_append_left hlt] at hs
    obtain ⟨id, name, j, hj, hgroup⟩ := h i s hs hkind
    refine ⟨id, name, j, hj, ?_⟩
    rw [List.drop_append_of_le_length (by omega)]
    exact hgroup.trans (List.prefix_append _ _)
  · rw [List.getElem?_append_right (by omega)] at hs
    obtain ⟨id, name, j, hj, hgroup⟩ := h' _ s hs hkind
    refine ⟨id, name, l.length + j, by omega, ?_⟩
    rwa [List.drop_append, List.drop_eq_nil_of_le (by omega), List.nil_append,
      Nat.add_sub_cancel_left]

/-- A group on its own, in which no other step has the kind. -/
theorem self (id : Nat) (name : String)
    (h : ∀ (i : Nat) (s : Step), (group id name)[i]? = some s → s.kind = kind → i = offset) :
    Grouped kind offset group (group id name) := by
  intro i s hs hkind
  refine ⟨id, name, 0, ?_, ?_⟩
  · rw [Nat.zero_add, h i s hs hkind]
  · exact List.prefix_refl _

end Grouped

/-- The turn of a microtask. -/
def microtaskTurn (id : Nat) (name : String) : List Step :=
  [.microtaskAdd id name, .microtaskRemove id]

/-- The turn of a timer. -/
def timerTurn (id : Nat) (name : String) : List Step :=
  [.webapiRemove id, .taskqueueAdd id name, .taskqueueRemove id]

/-- The turn of an animation frame. -/
def frameTurn (id : Nat) (name : String) : List Step :=
  [.webapiRemove id, .rafqueueAdd id name, .rafqueueRemove id]

end Step

namespace Run

open Machine

/-- Groups that are not made of the steps of code are kept, if they are whole in every turn. -/
theorem keeps_grouped {kind : StepKind} {offset : Nat} {group : Nat → String → List Step}
    (hcode : ∀ s : Step, s.ofCode → s.kind ≠ kind)
    (htask : ∀ t : Microtask, Step.Grouped kind offset group t.steps)
    (hturn : ∀ (cb : Callback) (shown : List Step), shown = cb.frameSteps ∨ shown = cb.timerSteps →
      Step.Grouped kind offset group shown) :
    Keeps fun m => Step.Grouped kind offset group m.steps.toList := by
  have hgrows {m m' : Machine} (hm : Step.Grouped kind offset group m.steps.toList)
      (hg : Grows m m') : Step.Grouped kind offset group m'.steps.toList := by
    obtain ⟨l, hl, hofCode⟩ := hg.steps
    rw [hl]
    exact hm.append (.of_forall_ne fun s hs => hcode s (hofCode s hs))
  constructor
  case logged =>
    intro m log hm
    exact hm
  case walk =>
    intro m m' e hm hw _
    exact hgrows hm hw.grows
  case taken =>
    intro m t hm _
    rw [toList_emitted]
    exact hm.append (htask t)
  case serves =>
    intro m m' t hm hs
    exact hgrows hm hs.grows
  case fired =>
    intro m cb shown clock hm _ hshown
    rw [toList_emitted]
    exact hm.append (hturn cb shown hshown)

theorem keeps_microtaskTurn :
    Keeps fun m => Step.Grouped .microtaskAdd 0 Step.microtaskTurn m.steps.toList := by
  apply keeps_grouped
  · intro s hs hkind
    simp [Step.ofCode, hkind] at hs
  · intro t
    refine Step.Grouped.self t.id t.name fun i s hs hkind => ?_
    rcases i with _ | _ | i
    · rfl
    · cases hs
      cases hkind
    · simp [Step.microtaskTurn] at hs
  · intro cb shown hshown
    apply Step.Grouped.of_forall_ne
    rcases hshown with rfl | rfl <;>
      simp [Callback.frameSteps, Callback.timerSteps, Step.webapiRemove, Step.rafqueueAdd,
        Step.rafqueueRemove, Step.taskqueueAdd, Step.taskqueueRemove, Step.enqueue, Step.dequeue]

theorem keeps_timerTurn :
    Keeps fun m => Step.Grouped .taskqueueAdd 1 Step.timerTurn m.steps.toList := by
  apply keeps_grouped
  · intro s hs hkind
    exact hs.not_entersQueue (.inl hkind)
  · intro t
    exact .of_forall_ne fun s hs hkind => t.steps_not_entersQueue s hs (.inl hkind)
  · intro cb shown hshown
    rcases hshown with rfl | rfl
    · apply Step.Grouped.of_forall_ne
      simp [Callback.frameSteps, Step.webapiRemove, Step.rafqueueAdd, Step.rafqueueRemove,
        Step.enqueue, Step.dequeue]
    · refine Step.Grouped.self cb.id TimerKind.timeout.label ?_
      exact fun i s hs hkind => Callback.enters_second (.inr rfl) i s hs (.inl hkind)

theorem keeps_frameTurn :
    Keeps fun m => Step.Grouped .rafqueueAdd 1 Step.frameTurn m.steps.toList := by
  apply keeps_grouped
  · intro s hs hkind
    exact hs.not_entersQueue (.inr hkind)
  · intro t
    exact .of_forall_ne fun s hs hkind => t.steps_not_entersQueue s hs (.inr hkind)
  · intro cb shown hshown
    rcases hshown with rfl | rfl
    · refine Step.Grouped.self cb.id TimerKind.frame.label ?_
      exact fun i s hs hkind => Callback.enters_second (.inl rfl) i s hs (.inr hkind)
    · apply Step.Grouped.of_forall_ne
      simp [Callback.timerSteps, Step.webapiRemove, Step.taskqueueAdd, Step.taskqueueRemove,
        Step.enqueue, Step.dequeue]

end Run

end EventLoop
