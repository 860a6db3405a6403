/-
  Which animation frames are left at the end of a generation.

  The animation frames have their turns in paints: one after the first microtasks, and one after
  each timer that fires.  The states in which paints begin are listed by functions that follow the
  loops of the run (`Run.paints`).  A paint fires the frames that wait when it begins.  A frame that
  is requested meanwhile waits for the next paint, so one that is requested in the last paint never
  fires (`frame_of_last_paint_is_left`).

  Between two paints nothing is known about the frames that wait, except that their requests are in
  the books.  So the invariant of the loop over the timers is about the paint before (`Painted`): all
  that happened since is what its frames did.
-/
import EventLoop.Proofs.AnimationFrame

namespace EventLoop

variable {m m' r : Machine} {due last limit : Nat} {fs : List Firing} {T : List Tile}
  {cb : Callback} {source : Option String}

/-! ## Paints -/

namespace Run

/-- The states that are listed after an action, if that succeeds. -/
def statesAfter (act : Run Unit) (next : Machine → List Machine) (m : Machine) : List Machine :=
  match act m with
  | .ok _ m' => next m'
  | .error _ _ => []

/-- The states in which the animation frames have their turns while timers fire, `fuel` of them. -/
def timerPaints : Nat → Machine → List Machine
  | 0, _ => []
  | fuel + 1, m =>
    match nextTimer m.callbacks with
    | none => []
    | some cb =>
      statesAfter (timerTurn cb) (fun m1 => m1 :: statesAfter drainFrames (timerPaints fuel) m1) m

/-- The states in which the animation frames have their turns when the timers have theirs. -/
def drainTimersPaints (m : Machine) : List Machine :=
  timerPaints (m.steps.limit - m.steps.steps.size + 1) m

/-- The states in which the animation frames have their turns in the run of a program, in order. -/
def paints (source : Option String) : Machine → List Machine :=
  statesAfter (runSource source) <| statesAfter (enter .drainFrames) fun m =>
    m :: statesAfter drainFrames (statesAfter (enter .drainTimers) drainTimersPaints) m

theorem statesAfter_of_ok {act : Run Unit} {next : Machine → List Machine} (h : act m = .ok () m') :
    statesAfter act next m = next m' := by
  rw [statesAfter, h]

end Run

/-- The states in which the animation frames have their turns in a generation, in order. -/
def Generator.paints (g : Generator) (source : Option String) : List Machine :=
  if g.active then [] else Run.paints source g.reset.machine

/-- The animation frames among some firings. -/
def Firing.frames (fs : List Firing) : List Firing := fs.filter (·.callback.kind == .frame)

/-! ## What the steps show of frames -/

theorem Tile.webapiAdd_of_registered (h : cb ∈ T.flatMap Tile.registration) :
    Step.webapiAdd cb.id cb.kind.api cb.delay ∈ T.flatMap Tile.steps := by
  obtain ⟨t, ht, hcb⟩ := List.mem_flatMap.1 h
  refine List.mem_flatMap.2 ⟨t, ht, ?_⟩
  cases t with
  | register cb' line label =>
    obtain rfl : cb = cb' := List.mem_singleton.1 hcb
    simp [Tile.steps]
  | _ => cases hcb

namespace Machine

theorem Turnover.items (h : Turnover m T m') : Step.items .rafqueueAdd m'.steps.toList =
      Step.items .rafqueueAdd m.steps.toList ++ T.flatMap Tile.framing := by
  rw [h.steps, ← Tile.items_rafqueueAdd]
  exact List.filterMap_append

theorem TurnsOver.items {framed : List Nat} (h : TurnsOver m framed m') :
    Step.items .rafqueueAdd m'.steps.toList =
      Step.items .rafqueueAdd m.steps.toList ++ framed := by
  obtain ⟨T, rfl, _, hturnover⟩ := h
  exact hturnover.items

/-- A state of a run that does not fail: its callbacks are in order and in the books. -/
structure Orderly (limit : Nat) (m : Machine) : Prop where
  listed : m.Listed
  booked : ∃ T due last, Booked limit T due last m

/-- The paint that began in `r` is over, and nothing else happened since; `fs` are the callbacks that
    have fired until now. -/
structure Painted (limit : Nat) (r : Machine) (fs : List Firing) (m : Machine) : Prop where
  orderly : r.Orderly limit
  shown : Step.items .rafqueueAdd m.steps.toList = (Firing.frames fs).map (·.callback.id)
  turns : TurnsOver r ((r.callbacks.filter (·.kind == .frame)).map (·.id)) m

theorem Painted.quiet (h : r.Painted limit fs m) (hquiet : TurnsOver m [] m') :
    r.Painted limit fs m' := by
  refine ⟨h.orderly, ?_, ?_⟩
  · rw [hquiet.items, List.append_nil]
    exact h.shown
  · have hturns := h.turns.trans hquiet
    rwa [List.append_nil] at hturns

theorem Ran.booked {due' last' : Nat} (h : Ran limit T due last fs due' last' m) :
    ∃ T due last, Booked limit T due last m := by
  obtain ⟨T', _, hbooked⟩ := h.books
  exact ⟨_, _, _, hbooked⟩

end Machine

/-! ## Paints follow one another -/

namespace Run

open Machine

variable {limit : Nat}

/-- A paint fires the frames that wait when it begins. -/
theorem drainFrames_painted (hr : r.Orderly limit)
    (hshown : Step.items .rafqueueAdd r.steps.toList = (Firing.frames fs).map (·.callback.id))
    (h : drainFrames r = .ok () m) :
    m.Orderly limit ∧ r.Painted limit (fs ++ drainFramesFirings r) m := by
  obtain ⟨T, due, last, hbooked⟩ := hr.booked
  obtain ⟨hfired, -, hturns⟩ := frameTurns_ok _ hr.listed h
  have hframes : Firing.frames (drainFramesFirings r) = drainFramesFirings r := by
    refine List.filter_eq_self.2 fun f hf => ?_
    have hmem : f.callback ∈ r.callbacks.filter (·.kind == .frame) := by
      rw [← hfired]
      exact List.mem_map_of_mem hf
    exact (List.mem_filter.1 hmem).2
  refine ⟨⟨hturns.listed hr.listed, (ran_drainFrames hbooked h).booked⟩, hr, ?_, hturns⟩
  have hsplit : Firing.frames (fs ++ drainFramesFirings r) =
      Firing.frames fs ++ Firing.frames (drainFramesFirings r) := List.filter_append _ _
  have hids : (drainFramesFirings r).map (·.callback.id) =
      (r.callbacks.filter (·.kind == .frame)).map (·.id) := by
    rw [← hfired, List.map_map]
    rfl
  rw [hturns.items, hshown, hsplit, hframes, List.map_append, hids]

theorem timerTurn_orderly (hm : m.Orderly limit) (hnext : nextTimer m.callbacks = some cb)
    (h : timerTurn cb m = .ok () m') : m'.Orderly limit ∧
      Step.items .rafqueueAdd m'.steps.toList = Step.items .rafqueueAdd m.steps.toList := by
  obtain ⟨T, due, last, hbooked⟩ := hm.booked
  have hid : cb.id ∈ m.callbacks.map (·.id) := List.mem_map_of_mem (nextTimer_some hnext).1
  cases (timerTurn_fires cb m).of_ok h with
  | fired log _ hw hd =>
    have hshown : Turnover m [.timer cb] (((m.advanced cb).emitted cb.timerSteps).logged log) :=
      .drop hm.listed hid rfl rfl (toList_emitted _ _) rfl rfl
    have hran := hw.turnsOver (by simp) (hshown.listed hm.listed)
    have hdrained := hd.turnsOver (hran.listed (hshown.listed hm.listed))
    refine ⟨⟨?_, (ran_timerTurn hbooked hnext h).booked⟩, ?_⟩
    · exact hdrained.listed (hran.listed (hshown.listed hm.listed))
    · rw [hdrained.items, hran.items, hshown.items]
      simp [Tile.framing]

/-- Timers fire, and after each of them comes a paint: at the end it is the last one that counts. -/
theorem timerTurns_painted (fuel : Nat) (hm : m.Orderly limit) (hr : r.Painted limit fs m)
    (h : timerTurns fuel m = .ok () m') :
    ((timerPaints fuel m).getLastD r).Painted limit (fs ++ timerFirings fuel m) m' := by
  induction fuel generalizing r m fs with
  | zero =>
    cases h
    rw [timerFirings, List.append_nil]
    exact hr
  | succ fuel ih =>
    rw [timerTurns, bind_apply, get_apply] at h
    rw [timerPaints, timerFirings]
    dsimp only at h
    cases hnext : nextTimer m.callbacks with
    | none =>
      rw [hnext] at h
      cases h
      rw [List.append_nil]
      exact hr
    | some cb =>
      rw [hnext] at h
      obtain ⟨_, m1, hturn, h1⟩ := bind_eq_ok h
      obtain ⟨_, m2, hframes, h2⟩ := bind_eq_ok h1
      obtain ⟨hm1, hitems⟩ := timerTurn_orderly hm hnext hturn
      -- in the turn of the timer no frame fires
      have hshown : Step.items .rafqueueAdd m1.steps.toList =
          (Firing.frames (fs ++ [⟨cb, m⟩])).map (·.callback.id) := by
        rw [hitems, hr.shown]
        simp [Firing.frames, (nextTimer_some hnext).2.1]
      obtain ⟨hm2, hpainted⟩ := drainFrames_painted hm1 hshown hframes
      have hrest := ih hm2 hpainted h2
      simp only [statesAfter_of_ok hturn, statesAfter_of_ok hframes, firingsAfter_of_ok hturn,
        firingsAfter_of_ok hframes, List.getLastD_cons]
      simpa using hrest

theorem enter_orderly {p : Phase} (hm : m.Orderly limit) (h : enter p m = .ok () m') :
    m'.Orderly limit ∧ TurnsOver m [] m' := by
  obtain ⟨T, due, last, hbooked⟩ := hm.booked
  refine ⟨⟨?_, (ran_enter p hbooked h).booked⟩, ?_⟩
  · cases h
    exact hm.listed.of_eq rfl rfl
  · cases h
    exact .of_eq rfl rfl rfl

theorem runSource_orderly (hm : m.Orderly limit) (h : runSource source m = .ok () m') :
    m'.Orderly limit ∧ TurnsOver m [] m' := by
  obtain ⟨T, due, last, hbooked⟩ := hm.booked
  have hran := ran_runSource source hbooked h
  obtain ⟨outcome, m1, hwalk, h1⟩ := bind_eq_ok h
  obtain ⟨_, m2, henter, hdrain⟩ := bind_eq_ok h1
  have hw := (@walkSource_leads false source m (by simp)).walk_of_ok hwalk
  have hd := (drainMicrotasks_drains m2).of_ok hdrain
  have hwalked : TurnsOver m [] m1 :=
    hw.turnsOver (by cases outcome <;> simp [Outcome.ending]) hm.listed
  have hentered : TurnsOver m [] m2 := by
    cases henter
    exact hwalked.trans (.of_eq rfl rfl rfl)
  have hall : TurnsOver m [] m' := hentered.trans (hd.turnsOver (hentered.listed hm.listed))
  exact ⟨⟨hall.listed hm.listed, hran.booked⟩, hall⟩

/-- At the end of a generation nothing happened since its last paint but what its frames did. -/
theorem generate_painted (hm : m.Orderly limit) (hfresh : m.steps.toList = [])
    (h : generate source m = .ok () m') :
    ∃ r, (paints source m).getLast? = some r ∧ r.Painted limit (firings source m) m' := by
  obtain ⟨m1, m2, m3, m4, m5, hsource, henter, hframes, henter', htimers, hdone, hfirings⟩ :=
    generate_ok h
  obtain ⟨hm1, hturns1⟩ := runSource_orderly hm hsource
  obtain ⟨hm2, hturns2⟩ := enter_orderly hm1 henter
  have hshown : Step.items .rafqueueAdd m2.steps.toList =
      (Firing.frames []).map (·.callback.id) := by
    rw [hturns2.items, hturns1.items, hfresh]
    rfl
  obtain ⟨hm3, hpainted3⟩ := drainFrames_painted hm2 hshown hframes
  obtain ⟨hm4, hturns4⟩ := enter_orderly hm3 henter'
  have hpainted5 := timerTurns_painted _ hm4 (hpainted3.quiet hturns4) htimers
  have hfinal : TurnsOver m5 [] m' := by
    cases hdone
    exact .of_eq rfl rfl rfl
  refine ⟨(drainTimersPaints m4).getLastD m2, ?_, ?_⟩
  · simp only [paints, statesAfter_of_ok hsource, statesAfter_of_ok henter,
      statesAfter_of_ok hframes, statesAfter_of_ok henter', List.getLast?_cons,
      List.getLastD_eq_getLast?]
  · rw [hfirings]
    exact hpainted5.quiet hfinal

end Run

/-! ## What is left -/

namespace Machine

variable {delay id : Nat}

theorem Booked.frame_of_webapiAdd (h : Booked limit T due last m)
    (hadd : Step.webapiAdd id TimerKind.frame.api delay ∈ m.steps.toList) :
    ∃ cb ∈ T.flatMap Tile.registration, cb.id = id ∧ cb.kind = .frame := by
  rw [h.steps] at hadd
  obtain ⟨cb, hcb, hid, hapi⟩ := Tile.registered_of_webapiAdd hadd
  exact ⟨cb, hcb, hid, TimerKind.api_injective hapi⟩

/-- A frame that was requested waits, was cleared, or had its turn: one of these, and once. -/
theorem Booked.frame_place (h : Booked limit T due last m)
    (hadd : Step.webapiAdd id TimerKind.frame.api delay ∈ m.steps.toList) :
    (m.callbacks.map (·.id)).count id + ((Step.cleared m.steps.toList).count id +
      (Step.items .rafqueueAdd m.steps.toList).count id) = 1 := by
  obtain ⟨cb, hcb, rfl, hkind⟩ := h.frame_of_webapiAdd hadd
  have hfiring : cb.id ∉ T.flatMap Tile.firing := by
    intro hmem
    have htimeout := h.kind_eq hcb (h.timeout_of_firing hmem)
    rw [hkind] at htimeout
    cases htimeout
  have hplace := h.one_place hcb
  rw [List.count_eq_zero_of_not_mem hfiring] at hplace
  rw [h.steps, Tile.cleared_steps, Tile.items_rafqueueAdd]
  omega

/-- What waits with the number of a frame that was requested is a frame. -/
theorem Booked.waiting_frame (h : Booked limit T due last m)
    (hadd : Step.webapiAdd id TimerKind.frame.api delay ∈ m.steps.toList) :
    ∀ cb ∈ m.callbacks, cb.id = id → cb.kind = .frame := by
  rintro cb hcb rfl
  exact h.kind_eq (h.waiting cb hcb) (h.frame_of_webapiAdd hadd)

theorem Orderly.fired_le (h : m.Orderly limit) (hid : id ∈ Step.items .rafqueueAdd m.steps.toList) :
    id ≤ m.timerCount := by
  obtain ⟨T, due, last, hbooked⟩ := h.booked
  rw [hbooked.steps, Tile.items_rafqueueAdd] at hid
  obtain ⟨cb, hcb, rfl, _⟩ := hbooked.frame_of_framing hid
  exact hbooked.counted cb hcb

/-- A frame that was requested before the paint began waits no longer when the paint is over. -/
theorem Painted.gone (h : r.Painted limit fs m)
    (hadd : .webapiAdd id TimerKind.frame.api delay ∈ r.steps.toList) :
    ∀ cb ∈ m.callbacks, cb.kind = .frame → cb.id ≠ id := by
  rintro cb hcb hkind rfl
  obtain ⟨T, due, last, hbooked⟩ := h.orderly.booked
  obtain ⟨T', hframed, hfired, hturnover⟩ := h.turns
  obtain ⟨old, hold, hid, _⟩ := hbooked.frame_of_webapiAdd hadd
  have hcounted := hbooked.counted old hold
  have hleft := hturnover.frames_left h.orderly.listed hframed hfired hkind
  have hnew := (hturnover.new cb (hleft.1 hcb).1).1
  omega

/-- A frame that was requested in the paint has not fired when the paint is over. -/
theorem Painted.not_fired {more : List Step} (h : r.Painted limit fs m)
    (hmore : m.steps.toList = r.steps.toList ++ more)
    (hadd : .webapiAdd id TimerKind.frame.api delay ∈ more) :
    id ∉ Step.items .rafqueueAdd m.steps.toList := by
  have hshown := h.turns.items
  obtain ⟨T, hframed, _, hturnover⟩ := h.turns
  obtain rfl : more = T.flatMap Tile.steps := by
    rw [hturnover.steps] at hmore
    exact (List.append_cancel_left hmore).symm
  obtain ⟨cb, hcb, rfl, _⟩ := Tile.registered_of_webapiAdd hadd
  have hnew := (hturnover.new cb hcb).1
  rw [hshown, List.mem_append, not_or]
  constructor
  · intro hid
    have hcounted := h.orderly.fired_le hid
    omega
  · intro hid
    obtain ⟨old, hold, heq⟩ := List.mem_map.1 hid
    have hcounted := h.orderly.listed.counted old (List.mem_filter.1 hold).1
    omega

/-- A frame that waits when the paint is over was requested in it. -/
theorem Painted.requested {more : List Step} (h : r.Painted limit fs m)
    (hmore : m.steps.toList = r.steps.toList ++ more) (hcb : cb ∈ m.callbacks)
    (hkind : cb.kind = .frame) : .webapiAdd cb.id TimerKind.frame.api cb.delay ∈ more := by
  obtain ⟨T, hframed, hfired, hturnover⟩ := h.turns
  obtain rfl : more = T.flatMap Tile.steps := by
    rw [hturnover.steps] at hmore
    exact (List.append_cancel_left hmore).symm
  have hleft := hturnover.frames_left h.orderly.listed hframed hfired hkind
  rw [← hkind]
  exact Tile.webapiAdd_of_registered (hleft.1 hcb).1

end Machine

theorem Generator.paints_of_succeeded {g : Generator} (h : (g.generate source).1.succeeded = true) :
    g.paints source = Run.paints source (Machine.start g.limit g.machine.log) := by
  rw [Generator.paints, active_of_succeeded h]
  rfl

/-- Which animation frames are left.  In a generation that succeeds, the callbacks that enter the
    queue of animation frames are the frames that fire.  A frame that was requested before the last
    paint began fires once, or it was cleared and does not fire.  One that is requested in the last
    paint does not fire: it is cleared, or it is left at the end.  Beside these frames only intervals
    are left. -/
theorem frames_fire_before_last_paint (g : Generator) (source : Option String)
    (h : (g.generate source).1.succeeded = true) :
    let steps := (g.generate source).1.steps
    let left := (g.generate source).2.machine.callbacks
    let fired := (Firing.frames (g.firings source)).map (·.callback.id)
    Step.items .rafqueueAdd steps = fired ∧
    ∃ r more, (g.paints source).getLast? = some r ∧ steps = r.steps.toList ++ more ∧
      (∀ id delay, .webapiAdd id "requestAnimationFrame" delay ∈ r.steps.toList →
        (id ∈ Step.cleared steps ∧ id ∉ fired) ∨
        (id ∉ Step.cleared steps ∧ fired.count id = 1)) ∧
      (∀ id delay, .webapiAdd id "requestAnimationFrame" delay ∈ more →
        id ∉ fired ∧
        (id ∉ Step.cleared steps ↔ ∃ cb ∈ left, cb.id = id ∧ cb.kind = .frame)) ∧
      ∀ cb ∈ left, cb.kind = .interval ∨
        (cb.kind = .frame ∧ .webapiAdd cb.id "requestAnimationFrame" cb.delay ∈ more) := by
  obtain ⟨m, log, hrun, hsteps, hmachine, hfirings⟩ := Generator.generate_succeeded h
  obtain ⟨due, last, hran, hnone⟩ := Run.ran_generate source
    (Machine.Booked.start g.limit g.machine.log) hrun
  obtain ⟨T, _, hbooked⟩ := hran.books
  rw [List.nil_append] at hbooked
  obtain ⟨r, hlast, hpainted⟩ := Run.generate_painted
    ⟨.start g.limit g.machine.log, _, _, _, .start g.limit g.machine.log⟩ rfl hrun
  rw [← hfirings] at hpainted
  obtain ⟨T', _, _, hturnover⟩ := hpainted.turns
  have hmore := hturnover.steps
  dsimp only
  rw [hmachine, hsteps, ← hpainted.shown, Generator.paints_of_succeeded h]
  refine ⟨rfl, r, _, hlast, hmore, fun id delay hadd => ?_, fun id delay hadd => ?_,
    fun cb hcb => ?_⟩
  · -- the last paint has taken every frame that it found waiting
    have hall : .webapiAdd id TimerKind.frame.api delay ∈ m.steps.toList := by
      rw [hmore]
      exact List.mem_append_left _ hadd
    have hwaiting : id ∉ m.callbacks.map (·.id) := by
      intro hid
      obtain ⟨cb, hcb, heq⟩ := List.mem_map.1 hid
      exact hpainted.gone hadd cb hcb (hbooked.waiting_frame hall cb hcb heq) heq
    have hone := hbooked.frame_place hall
    rw [List.count_eq_zero_of_not_mem hwaiting] at hone
    simp only [← List.count_pos_iff]
    omega
  · -- no paint follows in which a later frame could fire
    have hall : .webapiAdd id TimerKind.frame.api delay ∈ m.steps.toList := by
      rw [hmore]
      exact List.mem_append_right _ hadd
    have hfired := hpainted.not_fired hmore hadd
    have hone := hbooked.frame_place hall
    rw [List.count_eq_zero_of_not_mem hfired] at hone
    refine ⟨hfired, fun hcleared => ?_, ?_⟩
    · rw [List.count_eq_zero_of_not_mem hcleared] at hone
      have hwaiting : id ∈ m.callbacks.map (·.id) := List.count_pos_iff.1 (by omega)
      obtain ⟨cb, hcb, heq⟩ := List.mem_map.1 hwaiting
      exact ⟨cb, hcb, heq, hbooked.waiting_frame hall cb hcb heq⟩
    · rintro ⟨cb, hcb, rfl, _⟩ hcleared
      have hwaits : 0 < (m.callbacks.map (·.id)).count cb.id :=
        List.count_pos_iff.2 (List.mem_map_of_mem hcb)
      have hgone := List.count_pos_iff.2 hcleared
      omega
  · cases hcase : cb.kind with
    | interval => exact .inl rfl
    | frame => exact .inr ⟨rfl, hpainted.requested hmore hcb hcase⟩
    | timeout => exact absurd hcase (hnone cb hcb)

/-- A frame requests a frame, and so does the timer: both fire in the paint after the timer. -/
theorem frames_fire_before_last_paint_nested :
    let g := Generator.new 100 0
    let source := some ("requestAnimationFrame(() => requestAnimationFrame(() => 1)); " ++
      "setTimeout(() => requestAnimationFrame(() => 2))")
    (g.generate source).1.succeeded = true ∧
    (Firing.frames (g.firings source)).map (·.callback.id) = [1, 3, 4] ∧
    Step.items .rafqueueAdd (g.generate source).1.steps = [1, 3, 4] ∧
    (g.generate source).2.machine.callbacks = [] := by
  intro g source
  have hrun : ((g.generate source).1.succeeded = true ∧
      (g.generate source).2.machine.callbacks.isEmpty = true) ∧
      (Firing.frames (g.firings source)).map (·.callback.id) = [1, 3, 4] := by
    decide +kernel
  obtain ⟨⟨hsucceeded, hleft⟩, hfired⟩ := hrun
  have hshown := (frames_fire_before_last_paint g source hsucceeded).1
  exact ⟨hsucceeded, hfired, hshown.trans hfired, List.isEmpty_iff.1 hleft⟩

/-- The only frame requests another one.  No timer comes after it, so this was the last paint: the
    second frame was not cleared, and it is left without having fired. -/
theorem frame_of_last_paint_is_left :
    let g := Generator.new 100 0
    let source := some "requestAnimationFrame(() => requestAnimationFrame(() => console.log('x')))"
    (g.generate source).1.succeeded = true ∧
    Step.cleared (g.generate source).1.steps = [] ∧
    Step.items .rafqueueAdd (g.generate source).1.steps = [1] ∧
    (g.generate source).2.machine.callbacks.map (fun cb => (cb.id, cb.kind)) =
      [(2, .frame)] := by
  decide +kernel

end EventLoop
