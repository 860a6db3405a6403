/-
  Animation frames have their turns in the order in which they were requested.

  In every state of a run the waiting callbacks stand in the order of their numbers (`Listed`).
  `Turnover` says exactly what a part of a run that does not fail does to them: those that are
  registered come to the end of the list, and those that are cleared or have their turns leave it.
  The loop over the animation frames goes through the frames that wait at its start, and its
  description (`Run.frameTurns_ok`, `Run.frameTurns_error`) follows by induction on them.

  A frame that is cleared before its turn is not skipped: its turn fails, and the run with it
  (`cleared_frame_fails`).
-/
import EventLoop.Proofs.Timer

namespace EventLoop

variable {tame : Bool} {depth : Nat} {m m' : Machine} {T : List Tile} {cb : Callback} {e : Ending}

/-! ## Waiting callbacks are in order -/

namespace Machine

/-- The waiting callbacks stand in the order of their numbers, which were given out before. -/
structure Listed (m : Machine) : Prop where
  increasing : m.callbacks.Pairwise (·.id < ·.id)
  counted : ∀ cb ∈ m.callbacks, cb.id ≤ m.timerCount

namespace Listed

variable {m m' : Machine}

theorem start (limit : Nat) (log : Log) : (Machine.start limit log).Listed :=
  ⟨.nil, by simp [Machine.start]⟩

theorem of_sublist (h : m.Listed) (hsub : m'.callbacks.Sublist m.callbacks)
    (htimers : m.timerCount ≤ m'.timerCount) : m'.Listed :=
  ⟨h.increasing.sublist hsub, fun cb hcb => Nat.le_trans (h.counted cb (hsub.subset hcb)) htimers⟩

theorem of_eq (h : m.Listed) (hcallbacks : m'.callbacks = m.callbacks)
    (htimers : m'.timerCount = m.timerCount) : m'.Listed :=
  h.of_sublist (hcallbacks ▸ List.Sublist.refl _) (Nat.le_of_eq htimers.symm)

theorem of_aside (h : m.Listed) (ha : m.Aside m') : m'.Listed := h.of_eq ha.callbacks ha.timerCount

theorem append (h : m.Listed) {new : List Callback}
    (hcallbacks : m'.callbacks = m.callbacks ++ new) (hnew : new.Pairwise (·.id < ·.id))
    (hbetween : ∀ cb ∈ new, m.timerCount < cb.id ∧ cb.id ≤ m'.timerCount)
    (htimers : m.timerCount ≤ m'.timerCount) : m'.Listed := by
  constructor
  · rw [hcallbacks]
    refine List.pairwise_append.2 ⟨h.increasing, hnew, fun old hold cb hcb => ?_⟩
    exact Nat.lt_of_le_of_lt (h.counted old hold) (hbetween cb hcb).1
  · rw [hcallbacks]
    intro cb hcb
    rcases List.mem_append.1 hcb with hold | hcb
    · exact Nat.le_trans (h.counted cb hold) htimers
    · exact (hbetween cb hcb).2

theorem move (h : m.Listed) (hmove : Move m m') : m'.Listed := by
  cases hmove with
  | data | declare | assign | define | nest | burst => exact h.of_eq rfl rfl
  | register kind callback delay line hroom =>
    refine h.append rfl (List.pairwise_singleton _ _) (fun cb hcb => ?_) (Nat.le_succ _)
    rw [List.mem_singleton.1 hcb]
    exact ⟨Nat.lt_succ_self _, Nat.le_refl _⟩
  | clear line label hcb hroom => exact h.of_sublist List.filter_sublist (Nat.le_refl _)
  | promise state value => exact h.of_aside (aside_withPromise m state value)
  | mark name state value hmark =>
    obtain ⟨log, rfl⟩ := Run.enqueue_inv hmark
    exact h.of_eq rfl rfl
  | attach name l callback state receiver hattach => exact h.of_aside (attach_aside hattach)

end Listed

theorem Walk.listed (h : m.Walk tame depth e m') (hm : m.Listed) : m'.Listed := by
  induction h with
  | refl | fail => exact hm
  | trans _ _ ih1 ih2 => exact ih2 (ih1 hm)
  | move h => exact hm.move h
  | slip m part timers keep hpart htimers => exact hm.of_sublist List.filter_sublist htimers
  | within scope _ ih => exact (ih (hm.of_eq rfl rfl)).of_eq rfl rfl
  | @suspend _ m _ _ frame _ target _ _ h =>
    have hnew : (m.withContinuation frame target).Listed := hm.of_eq rfl rfl
    exact hnew.of_aside (Run.suspend_inv h).2.aside
  | defer _ _ _ ih => exact (ih hm).of_eq rfl rfl
  | skip _ _ ih => exact ih hm
  | call _ _ _ _ _ ih | cut _ _ ih => exact (ih (hm.of_eq rfl rfl)).of_eq rfl rfl
  | @settled _ m m' _ _ _ _ _ _ log _ _ _ _ hsettle ih =>
    have hback : (((m'.back m).emitted [.pop]).logged log).Listed :=
      (ih (hm.of_eq rfl rfl)).of_eq rfl rfl
    exact hback.of_aside (aside_of_settle hsettle)

theorem Serves.listed {t : Microtask} (h : m.Serves tame t e m') (hm : m.Listed) : m'.Listed := by
  cases h with
  | mark => exact hm
  | link _ hw hs => exact (hw.listed hm).of_aside (aside_of_settle hs)
  | linkFailed _ hw => exact hw.listed hm
  | @rejected _ _ _ log _ _ hs =>
    have hlogged : (m.logged log).Listed := hm.of_eq rfl rfl
    exact hlogged.of_aside (aside_of_settle hs)
  | abandoned | stuck => exact hm.of_eq rfl rfl
  | cut _ _ hw | resumed _ _ _ hw => exact (hw.listed (hm.of_eq rfl rfl)).of_eq rfl rfl
  | @finished _ _ _ _ m1 _ log _ _ hw _ _ hs =>
    have hback : (((m1.back m).emitted [.pop]).logged log).Listed :=
      (hw.listed (hm.of_eq rfl rfl)).of_eq rfl rfl
    exact hback.of_aside (aside_of_settle hs)

theorem passes_listed : Run.Passes fun m m' => m.Listed → m'.Listed where
  refl m hm := hm
  trans h1 h2 hm := h2 (h1 hm)
  code hcode hm := by
    obtain ⟨_, _, hw⟩ := hcode.walk
    exact hw.listed hm
  cut log _ hm := hm.of_eq rfl rfl
  turn log _ _ hm := by
    obtain ⟨_, hs⟩ := (@Run.runMicrotask_serves false _ _ (by simp)).final
    exact hs.listed (hm.of_eq rfl rfl)
  take m id clock part log _ hm := hm.of_sublist List.filter_sublist (Nat.le_refl _)

/-- The states that a run comes through: the start, the ends of operations, also of those that fail,
    and within the loop over the timers, the end of each timer's turn. -/
inductive Reached (limit : Nat) (log : Log) : Machine → Prop
  | start : Reached limit log (Machine.start limit log)
  | logged {m : Machine} (log' : Log) (h : Reached limit log m) : Reached limit log (m.logged log')
  | after {m : Machine} (op : Operation) (h : Reached limit log m) : Reached limit log (m.after op)
  | timer {m m' : Machine} {cb : Callback} (h : Reached limit log m)
      (hnext : Run.nextTimer m.callbacks = some cb) (hturn : Run.timerTurn cb m = .ok () m') :
      Reached limit log m'

theorem Reached.listed {limit : Nat} {log : Log} (h : Reached limit log m) : m.Listed := by
  induction h with
  | start => exact .start limit log
  | logged log' _ ih => exact ih.of_eq rfl rfl
  | @after m op _ ih => exact passes_listed.after op m ih
  | @timer m m' cb _ hnext hturn ih =>
    have hfire := passes_listed.across (passes_listed.fire cb m)
    rw [← Firing.timerTurn_eq (Run.nextTimer_some hnext).2.1, hturn] at hfire
    exact hfire ih

end Machine

/-! ## What becomes of waiting callbacks -/

/-- The number of the callback that leaves the Web APIs in a tile. -/
def Tile.removal (t : Tile) : List Nat := t.clearing ++ (t.framing ++ t.firing)

theorem Tile.mem_removal {id : Nat} : id ∈ T.flatMap Tile.removal ↔
      id ∈ T.flatMap Tile.clearing ∨ id ∈ T.flatMap Tile.framing ∨ id ∈ T.flatMap Tile.firing := by
  simp only [List.mem_flatMap, Tile.removal, List.mem_append, ← exists_or, and_or_left]

namespace Machine

/-- From one state to another, the steps are those of the tiles; what the tiles register has come to
    the end of the list of callbacks, and what they remove has left it. -/
structure Turnover (m : Machine) (T : List Tile) (m' : Machine) : Prop where
  steps : m'.steps.toList = m.steps.toList ++ T.flatMap Tile.steps
  callbacks : m'.callbacks =
    (m.callbacks ++ T.flatMap Tile.registration).filter (·.id ∉ T.flatMap Tile.removal)
  increasing : (T.flatMap Tile.registration).Pairwise (·.id < ·.id)
  new : ∀ cb ∈ T.flatMap Tile.registration, m.timerCount < cb.id ∧ cb.id ≤ m'.timerCount
  removed : ∀ id ∈ T.flatMap Tile.removal, id ≤ m'.timerCount
  timers : m.timerCount ≤ m'.timerCount

namespace Turnover

variable {m m1 m2 m' : Machine} {T T' : List Tile}

theorem of_eq (hsteps : m'.steps = m.steps) (hcallbacks : m'.callbacks = m.callbacks)
    (htimers : m'.timerCount = m.timerCount) : Turnover m [] m' where
  steps := by simp [hsteps]
  callbacks := by simp [hcallbacks]
  increasing := .nil
  new := by simp
  removed := by simp
  timers := Nat.le_of_eq htimers.symm

theorem of_aside (h : m.Aside m') : Turnover m [] m' := of_eq h.steps h.callbacks h.timerCount

theorem listed (h : Turnover m T m') (hm : m.Listed) : m'.Listed := by
  let all : Machine := { m' with callbacks := m.callbacks ++ T.flatMap Tile.registration }
  have hall : all.Listed := hm.append rfl h.increasing h.new h.timers
  refine hall.of_sublist ?_ (Nat.le_refl _)
  rw [h.callbacks]
  exact List.filter_sublist

/-- Turnovers compose: what the first one adds, the second one may take. -/
theorem trans (h1 : Turnover m T m1) (h2 : Turnover m1 T' m2) : Turnover m (T ++ T') m2 where
  steps := by rw [h2.steps, h1.steps, List.flatMap_append, List.append_assoc]
  callbacks := by
    -- what is registered later has a number that was not removed before
    have hlater : (T'.flatMap Tile.registration).filter (·.id ∉ T'.flatMap Tile.removal) =
        (T'.flatMap Tile.registration).filter (·.id ∉ (T ++ T').flatMap Tile.removal) := by
      refine List.filter_congr fun cb hcb => ?_
      have hfresh : cb.id ∉ T.flatMap Tile.removal := by
        intro hgone
        exact Nat.lt_irrefl _ (Nat.lt_of_lt_of_le (h2.new cb hcb).1 (h1.removed _ hgone))
      simp [List.flatMap_append, hfresh]
    have hboth : List.flatMap Tile.registration (T ++ T') =
        T.flatMap Tile.registration ++ T'.flatMap Tile.registration := List.flatMap_append
    rw [h2.callbacks, List.filter_append, hlater, h1.callbacks, List.filter_filter, hboth,
      ← List.append_assoc, List.filter_append (m.callbacks ++ _)]
    congr 1
    refine List.filter_congr fun cb _ => ?_
    rw [List.flatMap_append]
    by_cases h : cb.id ∈ T.flatMap Tile.removal <;> simp [h]
  increasing := by
    rw [List.flatMap_append]
    refine List.pairwise_append.2 ⟨h1.increasing, h2.increasing, fun cb hcb cb' hcb' => ?_⟩
    exact Nat.lt_of_le_of_lt (h1.new cb hcb).2 (h2.new cb' hcb').1
  new := by
    intro cb hcb
    rw [List.flatMap_append, List.mem_append] at hcb
    have htimers1 := h1.timers
    have htimers2 := h2.timers
    rcases hcb with hcb | hcb
    · have hnew := h1.new cb hcb
      omega
    · have hnew := h2.new cb hcb
      omega
  removed := by
    intro id hid
    rw [List.flatMap_append, List.mem_append] at hid
    rcases hid with hid | hid
    · exact Nat.le_trans (h1.removed id hid) h2.timers
    · exact h2.removed id hid
  timers := Nat.le_trans h1.timers h2.timers

theorem plain (m : Machine) {l : List Step} (hl : ∀ s ∈ l, s.isPlain = true) :
    Turnover m [.plain l hl] (m.emitted l) where
  steps := by simp [toList_emitted, Tile.steps]
  callbacks := by
    simp [Tile.registration, Tile.removal, Tile.clearing, Tile.framing, Tile.firing,
      Machine.emitted]
  increasing := by simp [Tile.registration]
  new := by simp [Tile.registration]
  removed := by simp [Tile.removal, Tile.clearing, Tile.framing, Tile.firing]
  timers := Nat.le_refl _

/-- A callback leaves the Web APIs in a tile that removes it and registers nothing. -/
theorem drop (hm : m.Listed) {cb : Callback} {t : Tile}
    (hid : cb.id ∈ m.callbacks.map (·.id)) (hremoval : t.removal = [cb.id])
    (hregistration : t.registration = []) (hsteps : m'.steps.toList = m.steps.toList ++ t.steps)
    (hcallbacks : m'.callbacks = m.callbacks.filter (·.id != cb.id))
    (htimers : m'.timerCount = m.timerCount) : Turnover m [t] m' where
  steps := by rw [hsteps, List.flatMap_singleton]
  callbacks := by
    rw [hcallbacks, List.flatMap_singleton, List.flatMap_singleton, hremoval, hregistration,
      List.append_nil]
    exact List.filter_congr fun other _ => by simp [bne, Bool.beq_eq_decide_eq]
  increasing := by simp [hregistration]
  new := by simp [hregistration]
  removed := by
    intro id h
    rw [List.flatMap_singleton, hremoval, List.mem_singleton] at h
    obtain ⟨other, hother, heq⟩ := List.mem_map.1 hid
    rw [h, htimers, ← heq]
    exact hm.counted other hother
  timers := Nat.le_of_eq htimers.symm

theorem register (m : Machine) (kind : TimerKind) (callback : Option Script.Expr)
    (delay line : Nat) :
    ∃ cb label, Turnover m [.register cb line label] (m.registered kind callback delay line) := by
  let cb : Callback :=
    { id := m.timerCount + 1, kind, callback, delay, due := m.clock + delay, scope := m.scope }
  refine ⟨cb, Run.timerLabel kind delay, ?_⟩
  constructor
  case steps => exact (toList_emitted _ _).trans (by simp [Tile.steps, cb])
  case callbacks =>
    simp only [List.flatMap_singleton, Tile.registration, Tile.removal, Tile.clearing,
      Tile.framing, Tile.firing, List.append_nil, List.not_mem_nil, not_false_eq_true,
      decide_true, List.filter_true]
    rfl
  case increasing => exact List.pairwise_singleton _ _
  case new =>
    intro new hnew
    rw [List.flatMap_singleton, Tile.registration, List.mem_singleton] at hnew
    rw [hnew]
    exact ⟨Nat.lt_succ_self _, Nat.le_refl _⟩
  case removed => simp [Tile.removal, Tile.clearing, Tile.framing, Tile.firing]
  case timers => exact Nat.le_succ _

end Turnover

/-- From one state to another, the animation frames with these numbers have had their turns, no
    timer has fired, and what has become of the callbacks is told by the tiles. -/
def TurnsOver (m : Machine) (framed : List Nat) (m' : Machine) : Prop :=
  ∃ T, T.flatMap Tile.framing = framed ∧ T.flatMap Tile.firing = [] ∧ Turnover m T m'

namespace TurnsOver

variable {m m1 m2 m' : Machine} {framed framed' : List Nat}

theorem of_eq (hsteps : m'.steps = m.steps) (hcallbacks : m'.callbacks = m.callbacks)
    (htimers : m'.timerCount = m.timerCount) : TurnsOver m [] m' :=
  ⟨[], rfl, rfl, .of_eq hsteps hcallbacks htimers⟩

theorem of_aside (h : m.Aside m') : TurnsOver m [] m' := ⟨[], rfl, rfl, .of_aside h⟩

theorem plain (m : Machine) {l : List Step} (hl : ∀ s ∈ l, s.isPlain = true) :
    TurnsOver m [] (m.emitted l) := ⟨_, rfl, rfl, .plain m hl⟩

theorem trans (h1 : TurnsOver m framed m1) (h2 : TurnsOver m1 framed' m2) :
    TurnsOver m (framed ++ framed') m2 := by
  obtain ⟨T1, hframed1, hfired1, hturnover1⟩ := h1
  obtain ⟨T2, hframed2, hfired2, hturnover2⟩ := h2
  exact ⟨T1 ++ T2, by rw [List.flatMap_append, hframed1, hframed2],
    by rw [List.flatMap_append, hfired1, hfired2]; rfl, hturnover1.trans hturnover2⟩

theorem listed (h : TurnsOver m framed m') (hm : m.Listed) : m'.Listed := by
  obtain ⟨T, _, _, hturnover⟩ := h
  exact hturnover.listed hm

theorem move (hm : m.Listed) (h : Move m m') : TurnsOver m [] m' := by
  cases h with
  | data | declare | assign | define | nest => exact .of_eq rfl rfl rfl
  | burst hl hroom =>
    refine .plain m ?_
    cases hl <;>
      simp [Step.isPlain, Step.glance, Step.highlight, Step.push, Step.pop, Step.console]
  | register kind callback delay line hroom =>
    obtain ⟨cb, label, hturnover⟩ := Turnover.register m kind callback delay line
    exact ⟨_, rfl, rfl, hturnover⟩
  | @clear cb line label hcb hroom =>
    exact ⟨[.clear cb.id line label], rfl, rfl,
      .drop hm (List.mem_map_of_mem hcb) rfl rfl (toList_emitted _ _) rfl rfl⟩
  | promise state value => exact .of_aside (aside_withPromise m state value)
  | mark name state value hmark =>
    obtain ⟨log, rfl⟩ := Run.enqueue_inv hmark
    exact .of_eq rfl rfl rfl
  | attach name l callback state receiver hattach => exact .of_aside (attach_aside hattach)

theorem entered (m : Machine) (f : Function) (args : List Value) (line : Nat) (label : String) :
    TurnsOver m [] ((m.emitted [.highlight line, .push label]).entered f args) :=
  (plain m (by simp [Step.isPlain, Step.highlight, Step.push])).trans
    (.of_eq rfl rfl rfl)

theorem left (m m' : Machine) (log : Log) :
    TurnsOver m' [] (((m'.back m).emitted [.pop]).logged log) := by
  have hback : TurnsOver m' [] (m'.back m) := .of_eq rfl rfl rfl
  have hpop := plain (m'.back m) (l := [.pop]) (by simp [Step.isPlain, Step.pop])
  exact hback.trans (hpop.trans (.of_eq rfl rfl rfl))

end TurnsOver

theorem Walk.turnsOver (h : m.Walk tame depth e m') (he : e ≠ .failed) (hm : m.Listed) :
    TurnsOver m [] m' := by
  induction h with
  | refl => exact .of_eq rfl rfl rfl
  | trans _ _ ih1 ih2 =>
    have h1 := ih1 (by simp) hm
    exact h1.trans (ih2 he (h1.listed hm))
  | move h => exact .move hm h
  | fail | slip | cut => exact absurd rfl he
  | @within _ m _ _ scope _ ih =>
    have hunder : TurnsOver m [] (m.under scope) := .of_eq rfl rfl rfl
    exact hunder.trans ((ih he (hunder.listed hm)).trans (.of_eq rfl rfl rfl))
  | @suspend _ m _ _ frame _ target _ _ h =>
    have hnew : TurnsOver m [] (m.withContinuation frame target) := .of_eq rfl rfl rfl
    exact hnew.trans (.of_aside (Run.suspend_inv h).2.aside)
  | defer _ _ _ ih => exact (ih he hm).trans (.of_eq rfl rfl rfl)
  | skip _ _ ih => exact ih (by simp) hm
  | @call _ m m' _ f args label line _ _ hfailed _ _ ih =>
    have hopen := TurnsOver.entered m f args line label
    exact hopen.trans ((ih hfailed (hopen.listed hm)).trans
      ((TurnsOver.left m m' m'.log).trans (.of_eq rfl rfl rfl)))
  | @settled _ m m' _ f args label line _ log _ _ _ _ hsettle ih =>
    have hopen := TurnsOver.entered m f args line label
    exact hopen.trans ((ih (by simp) (hopen.listed hm)).trans
      ((TurnsOver.left m m' log).trans (.of_aside (aside_of_settle hsettle))))

theorem Serves.turnsOver {t : Microtask} (h : m.Serves tame t .done m') (hm : m.Listed) :
    TurnsOver m [] m' := by
  have hresumed (k : Nat) (label : String) :
      TurnsOver m [] ((m.resumed (m.continuationAt k)).emitted [.push label]) := by
    have hback : TurnsOver m [] (m.resumed (m.continuationAt k)) := .of_eq rfl rfl rfl
    exact hback.trans (.plain _ (by simp [Step.isPlain, Step.push]))
  cases h with
  | mark => exact .of_eq rfl rfl rfl
  | link _ hw hs => exact (hw.turnsOver (by simp) hm).trans (.of_aside (aside_of_settle hs))
  | @rejected _ _ _ log _ _ hs =>
    have hlogged : TurnsOver m [] (m.logged log) := .of_eq rfl rfl rfl
    exact hlogged.trans (.of_aside (aside_of_settle hs))
  | abandoned => exact .of_eq rfl rfl rfl
  | @resumed k label _ m1 log _ _ hw he _ _ =>
    exact (hresumed k label).trans ((hw.turnsOver he ((hresumed k label).listed hm)).trans
      (.left m m1 log))
  | @finished k _ label _ m1 _ log _ _ hw _ _ hs =>
    exact (hresumed k label).trans ((hw.turnsOver (by simp) ((hresumed k label).listed hm)).trans
      ((TurnsOver.left m m1 log).trans (.of_aside (aside_of_settle hs))))

theorem Drains.turnsOver (h : m.Drains .done m') (hm : m.Listed) : TurnsOver m [] m' := by
  generalize he : Ending.done = e at h
  induction h with
  | idle => exact .of_eq rfl rfl rfl
  | cut | failed => cases he
  | @turn m m1 m' t e log _ _ hs _ ih =>
    have hplain : ∀ s ∈ t.steps, s.isPlain = true := by
      simp [Microtask.steps, Step.isPlain, Step.microtaskAdd, Step.microtaskRemove, Step.enqueue,
        Step.dequeue]
    have htaken : TurnsOver m [] m.taken := .of_eq rfl rfl rfl
    have hshown : TurnsOver m [] ((m.taken.emitted t.steps).logged log) :=
      htaken.trans ((TurnsOver.plain m.taken hplain).trans (.of_eq rfl rfl rfl))
    have hserved := hshown.trans (hs.turnsOver (hshown.listed hm))
    exact hserved.trans (ih (hserved.listed hm) he)

end Machine

/-! ## The turns of animation frames -/

namespace Firing

/-- An animation frame fires, and its turn ends in the state `m'`: it leaves the Web APIs and is
    shown, its callback is called if it denotes a function, and the microtasks have their turns. -/
def Fires (f : Firing) (m' : Machine) : Prop :=
  ∃ m1 m2, (do Run.takeCallback f.callback.id; Run.emitAll f.callback.frameSteps) f.before =
      .ok () m1 ∧
    Run.CallsBack f.callback m1 m2 ∧ Run.drainMicrotasks m2 = .ok () m'

/-- Animation frames fire one after the other, from one state to another. -/
inductive OneByOne : Machine → List Firing → Machine → Prop
  | nil (m : Machine) : OneByOne m [] m
  | cons {f : Firing} {fs : List Firing} {m1 m' : Machine} (hfires : f.Fires m1)
      (h : OneByOne m1 fs m') : OneByOne f.before (f :: fs) m'

theorem fires_of_frameTurn (h : Run.frameTurn cb m = .ok () m') : Fires ⟨cb, m⟩ m' := by
  obtain ⟨_, m1, htake, h⟩ := Run.bind_eq_ok h
  obtain ⟨_, m2, hshow, h⟩ := Run.bind_eq_ok h
  obtain ⟨_, m3, hrun, hdrain⟩ := Run.bind_eq_ok h
  exact ⟨m2, m3, by rw [Run.bind_of_ok htake]; exact hshow, Run.runCallback_ok hrun, hdrain⟩

end Firing

namespace Run

open Machine

/-- A frame that has its turn and does not fail leaves the list, and what its code registers comes
    to the end of it. -/
theorem frameTurn_turnsOver (hm : m.Listed) (h : frameTurn cb m = .ok () m') :
    cb.id ∈ m.callbacks.map (·.id) ∧ TurnsOver m [cb.id] m' := by
  obtain ⟨hall, hf⟩ := frameTurn_ok h
  have hid : cb.id ∈ m.callbacks.map (·.id) := by simpa using hall
  cases hf with
  | fired log _ hw hd =>
    have hshown : TurnsOver m [cb.id] (((m.dropped cb.id).emitted cb.frameSteps).logged log) :=
      ⟨[.frame cb], rfl, rfl, .drop hm hid rfl rfl (toList_emitted _ _) rfl rfl⟩
    have hran := hshown.trans (hw.turnsOver (by simp) (hshown.listed hm))
    exact ⟨hid, hran.trans (hd.turnsOver (hran.listed hm))⟩

/-- A callback that fires in the loop was still waiting when it was taken. -/
theorem frameFirings_waiting (cbs : List Callback) (m : Machine) :
    ∀ f ∈ frameFirings cbs m, f.callback.id ∈ f.before.callbacks.map (·.id) := by
  induction cbs generalizing m with
  | nil => simp [frameFirings]
  | cons cb rest ih =>
    rw [frameFirings]
    cases hall : m.callbacks.all (·.id != cb.id) with
    | true => simp
    | false =>
      have hid : cb.id ∈ m.callbacks.map (·.id) := by simpa using hall
      have hrest : ∀ f ∈ firingsAfter (frameTurn cb) (frameFirings rest) m,
          f.callback.id ∈ f.before.callbacks.map (·.id) := by
        rw [firingsAfter]
        cases frameTurn cb m with
        | ok a m1 => exact ih m1
        | error fault m1 => simp
      exact List.forall_mem_cons.2 ⟨hid, hrest⟩

theorem frameFirings_prefix (cbs : List Callback) (m : Machine) :
    (frameFirings cbs m).map (·.callback) <+: cbs := by
  induction cbs generalizing m with
  | nil => exact List.prefix_rfl
  | cons cb rest ih =>
    rw [frameFirings]
    cases m.callbacks.all (·.id != cb.id) with
    | true => exact List.nil_prefix
    | false =>
      refine List.cons_prefix_cons.2 ⟨rfl, ?_⟩
      rw [firingsAfter]
      cases frameTurn cb m with
      | ok a m1 => exact ih m1
      | error fault m1 => exact List.nil_prefix

/-- If the loop does not fail, all frames have had their turns, in order. -/
theorem frameTurns_ok (cbs : List Callback) (hm : m.Listed) (h : frameTurns cbs m = .ok () m') :
    (frameFirings cbs m).map (·.callback) = cbs ∧ Firing.OneByOne m (frameFirings cbs m) m' ∧
      TurnsOver m (cbs.map (·.id)) m' := by
  induction cbs generalizing m with
  | nil =>
    cases h
    exact ⟨rfl, .nil m', .of_eq rfl rfl rfl⟩
  | cons cb rest ih =>
    obtain ⟨_, m1, hturn, hrest⟩ := bind_eq_ok h
    obtain ⟨hid, hturns⟩ := frameTurn_turnsOver hm hturn
    obtain ⟨hfired, hordered, hturns'⟩ := ih (hturns.listed hm) hrest
    rw [frameFirings, (frameTurn_ok hturn).1, firingsAfter_of_ok hturn]
    exact ⟨by simp [hfired], .cons (Firing.fires_of_frameTurn hturn) hordered, hturns.trans hturns'⟩

/-- If the loop fails, some frames have had their turns in order, and the next one was no longer
    waiting or failed in its own turn. -/
theorem frameTurns_error (cbs : List Callback) {fault : Fault} (hm : m.Listed)
    (h : frameTurns cbs m = .error fault m') : ∃ done cb rest, cbs = done ++ cb :: rest ∧
      (((frameFirings cbs m).map (·.callback) = done ∧ fault = .frameMissing ∧
          cb.id ∉ m'.callbacks.map (·.id) ∧ Firing.OneByOne m (frameFirings cbs m) m' ∧
          TurnsOver m (done.map (·.id)) m') ∨
        ∃ fs before, frameFirings cbs m = fs ++ [⟨cb, before⟩] ∧ fs.map (·.callback) = done ∧
          Firing.OneByOne m fs before ∧ TurnsOver m (done.map (·.id)) before ∧
          frameTurn cb before = .error fault m') := by
  induction cbs generalizing m with
  | nil => cases h
  | cons cb rest ih =>
    cases hall : m.callbacks.all (·.id != cb.id) with
    | true =>
      -- the frame is no longer there, so its turn fails
      rw [frameTurns, bind_apply, frameTurn_missing hall] at h
      cases h
      have hnone : frameFirings (cb :: rest) m' = [] := by
        rw [frameFirings, hall]
        rfl
      rw [hnone]
      exact ⟨[], cb, rest, rfl, .inl ⟨rfl, rfl, by simpa using hall, .nil m', .of_eq rfl rfl rfl⟩⟩
    | false =>
      rw [frameFirings, hall]
      rw [frameTurns, bind_apply] at h
      cases hturn : frameTurn cb m with
      | error fault' m1 =>
        rw [hturn] at h
        cases h
        exact ⟨[], cb, rest, rfl, .inr ⟨[], m, by simp [firingsAfter, hturn], rfl, .nil m,
          .of_eq rfl rfl rfl, hturn⟩⟩
      | ok a m1 =>
        rw [hturn] at h
        have hturns := (frameTurn_turnsOver hm hturn).2
        have hfires := Firing.fires_of_frameTurn hturn
        obtain ⟨done, cb', rest', hsplit, hcase⟩ := ih (hturns.listed hm) h
        rw [firingsAfter_of_ok hturn]
        refine ⟨cb :: done, cb', rest', by rw [hsplit]; rfl, ?_⟩
        rcases hcase with ⟨hfired, hfault, hgone, hordered, hturns'⟩ |
          ⟨fs, before, hfired, hfs, hordered, hturns', herror⟩
        · exact .inl ⟨by simp [hfired], hfault, hgone, .cons hfires hordered, hturns.trans hturns'⟩
        · exact .inr ⟨⟨cb, m⟩ :: fs, before, by simp [hfired], by simp [hfs],
            .cons hfires hordered, hturns.trans hturns', herror⟩

end Run

namespace Machine

/-- What waits: what waited or was registered, unless it was cleared or had its turn. -/
theorem Turnover.mem_callbacks (h : Turnover m T m') :
    cb ∈ m'.callbacks ↔ (cb ∈ m.callbacks ∨ cb ∈ T.flatMap Tile.registration) ∧
      ¬ (cb.id ∈ T.flatMap Tile.clearing ∨ cb.id ∈ T.flatMap Tile.framing ∨
        cb.id ∈ T.flatMap Tile.firing) := by
  rw [h.callbacks, List.mem_filter, List.mem_append, decide_eq_true_iff, Tile.mem_removal]

theorem Turnover.frames_left (h : Turnover m T m') (hm : m.Listed)
    (hframed : T.flatMap Tile.framing = (m.callbacks.filter (·.kind == .frame)).map (·.id))
    (hfired : T.flatMap Tile.firing = []) (hkind : cb.kind = .frame) :
    cb ∈ m'.callbacks ↔ cb ∈ T.flatMap Tile.registration ∧ cb.id ∉ T.flatMap Tile.clearing := by
  have hturn : cb.id ∈ T.flatMap Tile.framing → cb ∉ T.flatMap Tile.registration := by
    intro hid hcb
    rw [hframed] at hid
    obtain ⟨old, hold, heq⟩ := List.mem_map.1 hid
    have hcounted := hm.counted old (List.mem_filter.1 hold).1
    have hnew := (h.new cb hcb).1
    omega
  have hold : cb ∈ m.callbacks → cb.id ∈ T.flatMap Tile.framing := by
    intro hcb
    rw [hframed]
    exact List.mem_map_of_mem (List.mem_filter.2 ⟨hcb, by simp [hkind]⟩)
  rw [h.mem_callbacks, hfired]
  simp only [List.not_mem_nil, or_false, not_or]
  constructor
  · rintro ⟨hcb | hcb, hcleared, hframed⟩
    · exact absurd (hold hcb) hframed
    · exact ⟨hcb, hcleared⟩
  · rintro ⟨hcb, hcleared⟩
    exact ⟨.inr hcb, hcleared, fun hid => hturn hid hcb⟩

end Machine

/-- Animation frames have their turns in order.  In every state that a run comes through, the frames
    that wait stand in the order in which they were requested.  When they have their turns, they
    fire in that order, each of them while it still waits: it is shown in the queue of animation
    frames, and its callback is called.  If none of the turns fails, all of them have fired, and the
    frames that wait afterwards are those that were requested meanwhile and not cleared.  A turn
    fails on its own account, or because its frame is no longer waiting; it was cleared then, since
    the others began.  Either way the frames before it have fired. -/
theorem frames_fire_in_order {limit : Nat} {log : Log} {m : Machine}
    (hm : Machine.Reached limit log m) :
    let waiting := m.callbacks.filter (·.kind == .frame)
    let fired := Run.drainFramesFirings m
    waiting.Pairwise (·.id < ·.id) ∧
    fired.map (·.callback) <+: waiting ∧
    (∀ f ∈ fired, f.callback.id ∈ f.before.callbacks.map (·.id)) ∧
    (∀ m', Run.drainFrames m = .ok () m' →
      fired.map (·.callback) = waiting ∧ Firing.OneByOne m fired m' ∧
      ∃ more, m'.steps.toList = m.steps.toList ++ more ∧
        Step.items .rafqueueAdd more = waiting.map (·.id) ∧
        (∀ cb ∈ m'.callbacks, cb.kind = .frame → m.timerCount < cb.id) ∧
        ∀ id delay, .webapiAdd id TimerKind.frame.api delay ∈ more →
          (id ∉ Step.cleared more ↔ ∃ cb ∈ m'.callbacks, cb.id = id ∧ cb.kind = .frame)) ∧
    ∀ fault m', Run.drainFrames m = .error fault m' →
      (∃ cb more, waiting[fired.length]? = some cb ∧ fault = .frameMissing ∧
        Firing.OneByOne m fired m' ∧ m'.steps.toList = m.steps.toList ++ more ∧
        Step.items .rafqueueAdd more = fired.map (·.callback.id) ∧ cb.id ∈ Step.cleared more) ∨
      ∃ (done : List Firing) (f : Firing) (more : List Step), fired = done ++ [f] ∧
        Firing.OneByOne m done f.before ∧
        f.before.steps.toList = m.steps.toList ++ more ∧
        Step.items .rafqueueAdd more = done.map (·.callback.id) ∧
        Run.frameTurn f.callback f.before = .error fault m' := by
  have hlisted := hm.listed
  intro waiting fired
  have hwaiting : waiting.Pairwise (·.id < ·.id) := hlisted.increasing.sublist List.filter_sublist
  refine ⟨hwaiting, Run.frameFirings_prefix waiting m, Run.frameFirings_waiting waiting m,
    fun m' hrun => ?_, fun fault m' hrun => ?_⟩
  · obtain ⟨hfired, hordered, T, hframed, hnone, hturnover⟩ :=
      Run.frameTurns_ok waiting hlisted hrun
    refine ⟨hfired, hordered, _, hturnover.steps, (Tile.items_rafqueueAdd T).trans hframed,
      fun cb hcb hkind => ?_, fun id delay hadd => ?_⟩
    · exact (hturnover.new cb ((hturnover.frames_left hlisted hframed hnone hkind).1 hcb).1).1
    · rw [Tile.cleared_steps]
      constructor
      · intro hcleared
        obtain ⟨cb, hcb, rfl, hapi⟩ := Tile.registered_of_webapiAdd hadd
        have hkind : cb.kind = .frame := TimerKind.api_injective hapi
        have hleft := (hturnover.frames_left hlisted hframed hnone hkind).2 ⟨hcb, hcleared⟩
        exact ⟨cb, hleft, rfl, hkind⟩
      · rintro ⟨cb, hcb, rfl, hkind⟩
        exact ((hturnover.frames_left hlisted hframed hnone hkind).1 hcb).2
  · obtain ⟨done, cb, rest, hsplit, hcase⟩ := Run.frameTurns_error waiting hlisted hrun
    rcases hcase with ⟨hfired, rfl, hgone, hordered, T, hframed, hnone, hturnover⟩ |
      ⟨fs, before, hfired, hfs, hordered, ⟨T, hframed, -, hturnover⟩, herror⟩
    · left
      have hlength : fired.length = done.length := by rw [← hfired, List.length_map]; rfl
      refine ⟨cb, _, ?_, rfl, hordered, hturnover.steps, ?_, ?_⟩
      · rw [hlength, hsplit]
        simp
      · rw [Tile.items_rafqueueAdd, hframed, ← hfired, List.map_map]
        rfl
      · have hmem : cb ∈ waiting := by simp [hsplit]
        -- the frames before it in the list have smaller numbers
        have hturn : cb.id ∉ T.flatMap Tile.framing := by
          rw [hframed]
          intro hid
          obtain ⟨old, hold, heq⟩ := List.mem_map.1 hid
          rw [hsplit] at hwaiting
          have hlt := (List.pairwise_append.1 hwaiting).2.2 old hold cb List.mem_cons_self
          omega
        by_contra hcleared
        rw [Tile.cleared_steps] at hcleared
        refine hgone (List.mem_map_of_mem (hturnover.mem_callbacks.2 ⟨.inl ?_, ?_⟩))
        · exact (List.mem_filter.1 hmem).1
        · rw [hnone]
          simp only [List.not_mem_nil, or_false, not_or]
          exact ⟨hcleared, hturn⟩
    · refine .inr ⟨fs, ⟨cb, before⟩, _, hfired, hordered, hturnover.steps, ?_, herror⟩
      rw [Tile.items_rafqueueAdd, hframed, ← hfs, List.map_map]
      rfl

/-- The first frame requests a third one, which is left waiting when the two have fired. -/
theorem frames_fire_in_order_nested :
    let source := "requestAnimationFrame(() => requestAnimationFrame(() => 3))\n" ++
      "requestAnimationFrame(() => 2)"
    let m := (Machine.start 100 {}).after
      (.run ((readProgram (some source)).toOption.getD default))
    ∃ m', Run.drainFrames m = .ok () m' ∧ m'.callbacks.map (·.id) = [3] ∧
      (Run.drainFramesFirings m).map (·.callback) = m.callbacks.filter (·.kind == .frame) ∧
      Firing.OneByOne m (Run.drainFramesFirings m) m' ∧
      (m.callbacks.filter (·.kind == .frame)).map (·.id) = [1, 2] := by
  intro source m
  have hrun : Run.succeeds Run.drainFrames (fun _ m' => m'.callbacks.map (·.id) == [3]) m =
      true := by
    decide +kernel
  obtain ⟨_, m', hok, hleft⟩ := Run.succeeds_inv hrun
  have hreached : Machine.Reached 100 {} m := .after (.run _) .start
  have horder := (frames_fire_in_order hreached).2.2.2.1
  exact ⟨m', hok, beq_iff_eq.1 hleft, (horder m' hok).1, (horder m' hok).2.1, by decide +kernel⟩

/-- The first frame clears the second one.  The second one is not skipped: its turn fails, and with
    it the whole generation. -/
theorem cleared_frame_fails :
    let g := Generator.new 100 0
    let source := some ("let a = requestAnimationFrame(() => cancelAnimationFrame(b))\n" ++
      "let b = requestAnimationFrame(() => console.log('b'))")
    (g.firings source).map (·.callback.id) = [1] ∧
    2 ∈ Step.cleared (g.generate source).2.machine.steps.toList ∧
    (g.generate source).1.report? = some ⟨.analysis, "Error analyzing code"⟩ := by
  decide +kernel

end EventLoop
