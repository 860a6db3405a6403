/-
  The books of a run: what has become of every callback.

  The steps of a run that succeeds fall into tiles: a callback is registered, a callback is cleared,
  an animation frame has its turn, a timer has its turn, and anything else.  `Booked` keeps the
  tiles and the state in balance: every callback that was ever registered is still waiting, or it
  was cleared, or it had its turn, and only one of these; and every timeout that waits comes after
  the last one that fired.

  Each kind of tile has a lemma that enters it, and code and microtasks enter tiles one after the
  other (`Walk.booked`, `Drains.booked`).  The turns themselves are in `EventLoop.Proofs.Timer`.
-/
import EventLoop.Proofs.Checkpoint
import Mathlib.Data.List.Nodup

namespace EventLoop

variable {tame : Bool} {depth : Nat} {cb : Callback} {l : List Step}

/-! ## What steps say about callbacks -/

namespace Step

/-- The number of the item that a step is about. -/
def item? (s : Step) : Option Nat :=
  match s.itemId with
  | .int n => n.toNat?
  | _ => none

/-- The numbers of the items that steps of a kind are about, in order. -/
def items (kind : StepKind) (steps : List Step) : List Nat :=
  steps.filterMap fun s => if s.kind = kind then s.item? else none

/-- The numbers of the callbacks that were cleared by a call, in order: such a callback leaves the
    Web APIs and then the call ends, while one that has its turn enters a queue next. -/
def cleared : List Step → List Nat
  | [] => []
  | s :: rest =>
    if s.kind = .webapiRemove ∧ rest.head?.map (·.kind) = some .callstackPop then
      s.item?.toList ++ cleared rest
    else cleared rest

/-- Whether a step is about neither a registration nor the turn of a callback. -/
def isPlain (s : Step) : Bool :=
  s.kind ≠ .webapiAdd && s.kind ≠ .webapiRemove && s.kind ≠ .taskqueueAdd && s.kind ≠ .rafqueueAdd

end Step

/-- A part of the steps of a run. -/
inductive Tile where
  | plain (steps : List Step) (h : ∀ s ∈ steps, s.isPlain = true)
  | register (cb : Callback) (line : Nat) (label : String)
  | clear (id : Nat) (line : Nat) (label : String)
  | frame (cb : Callback)
  | timer (cb : Callback)

namespace Tile

/-- The steps of a tile. -/
def steps : Tile → List Step
  | .plain l _ => l
  | .register cb line label =>
    [.highlight line, .push label, .webapiAdd cb.id cb.kind.api cb.delay, .pop]
  | .clear id line label => [.highlight line, .push label, .webapiRemove id, .pop]
  | .frame cb => cb.frameSteps
  | .timer cb => cb.timerSteps

/-- The callback that a tile registers. -/
def registration : Tile → List Callback
  | .register cb _ _ => [cb]
  | .plain _ _ | .clear _ _ _ | .frame _ | .timer _ => []

/-- The number of the callback that a tile clears. -/
def clearing : Tile → List Nat
  | .clear id _ _ => [id]
  | .plain _ _ | .register _ _ _ | .frame _ | .timer _ => []

/-- The number of the animation frame whose turn a tile is. -/
def framing : Tile → List Nat
  | .frame cb => [cb.id]
  | .plain _ _ | .register _ _ _ | .clear _ _ _ | .timer _ => []

/-- The number of the timer whose turn a tile is. -/
def firing : Tile → List Nat
  | .timer cb => [cb.id]
  | .plain _ _ | .register _ _ _ | .clear _ _ _ | .frame _ => []

/-- A turn is that of a registered callback of the right kind. -/
def Proper (registered : List Callback) : Tile → Prop
  | .frame cb => cb ∈ registered ∧ cb.kind = .frame
  | .timer cb => cb ∈ registered ∧ cb.kind = .timeout
  | .plain _ _ | .register _ _ _ | .clear _ _ _ => True

variable {t : Tile}

theorem Proper.mono {registered registered' : List Callback} (h : t.Proper registered)
    (hsub : registered ⊆ registered') : t.Proper registered' := by
  cases t with
  | frame cb => exact ⟨hsub h.1, h.2⟩
  | timer cb => exact ⟨hsub h.1, h.2⟩
  | _ => trivial

theorem items_steps {kind : StepKind} {f : Tile → List Nat}
    (h : ∀ t : Tile, Step.items kind t.steps = f t) (T : List Tile) :
    Step.items kind (T.flatMap steps) = T.flatMap f := by
  induction T with
  | nil => rfl
  | cons t T ih =>
    rw [List.flatMap_cons, Step.items, List.filterMap_append]
    change Step.items kind t.steps ++ Step.items kind (T.flatMap steps) = _
    rw [ih, h, List.flatMap_cons]

theorem items_plain {kind : StepKind} (hkind : ∀ s : Step, s.isPlain = true → s.kind ≠ kind)
    (h : ∀ s ∈ l, s.isPlain = true) : Step.items kind l = [] :=
  List.filterMap_eq_nil_iff.2 fun s hs => if_neg (hkind s (h s hs))

theorem items_taskqueueAdd (T : List Tile) :
    Step.items .taskqueueAdd (T.flatMap steps) = T.flatMap firing := by
  refine items_steps (fun t => ?_) T
  cases t with
  | plain l h => exact items_plain (by simp +contextual [Step.isPlain]) h
  | _ => rfl

theorem items_rafqueueAdd (T : List Tile) :
    Step.items .rafqueueAdd (T.flatMap steps) = T.flatMap framing := by
  refine items_steps (fun t => ?_) T
  cases t with
  | plain l h => exact items_plain (by simp +contextual [Step.isPlain]) h
  | _ => rfl

theorem length_firing_le (T : List Tile) :
    (T.flatMap firing).length ≤ (T.flatMap steps).length := by
  induction T with
  | nil => exact Nat.le_refl _
  | cons t T ih =>
    have ht : t.firing.length ≤ t.steps.length := by
      cases t <;> simp [firing, steps, Callback.timerSteps]
    simp only [List.flatMap_cons, List.length_append]
    omega

theorem cleared_plain (h : ∀ s ∈ l, s.isPlain = true) (rest : List Step) :
    Step.cleared (l ++ rest) = Step.cleared rest := by
  induction l with
  | nil => rfl
  | cons s l ih =>
    have hs := h s List.mem_cons_self
    simp only [Step.isPlain, ne_eq, decide_not, Bool.and_eq_true, Bool.not_eq_true',
      decide_eq_false_iff_not] at hs
    rw [List.cons_append, Step.cleared, if_neg (by simp [hs]),
      ih fun s hs => h s (List.mem_cons_of_mem _ hs)]

theorem cleared_steps (T : List Tile) : Step.cleared (T.flatMap steps) = T.flatMap clearing := by
  induction T with
  | nil => rfl
  | cons t T ih =>
    rw [List.flatMap_cons]
    cases t with
    | plain l h =>
      rw [steps, cleared_plain h, ih]
      rfl
    | _ =>
      simp only [steps, Callback.frameSteps, Callback.timerSteps, List.cons_append,
        List.nil_append, Step.cleared]
      rw [ih]
      rfl

variable {T : List Tile}

/-- A registration that is shown is that of a registering tile. -/
theorem registered_of_webapiAdd {id delay : Nat} {name : String}
    (h : Step.webapiAdd id name delay ∈ T.flatMap steps) :
    ∃ cb ∈ T.flatMap registration, cb.id = id ∧ cb.kind.api = name := by
  obtain ⟨t, ht, hs⟩ := List.mem_flatMap.1 h
  cases t with
  | plain l hl =>
    have := hl _ hs
    simp [Step.isPlain, Step.webapiAdd] at this
  | register cb line label =>
    refine ⟨cb, List.mem_flatMap.2 ⟨_, ht, List.mem_singleton.2 rfl⟩, ?_⟩
    simp [steps, Step.webapiAdd, Step.highlight, Step.push, Step.pop] at hs
    exact ⟨by omega, hs.1.symm⟩
  | clear id' line label =>
    simp [steps, Step.webapiAdd, Step.highlight, Step.push, Step.pop, Step.webapiRemove,
      Step.dequeue] at hs
  | frame cb =>
    simp [steps, Callback.frameSteps, Step.webapiAdd, Step.webapiRemove, Step.rafqueueAdd,
      Step.rafqueueRemove, Step.dequeue, Step.enqueue] at hs
  | timer cb =>
    simp [steps, Callback.timerSteps, Step.webapiAdd, Step.webapiRemove, Step.taskqueueAdd,
      Step.taskqueueRemove, Step.dequeue, Step.enqueue] at hs

end Tile

/-! ## The books -/

namespace Machine

/-- The tiles of a run are in balance with its state.  `due` and `last` are the time at which the
    last timer that fired was due, and its number; `limit` is that of the steps. -/
structure Booked (limit : Nat) (T : List Tile) (due last : Nat) (m : Machine) : Prop where
  steps : m.steps.toList = T.flatMap Tile.steps
  limit_eq : m.steps.limit = limit
  fits : (T.flatMap Tile.steps).length ≤ limit
  /-- Numbers go up. -/
  increasing : (T.flatMap Tile.registration).Pairwise fun cb cb' => cb.id < cb'.id
  counted : ∀ cb ∈ T.flatMap Tile.registration, cb.id ≤ m.timerCount
  waiting : ∀ cb ∈ m.callbacks, cb ∈ T.flatMap Tile.registration
  /-- Every callback is in one place. -/
  balance : ((T.flatMap Tile.registration).map (·.id)).Perm
    (m.callbacks.map (·.id) ++
      (T.flatMap Tile.clearing ++ (T.flatMap Tile.framing ++ T.flatMap Tile.firing)))
  proper : ∀ t ∈ T, t.Proper (T.flatMap Tile.registration)
  clock : m.clock = due
  last_counted : last ≤ m.timerCount
  /-- Timeouts that wait come after the last one that fired. -/
  later : ∀ cb ∈ m.callbacks, cb.kind = .timeout → due < cb.due ∨ (due = cb.due ∧ last < cb.id)

namespace Booked

variable {limit due last : Nat} {T : List Tile} {m m' : Machine}

theorem start (limit : Nat) (log : Log) : Booked limit [] 0 0 (Machine.start limit log) where
  steps := rfl
  limit_eq := rfl
  fits := Nat.zero_le _
  increasing := .nil
  counted := by simp
  waiting := by simp [Machine.start]
  balance := .nil
  proper := by simp
  clock := rfl
  last_counted := Nat.zero_le _
  later := by simp [Machine.start]

section

variable (h : Booked limit T due last m)

include h

theorem of_eq (hsteps : m'.steps = m.steps)
    (hcallbacks : m'.callbacks = m.callbacks) (htimers : m'.timerCount = m.timerCount)
    (hclock : m'.clock = m.clock) : Booked limit T due last m' where
  steps := by rw [hsteps, h.steps]
  limit_eq := by rw [hsteps, h.limit_eq]
  fits := h.fits
  increasing := h.increasing
  counted := by rw [htimers]; exact h.counted
  waiting := by rw [hcallbacks]; exact h.waiting
  balance := by rw [hcallbacks]; exact h.balance
  proper := h.proper
  clock := by rw [hclock, h.clock]
  last_counted := by rw [htimers]; exact h.last_counted
  later := by rw [hcallbacks]; exact h.later

theorem of_aside (ha : m.Aside m') : Booked limit T due last m' :=
  h.of_eq ha.steps ha.callbacks ha.timerCount ha.clock

theorem size_eq : m.steps.size = (T.flatMap Tile.steps).length := by
  rw [← h.steps]
  exact Array.length_toList.symm

theorem fits_append (hroom : m.Room t.steps.length) :
    ((T ++ [t]).flatMap Tile.steps).length ≤ limit := by
  simp only [Room, h.size_eq, h.limit_eq] at hroom
  simpa using hroom

theorem nodup : (m.callbacks.map (·.id) ++
      (T.flatMap Tile.clearing ++ (T.flatMap Tile.framing ++ T.flatMap Tile.firing))).Nodup := by
  have hincreasing : ((T.flatMap Tile.registration).map (·.id)).Pairwise (· < ·) :=
    List.pairwise_map.2 h.increasing
  exact h.balance.nodup (hincreasing.imp Nat.ne_of_lt)

/-- A registered callback waits, was cleared, or had its turn: one of these, and once. -/
theorem one_place (hcb : cb ∈ T.flatMap Tile.registration) :
    (m.callbacks.map (·.id)).count cb.id + ((T.flatMap Tile.clearing).count cb.id +
      ((T.flatMap Tile.framing).count cb.id + (T.flatMap Tile.firing).count cb.id)) = 1 := by
  have hmem : cb.id ∈ (T.flatMap Tile.registration).map (·.id) := List.mem_map_of_mem hcb
  have hone := List.count_eq_one_of_mem (h.balance.symm.nodup h.nodup) hmem
  have hbalance := h.balance.count_eq cb.id
  simp only [List.count_append] at hbalance
  omega

theorem eq_of_id_eq {cb' : Callback}
    (hcb : cb ∈ T.flatMap Tile.registration) (hcb' : cb' ∈ T.flatMap Tile.registration)
    (hid : cb.id = cb'.id) : cb = cb' := by
  have hincreasing : ((T.flatMap Tile.registration).map (·.id)).Pairwise (· < ·) :=
    List.pairwise_map.2 h.increasing
  exact List.inj_on_of_nodup_map (hincreasing.imp Nat.ne_of_lt) hcb hcb' hid

theorem proper_append {t : Tile} (ht : t.Proper (T.flatMap Tile.registration)) :
    ∀ t' ∈ T ++ [t], t'.Proper ((T ++ [t]).flatMap Tile.registration) := by
  have hsub : T.flatMap Tile.registration ⊆ (T ++ [t]).flatMap Tile.registration := by
    rw [List.flatMap_append]
    exact List.subset_append_left _ _
  intro t' ht'
  rcases List.mem_append.1 ht' with hold | hnew
  · exact (h.proper t' hold).mono hsub
  · rw [List.mem_singleton.1 hnew]
    exact ht.mono hsub

theorem plain (hl : ∀ s ∈ l, s.isPlain = true)
    (hroom : m.Room l.length) : Booked limit (T ++ [.plain l hl]) due last (m.emitted l) where
  steps := by rw [toList_emitted, h.steps]; simp [Tile.steps]
  limit_eq := h.limit_eq
  fits := h.fits_append hroom
  increasing := by simpa [Tile.registration] using h.increasing
  counted := by simpa [Tile.registration] using h.counted
  waiting := by simpa [Tile.registration] using h.waiting
  balance := by
    simpa [Tile.registration, Tile.clearing, Tile.framing, Tile.firing] using h.balance
  proper := h.proper_append trivial
  clock := h.clock
  last_counted := h.last_counted
  later := h.later

/-- A new callback has the next number, and is due at the present time at the earliest. -/
theorem register (kind : TimerKind) (callback : Option Script.Expr)
    (delay line : Nat) (hroom : m.Room 4) :
    ∃ cb label, Booked limit (T ++ [.register cb line label]) due last
      (m.registered kind callback delay line) := by
  let cb : Callback :=
    { id := m.timerCount + 1, kind, callback, delay, due := m.clock + delay, scope := m.scope }
  refine ⟨cb, Run.timerLabel kind delay, ?_⟩
  have hcallbacks : (m.registered kind callback delay line).callbacks = m.callbacks ++ [cb] := rfl
  have htimers : (m.registered kind callback delay line).timerCount = m.timerCount + 1 := rfl
  constructor
  case steps =>
    change (m.emitted _).steps.toList = _
    rw [toList_emitted, h.steps]
    simp [Tile.steps, cb]
  case limit_eq => exact h.limit_eq
  case fits => exact h.fits_append hroom
  case increasing =>
    simp only [List.flatMap_append, List.flatMap_singleton, Tile.registration]
    refine List.pairwise_append.2 ⟨h.increasing, List.pairwise_singleton _ _, ?_⟩
    intro old hold new hnew
    rw [List.mem_singleton.1 hnew]
    exact Nat.lt_succ_of_le (h.counted old hold)
  case counted =>
    intro new hnew
    simp only [List.flatMap_append, List.flatMap_singleton, Tile.registration, List.mem_append,
      List.mem_singleton] at hnew
    rw [htimers]
    rcases hnew with hold | rfl
    · exact Nat.le_succ_of_le (h.counted new hold)
    · exact Nat.le_refl _
  case waiting =>
    intro new hnew
    rw [hcallbacks, List.mem_append] at hnew
    simp only [List.flatMap_append, List.flatMap_singleton, Tile.registration]
    exact List.mem_append.2 (hnew.imp_left (h.waiting new))
  case balance =>
    simp only [List.flatMap_append, List.flatMap_singleton, Tile.registration, Tile.clearing,
      Tile.framing, Tile.firing, List.append_nil, List.map_append, List.map_cons, List.map_nil,
      hcallbacks]
    refine List.perm_iff_count.2 fun id => ?_
    have hcount := h.balance.count_eq id
    simp only [List.count_append] at hcount ⊢
    omega
  case proper => exact h.proper_append trivial
  case clock => exact h.clock
  case last_counted => exact Nat.le_succ_of_le h.last_counted
  case later =>
    intro new hnew hkind
    rw [hcallbacks, List.mem_append, List.mem_singleton] at hnew
    rcases hnew with hold | rfl
    · exact h.later new hold hkind
    · -- it is due now at the earliest, and has a higher number than what fired last
      have hclock := h.clock
      have hlast := h.last_counted
      change due < m.clock + delay ∨ (due = m.clock + delay ∧ last < m.timerCount + 1)
      omega

omit h in
/-- Taking away one callback moves its number to the other side of the balance. -/
theorem perm_dropped {l : List Callback} {id : Nat} (hnodup : (l.map (·.id)).Nodup)
    (hmem : id ∈ l.map (·.id)) :
    (l.map (·.id)).Perm (id :: (l.filter (·.id != id)).map (·.id)) := by
  have hfilter : (l.filter (·.id != id)).map (·.id) = (l.map (·.id)).filter (· != id) := by
    rw [List.filter_map]
    rfl
  rw [hfilter, ← hnodup.erase_eq_filter]
  exact List.perm_cons_erase hmem

/-- What is left when a callback has left the Web APIs at a time `due'`, and `last'` is the last one
    that fired: the books are in balance if the tile `t` accounts for it. -/
theorem drop {id due' last' : Nat} {t : Tile}
    (hid : id ∈ m.callbacks.map (·.id)) (hsteps : m'.steps.toList = m.steps.toList ++ t.steps)
    (hlimit : m'.steps.limit = m.steps.limit) (hroom : m.Room t.steps.length)
    (hcallbacks : m'.callbacks = m.callbacks.filter (·.id != id))
    (htimers : m'.timerCount = m.timerCount) (hclock : m'.clock = due')
    (hregistration : t.registration = []) (hgone : t.clearing ++ (t.framing ++ t.firing) = [id])
    (hproper : t.Proper (T.flatMap Tile.registration)) (hlast : last' ≤ m.timerCount)
    (hlater : ∀ cb ∈ m.callbacks, cb.id ≠ id → cb.kind = .timeout →
      due' < cb.due ∨ (due' = cb.due ∧ last' < cb.id)) : Booked limit (T ++ [t]) due' last' m' where
  steps := by rw [hsteps, h.steps, List.flatMap_append, List.flatMap_singleton]
  limit_eq := by rw [hlimit, h.limit_eq]
  fits := h.fits_append hroom
  increasing := by
    rw [List.flatMap_append, List.flatMap_singleton, hregistration, List.append_nil]
    exact h.increasing
  counted := by
    rw [List.flatMap_append, List.flatMap_singleton, hregistration, List.append_nil, htimers]
    exact h.counted
  waiting := by
    intro cb hcb
    rw [hcallbacks] at hcb
    rw [List.flatMap_append]
    exact List.mem_append_left _ (h.waiting cb (List.mem_filter.1 hcb).1)
  balance := by
    simp only [List.flatMap_append, List.flatMap_singleton, hregistration, List.append_nil,
      hcallbacks]
    -- the number moves from what waits to what the tile accounts for
    refine List.perm_iff_count.2 fun j => ?_
    have hbalance := h.balance.count_eq j
    have hdropped := (perm_dropped (List.Nodup.of_append_left h.nodup) hid).count_eq j
    have hcount := congrArg (List.count j) hgone
    rw [List.count_cons] at hdropped
    rw [List.count_singleton] at hcount
    simp only [List.count_append] at hbalance hcount ⊢
    omega
  proper := h.proper_append hproper
  clock := hclock
  last_counted := by rw [htimers]; exact hlast
  later := by
    intro cb hcb
    rw [hcallbacks, List.mem_filter] at hcb
    exact hlater cb hcb.1 (by simpa using hcb.2)

theorem clear {cb : Callback} (line : Nat) (label : String)
    (hcb : cb ∈ m.callbacks) (hroom : m.Room 4) :
    Booked limit (T ++ [.clear cb.id line label]) due last
      ((m.dropped cb.id).emitted [.highlight line, .push label, .webapiRemove cb.id, .pop]) :=
  h.drop (List.mem_map_of_mem hcb) (toList_emitted _ _) rfl hroom rfl rfl h.clock rfl rfl trivial
    h.last_counted fun cb hcb _ => h.later cb hcb

theorem frameTurn (log : Log) (hid : cb.id ∈ m.callbacks.map (·.id))
    (hcb : cb ∈ T.flatMap Tile.registration) (hkind : cb.kind = .frame) (hroom : m.Room 3) :
    Booked limit (T ++ [.frame cb]) due last
      (((m.dropped cb.id).emitted cb.frameSteps).logged log) :=
  h.drop hid (toList_emitted _ _) rfl hroom rfl rfl h.clock rfl rfl
    ⟨hcb, hkind⟩ h.last_counted fun cb hcb _ => h.later cb hcb

end

end Booked

end Machine

namespace Machine

variable {due last limit : Nat} {m m' : Machine}

namespace Booked

variable {limit due last : Nat} {T : List Tile} {m m' : Machine}

/-- The next timer has its turn, at the time at which it is due. -/
theorem timerTurn (h : Booked limit T due last m) (log : Log)
    (hnext : Run.nextTimer m.callbacks = some cb) (hroom : m.Room 3) :
    Booked limit (T ++ [.timer cb]) cb.due cb.id
      (((m.advanced cb).emitted cb.timerSteps).logged log) := by
  obtain ⟨hcb, hkind, hfirst⟩ := Run.nextTimer_some hnext
  have hclock : max m.clock cb.due = cb.due := by
    have hlater := h.later cb hcb hkind
    rw [h.clock]
    omega
  refine h.drop (List.mem_map_of_mem hcb) (toList_emitted _ _) rfl hroom rfl rfl hclock rfl rfl
    ⟨h.waiting cb hcb, hkind⟩ (h.counted cb (h.waiting cb hcb)) fun other hother hid hk => ?_
  have hafter := hfirst other hother hk
  rw [← Bool.not_eq_true, Run.firesBefore_iff] at hafter
  omega

end Booked

/-! ## Code and microtasks -/

/-- Since the tiles `T`, the timers with the numbers `fired` have had their turns, and the books are
    in balance. -/
def BookedSince (limit : Nat) (T : List Tile) (fired : List Nat) (due last : Nat) (m : Machine) :
    Prop :=
  ∃ T', T'.flatMap Tile.firing = fired ∧ Booked limit (T ++ T') due last m

theorem Booked.since (h : Booked limit T due last m) : BookedSince limit T [] due last m :=
  ⟨[], rfl, by rwa [List.append_nil]⟩

namespace BookedSince

variable {limit due last due' last' : Nat} {T : List Tile} {fired fired' : List Nat}
  {m m' : Machine}

theorem bind (h : BookedSince limit T fired due last m)
    (hnext : ∀ T', Booked limit (T ++ T') due last m →
      BookedSince limit (T ++ T') fired' due' last' m') :
    BookedSince limit T (fired ++ fired') due' last' m' := by
  obtain ⟨T1, hfired1, hbooked1⟩ := h
  obtain ⟨T2, hfired2, hbooked2⟩ := hnext T1 hbooked1
  exact ⟨T1 ++ T2, by rw [List.flatMap_append, hfired1, hfired2], by rwa [← List.append_assoc]⟩

theorem map (h : BookedSince limit T fired due last m)
    (hnext : ∀ T, Booked limit T due last m → Booked limit T due last m') :
    BookedSince limit T fired due last m' := by
  obtain ⟨T', hfired, hbooked⟩ := h
  exact ⟨T', hfired, hnext _ hbooked⟩

theorem quiet (h : BookedSince limit T [] due last m)
    (hnext : ∀ T, Booked limit T due last m → BookedSince limit T [] due last m') :
    BookedSince limit T [] due last m' := h.bind fun _ => hnext _

end BookedSince

namespace Booked

variable {limit due last : Nat} {T : List Tile} {m m' : Machine}

theorem since_plain (h : Booked limit T due last m) (hl : ∀ s ∈ l, s.isPlain = true)
    (hroom : m.Room l.length) : BookedSince limit T [] due last (m.emitted l) :=
  ⟨[.plain l hl], rfl, h.plain hl hroom⟩

theorem entered (h : Booked limit T due last m) (f : Function) (args : List Value) (line : Nat)
    (label : String) (hroom : m.Room 2) : BookedSince limit T [] due last
      ((m.emitted [.highlight line, .push label]).entered f args) := by
  have hplain : ∀ s ∈ [Step.highlight line, Step.push label], s.isPlain = true := by
    simp [Step.isPlain, Step.highlight, Step.push]
  exact (h.since_plain hplain hroom).map fun T h => h.of_eq rfl rfl rfl rfl

theorem left (h : Booked limit T due last m') (m : Machine) (hroom : m'.Room 1) :
    BookedSince limit T [] due last ((m'.back m).emitted [.pop]) := by
  have hback : Booked limit T due last (m'.back m) := h.of_eq rfl rfl rfl rfl
  exact hback.since_plain (by simp [Step.isPlain, Step.pop]) hroom

theorem move (h : Booked limit T due last m) (hmove : Move m m') :
    BookedSince limit T [] due last m' := by
  cases hmove with
  | data | declare | assign | define | nest =>
    refine Booked.since ?_
    exact h.of_eq rfl rfl rfl rfl
  | burst hl hroom =>
    refine h.since_plain ?_ hroom
    cases hl <;>
      simp [Step.isPlain, Step.glance, Step.highlight, Step.push, Step.pop, Step.console]
  | register kind callback delay line hroom =>
    obtain ⟨cb, label, hbooked⟩ := h.register kind callback delay line hroom
    exact ⟨_, rfl, hbooked⟩
  | clear line label hcb hroom => exact ⟨_, rfl, h.clear line label hcb hroom⟩
  | promise state value => exact (h.of_aside (aside_withPromise m state value)).since
  | mark name state value hmark =>
    obtain ⟨log, rfl⟩ := Run.enqueue_inv hmark
    exact (h.of_aside (aside_queued m name m.scope none state value log)).since
  | attach name l callback state receiver hattach => exact (h.of_aside (attach_aside hattach)).since

end Booked

/-- Code that does not fail fires no timer and keeps the books. -/
theorem Walk.booked {e : Ending} (h : m.Walk tame depth e m') (he : e ≠ .failed)
    (hm : Booked limit T due last m) : BookedSince limit T [] due last m' := by
  induction h generalizing T with
  | refl => exact hm.since
  | trans _ _ ih1 ih2 => exact (ih1 (by simp) hm).quiet fun T hm1 => ih2 he hm1
  | move h => exact hm.move h
  | fail | slip | cut => exact absurd rfl he
  | within scope _ ih =>
    exact (ih he (hm.of_eq rfl rfl rfl rfl)).map fun T h => h.of_eq rfl rfl rfl rfl
  | @suspend _ m _ _ frame _ target _ _ h =>
    have hnew : Booked limit T due last (m.withContinuation frame target) :=
      hm.of_eq rfl rfl rfl rfl
    exact (hnew.of_aside (Run.suspend_inv h).2.aside).since
  | defer _ _ _ ih => exact (ih he hm).map fun T h => h.of_eq rfl rfl rfl rfl
  | skip _ _ ih => exact ih (by simp) hm
  | @call _ m m' _ f args label line hroom _ hfailed _ hpop ih =>
    refine (hm.entered f args line label hroom).quiet fun T h => ?_
    exact (ih hfailed h).quiet fun T h => h.left m hpop
  | @settled _ m m' _ f args label line _ log hroom _ _ hpop hsettle ih =>
    refine (hm.entered f args line label hroom).quiet fun T h => ?_
    refine (ih (by simp) h).quiet fun T h => (h.left m hpop).map fun T h => ?_
    have hlogged : Booked limit T due last (((m'.back m).emitted [.pop]).logged log) :=
      h.of_eq rfl rfl rfl rfl
    exact hlogged.of_aside (aside_of_settle hsettle)

theorem Serves.booked {t : Microtask} (h : m.Serves tame t .done m')
    (hm : Booked limit T due last m) : BookedSince limit T [] due last m' := by
  have hlogged {T : List Tile} {m : Machine} (h : Booked limit T due last m) (log : Log) :
      Booked limit T due last (m.logged log) := h.of_eq rfl rfl rfl rfl
  have hresumed {depth : Nat} {e : Ending} {m1 : Machine} {c : Continuation} {label : String}
      (hroom : m.Room 1)
      (hw : ((m.resumed c).emitted [.push label]).Walk tame depth e m1) (he : e ≠ .failed)
      (hpop : m1.Room 1) : BookedSince limit T [] due last ((m1.back m).emitted [.pop]) := by
    have hm' : Booked limit T due last (m.resumed c) := hm.of_eq rfl rfl rfl rfl
    refine (hm'.since_plain (l := [.push label]) (by simp [Step.isPlain, Step.push]) hroom).quiet
      fun T h => ?_
    exact (hw.booked he h).quiet fun T h => h.left m hpop
  cases h with
  | mark => exact hm.since
  | link _ hw hs => exact (hw.booked (by simp) hm).map fun T h => h.of_aside (aside_of_settle hs)
  | rejected log _ _ hs => exact ((hlogged hm log).of_aside (aside_of_settle hs)).since
  | abandoned log => exact (hlogged hm log).since
  | resumed log _ hroom hw he _ hpop =>
    exact (hresumed hroom hw he hpop).map fun T h => hlogged h log
  | finished log _ hroom hw _ hpop hs =>
    exact (hresumed hroom hw (by simp) hpop).map fun T h =>
      (hlogged h log).of_aside (aside_of_settle hs)

theorem Drains.booked (h : m.Drains .done m') (hm : Booked limit T due last m) :
    BookedSince limit T [] due last m' := by
  generalize he : Ending.done = e at h
  induction h generalizing T with
  | idle => exact hm.since
  | cut | failed => cases he
  | @turn m m1 m' t e log _ hroom hs _ ih =>
    have htaken : Booked limit T due last m.taken := hm.of_eq rfl rfl rfl rfl
    have hshown : ∀ s ∈ t.steps, s.isPlain = true := by
      simp [Microtask.steps, Step.isPlain, Step.microtaskAdd, Step.microtaskRemove, Step.enqueue,
        Step.dequeue]
    refine (htaken.since_plain hshown hroom).quiet fun T h => ?_
    refine (hs.booked (h.of_eq rfl rfl rfl rfl)).quiet fun T h => ?_
    exact ih h he

/-- The turn of a callback, once its own tile is in the books. -/
theorem Fires.booked {shown : List Step} (h : m.Fires shown .done m')
    (hm : ∀ log, m.Room shown.length → Booked limit T due last ((m.emitted shown).logged log)) :
    BookedSince limit T [] due last m' := by
  cases h with
  | fired log hroom hw hd =>
    exact (hw.booked (by simp) (hm log hroom)).quiet fun T h => hd.booked h

end Machine

end EventLoop
