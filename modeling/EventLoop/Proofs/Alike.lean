/-
  Two runs side by side.

  Two states are alike (`Machine.Alike n`) if they differ only in how often the code was suspended
  on the way.  `Follows R act act'` compares two actions from such states, and `Repeats` is the case
  of one action that gives the same result twice.  The elementary actions and the built-in calls are
  of this kind; what reacts to a promise is compared without the numbers of continuations.

  For evaluated code the proofs follow the program text.  Statements end in the same way
  (`Outcome.Like`).  The way in which functions are called is a parameter (`CallsRepeat`), and
  `invoke_repeats` closes the knot by induction on the depth of nesting that is left.
-/
import EventLoop.Machine.Reaction
import EventLoop.Proofs.Action
import EventLoop.Proofs.Congruence

namespace EventLoop

open Script

variable {α β γ δ : Type} {m m' : Machine} {n : Nat}

/-! ## States that are alike -/

/-- A reaction without the number of the continuation that it resumes. -/
def Reaction.wiped : Reaction → Reaction
  | .resume _ => .resume 0
  | .link l callback derived => .link l callback derived

/-- A waiter without the number of the continuation that it resumes. -/
def Waiter.wiped (w : Waiter) : Waiter := { w with reaction := w.reaction.wiped }

/-- A promise whose waiters are without the numbers of continuations. -/
def Promise.wiped (p : Promise) : Promise := { p with waiters := p.waiters.map Waiter.wiped }

namespace Machine

/-- Two states that differ only in suspensions: `m'` has had `n` microtasks more than `m`. -/
structure Alike (n : Nat) (m m' : Machine) : Prop where
  tables : m'.tables = m.tables
  arrays : m'.arrays = m.arrays
  promises : m'.promises.map Promise.wiped = m.promises.map Promise.wiped
  scope : m'.scope = m.scope
  registry : m'.registry = m.registry
  functionCount : m'.functionCount = m.functionCount
  frames : m'.frames = m.frames
  console : Step.consoleLines m'.steps.toList = Step.consoleLines m.steps.toList
  microtasks : m'.microtasks.size = m.microtasks.size + n
  cursor : m'.cursor = m.cursor + n
  callbacks : m'.callbacks = m.callbacks
  timerCount : m'.timerCount = m.timerCount
  clock : m'.clock = m.clock
  rootState : m'.rootState = m.rootState
  warnings : m'.warnings = m.warnings

theorem Alike.refl (m : Machine) : m.Alike 0 m :=
  ⟨rfl, rfl, rfl, rfl, rfl, rfl, rfl, rfl, rfl, rfl, rfl, rfl, rfl, rfl, rfl⟩

end Machine

/-- The results `r` and `r'` of two actions: if `r` is a value, so is `r'`, related to it by `R` and
    in a state that is alike, or `r'` is the fault of the limit on steps. -/
def Agrees (n : Nat) (R : α → β → Prop) (r : EStateM.Result Fault Machine α)
    (r' : EStateM.Result Fault Machine β) : Prop :=
  ∀ a m, r = .ok a m → (∃ m', r' = .error .stepLimit m') ∨
    ∃ a' m', r' = .ok a' m' ∧ R a a' ∧ m.Alike n m'

namespace Run

variable {act : Run α}

/-- From states that are alike, the two actions give results that agree. -/
def Follows (R : α → β → Prop) (act : Run α) (act' : Run β) : Prop :=
  ∀ (n : Nat) (m m' : Machine), m.Alike n m' → Agrees n R (act m) (act' m')

/-- From states that are alike, the action gives the same result. -/
def Repeats (act : Run α) : Prop := Follows Eq act act

namespace Follows

variable {R : α → β → Prop} {S : γ → δ → Prop}

theorem bind {act' : Run β} {f : α → Run γ} {f' : β → Run δ} (h : Follows R act act')
    (hf : ∀ a a', R a a' → Follows S (f a) (f' a')) : Follows S (act >>= f) (act' >>= f') := by
  intro n m m' hm c mc hc
  rw [bind_apply] at hc
  cases ha : act m with
  | error fault m1 => simp [ha] at hc
  | ok a m1 =>
    simp only [ha] at hc
    rcases h n m m' hm a m1 ha with ⟨m1', h'⟩ | ⟨a', m1', h', hR, hm1⟩
    · exact .inl ⟨m1', by simp [h']⟩
    · simpa [h'] using hf a a' hR n m1 m1' hm1 c mc hc

theorem pure {a : α} {a' : β} (h : R a a') : Follows R (pure a) (pure a') := by
  intro n m m' hm b mb hb
  obtain ⟨rfl, rfl⟩ : a = b ∧ m = mb := by simpa using hb
  exact .inr ⟨a', m', rfl, h, hm⟩

theorem map {act' : Run β} {f : α → γ} {f' : β → δ} (h : Follows R act act')
    (hf : ∀ a a', R a a' → S (f a) (f' a')) : Follows S (f <$> act) (f' <$> act') := by
  rw [← bind_pure_comp, ← bind_pure_comp]
  exact h.bind fun a a' hR => pure (hf a a' hR)

theorem get_bind {f : Machine → Run γ} {f' : Machine → Run δ}
    (h : ∀ (n : Nat) (m m' : Machine), m.Alike n m' → Follows S (f m) (f' m')) :
    Follows S (get >>= f) (get >>= f') :=
  fun n m m' hm => h n m m' hm n m m' hm

theorem modifyGet {g : Machine → α × Machine} {g' : Machine → β × Machine}
    (h : ∀ (n : Nat) (m m' : Machine), m.Alike n m' →
      R (g m).1 (g' m').1 ∧ (g m).2.Alike n (g' m').2) :
    Follows R (modifyGet g) (modifyGet g') := by
  intro n m m' hm a ma ha
  obtain ⟨rfl, rfl⟩ : (g m).1 = a ∧ (g m).2 = ma := by simpa using ha
  exact .inr ⟨_, _, rfl, h n m m' hm⟩

theorem modify {g g' : Machine → Machine}
    (h : ∀ (n : Nat) (m m' : Machine), m.Alike n m' → (g m).Alike n (g' m')) :
    Follows Eq (modify g : Run PUnit) (modify g') :=
  modifyGet fun n m m' hm => ⟨rfl, h n m m' hm⟩

end Follows

namespace Repeats

variable {S : γ → δ → Prop}

theorem pure (a : α) : Repeats (pure a : Run α) := Follows.pure rfl

theorem bind {f : α → Run β} (h : Repeats act) (hf : ∀ a, Repeats (f a)) : Repeats (act >>= f) :=
  Follows.bind h (by rintro a _ rfl; exact hf a)

theorem bind_follows {f : α → Run γ} {f' : α → Run δ} (h : Repeats act)
    (hf : ∀ a, Follows S (f a) (f' a)) : Follows S (act >>= f) (act >>= f') :=
  Follows.bind h (by rintro a _ rfl; exact hf a)

theorem map (f : α → β) (h : Repeats act) : Repeats (f <$> act) :=
  Follows.map h (by rintro a _ rfl; rfl)

theorem get_bind {f : Machine → Run β}
    (hf : ∀ (n : Nat) (m m' : Machine), m.Alike n m' → f m' = f m) (h : ∀ m, Repeats (f m)) :
    Repeats (get >>= f) :=
  Follows.get_bind fun n m m' hm => (hf n m m' hm).symm ▸ h m

theorem lift (r : Except Fault α) : Repeats (lift r) := by
  cases r with
  | ok a => exact .pure a
  | error fault =>
    intro n m m' hm a ma ha
    simp [Run.lift] at ha

end Repeats

/-! ## Steps, values and bindings -/

theorem note_repeats (level : Nat) (line : Log.Line) : Repeats (note level line) :=
  Follows.modify fun _ _ _ hm => { hm with }

end Run

theorem Step.consoleLines_append (l l' : List Step) :
    Step.consoleLines (l ++ l') = Step.consoleLines l ++ Step.consoleLines l' :=
  List.filterMap_append

/-- Steps that are no console lines change nothing that is compared. -/
theorem Machine.Alike.emitted (hm : m.Alike n m') {l : List Step} (hl : Step.consoleLines l = [])
    (log : Log) : m.Alike n ((m'.emitted l).logged log) :=
  { hm with console := by simp [Step.consoleLines_append, hl, hm.console] }

namespace Run

theorem emit_repeats (s : Step) : Repeats (emit s) := by
  intro n m m' hm a ma ha
  rcases emit_cases s m with ⟨_, log, h⟩ | ⟨_, h⟩
  case inr => simp [h] at ha
  obtain rfl : (m.emitted [s]).logged log = ma := by simpa [h] using ha
  rcases emit_cases s m' with ⟨_, log', h'⟩ | ⟨_, h'⟩
  case inr => exact .inl ⟨m', h'⟩
  refine .inr ⟨(), _, h', rfl, { hm with console := ?_ }⟩
  simp [Step.consoleLines_append, hm.console]

theorem emitAll_repeats (l : List Step) : Repeats (emitAll l) := by
  induction l with
  | nil => exact .pure ()
  | cons s l ih => exact (emit_repeats s).bind fun _ => ih

theorem warn_repeats (text : String) : Repeats (warn text) :=
  Repeats.bind (Follows.modify fun _ _ _ hm => { hm with warnings := by simp [hm.warnings] })
    fun _ => note_repeats _ _

theorem textOf_repeats (v : Value) : Repeats (textOf v) :=
  .get_bind (fun _ _ _ hm => by rw [hm.arrays]) fun _ => .lift _

theorem tell_repeats (msg : Message) : Repeats (tell msg) := by
  refine .get_bind (fun _ m m' hm => ?_) fun _ => (Repeats.lift _).bind fun _ => note_repeats _ _
  cases msg with
  | declared | condition => simp only [Message.text, hm.arrays]
  | registered => rfl
  | fired => simp only [Message.text, hm.clock]

theorem applyOp_repeats (op : BinaryOp) (a b : Value) : Repeats (applyOp op a b) :=
  .get_bind (fun _ _ _ hm => by rw [hm.arrays]) fun _ => .lift _

theorem newArray_repeats (items : List Value) : Repeats (newArray items) :=
  Follows.modifyGet fun _ _ _ hm => ⟨by rw [hm.arrays], { hm with arrays := by rw [hm.arrays] }⟩

theorem itemsOf_repeats (id : Nat) : Repeats (itemsOf id) :=
  .get_bind (fun _ _ _ hm => by rw [hm.arrays]) fun _ => .pure _

theorem pushItems_repeats (id : Nat) (items : List Value) : Repeats (pushItems id items) :=
  Repeats.bind (Follows.modify fun _ _ _ hm => { hm with arrays := by rw [hm.arrays] })
    fun _ => (itemsOf_repeats id).bind fun _ => .pure _

theorem newFunction_repeats (name : String) (params : List String) (body : Body) (isAsync : Bool)
    (line : Nat) (scope : Scope) : Repeats (newFunction name params body isAsync line scope) :=
  Follows.modifyGet fun _ _ _ hm =>
    ⟨by rw [hm.functionCount], { hm with functionCount := by rw [hm.functionCount] }⟩

theorem lookup_repeats (x : String) : Repeats (lookup x) := by
  refine .get_bind (fun _ _ _ hm => by rw [hm.tables, hm.scope, hm.registry]) fun m => ?_
  cases m.tables.get? m.scope x with
  | some v => exact .pure v
  | none =>
    cases m.registry.lookup x with
    | some f => exact .pure _
    | none => exact .pure _

theorem isBound_repeats (x : String) : Repeats (isBound x) :=
  .get_bind (fun _ _ _ hm => by rw [hm.tables, hm.scope, hm.registry]) fun _ => .pure _

theorem declare_repeats (x : String) (v : Value) : Repeats (declare x v) :=
  Follows.modify fun _ _ _ hm => { hm with tables := by rw [hm.tables, hm.scope] }

theorem assign_repeats (x : String) (v : Value) : Repeats (assign x v) :=
  Follows.modify fun _ _ _ hm => { hm with tables := by rw [hm.tables, hm.scope] }

theorem bindFunction_repeats (name : String) (params : List String) (body : Block) (isAsync : Bool)
    (line : Nat) : Repeats (bindFunction name params body isAsync line) := by
  refine .get_bind (fun _ _ _ hm => by rw [hm.scope]) fun m => ?_
  refine (newFunction_repeats name params (.block body) isAsync line m.scope).bind fun f => ?_
  refine (declare_repeats name (.function f)).bind fun _ => Follows.modify fun n m m' hm => ?_
  rw [hm.scope]
  split
  · exact { hm with scope := rfl, registry := by rw [hm.registry] }
  · exact hm

/-! ## Scopes and frames -/

theorem newScope_repeats (outer : Scope) (bindings : Bindings) :
    Repeats (newScope outer bindings) :=
  Follows.modifyGet fun _ _ _ hm => ⟨by rw [hm.tables], { hm with tables := by rw [hm.tables] }⟩

section Within

variable {R : α → β → Prop} {act : Run α} {act' : Run β}

theorem restoring_agrees (scope : Scope) (frames : List Frame) (h : Agrees n R (act m) (act' m')) :
    Agrees n R (restoring scope frames act m) (restoring scope frames act' m') := by
  intro a ma ha
  cases hact : act m with
  | error fault m1 => simp [restoring, hact] at ha
  | ok b m1 =>
    obtain ⟨rfl, rfl⟩ : b = a ∧ { m1 with scope, frames } = ma := by
      simpa [restoring, hact] using ha
    rcases h b m1 hact with ⟨m1', h'⟩ | ⟨a', m1', h', hR, hm1⟩
    · exact .inl ⟨{ m1' with scope, frames }, by simp [restoring, h']⟩
    · exact .inr ⟨a', { m1' with scope, frames }, by simp [restoring, h'], hR,
        { hm1 with scope := rfl, frames := rfl }⟩

theorem inScope_follows (scope : Scope) (h : Follows R act act') :
    Follows R (inScope scope act) (inScope scope act') := by
  intro n m m' hm
  rw [inScope, inScope, hm.scope, hm.frames]
  exact restoring_agrees m.scope m.frames (h n _ _ { hm with scope := rfl, frames := rfl })

theorem nested_follows (h : Follows R act act') : Follows R (nested act) (nested act') := by
  refine Follows.get_bind fun n m m' hm => ?_
  rw [hm.scope]
  exact (newScope_repeats m.scope []).bind_follows fun scope => inScope_follows scope h

theorem inFrame_follows (scope : Scope) (frame : Frame) (h : Follows R act act') :
    Follows R (inFrame scope frame act) (inFrame scope frame act') := by
  intro n m m' hm
  rw [inFrame, inFrame, hm.scope, hm.frames]
  exact restoring_agrees m.scope m.frames (h n _ _ { hm with scope := rfl, frames := rfl })

end Within

theorem renewScope_repeats : Repeats renewScope := by
  refine .get_bind (fun _ _ _ hm => by rw [hm.scope, hm.tables]) fun m => ?_
  exact (newScope_repeats _ _).bind fun scope => Follows.modify fun _ _ _ hm =>
    { hm with scope := rfl }

theorem asyncFrame_repeats : Repeats asyncFrame? :=
  .get_bind (fun _ _ _ hm => by rw [hm.frames]) fun _ => .pure _

end Run

/-! ## Promises -/

/-- A change of one item that `g` does not see, or sees in the same way, leaves images equal. -/
theorem map_modify_congr {g : α → β} {f f' : α → α} {ps ps' : Array α}
    (h : ps'.map g = ps.map g) (hf : ∀ p p', g p' = g p → g (f' p') = g (f p)) (id : Nat) :
    (ps'.modify id f').map g = (ps.modify id f).map g := by
  have hget (i : Nat) : ps'[i]?.map g = ps[i]?.map g := by
    rw [← Array.getElem?_map, ← Array.getElem?_map, h]
  refine Array.ext_getElem? fun i => ?_
  rw [Array.getElem?_map, Array.getElem?_map, Array.getElem?_modify, Array.getElem?_modify]
  split
  · cases hp : ps[i]? with
    | none => simpa [hp] using hget i
    | some p =>
      obtain ⟨p', hp', hg⟩ : ∃ p', ps'[i]? = some p' ∧ g p' = g p := by simpa [hp] using hget i
      simp [hp', hf p p' hg]
  · exact hget i

namespace Promise

variable {p p' : Promise}

theorem state_of_wiped (h : p'.wiped = p.wiped) : p'.state = p.state :=
  (congrArg Promise.state h : p'.wiped.state = p.wiped.state)

theorem value_of_wiped (h : p'.wiped = p.wiped) : p'.value = p.value :=
  (congrArg Promise.value h : p'.wiped.value = p.wiped.value)

theorem waiters_of_wiped (h : p'.wiped = p.wiped) :
    p'.waiters.map Waiter.wiped = p.waiters.map Waiter.wiped :=
  (congrArg Promise.waiters h : p'.wiped.waiters = p.wiped.waiters)

end Promise

/-- A promise is the same in states that are alike, apart from the numbers of continuations. -/
theorem Machine.Alike.promise (hm : m.Alike n m') (id : Nat) :
    (m'.promises[id]?.getD { state := .fulfilled }).wiped =
      (m.promises[id]?.getD { state := .fulfilled }).wiped := by
  have hget : m'.promises[id]?.map Promise.wiped = m.promises[id]?.map Promise.wiped := by
    rw [← Array.getElem?_map, ← Array.getElem?_map, hm.promises]
  cases hp : m.promises[id]? with
  | none =>
    have hp' : m'.promises[id]? = none := by simpa [hp] using hget
    simp [hp']
  | some p =>
    obtain ⟨p', hp', hw⟩ : ∃ p', m'.promises[id]? = some p' ∧ p'.wiped = p.wiped := by
      simpa [hp] using hget
    simpa [hp'] using hw

namespace Run

theorem newPromise_repeats (state : PromiseState) (value : Value) :
    Repeats (newPromise state value) :=
  Follows.modifyGet fun _ m m' hm => by
    have hsize : m'.promises.size = m.promises.size := by
      simpa using congrArg Array.size hm.promises
    exact ⟨hsize.symm, { hm with promises := by simp [Array.map_push, hm.promises] }⟩

theorem promiseOf_follows (id : Nat) :
    Follows (fun p p' => p'.wiped = p.wiped) (promiseOf id) (promiseOf id) :=
  Follows.get_bind fun _ _ _ hm => Follows.pure (hm.promise id)

theorem stateOf_repeats (v : Value) : Repeats (stateOf v) := by
  cases v with
  | promise id =>
    exact (promiseOf_follows id).bind fun p p' hp => .pure (Promise.state_of_wiped hp).symm
  | _ => exact .pure _

theorem settledValue_repeats (v : Value) : Repeats (settledValue v) := by
  cases v with
  | promise id =>
    exact (promiseOf_follows id).bind fun p p' hp => .pure (Promise.value_of_wiped hp).symm
  | _ => exact .pure _

theorem stateOf_of_alike (hm : m.Alike n m') {v : Value} {s : PromiseState}
    (h : stateOf v m = .ok s m) : stateOf v m' = .ok s m' := by
  cases v with
  | promise id =>
    obtain rfl : (m.promises[id]?.getD { state := .fulfilled }).state = s := by
      simpa [stateOf, promiseOf] using h
    simp [stateOf, promiseOf, Promise.state_of_wiped (hm.promise id)]
  | _ =>
    cases h
    rfl

theorem settledValue_of_alike (hm : m.Alike n m') {v w : Value} (h : settledValue v m = .ok w m) :
    settledValue v m' = .ok w m' := by
  cases v with
  | promise id =>
    obtain rfl : (m.promises[id]?.getD { state := .fulfilled }).value = w := by
      simpa [settledValue, promiseOf] using h
    simp [settledValue, promiseOf, Promise.value_of_wiped (hm.promise id)]
  | _ =>
    cases h
    rfl

/-! ## Reactions -/

/-- Whatever is queued on the two sides, each has one more microtask. -/
theorem enqueue_follows {name name' : String} {scope scope' : Scope}
    {reaction reaction' : Option Reaction} {state state' : PromiseState} {value value' : Value} :
    Follows Eq (enqueue name scope reaction state value)
      (enqueue name' scope' reaction' state' value') := by
  intro n m m' hm a ma ha
  obtain ⟨log, h⟩ := enqueue_apply name scope reaction state value m
  obtain ⟨log', h'⟩ := enqueue_apply name' scope' reaction' state' value' m'
  obtain rfl : (m.queued name scope reaction state value).logged log = ma := by
    simpa [h] using ha
  refine .inr ⟨(), _, h', rfl, { hm with microtasks := ?_ }⟩
  simp only [Machine.logged, Machine.queued, Array.size_push, hm.microtasks]
  omega

theorem parkOn_follows (id : Nat) {w w' : Waiter} (hw : w'.wiped = w.wiped) :
    Follows Eq (parkOn id w) (parkOn id w') := by
  have hpark (p p' : Promise) (hp : p'.wiped = p.wiped) :
      ({ p' with waiters := p'.waiters ++ [w'] } : Promise).wiped =
        ({ p with waiters := p.waiters ++ [w] } : Promise).wiped := by
    simp [Promise.wiped, hw, Promise.state_of_wiped hp, Promise.value_of_wiped hp,
      Promise.waiters_of_wiped hp]
  exact Follows.modify fun _ m m' hm =>
    { hm with promises := map_modify_congr hm.promises hpark id }

theorem react_follows {w w' : Waiter} (hw : w'.wiped = w.wiped) (value : Value)
    (state : PromiseState) (subject : String) :
    Follows Eq (react w value state subject) (react w' value state subject) := by
  cases value with
  | promise id =>
    refine (promiseOf_follows id).bind fun p p' hp => ?_
    rw [Promise.state_of_wiped hp]
    split
    · exact (parkOn_follows id hw).bind fun _ _ _ => note_repeats _ _
    · exact enqueue_follows
  | _ => exact enqueue_follows

theorem settleOne_follows (id : Nat) (state : PromiseState) (value : Value) :
    Follows (fun ws ws' => ws'.map Waiter.wiped = ws.map Waiter.wiped) (settleOne id state value)
      (settleOne id state value) := by
  refine (promiseOf_follows id).bind fun p p' hp => ?_
  refine Follows.bind (Follows.modify fun _ m m' hm => { hm with promises := ?_ }) fun _ _ _ =>
    .pure (Promise.waiters_of_wiped hp)
  exact map_modify_congr hm.promises (fun _ _ _ => rfl) id

/-- Waiters are released alike if only their continuations have other numbers. -/
theorem release_follows (state : PromiseState) (value : Value) (fuel : Nat)
    {ws ws' : List Waiter} (hws : ws'.map Waiter.wiped = ws.map Waiter.wiped) :
    Follows Eq (release state value fuel ws) (release state value fuel ws') := by
  induction fuel generalizing ws ws' with
  | zero => exact .pure rfl
  | succ fuel ih =>
    cases ws with
    | nil =>
      obtain rfl : ws' = [] := by simpa using hws
      exact .pure rfl
    | cons w ws =>
      obtain ⟨w', ws', rfl, hw, hrest⟩ : ∃ w' l, ws' = w' :: l ∧ w'.wiped = w.wiped ∧
          l.map Waiter.wiped = ws.map Waiter.wiped := by
        simpa using List.map_eq_cons_iff.1 hws
      have hreaction : w'.reaction.wiped = w.reaction.wiped := congrArg Waiter.reaction hw
      cases hr : w.reaction with
      | resume k =>
        -- the numbers of the two continuations need not be the same
        obtain ⟨k', hr'⟩ : ∃ k', w'.reaction = .resume k' := by
          cases hr' : w'.reaction with
          | resume k' => exact ⟨k', rfl⟩
          | link => simp [hr, hr', Reaction.wiped] at hreaction
        simp only [release, hr, hr']
        exact enqueue_follows.bind fun _ _ _ => ih hrest
      | link l callback derived =>
        have hr' : w'.reaction = .link l callback derived := by
          cases hr' : w'.reaction with
          | resume => simp [hr, hr', Reaction.wiped] at hreaction
          | link => simpa [hr, hr', Reaction.wiped] using hreaction
        simp only [release, hr, hr']
        split
        · exact enqueue_follows.bind fun _ _ _ => ih hrest
        · exact (settleOne_follows derived state value).bind fun more more' hmore =>
            ih (by simp [hmore, hrest])

theorem parkedCount_of_alike (hm : m.Alike n m') : parkedCount m' = parkedCount m := by
  have hcount (m : Machine) :
      parkedCount m = (allWaiters (m.promises.map Promise.wiped)).length := by
    simp [parkedCount_eq, allWaiters, List.length_flatMap, Function.comp_def, Promise.wiped]
  rw [hcount, hcount, hm.promises]

theorem settle_repeats (id : Nat) (state : PromiseState) (value : Value) :
    Repeats (settle id state value) :=
  Follows.get_bind fun n m m' hm => by
    rw [parkedCount_of_alike hm]
    exact (settleOne_follows id state value).bind fun ws ws' hws => release_follows _ _ _ hws

/-- The number of the continuation may differ. -/
theorem suspend_follows (frame : Frame) (value : Value) (target : Target) :
    Follows (fun _ _ => True) (suspend frame value target) (suspend frame value target) := by
  have hnew : Follows (fun _ _ => True) (newContinuation frame target)
      (newContinuation frame target) :=
    Follows.modifyGet fun _ _ _ hm => ⟨trivial, { hm with }⟩
  refine hnew.bind fun k k' _ => Follows.get_bind fun n m m' hm => ?_
  rw [hm.scope]
  refine (stateOf_repeats value).bind_follows fun state => ?_
  refine (react_follows ?_ value state _).bind fun _ _ _ => .pure trivial
  rfl

theorem defer_follows (k k' : Nat) (stmts stmts' : List Stmt) :
    Follows Eq (defer k stmts) (defer k' stmts') :=
  Follows.modify fun _ _ _ hm => { hm with }

/-! ## Built-in calls -/

theorem addCallback_repeats (kind : TimerKind) (callback : Option Expr) (delay line : Nat) :
    Repeats (addCallback kind callback delay line) := by
  refine Repeats.bind (Follows.modifyGet fun _ _ _ hm =>
    ⟨by rw [hm.timerCount], { hm with timerCount := by rw [hm.timerCount] }⟩) fun id => ?_
  refine (emitAll_repeats _).bind fun _ => ?_
  let cb (m : Machine) : Callback :=
    { id, kind, callback, delay, due := m.clock + delay, scope := m.scope }
  change Repeats (modifyGet fun m => (cb m, { m with callbacks := m.callbacks ++ [cb m] }))
  refine Follows.modifyGet fun _ m m' hm => ?_
  have hcb : cb m' = cb m := by simp only [cb, hm.clock, hm.scope]
  exact ⟨hcb.symm, { hm with callbacks := by rw [hm.callbacks, hcb] }⟩

theorem dropCallback_repeats (name : String) (v : Value) : Repeats (dropCallback name v) := by
  refine .get_bind (fun _ _ _ hm => by rw [hm.callbacks]) fun m => ?_
  cases m.callbacks.find? (fun cb => namesTimer v cb.id) with
  | none => exact .pure ()
  | some cb =>
    refine Repeats.bind (Follows.modify fun _ _ _ hm =>
      { hm with callbacks := by rw [hm.callbacks] }) fun _ => ?_
    exact (emit_repeats _).bind fun _ => note_repeats _ _

theorem rejection_repeats (vs : List Value) : Repeats (rejection? vs) := by
  induction vs with
  | nil => exact .pure none
  | cons v rest ih =>
    cases v with
    | promise id =>
      refine (promiseOf_follows id).bind fun p p' hp => ?_
      rw [Promise.state_of_wiped hp, Promise.value_of_wiped hp]
      split
      · exact .pure rfl
      · exact ih
    | _ => exact ih

theorem receiverState_repeats (callee : Expr) (receiver : Value) :
    Repeats (receiverState callee receiver) := by
  unfold receiverState
  cases chainBelow maxChainHops callee with
  | some chain => exact .get_bind (fun _ _ _ hm => by rw [hm.rootState]) fun _ => .pure _
  | none => exact stateOf_repeats receiver

theorem attach_repeats (name : String) (l : Link) (callback : Option Expr) (state : PromiseState)
    (receiver : Value) : Repeats (attach name l callback state receiver) :=
  Follows.get_bind fun n m m' hm => by
    rw [hm.scope]
    refine (newPromise_repeats .pending .undefined).bind fun derived => ?_
    exact Repeats.bind (react_follows rfl receiver state name) fun _ => .pure _

theorem announce_repeats (name : String) (consumed : Bool) (id : Nat) :
    Repeats (announce name consumed id) := by
  refine (promiseOf_follows id).bind fun p p' hp => ?_
  rw [Promise.state_of_wiped hp, Promise.value_of_wiped hp]
  refine Repeats.bind (Follows.modify fun _ _ _ hm => { hm with rootState := rfl }) fun _ => ?_
  split
  · exact Follows.get_bind fun _ _ _ _ => enqueue_follows.bind fun _ _ _ => .pure rfl
  · exact .pure _

def follows_basic : BasicCongruence (Follows Eq) where
  pure _ := .pure rfl
  bind h hf := h.bind fun a _ ha => ha ▸ hf a
  note := note_repeats
  lookup := lookup_repeats
  isBound := isBound_repeats
  textOf := textOf_repeats
  tell := tell_repeats
  applyOp _ _ := applyOp_repeats _
  increment _ := Repeats.lift _
  decrement _ := Repeats.lift _
  assign := assign_repeats
  itemsOf := itemsOf_repeats
  newArray := newArray_repeats
  settledValue := settledValue_repeats
  close _ _ _ _ _ := Repeats.get_bind (fun _ _ _ hm => by rw [hm.scope]) fun _ =>
    (newFunction_repeats _ _ _ _ _ _).bind fun _ => .pure _
  callLabel _ _ := Repeats.lift _
  emit := emit_repeats
  declare := declare_repeats
  timerDelay _ _ := Repeats.lift _
  addCallback := addCallback_repeats
  dropCallback := dropCallback_repeats
  pushItems := pushItems_repeats
  newPromise := newPromise_repeats
  rejection := rejection_repeats
  announce := announce_repeats
  receiverState := receiverState_repeats
  attach := attach_repeats

variable {call : Invoke}

/-! ## Expressions -/

/-- A way to call functions under which every call repeats. -/
def CallsRepeat (call : Invoke) : Prop := ∀ f args label line, Repeats (call f args label line)

theorem eval_repeats (h : CallsRepeat call) (consumed : Bool) (e : Expr) :
    Repeats (eval call consumed e) := eval_congr follows_basic.congruence h consumed e

end Run

/-! ## Suspension -/

/-- Statements that end in the same way, apart from the numbers of their continuations. -/
inductive Outcome.Like : Outcome → Outcome → Prop
  | completed : Like .completed .completed
  | returned (v : Value) : Like (.returned v) (.returned v)
  | suspended (k k' : Nat) : Like (.suspended k) (.suspended k')

theorem Outcome.Like.value {o o' : Outcome} (h : o.Like o') : o'.value = o.value := by
  cases h <;> rfl

namespace Run

/-- Expressions that come to the same, apart from the numbers of their continuations. -/
inductive Awaited.Like : Awaited → Awaited → Prop
  | value (v : Value) : Like (.value v) (.value v)
  | suspended (k k' : Nat) : Like (.suspended k) (.suspended k')

variable {call : Invoke}

theorem orSuspend_follows {R : α → α → Prop} {act act' : Run Value} {plain plain' : Run α}
    {suspended : Nat → α} (target : Target) (hact : Follows Eq act act')
    (hsuspended : ∀ k k', R (suspended k) (suspended k')) (hplain : Follows R plain plain') :
    Follows R (orSuspend act target suspended plain) (orSuspend act' target suspended plain') := by
  refine asyncFrame_repeats.bind_follows fun frame => ?_
  cases frame with
  | some frame =>
    refine hact.bind ?_
    rintro v _ rfl
    exact (suspend_follows frame v target).bind fun k k' _ => .pure (hsuspended k k')
  | none => exact hplain

/-- What a suspended statement leaves to do goes to its continuation, which is not compared. -/
def follows_statements : StmtCongruence (Follows Eq) (fun _ _ => True) (Follows Awaited.Like)
    (Follows Outcome.Like) where
  toCongruence := follows_basic.congruence
  value h := h.bind fun v _ hv => .pure (hv ▸ .value v)
  await target h := orSuspend_follows target h .suspended
  awaitStmt target h := orSuspend_follows target h .suspended
  completed := .pure .completed
  returned v := .pure (.returned v)
  suspended _ := .pure (.suspended _ _)
  next h hf := h.bind fun a _ ha => ha ▸ hf a
  awaited h hvalue hsuspended := h.bind fun _ _ ha => by
    cases ha with
    | value v => exact hvalue v
    | suspended k k' => exact hsuspended k k' trivial
  proceed h hcompleted hreturned hsuspended := h.bind fun _ _ ho => by
    cases ho with
    | completed => exact hcompleted
    | returned v => exact hreturned v
    | suspended k k' => exact hsuspended k k' trivial
  defer stmts _ := defer_follows _ _ stmts stmts
  discardValue h := h.map fun _ _ _ => rfl
  discard h := h.map fun _ _ _ => rfl
  nested := nested_follows
  renewScope := renewScope_repeats
  warn := warn_repeats
  emit := emit_repeats
  declareVariable := follows_basic.declareVariable
  bindFunction := bindFunction_repeats

/-! ## Calls -/

theorem finish_follows (promise : Option Nat) {o o' : Outcome} (ho : o.Like o') :
    Follows Eq (finish promise o) (finish promise o') := by
  cases promise with
  | none => exact .pure rfl
  | some id =>
    cases ho with
    | completed => exact (settledValue_repeats _).bind fun v => settle_repeats id .fulfilled v
    | returned v => exact (settledValue_repeats _).bind fun v => settle_repeats id .fulfilled v
    | suspended k k' => exact .pure rfl

theorem callPromise_repeats (f : Function) : Repeats (callPromise f) := by
  unfold callPromise
  split
  · exact (newPromise_repeats .pending .undefined).map some
  · exact .pure none

theorem runCall_follows (h : CallsRepeat call) (f : Function) (args : List Value) :
    Follows (fun r r' => r'.1 = r.1 ∧ r.2.Like r'.2) (runCall call f args) (runCall call f args) :=
  (newScope_repeats f.scope _).bind_follows fun scope =>
    (callPromise_repeats f).bind_follows fun promise =>
      (inFrame_follows scope ⟨f, promise⟩ (runBody_congr follows_statements h f.body)).bind
        fun _ _ ho => .pure ⟨rfl, ho⟩

theorem callValue_of_like (promise : Option Nat) {o o' : Outcome} (ho : o.Like o') :
    callValue promise o' = callValue promise o := by
  cases promise with
  | none => exact ho.value
  | some id => rfl

theorem receive_repeats (target : Target) (v : Value) : Repeats (receive target v) := by
  cases target with
  | discard => exact .pure _
  | declare x => exact (declare_repeats x v).bind fun _ => .pure _
  | assign x op =>
    exact Repeats.bind (assigned_congr follows_basic.toCallFreeCongruence op x v) fun v =>
      (assign_repeats x v).bind fun _ => .pure _
  | ret => exact .pure _

theorem invoke_repeats (depth : Nat) : CallsRepeat (invoke depth) := by
  induction depth with
  | zero =>
    intro f args label line
    unfold invoke
    refine (emitAll_repeats _).bind fun _ => (note_repeats _ _).bind fun _ => ?_
    intro n m m' hm a ma ha
    simp at ha
  | succ depth ih =>
    intro f args label line
    unfold invoke
    refine (emitAll_repeats _).bind fun _ => (note_repeats _ _).bind fun _ => ?_
    refine (runCall_follows ih f args).bind fun r r' hr => ?_
    obtain ⟨promise, o⟩ := r
    obtain ⟨promise', o'⟩ := r'
    obtain ⟨rfl, ho⟩ : promise' = promise ∧ o.Like o' := hr
    refine (emit_repeats _).bind_follows fun _ => ?_
    refine (finish_follows promise' ho).bind fun _ _ _ => ?_
    exact .pure (callValue_of_like promise' ho).symm

end Run

end EventLoop
