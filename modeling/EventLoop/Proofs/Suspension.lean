/-
  A suspended function goes on as if its awaits had been passed at once.

  On the one side is a passage, from a state `m` to a state `m1`; on the other side is the code that
  runs, from any state that is alike to `m` (`Machine.Brings`).  An active call of an async function
  (`Activation`) is suspended in a continuation.  When it is resumed, it finds a state that is alike
  to the one in which the passage has passed the `await` (`Activation.Awaits`), and so on until its
  body ends (`Activation.Reaches`).

  What a part of the body leaves to do is not known before the parts around it have added theirs.
  Hence `Activation.Simulates` asks of a part that was suspended that, whatever statements come
  behind it, the body ends as they do from the end of the passage.  `Activation.Mimics` is this for
  all passages of a part, and the lemmas about it put parts together.
-/
import EventLoop.Proofs.Alike
import EventLoop.Proofs.Passage

namespace EventLoop

open Script

variable {α β : Type} {act : Run Outcome} {m : Machine} {outcome : Outcome} {ref : Run Passage}
  {target : Target}

/-! ## From a state on the side without suspensions -/

namespace Machine

/-- From every state that is alike to `m`, the action gives a result for which `Q` holds, or runs
    into the limit on steps. -/
def Brings (m : Machine) (act : Run β) (Q : Nat → β → Machine → Prop) : Prop :=
  ∀ (n : Nat) (y : Machine), m.Alike n y → (∃ y', act y = .error .stepLimit y') ∨
    ∃ b y', act y = .ok b y' ∧ Q n b y'

/-- From every state that is alike to `m`, the action gives `a` in a state that is alike to `m1`. -/
def Arrives (m : Machine) (act : Run α) (a : α) (m1 : Machine) : Prop :=
  m.Brings act fun n b y => b = a ∧ m1.Alike n y

variable {m m1 : Machine} {Q : Nat → β → Machine → Prop}

theorem Brings.bind {act : Run α} {f : α → Run β} {P : Nat → α → Machine → Prop}
    (h : m.Brings act P) (hf : ∀ n a y, P n a y →
      (∃ y', f a y = .error .stepLimit y') ∨ ∃ b y', f a y = .ok b y' ∧ Q n b y') :
    m.Brings (act >>= f) Q := by
  intro n y hy
  rcases h n y hy with ⟨y', hact⟩ | ⟨a, y1, hact, hP⟩
  · exact .inl ⟨y', by rw [Run.bind_apply, hact]⟩
  · rw [Run.bind_apply, hact]
    exact hf n a y1 hP

theorem Arrives.bind {act : Run α} {f : α → Run β} {a : α} (h : m.Arrives act a m1)
    (hf : m1.Brings (f a) Q) : m.Brings (act >>= f) Q := by
  refine Brings.bind h fun n b y hb => ?_
  obtain ⟨rfl, hy⟩ := hb
  exact hf n y hy

theorem Arrives.pure (a : α) : m.Arrives (pure a) a m :=
  fun _ y hy => .inr ⟨a, y, rfl, rfl, hy⟩

theorem Arrives.note (level : Nat) (line : Log.Line) : m.Arrives (Run.note level line) () m :=
  fun _ _ hy => .inr ⟨(), _, rfl, rfl, { hy with }⟩

end Machine

theorem Run.Repeats.arrives {act : Run α} (h : Run.Repeats act) {m1 : Machine} {a : α}
    (hact : act m = .ok a m1) : m.Arrives act a m1 := by
  intro n y hy
  rcases h n m y hy a m1 hact with hl | ⟨_, y1, hy1, rfl, halike⟩
  · exact .inl hl
  · exact .inr ⟨a, y1, hy1, rfl, halike⟩

/-! ## Suspended calls -/

/-- An active call of an async function, with the calls around it. -/
structure Activation where
  function : Function
  promise : Nat
  outer : List Frame
  isAsync : function.isAsync = true

namespace Activation

variable (a : Activation)

/-- The frame of the call. -/
def frame : Frame := ⟨a.function, some a.promise⟩

/-- The frames while the body of the call runs. -/
def frames : List Frame := a.frame :: a.outer

/-- How functions are called in the body. -/
def call : Invoke := Run.invoke (maxCallDepth - a.frames.length)

/-- Goes on with the body behind an `await`. -/
def rest (target : Target) (v : Value) (stmts : List Stmt) : Run Outcome := do
  match ← Run.receive target v with
  | .completed => Run.execAll a.call stmts
  | outcome => return outcome

/-- A state in the body of the call with nothing in the queue. -/
structure Calm (m : Machine) : Prop where
  frames : m.frames = a.frames
  ready : m.cursor = m.microtasks.size

/-- The call is suspended in continuation `k` at an `await` of `v`, whose microtask is the only one
    in the queue.  Once it is taken, and the call is entered again, the state is alike to `m`. -/
structure Awaits (n k : Nat) (stmts : List Stmt) (target : Target) (v : Value) (m y : Machine) :
    Prop where
  continuation : y.continuations[k]? = some
    { statements := stmts, scope := m.scope, function := a.function, target,
      promise := some a.promise }
  task : ∃ t, y.microtasks[y.cursor]? = some t ∧ t.reaction = some (.resume k) ∧
    t.state = .fulfilled ∧ Run.settledValue t.value m = .ok v m
  alike : m.Alike (n + 1)
    { y with cursor := y.cursor + 1, scope := m.scope, frames := m.frames }

/-- From every state that is alike to `m`, the action is suspended at an `await` of `v`, which finds
    a state alike to `m1`. -/
def Parks (act : Run Outcome) (m : Machine) (stmts : List Stmt) (target : Target) (v : Value)
    (m1 : Machine) : Prop :=
  m.Brings act fun n outcome y => ∃ k, outcome = .suspended k ∧ a.Awaits n k stmts target v m1 y

/-- From every state that is alike to `m`, the action ends with the value `v` in a state alike to
    `m'`, after being suspended and resumed some number of times. -/
inductive Reaches : Run Outcome → Machine → Value → Machine → Prop
  | ends {act : Run Outcome} {m m' : Machine} {v : Value}
      (h : m.Brings act fun n outcome y =>
        outcome.ending = .done ∧ outcome.value = v ∧ m'.Alike n y) : Reaches act m v m'
  | hops {act : Run Outcome} {m m1 m' : Machine} {v w : Value} {stmts : List Stmt}
      {target : Target} (hframes : m1.frames = a.frames) (h : a.Parks act m stmts target w m1)
      (hrest : Reaches (a.rest target w stmts) m1 v m') : Reaches act m v m'

/-- A part of the body that ends with `outcome` in `m1`, followed by `stmts`, ends with `v` in `m'`.
-/
def Finishes (outcome : Outcome) (m1 : Machine) (stmts : List Stmt) (v : Value) (m' : Machine) :
    Prop :=
  match outcome with
  | .completed => a.Reaches (Run.execAll a.call stmts) m1 v m'
  | .returned w => w = v ∧ m1 = m'
  | .suspended _ => False

/-- The action does what a passage from `m` to `m1` does.  If no `await` is passed, it has the same
    outcome.  If one is, the action is suspended, and with whatever statements come behind it the
    body goes on as from the end of the passage. -/
inductive Simulates (act : Run Outcome) (m : Machine) : Passage → Machine → Prop
  | stuck (m1 : Machine) : Simulates act m .stuck m1
  | direct {outcome : Outcome} {m1 : Machine} (h : m.Arrives act outcome m1) :
      Simulates act m (.ended false outcome) m1
  | awaits {outcome : Outcome} {m1 m2 : Machine} {stmts : List Stmt} {target : Target} {w : Value}
      (hframes : m2.frames = a.frames) (h : a.Parks act m stmts target w m2)
      (hrest : ∀ more v m', a.Finishes outcome m1 more v m' →
        a.Reaches (a.rest target w (stmts ++ more)) m2 v m') :
      Simulates act m (.ended true outcome) m1

/-- The action does what the passage does, from any state in the body with nothing in the queue, if
    nothing is in the queue afterwards either. -/
def Mimics (act : Run Outcome) (ref : Run Passage) : Prop :=
  ∀ m p m1, ref m = .ok p m1 → a.Calm m → a.Calm m1 → a.Simulates act m p m1

variable {a} {m m1 m2 m' : Machine} {v : Value}

theorem Calm.between (h : a.Calm m) (h1 : m.Onward m1) (h2 : m1.Onward m2) (h' : a.Calm m2) :
    a.Calm m1 := by
  refine ⟨h1.frames.trans h.frames, ?_⟩
  have hsize := h.ready
  have hsize' := h'.ready
  rw [h2.cursor, h1.cursor] at hsize'
  have := h1.microtasks
  have := h2.microtasks
  rw [h1.cursor]
  omega

/-! ## Putting actions in front -/

theorem Reaches.after {act : Run α} {f : α → Run Outcome} {x : α} (h : m.Arrives act x m1)
    (hf : a.Reaches (f x) m1 v m') : a.Reaches (act >>= f) m v m' := by
  cases hf with
  | ends hends => exact .ends (h.bind hends)
  | hops hframes hparks hrest => exact .hops hframes (h.bind hparks) hrest

theorem Simulates.after {act : Run α} {f : α → Run Outcome} {x : α} {p : Passage}
    (h : m.Arrives act x m1) (hf : a.Simulates (f x) m1 p m2) : a.Simulates (act >>= f) m p m2 := by
  cases hf with
  | stuck => exact .stuck m2
  | direct hdirect => exact .direct (h.bind hdirect)
  | awaits hframes hparks hrest => exact .awaits hframes (h.bind hparks) hrest

theorem Mimics.bind {pre : Run α} {f : α → Run Outcome} {ref : α → Run Passage}
    (hpre : Run.Repeats pre) (hadv : Run.Advances pre) (href : ∀ x, Run.Advances (ref x))
    (h : ∀ x, a.Mimics (f x) (ref x)) : a.Mimics (pre >>= f) (pre >>= ref) := by
  intro m p m2 hp hm hm2
  obtain ⟨x, m1, hx, hp⟩ := Run.bind_eq_ok hp
  have hm1 : a.Calm m1 := hm.between (hadv m x m1 hx) (href x m1 p m2 hp) hm2
  exact .after (hpre.arrives hx) (h x m1 p m2 hp hm1 hm2)

theorem Mimics.note (level : Nat) (line : Log.Line) (h : a.Mimics act ref) :
    a.Mimics (Run.note level line >>= fun _ => act) ref :=
  fun m p m1 hp hm hm1 => .after (.note level line) (h m p m1 hp hm hm1)

theorem Mimics.pure : a.Mimics (pure outcome) (pure (.ended false outcome)) := by
  rintro m _ _ ⟨⟩ _ _
  exact .direct (.pure outcome)

theorem Mimics.stuck {act : Run Outcome} : a.Mimics act (do return Passage.stuck) := by
  rintro m _ _ ⟨⟩ _ _
  exact .stuck _

end Activation

/-! ## One thing after another -/

namespace Run

/-- Runs an action and, if it completes, what comes next.  If it is suspended, `left` is what its
    function has left to do. -/
def proceed (act next : Run Outcome) (left : List Stmt) : Run Outcome := do
  match ← act with
  | .completed => next
  | .returned v => return .returned v
  | .suspended k =>
    defer k left
    return .suspended k

theorem execAll_cons (call : Invoke) (s : Stmt) (rest : List Stmt) :
    execAll call (s :: rest) = proceed (exec call s) (execAll call rest) rest := rfl

theorem deferred_deferred (k : Nat) (stmts more : List Stmt) (m : Machine) :
    (m.deferred k stmts).deferred k more = m.deferred k (stmts ++ more) := by
  simp only [Machine.deferred]
  congr 1
  refine Array.ext_getElem? fun i => ?_
  simp only [Array.getElem?_modify]
  split
  · cases m.continuations[i]? <;> simp
  · rfl

theorem deferred_nil (m : Machine) (k : Nat) : m.deferred k [] = m := by
  have hconts : (m.deferred k []).continuations = m.continuations := by
    refine Array.ext_getElem? fun i => ?_
    simp only [Machine.deferred, Array.getElem?_modify, List.append_nil]
    split <;> simp
  exact congrArg (fun continuations => { m with continuations }) hconts

theorem execAll_singleton (call : Invoke) (s : Stmt) : execAll call [s] = exec call s := by
  funext m
  rw [execAll_cons, proceed, bind_apply]
  cases exec call s m with
  | error fault m1 => rfl
  | ok outcome m1 =>
    cases outcome with
    | completed | returned => rfl
    | suspended k => exact congrArg (EStateM.Result.ok (Outcome.suspended k)) (deferred_nil m1 k)

theorem proceed_assoc (act next last : Run Outcome) (left more : List Stmt) :
    proceed (proceed act next left) last more =
      proceed act (proceed next last more) (left ++ more) := by
  funext m
  simp only [proceed, bind_apply]
  cases act m with
  | error fault m1 => rfl
  | ok outcome m1 =>
    cases outcome with
    | completed => simp only [bind_apply]
    | returned v => rfl
    | suspended k =>
      exact congrArg (EStateM.Result.ok (Outcome.suspended k))
        (deferred_deferred k left more m1)

theorem execAll_append (call : Invoke) (stmts more : List Stmt) :
    execAll call (stmts ++ more) = proceed (execAll call stmts) (execAll call more) more := by
  induction stmts with
  | nil => rfl
  | cons s rest ih => rw [List.cons_append, execAll_cons, ih, execAll_cons, proceed_assoc]

end Run

namespace Activation

open Run

variable {a : Activation} {m m1 m2 m' : Machine} {v : Value} {next : Run Outcome}
  {stmts : List Stmt}

theorem Awaits.deferred {n k : Nat} {y : Machine} (h : a.Awaits n k stmts target v m y)
    (more : List Stmt) : a.Awaits n k (stmts ++ more) target v m (y.deferred k more) where
  continuation := by simp [Machine.deferred, Array.getElem?_modify, h.continuation]
  task := h.task
  alike := { h.alike with }

theorem Parks.proceed (h : a.Parks act m stmts target v m1) (left : List Stmt) :
    a.Parks (proceed act next left) m (stmts ++ left) target v m1 := by
  refine h.bind fun n outcome y hy => ?_
  obtain ⟨k, rfl, hawaits⟩ := hy
  exact .inr ⟨.suspended k, y.deferred k left, rfl, k, rfl, hawaits.deferred left⟩

/-- Behind an action that completes without an `await`, what comes next runs. -/
theorem Simulates.proceed_direct {p : Passage} (left : List Stmt) (h : m.Arrives act .completed m1)
    (hnext : a.Simulates next m1 p m2) : a.Simulates (proceed act next left) m p m2 :=
  .after h hnext

/-- An action that does not complete ends what it is part of. -/
theorem Simulates.proceed_stop {b : Bool} (left : List Stmt) (hstop : outcome ≠ .completed)
    (h : a.Simulates act m (.ended b outcome) m1) :
    a.Simulates (proceed act next left) m (.ended b outcome) m1 := by
  cases h with
  | direct h =>
    refine .direct (h.bind ?_)
    cases outcome with
    | completed => exact absurd rfl hstop
    | returned v => exact Machine.Arrives.pure _
    | suspended k =>
      exact fun n y hy => .inr ⟨.suspended k, y.deferred k left, rfl, rfl, { hy with }⟩
  | awaits hframes hparks hrest =>
    refine .awaits hframes (hparks.proceed left) fun more v m' hfin => ?_
    rw [List.append_assoc]
    refine hrest (left ++ more) v m' ?_
    cases outcome with
    | completed => exact absurd rfl hstop
    | returned w => exact hfin
    | suspended k => exact hfin

theorem Simulates.reaches {b : Bool} {more : List Stmt}
    (h : a.Simulates act m (.ended b outcome) m1) (hfin : a.Finishes outcome m1 more v m') :
    a.Reaches (proceed act (execAll a.call more) more) m v m' := by
  cases h with
  | direct h =>
    cases outcome with
    | completed => exact .after h hfin
    | returned w =>
      obtain ⟨rfl, rfl⟩ := hfin
      exact .ends (h.bind fun n y hy => .inr ⟨.returned w, y, rfl, rfl, rfl, hy⟩)
    | suspended k => exact hfin.elim
  | awaits hframes hparks hrest =>
    exact .hops hframes (hparks.proceed more) (hrest more v m' hfin)

/-- Behind an action that passed an `await` and then completed, the statements that it left to do
    go on. -/
theorem Simulates.proceed_awaited {p : Passage} {left : List Stmt}
    (h : a.Simulates act m (.ended true .completed) m1)
    (hleft : a.Simulates (execAll a.call left) m1 p m2) :
    a.Simulates (proceed act next left) m (p.after true) m2 := by
  cases h with
  | awaits hframes hparks hrest =>
    cases p with
    | stuck => exact .stuck m2
    | ended b outcome =>
      refine .awaits hframes (hparks.proceed left) fun more v m' hfin => ?_
      rw [List.append_assoc]
      refine hrest (left ++ more) v m' ?_
      rw [Finishes, execAll_append]
      exact hleft.reaches hfin

/-- What is left of the first part comes first in what is left of both. -/
theorem Mimics.passThen {left : List Stmt} {first : Run Passage} {ref : Bool → Run Passage}
    (hadv : Advances first) (hadv' : ∀ b, Advances (ref b)) (h : a.Mimics act first)
    (hnext : a.Mimics next (ref false)) (hleft : a.Mimics (execAll a.call left) (ref true)) :
    a.Mimics (proceed act next left) (passThen first ref) := by
  intro m p m2 hp hm hm2
  obtain ⟨p1, m1, hfirst, hp⟩ := bind_eq_ok hp
  cases p1 with
  | stuck =>
    cases hp
    exact .stuck _
  | ended b outcome =>
    by_cases hstop : outcome = .completed
    · subst hstop
      obtain ⟨p2, m3, hp2, ⟨⟩⟩ := bind_eq_ok hp
      have hm1 : a.Calm m1 := hm.between (hadv m _ m1 hfirst) (hadv' b m1 p2 m2 hp2) hm2
      have hact := h m _ m1 hfirst hm hm1
      cases b with
      | false =>
        have hafter : p2.after false = p2 := by cases p2 <;> rfl
        rw [hafter]
        cases hact with
        | direct hact => exact .proceed_direct left hact (hnext m1 p2 m2 hp2 hm1 hm2)
      -- behind an `await`, what is left runs in a later turn
      | true => exact hact.proceed_awaited (hleft m1 p2 m2 hp2 hm1 hm2)
    · obtain ⟨rfl, rfl⟩ : Passage.ended b outcome = p ∧ m1 = m2 := by
        cases outcome with
        | completed => exact absurd rfl hstop
        | returned v => simpa using hp
        | suspended k => simpa using hp
      exact (h m _ m1 hfirst hm hm2).proceed_stop left hstop

theorem Mimics.single {s : Stmt} (hadv : Advances ref) (h : a.Mimics (exec a.call s) ref) :
    a.Mimics (execAll a.call [s]) ref := by
  rw [← passThen_pure ref]
  exact .passThen hadv (fun _ => .pure _) h .pure .pure

/-! ## Blocks -/

/-- Where the suspended code stood, and in which call, is only a matter of its continuation. -/
theorem Awaits.moved {n k : Nat} {y : Machine} (h : a.Awaits n k stmts target v m y) (scope : Scope)
    (frames : List Frame) : a.Awaits n k stmts target v m { y with scope, frames } where
  continuation := h.continuation
  task := h.task
  alike := { h.alike with scope := rfl, frames := rfl }

theorem restoring_brings {act : Run β} {P Q : Nat → β → Machine → Prop} {scope : Scope}
    {frames : List Frame} (h : m.Brings act P)
    (hback : ∀ n x y, P n x y → Q n x { y with scope, frames }) :
    m.Brings (restoring scope frames act) Q := by
  intro n y hy
  rw [restoring]
  rcases h n y hy with ⟨y', hact⟩ | ⟨x, y', hact, hP⟩
  · exact .inl ⟨{ y' with scope, frames }, by rw [hact]⟩
  · exact .inr ⟨x, { y' with scope, frames }, by rw [hact], hback n x y' hP⟩

theorem nested_brings {act : Run β} {P Q : Nat → β → Machine → Prop} {scope : Scope}
    (hscope : newScope m.scope [] m = .ok scope m1) (h : (m1.under scope).Brings act P)
    (hback : ∀ n x y, P n x y → Q n x (y.back m1)) : m.Brings (nested act) Q := by
  have hinside : m1.Brings (inScope scope act) Q := by
    intro n y hy
    rw [inScope, hy.scope, hy.frames]
    exact restoring_brings h hback n _ { hy with scope := rfl, frames := rfl }
  intro n y hy
  have hnest : m.Brings (newScope m.scope [] >>= fun scope => inScope scope act) Q :=
    ((newScope_repeats m.scope []).arrives hscope).bind hinside
  have hy' := hnest n y hy
  rw [← hy.scope] at hy'
  exact hy'

/-- A block or loop that is not left by its passage stays the scope of what follows. -/
theorem Mimics.nested (hadv : Advances ref) (h : a.Mimics act ref) :
    a.Mimics (nested act) (passNested .captured ref) := by
  intro m p m' hp hm hm'
  obtain ⟨_, _, ⟨⟩, hp⟩ := bind_eq_ok hp
  obtain ⟨scope, m1, hscope, hp⟩ := bind_eq_ok hp
  obtain ⟨_, _, ⟨⟩, hp⟩ := bind_eq_ok hp
  obtain ⟨p', m2, href, hp⟩ := bind_eq_ok hp
  have honward : (m1.under scope).Onward m2 := hadv _ _ _ href
  obtain rfl : { m with tables := (m.tables.nest m.scope []).1 } = m1 := by
    cases hscope
    rfl
  have hm1 : a.Calm (Machine.under { m with tables := (m.tables.nest m.scope []).1 } scope) :=
    ⟨hm.frames, hm.ready⟩
  cases p' with
  | stuck =>
    obtain ⟨_, _, _, ⟨⟩⟩ := bind_eq_ok hp
    exact .stuck _
  | ended awaited outcome =>
    cases awaited with
    | false =>
      -- no `await` was passed, and the block is left as usual
      obtain ⟨_, _, ⟨⟩, ⟨⟩⟩ := bind_eq_ok hp
      have hm2 : a.Calm m2 := ⟨honward.frames.trans hm.frames, hm'.ready⟩
      cases h _ _ _ href hm1 hm2 with
      | direct hdirect =>
        refine .direct (nested_brings hscope hdirect fun n x y hx => ?_)
        exact ⟨hx.1, { hx.2 with scope := rfl, frames := rfl }⟩
    | true =>
      -- behind an `await` the scope of the block is captured, and not left
      cases hp
      cases h _ _ _ href hm1 hm' with
      | awaits hframes hparks hrest =>
        refine .awaits hframes (nested_brings hscope hparks fun n x y hx => ?_) hrest
        obtain ⟨k, rfl, hawaits⟩ := hx
        exact ⟨k, rfl, hawaits.moved m.scope m.frames⟩

end Activation

/-! ## Awaits -/

namespace Run

/-- An `await` of a promise that is settled, or of any other value, is queued at once. -/
theorem suspend_queued (frame : Frame) {value u : Value} {s : PromiseState} (target : Target)
    (hstate : stateOf value m = .ok s m) (hvalue : settledValue value m = .ok u m)
    (hs : s ≠ .pending) : ∃ log, suspend frame value target m = .ok m.continuations.size
      (((m.withContinuation frame target).queued ("await " ++ frame.function.name) m.scope
        (some (.resume m.continuations.size)) s u).logged log) := by
  obtain ⟨log, hqueue⟩ := enqueue_apply ("await " ++ frame.function.name) m.scope
    (some (.resume m.continuations.size)) s u (m.withContinuation frame target)
  have hnew : newContinuation frame target m =
      .ok m.continuations.size (m.withContinuation frame target) := rfl
  have hscope : (m.withContinuation frame target).scope = m.scope := rfl
  refine ⟨log, ?_⟩
  cases value with
  | promise id =>
    have hp : promiseOf id (m.withContinuation frame target) =
        .ok (m.promises[id]?.getD { state := .fulfilled }) (m.withContinuation frame target) :=
      rfl
    obtain rfl : (m.promises[id]?.getD { state := .fulfilled }).state = s := by
      simpa [stateOf, promiseOf] using hstate
    obtain rfl : (m.promises[id]?.getD { state := .fulfilled }).value = u := by
      simpa [settledValue, promiseOf] using hvalue
    simp [suspend, hnew, hscope, stateOf, react, hp, hs, hqueue]
  | _ =>
    cases hstate
    cases hvalue
    simp [suspend, hnew, hscope, stateOf, react, hqueue]

theorem settledValue_state {v w : Value} {m' : Machine} (h : settledValue v m = .ok w m') :
    m' = m := by
  cases v <;> cases h <;> rfl

theorem fulfillment_some {v w : Value} {m' : Machine} (h : fulfillment? v m = .ok (some w) m') :
    m' = m ∧ stateOf v m = .ok .fulfilled m ∧
      ∃ u, settledValue v m = .ok u m ∧ settledValue u m = .ok w m := by
  cases v with
  | promise id =>
    have hp : promiseOf id m = .ok (m.promises[id]?.getD { state := .fulfilled }) m := rfl
    by_cases hstate : (m.promises[id]?.getD { state := .fulfilled }).state = .fulfilled
    · rw [fulfillment?, bind_apply, hp] at h
      simp only [hstate, if_true] at h
      obtain ⟨w', m1, hw, ⟨⟩⟩ := bind_eq_ok h
      obtain rfl := settledValue_state hw
      exact ⟨rfl, by simp [stateOf, hp, hstate], _, by simp [settledValue, hp], hw⟩
    · simp [fulfillment?, hp, hstate] at h
  | _ =>
    cases h
    exact ⟨rfl, rfl, _, rfl, rfl⟩

end Run

namespace Activation

open Run

variable {a : Activation} {m m1 m2 m' : Machine} {v w : Value}

/-- The call is suspended for one microtask, and finds the state in which it was suspended. -/
theorem suspend_awaits (hm : a.Calm m) (target : Target) (h : fulfillment? v m = .ok (some w) m) :
    m.Brings (suspend a.frame v target) fun n k y => a.Awaits n k [] target w m y := by
  intro n y hy
  obtain ⟨-, hstate, u, hu, hw⟩ := fulfillment_some h
  obtain ⟨log, hsuspend⟩ := suspend_queued a.frame target (stateOf_of_alike hy hstate)
    (settledValue_of_alike hy hu) nofun
  have hcursor : y.cursor = y.microtasks.size := by rw [hy.cursor, hy.microtasks, hm.ready]
  refine .inr ⟨_, _, hsuspend, ⟨?_, ?_, ?_⟩⟩
  · simp [Machine.logged, Machine.queued, Machine.withContinuation, frame, hy.scope]
  · let t : Microtask := ⟨y.microtaskCount + 1, "await " ++ a.function.name, y.scope,
      some (.resume y.continuations.size), .fulfilled, u⟩
    refine ⟨t, ?_, rfl, rfl, hw⟩
    simp [t, Machine.logged, Machine.queued, Machine.withContinuation, hcursor, frame]
  · refine { hy with microtasks := ?_, cursor := ?_, scope := rfl, frames := rfl }
    · simp [Machine.logged, Machine.queued, Machine.withContinuation, hy.microtasks, Nat.add_assoc]
    · simp [Machine.logged, Machine.queued, Machine.withContinuation, hy.cursor, Nat.add_assoc]

theorem call_repeats (a : Activation) : CallsRepeat a.call := invoke_repeats _

theorem call_walks (a : Activation) : CallsWalk true (maxCallDepth - a.frames.length) a.call :=
  invoke_walks _

/-- What suspends the call at an `await`, whatever is made of the number of the continuation. -/
theorem await_parks {e : Expr} (hm : a.Calm m1) (target : Target)
    (hv : eval a.call true e m = .ok v m1) (h : fulfillment? v m1 = .ok (some w) m1) :
    a.Parks (do return .suspended (← suspend a.frame (← eval a.call true e) target)) m [] target w
      m1 :=
  ((eval_repeats a.call_repeats true e).arrives hv).bind
    ((suspend_awaits hm target h).bind fun _ k y hy =>
      .inr ⟨.suspended k, y, rfl, k, rfl, hy⟩)

theorem Finishes.reaches {more : List Stmt} (h : m.Arrives (receive target w) outcome m1)
    (hfin : a.Finishes outcome m1 more v m') : a.Reaches (a.rest target w more) m v m' := by
  cases outcome with
  | completed => exact .after h hfin
  | returned u =>
    obtain ⟨rfl, rfl⟩ := hfin
    exact .ends (h.bind fun n y hy => .inr ⟨.returned u, y, rfl, rfl, rfl, hy⟩)
  | suspended k => exact hfin.elim

theorem await_mimics (target : Target) (e : Expr) :
    a.Mimics (do return .suspended (← suspend a.frame (← eval a.call true e) target))
      (passAwait a.call target e) := by
  intro m p m2 hp hm hm2
  obtain ⟨v, m1, hv, hp⟩ := bind_eq_ok hp
  obtain ⟨found, m1', hfound, hp⟩ := bind_eq_ok hp
  cases found with
  | none =>
    cases hp
    exact .stuck _
  | some w =>
    obtain ⟨outcome, _, hreceive, ⟨⟩⟩ := bind_eq_ok hp
    obtain rfl : m1 = m1' := (fulfillment_some hfound).1.symm
    have hm1 : a.Calm m1 := hm.between (eval_advances a.call_walks true e m v m1 hv)
      (receive_advances target w m1 outcome m2 hreceive) hm2
    refine .awaits hm1.frames (await_parks hm1 target hv hfound) fun more v m' hfin => ?_
    exact hfin.reaches ((receive_repeats target w).arrives hreceive)

/-- Only what the action does inside the call matters. -/
theorem Mimics.congr {act' : Run Outcome}
    (hact : ∀ y : Machine, y.frames = a.frames → act y = act' y) (h : a.Mimics act' ref) :
    a.Mimics act ref := by
  have hbrings {m : Machine} (hm : a.Calm m) {Q : Nat → Outcome → Machine → Prop}
      (hQ : m.Brings act' Q) : m.Brings act Q := by
    intro n y hy
    rw [hact y (hy.frames.trans hm.frames)]
    exact hQ n y hy
  intro m p m1 hp hm hm1
  cases h m p m1 hp hm hm1 with
  | stuck => exact .stuck _
  | direct h => exact .direct (hbrings hm h)
  | awaits hframes hparks hrest => exact .awaits hframes (hbrings hm hparks) hrest

end Activation

end EventLoop
