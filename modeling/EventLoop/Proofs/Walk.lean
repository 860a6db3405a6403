/-
  What evaluated code can do to the state, said once.

  `Move` lists the elementary changes that the evaluation of an expression or a statement makes.
  `Walk` puts them together the way evaluation does: one after the other, inside a scope, and inside
  a call, which opens with two steps and a frame and closes with one step and, for an async
  function, the settlement of its promise.

  That every evaluation is a walk is shown in `EventLoop.Proofs.Evaluation`.  Whatever holds along
  all walks is then shown by induction on walks, with no program text in sight; this module has the
  two properties everything else rests on, `Walk.context` and `Walk.grows`.

  A loop whose start declares a variable by an `await` goes on although its function was suspended
  (`Walk.skip`).  A function body without such a loop is called steady.
-/
import EventLoop.Proofs.Action

namespace EventLoop

open Script

variable {m m' : Machine} {state : PromiseState} {value : Value} {depth : Nat} {name : String}
  {tame : Bool}

/-! ## Steady code -/

namespace Script

/-- Whether a variable is declared without an `await` for its value. -/
def Declarator.steady : Declarator → Bool
  | .mk _ (some (.await _ _)) => false
  | .mk _ _ => true

/-- Whether no variable that the start of a loop declares awaits its value. -/
def LoopInit.steady : LoopInit → Bool
  | .declare _ decls _ => decls.all (·.steady)
  | .nothing | .expr _ => true

mutual

/-- Whether no loop of a statement declares a variable by an `await` in its start.  Functions inside
    the statement have bodies of their own and do not count. -/
def Stmt.steady : Stmt → Bool
  | .expr _ _ | .declare _ _ _ | .function _ _ _ _ _ | .ret _ _ => true
  | .block b => b.steady
  | .branch _ body otherwise _ => body.steady && Stmt.optionSteady otherwise
  | .loop init _ _ body _ => init.steady && body.steady

/-- Whether a statement is steady, if there is one. -/
def Stmt.optionSteady : Option Stmt → Bool
  | none => true
  | some s => s.steady

/-- Whether the statements of a block are steady. -/
def Block.steady : Block → Bool
  | .mk stmts _ => Stmt.allSteady stmts

/-- Whether some statements are all steady. -/
def Stmt.allSteady : List Stmt → Bool
  | [] => true
  | s :: rest => s.steady && Stmt.allSteady rest

end

/-- Whether no loop of a function body declares a variable by an `await` in its start. -/
def Body.steady : Body → Bool
  | .block b => b.steady
  | .value _ => true

end Script

@[simp] theorem Script.Stmt.allSteady_append (l l' : List Stmt) :
    Stmt.allSteady (l ++ l') = (Stmt.allSteady l && Stmt.allSteady l') := by
  induction l with
  | nil => simp [Stmt.allSteady]
  | cons s l ih => simp [Stmt.allSteady, ih, Bool.and_assoc]

/-! ## Moves -/

/-- The groups of steps by which a built-in call shows itself. -/
inductive Burst : List Step → Prop
  | glance (line : Nat) : Burst [.glance line]
  | call (line : Nat) (label : String) : Burst [.highlight line, .push label, .pop]
  | console (line : Nat) (label message : String) :
      Burst [.highlight line, .push label, .console message, .pop]

/-- The steps that evaluated code emits; all others belong to the queues. -/
def Step.ofCode (s : Step) : Prop :=
  s.kind ∈ [StepKind.highlight, .callstackPush, .callstackPop, .consoleOutput, .webapiAdd,
    .webapiRemove]

namespace Machine

/-- The state with a timer registered, and the steps of its registration. -/
def registered (m : Machine) (kind : TimerKind) (callback : Option Expr) (delay line : Nat) :
    Machine :=
  { m.emitted [.highlight line, .push (Run.timerLabel kind delay),
      .webapiAdd (m.timerCount + 1) kind.api delay, .pop] with
    timerCount := m.timerCount + 1
    callbacks := m.callbacks ++ [
      { id := m.timerCount + 1, kind, callback, delay, due := m.clock + delay,
        scope := m.scope }] }

/-- The state without the callbacks of a number. -/
def dropped (m : Machine) (id : Nat) : Machine :=
  { m with callbacks := m.callbacks.filter (·.id != id) }

@[simp] theorem dropped_logged (m : Machine) (id : Nat) (log : Log) :
    (m.logged log).dropped id = (m.dropped id).logged log := rfl

@[simp] theorem dropped_emitted (m : Machine) (id : Nat) (l : List Step) :
    (m.emitted l).dropped id = (m.dropped id).emitted l := rfl

/-- The state with a function bound in the current scope, and registered if that is the global one.
-/
def defined (m : Machine) (name : String) (f : Function) : Machine :=
  { m with
    tables := m.tables.declare m.scope name (.function f)
    registry := if m.scope == Scope.global then Assoc.insert m.registry name f else m.registry }

/-- An elementary change of the state by evaluated code. -/
inductive Move : Machine → Machine → Prop
  /-- What neither control nor bindings depend on. -/
  | data (m : Machine) (arrays : Value.Arrays) (functionCount : Nat) (rootState : PromiseState)
      (warnings : Array String) (log : Log) :
      Move m { m with arrays, functionCount, rootState, warnings, log }
  | declare (m : Machine) (name : String) (v : Value) :
      Move m { m with tables := m.tables.declare m.scope name v }
  | assign (m : Machine) (name : String) (v : Value) :
      Move m { m with tables := m.tables.assign m.scope name v }
  | define (m : Machine) (name : String) (f : Function) : Move m (m.defined name f)
  | nest (m : Machine) (outer : Scope) (bindings : Bindings) :
      Move m { m with tables := (m.tables.nest outer bindings).1 }
  | burst {m : Machine} {l : List Step} (hl : Burst l) (hroom : m.Room l.length) :
      Move m (m.emitted l)
  | register {m : Machine} (kind : TimerKind) (callback : Option Expr) (delay line : Nat)
      (hroom : m.Room 4) : Move m (m.registered kind callback delay line)
  | clear {m : Machine} {cb : Callback} (line : Nat) (label : String) (hcb : cb ∈ m.callbacks)
      (hroom : m.Room 4) :
      Move m ((m.dropped cb.id).emitted
        [.highlight line, .push label, .webapiRemove cb.id, .pop])
  | promise (m : Machine) (state : PromiseState) (value : Value) :
      Move m (m.withPromise state value)
  /-- A microtask that marks a promise as settled. -/
  | mark {m m' : Machine} (name : String) (state : PromiseState) (value : Value)
      (h : Run.enqueue name m.scope none state value m = .ok () m') : Move m m'
  /-- A link with its reaction. -/
  | attach {m m' : Machine} {derived : Nat} (name : String) (l : Link) (callback : Option Expr)
      (state : PromiseState) (receiver : Value)
      (h : Run.attach name l callback state receiver m = .ok derived m') : Move m m'

end Machine

/-! ## Walks -/

/-- How evaluated code ends. -/
inductive Ending where
  | done
  /-- The function was suspended in this continuation. -/
  | suspended (continuation : Nat)
  | failed
  deriving DecidableEq

namespace Machine

/-- The state in which the body of a called function starts. -/
def entered (m : Machine) (f : Function) (args : List Value) : Machine :=
  { m with
    tables := (m.tables.nest f.scope (Run.bindParams f.params args [])).1
    scope := (m.tables.nest f.scope (Run.bindParams f.params args [])).2
    promises := if f.isAsync then m.promises.push { state := .pending } else m.promises
    frames := ⟨f, if f.isAsync then some m.promises.size else none⟩ :: m.frames }

/-- The state in another scope. -/
def under (m : Machine) (scope : Scope) : Machine := { m with scope }

/-- The state `m'`, back in the scope and the call of `m`. -/
def back (m' m : Machine) : Machine := { m' with scope := m.scope, frames := m.frames }

/-- The state with more statements left to do in a continuation. -/
def deferred (m : Machine) (k : Nat) (stmts : List Stmt) : Machine :=
  { m with continuations := m.continuations.modify k fun c =>
      { c with statements := c.statements ++ stmts } }

/-- The state with some more steps, and with timers counted or dropped that no step shows. -/
def slipped (m : Machine) (part : List Step) (timers : Nat) (keep : Callback → Bool) : Machine :=
  { m.emitted part with timerCount := timers, callbacks := m.callbacks.filter keep }

/-- Whether the code that runs is steady, if the body of the innermost call is. -/
def Covers (m : Machine) (steady : Bool) : Prop :=
  ∀ frame, m.frames.head? = some frame → frame.function.body.steady = true → steady = true

/-- What evaluated code does.  `tame` says that the code belongs to the body of the innermost call,
    so that it is steady if that body is.  `depth` is how many calls may be nested in one another.
-/
inductive Walk (tame : Bool) : Nat → Machine → Ending → Machine → Prop
  | refl {depth : Nat} (m : Machine) : Walk tame depth m .done m
  | trans {depth : Nat} {m m1 m2 : Machine} {e : Ending} (h1 : Walk tame depth m .done m1)
      (h2 : Walk tame depth m1 e m2) : Walk tame depth m e m2
  | move {depth : Nat} {m m' : Machine} (h : Move m m') : Walk tame depth m .done m'
  | fail {depth : Nat} (m : Machine) : Walk tame depth m .failed m
  /-- A group of steps is cut short, and a timer counted or dropped without being shown. -/
  | slip {depth : Nat} (m : Machine) (part : List Step) (timers : Nat) (keep : Callback → Bool)
      (hpart : ∀ s ∈ part, s.ofCode) (htimers : m.timerCount ≤ timers) :
      Walk tame depth m .failed (m.slipped part timers keep)
  | within {depth : Nat} {m m' : Machine} {e : Ending} (scope : Scope)
      (h : Walk tame depth (m.under scope) e m') : Walk tame depth m e (m'.under m.scope)
  | suspend {depth : Nat} {m m' : Machine} {k : Nat} {frame : Frame} {value : Value}
      {target : Target} (hframe : m.frames.head? = some frame)
      (hasync : frame.function.isAsync = true)
      (h : Run.suspend frame value target m = .ok k m') : Walk tame depth m (.suspended k) m'
  | defer {depth : Nat} {m m' : Machine} {k : Nat} (stmts : List Stmt)
      (h : Walk tame depth m (.suspended k) m')
      (hsteady : tame = true → m.Covers (Stmt.allSteady stmts)) :
      Walk tame depth m (.suspended k) (m'.deferred k stmts)
  /-- A loop goes on after its start was suspended. -/
  | skip {depth : Nat} {m m' : Machine} {k : Nat} (h : Walk tame depth m (.suspended k) m')
      (hsteady : tame = true → m.Covers false) : Walk tame depth m .done m'
  /-- A call that returns, or gives a promise that is pending. -/
  | call {depth : Nat} {m m' : Machine} {e : Ending} {f : Function} {args : List Value}
      {label : String} {line : Nat} (hroom : m.Room 2)
      (h : Walk tame depth ((m.emitted [.highlight line, .push label]).entered f args) e m')
      (hfailed : e ≠ .failed) (hasync : f.isAsync = true → e ≠ .done) (hpop : m'.Room 1) :
      Walk tame (depth + 1) m .done ((m'.back m).emitted [.pop])
  /-- A call of an async function that ends at once. -/
  | settled {depth : Nat} {m m' m'' : Machine} {f : Function} {args : List Value} {label : String}
      {line : Nat} {value : Value} (log : Log) (hroom : m.Room 2) (hasync : f.isAsync = true)
      (h : Walk tame depth ((m.emitted [.highlight line, .push label]).entered f args) .done m')
      (hpop : m'.Room 1)
      (hsettle : Run.settle m.promises.size .fulfilled value
        (((m'.back m).emitted [.pop]).logged log) = .ok () m'') :
      Walk tame (depth + 1) m .done m''
  /-- A call that fails inside, or at its end for want of room. -/
  | cut {depth : Nat} {m m' : Machine} {e : Ending} {f : Function} {args : List Value}
      {label : String} {line : Nat} (hroom : m.Room 2)
      (h : Walk tame depth ((m.emitted [.highlight line, .push label]).entered f args) e m') :
      Walk tame (depth + 1) m .failed (m'.back m)

end Machine

/-! ## Reactions leave the rest of the state alone -/

namespace Run

theorem enqueue_inv {scope : Scope} {reaction : Option Reaction}
    (h : enqueue name scope reaction state value m = .ok () m') :
    ∃ log, m' = (m.queued name scope reaction state value).logged log := by
  obtain ⟨log, hlog⟩ := enqueue_apply name scope reaction state value m
  exact ⟨log, by simpa [hlog] using h.symm⟩

theorem suspend_inv {frame : Frame} {target : Target} {k : Nat}
    (h : suspend frame value target m = .ok k m') :
    k = m.continuations.size ∧ (m.withContinuation frame target).Placed
      { name := "await " ++ frame.function.name, scope := m.scope,
        reaction := .resume m.continuations.size } m' := by
  obtain ⟨m'', h', hplaced⟩ := suspend_placed frame value target m
  rw [h'] at h
  obtain ⟨rfl, rfl⟩ : m.continuations.size = k ∧ m'' = m' := by simpa using h
  exact ⟨rfl, hplaced⟩

theorem attach_inv {l : Link} {callback : Option Expr} {receiver : Value} {derived : Nat}
    (h : attach name l callback state receiver m = .ok derived m') :
    derived = m.promises.size ∧ (m.withPromise .pending .undefined).Placed
      { name, scope := m.scope, reaction := .link l callback m.promises.size } m' := by
  obtain ⟨m'', h', hplaced⟩ := attach_placed name l callback state receiver m
  rw [h'] at h
  obtain ⟨rfl, rfl⟩ : m.promises.size = derived ∧ m'' = m' := by simpa using h
  exact ⟨rfl, hplaced⟩

theorem settle_inv {id : Nat} (h : settle id state value m = .ok () m') : ∃ ps queue passed log,
      Cascade state value (settledAt m.promises id state value) (waitersAt m.promises id) ps queue
        passed ∧
      m' = (m.released state value ps queue).logged log := by
  obtain ⟨ps, queue, passed, log, hc, h'⟩ := settle_cascade id state value m
  exact ⟨ps, queue, passed, log, hc, by simpa [h'] using h.symm⟩

end Run

theorem Cascade.size_eq {ps ps' : Array Promise} {ws queue passed : List Waiter}
    (h : Cascade state value ps ws ps' queue passed) : ps'.size = ps.size := by
  induction h with
  | nil => rfl
  | queue _ _ ih => exact ih
  | pass _ _ _ ih => simpa [settledAt] using ih

namespace Machine

/-- `m'` differs from `m` only in its promises, in microtasks added to the queue and in the log. -/
structure Aside (m m' : Machine) : Prop where
  tables : m'.tables = m.tables
  scope : m'.scope = m.scope
  frames : m'.frames = m.frames
  steps : m'.steps = m.steps
  continuations : m'.continuations = m.continuations
  cursor : m'.cursor = m.cursor
  processed : m'.processed = m.processed
  callbacks : m'.callbacks = m.callbacks
  timerCount : m'.timerCount = m.timerCount
  clock : m'.clock = m.clock
  promises : m.promises.size ≤ m'.promises.size
  microtasks : ∃ l, m'.microtasks.toList = m.microtasks.toList ++ l

theorem Aside.trans {m m1 m2 : Machine} (h1 : Aside m m1) (h2 : Aside m1 m2) : Aside m m2 := by
  obtain ⟨l1, hl1⟩ := h1.microtasks
  obtain ⟨l2, hl2⟩ := h2.microtasks
  constructor
  · rw [h2.tables, h1.tables]
  · rw [h2.scope, h1.scope]
  · rw [h2.frames, h1.frames]
  · rw [h2.steps, h1.steps]
  · rw [h2.continuations, h1.continuations]
  · rw [h2.cursor, h1.cursor]
  · rw [h2.processed, h1.processed]
  · rw [h2.callbacks, h1.callbacks]
  · rw [h2.timerCount, h1.timerCount]
  · rw [h2.clock, h1.clock]
  · exact Nat.le_trans h1.promises h2.promises
  · exact ⟨l1 ++ l2, by rw [hl2, hl1, List.append_assoc]⟩

theorem aside_of_promises {ps : Array Promise} {n : Nat} {tasks : Array Microtask} {log : Log}
    (hm' : m' = { m with promises := ps, microtaskCount := n, microtasks := tasks, log })
    (hps : m.promises.size ≤ ps.size) (htasks : ∃ l, tasks.toList = m.microtasks.toList ++ l) :
    m.Aside m' := by
  subst hm'
  exact ⟨rfl, rfl, rfl, rfl, rfl, rfl, rfl, rfl, rfl, rfl, hps, htasks⟩

theorem aside_withPromise (m : Machine) (state : PromiseState) (value : Value) :
    m.Aside (m.withPromise state value) :=
  aside_of_promises rfl (by simp) ⟨[], (List.append_nil _).symm⟩

theorem aside_queued (m : Machine) (name : String) (scope : Scope) (reaction : Option Reaction)
    (state : PromiseState) (value : Value) (log : Log) :
    m.Aside ((m.queued name scope reaction state value).logged log) :=
  aside_of_promises rfl (Nat.le_refl _) ⟨_, Array.toList_push⟩

theorem Placed.aside {w : Waiter} (h : m.Placed w m') : m.Aside m' := by
  cases h with
  | parked log hp hpending =>
    exact aside_of_promises rfl (Nat.le_of_eq Array.size_modify.symm)
      ⟨[], (List.append_nil _).symm⟩
  | queued state value log => exact aside_queued m w.name w.scope (some w.reaction) state value log

theorem aside_of_settle {id : Nat} (h : Run.settle id state value m = .ok () m') : m.Aside m' := by
  obtain ⟨ps, queue, passed, log, hc, rfl⟩ := Run.settle_inv h
  have hsize : ps.size = m.promises.size := by rw [hc.size_eq, settledAt, Array.size_modify]
  exact aside_of_promises rfl (Nat.le_of_eq hsize.symm) ⟨_, Array.toList_append⟩

end Machine

/-! ## What walks keep and what they add to -/

namespace Machine

theorem attach_aside {derived : Nat} {l : Link} {callback : Option Expr} {receiver : Value}
    (h : Run.attach name l callback state receiver m = .ok derived m') : m.Aside m' :=
  (aside_withPromise m .pending .undefined).trans (Run.attach_inv h).2.aside

theorem Move.context (h : Move m m') : m'.scope = m.scope ∧ m'.frames = m.frames := by
  cases h with
  | mark name state value h =>
    obtain ⟨log, rfl⟩ := Run.enqueue_inv h
    exact ⟨rfl, rfl⟩
  | attach name l callback state receiver h =>
    exact ⟨(attach_aside h).scope, (attach_aside h).frames⟩
  | _ => exact ⟨rfl, rfl⟩

/-- Evaluated code ends in the scope and the call in which it began. -/
theorem Walk.context {e : Ending} (h : Walk tame depth m e m') :
    m'.scope = m.scope ∧ m'.frames = m.frames := by
  induction h with
  | refl | fail | slip => exact ⟨rfl, rfl⟩
  | trans _ _ ih1 ih2 => exact ⟨ih2.1.trans ih1.1, ih2.2.trans ih1.2⟩
  | move h => exact h.context
  | within scope _ ih => exact ⟨rfl, ih.2⟩
  | suspend _ _ h =>
    have haside := (Run.suspend_inv h).2.aside
    exact ⟨haside.scope, haside.frames⟩
  | defer _ _ _ ih => exact ih
  | skip _ _ ih => exact ih
  | call | cut => exact ⟨rfl, rfl⟩
  | settled log _ _ _ _ hsettle =>
    have haside := aside_of_settle hsettle
    exact ⟨haside.scope, haside.frames⟩

theorem Covers.of_frames {steady : Bool} (h : m.Covers steady) (hframes : m'.frames = m.frames) :
    m'.Covers steady := by
  intro frame hframe
  exact h frame (hframes ▸ hframe)

/-- `m'` has all that `m` has, and what it has more is of evaluated code. -/
structure Grows (m m' : Machine) : Prop where
  limit : m'.steps.limit = m.steps.limit
  steps : ∃ l, m'.steps.toList = m.steps.toList ++ l ∧ ∀ s ∈ l, s.ofCode
  cursor : m'.cursor = m.cursor
  processed : m'.processed = m.processed
  clock : m'.clock = m.clock
  microtasks : ∃ l, m'.microtasks.toList = m.microtasks.toList ++ l
  timerCount : m.timerCount ≤ m'.timerCount
  promises : m.promises.size ≤ m'.promises.size
  continuations : ∀ (k : Nat) (c : Continuation), m.continuations[k]? = some c →
    ∃ c', m'.continuations[k]? = some c' ∧ c'.function = c.function ∧ c'.promise = c.promise

namespace Grows

variable {m m1 m2 : Machine}

theorem of_eq (hsteps : m1.steps = m.steps) (hcursor : m1.cursor = m.cursor)
    (hprocessed : m1.processed = m.processed) (hclock : m1.clock = m.clock)
    (htasks : m1.microtasks = m.microtasks) (htimers : m.timerCount ≤ m1.timerCount)
    (hpromises : m.promises.size ≤ m1.promises.size)
    (hconts : m1.continuations = m.continuations) : Grows m m1 where
  limit := by rw [hsteps]
  steps := ⟨[], by rw [hsteps, List.append_nil], by simp⟩
  cursor := hcursor
  processed := hprocessed
  clock := hclock
  microtasks := ⟨[], by rw [htasks, List.append_nil]⟩
  timerCount := htimers
  promises := hpromises
  continuations := fun k c hc => ⟨c, by rw [hconts, hc], rfl, rfl⟩

theorem refl (m : Machine) : Grows m m :=
  of_eq rfl rfl rfl rfl rfl (Nat.le_refl _) (Nat.le_refl _) rfl

theorem trans (h1 : Grows m m1) (h2 : Grows m1 m2) : Grows m m2 where
  limit := h2.limit.trans h1.limit
  steps := by
    obtain ⟨l1, hl1, hcode1⟩ := h1.steps
    obtain ⟨l2, hl2, hcode2⟩ := h2.steps
    refine ⟨l1 ++ l2, by rw [hl2, hl1, List.append_assoc], ?_⟩
    simpa only [List.forall_mem_append] using And.intro hcode1 hcode2
  cursor := h2.cursor.trans h1.cursor
  processed := h2.processed.trans h1.processed
  clock := h2.clock.trans h1.clock
  microtasks := by
    obtain ⟨l1, hl1⟩ := h1.microtasks
    obtain ⟨l2, hl2⟩ := h2.microtasks
    exact ⟨l1 ++ l2, by rw [hl2, hl1, List.append_assoc]⟩
  timerCount := Nat.le_trans h1.timerCount h2.timerCount
  promises := Nat.le_trans h1.promises h2.promises
  continuations := by
    intro k c hc
    obtain ⟨c1, hc1, hf1, hp1⟩ := h1.continuations k c hc
    obtain ⟨c2, hc2, hf2, hp2⟩ := h2.continuations k c1 hc1
    exact ⟨c2, hc2, hf2.trans hf1, hp2.trans hp1⟩

theorem size_continuations (h : Grows m m1) : m.continuations.size ≤ m1.continuations.size := by
  by_contra hlt
  have hlt : m1.continuations.size < m.continuations.size := Nat.lt_of_not_le hlt
  obtain ⟨c, hc, _⟩ := h.continuations _ _ (Array.getElem?_eq_getElem hlt)
  exact Nat.lt_irrefl _ (Array.getElem?_eq_some_iff.1 hc).1

theorem of_aside (h : m.Aside m1) : Grows m m1 where
  limit := by rw [h.steps]
  steps := ⟨[], by rw [h.steps, List.append_nil], by simp⟩
  cursor := h.cursor
  processed := h.processed
  clock := h.clock
  microtasks := h.microtasks
  timerCount := Nat.le_of_eq h.timerCount.symm
  promises := h.promises
  continuations := fun k c hc => ⟨c, by rw [h.continuations, hc], rfl, rfl⟩

theorem of_emitted (m : Machine) {l : List Step} (hl : ∀ s ∈ l, s.ofCode) : Grows m (m.emitted l) :=
  { refl m with steps := ⟨l, toList_emitted m l, hl⟩ }

theorem withContinuation (m : Machine) (frame : Frame) (target : Target) :
    Grows m (m.withContinuation frame target) where
  __ := refl m
  continuations := by
    intro k c hc
    have hk : k < m.continuations.size := (Array.getElem?_eq_some_iff.1 hc).1
    exact ⟨c, by simpa [Machine.withContinuation, Array.getElem?_push, Nat.ne_of_lt hk] using hc,
      rfl, rfl⟩

theorem deferred (m : Machine) (k : Nat) (stmts : List Stmt) : Grows m (m.deferred k stmts) where
  __ := refl m
  continuations := by
    intro j c hc
    by_cases hj : k = j
    · exact ⟨{ c with statements := c.statements ++ stmts }, by
        simp [Machine.deferred, Array.getElem?_modify, hj, hc], rfl, rfl⟩
    · exact ⟨c, by simp [Machine.deferred, Array.getElem?_modify, hj, hc], rfl, rfl⟩

end Grows

end Machine

theorem Burst.ofCode {l : List Step} (h : Burst l) : ∀ s ∈ l, s.ofCode := by
  cases h <;> simp [Step.ofCode, Step.glance, Step.highlight, Step.push, Step.pop, Step.console]

namespace Machine

theorem Move.grows (h : Move m m') : Grows m m' := by
  cases h with
  | data | declare | assign | define | nest => exact { Grows.refl m with }
  | burst hl hroom => exact .of_emitted m hl.ofCode
  | register kind callback delay line hroom =>
    refine { Grows.of_emitted m (l := [.highlight line, .push (Run.timerLabel kind delay),
      .webapiAdd (m.timerCount + 1) kind.api delay, .pop]) ?_ with
      timerCount := Nat.le_succ _ }
    simp [Step.ofCode, Step.highlight, Step.push, Step.pop, Step.webapiAdd]
  | @clear cb line label hcb hroom =>
    refine { Grows.of_emitted (m.dropped cb.id) (l := [.highlight line, .push label,
      .webapiRemove cb.id, .pop]) ?_ with }
    simp [Step.ofCode, Step.highlight, Step.push, Step.pop, Step.webapiRemove, Step.dequeue]
  | promise state value => exact .of_aside (aside_withPromise m state value)
  | mark name state value h =>
    obtain ⟨log, rfl⟩ := Run.enqueue_inv h
    exact .of_aside (aside_queued m name m.scope none state value log)
  | attach name l callback state receiver h => exact .of_aside (attach_aside h)

theorem Grows.entered (m : Machine) (f : Function) (args : List Value) (label : String)
    (line : Nat) : Grows m ((m.emitted [.highlight line, .push label]).entered f args) := by
  refine { Grows.of_emitted m (l := [.highlight line, .push label]) ?_ with promises := ?_ }
  · simp [Step.ofCode, Step.highlight, Step.push]
  · show m.promises.size ≤ Array.size (if f.isAsync then _ else _)
    split <;> simp [Machine.emitted]

theorem pop_ofCode : ∀ s ∈ [Step.pop], s.ofCode := by simp [Step.ofCode, Step.pop]

/-- Evaluated code adds steps, microtasks and promises, and touches neither the queues' positions
    nor the clock. -/
theorem Walk.grows {e : Ending} (h : Walk tame depth m e m') : Grows m m' := by
  induction h with
  | refl m => exact .refl m
  | trans _ _ ih1 ih2 => exact ih1.trans ih2
  | move h => exact h.grows
  | fail m => exact .refl m
  | slip m part timers keep hpart htimers =>
    exact { Grows.of_emitted m hpart with timerCount := htimers }
  | within scope _ ih => exact { ih with }
  | suspend _ _ h =>
    exact (Grows.withContinuation _ _ _).trans (.of_aside (Run.suspend_inv h).2.aside)
  | @defer _ _ m' k stmts _ _ ih => exact ih.trans (.deferred m' k stmts)
  | skip _ _ ih => exact ih
  | @call _ m m' _ f args label line _ _ _ _ _ ih =>
    exact (Grows.entered m f args label line).trans
      (ih.trans { Grows.of_emitted (m'.back m) pop_ofCode with })
  | @settled _ m m' m'' f args label line value log _ _ _ _ hsettle ih =>
    have hpop : Grows m' (((m'.back m).emitted [.pop]).logged log) :=
      { Grows.of_emitted (m'.back m) pop_ofCode with }
    exact (Grows.entered m f args label line).trans
      (ih.trans (hpop.trans (.of_aside (aside_of_settle hsettle))))
  | @cut _ m m' _ f args label line _ _ ih =>
    exact (Grows.entered m f args label line).trans { ih with }

/-- Code that is suspended runs in a call of an async function, and what it has left to do is in a
    new continuation of that call. -/
theorem Walk.suspended_frame {k : Nat} (h : Walk tame depth m (.suspended k) m') :
    ∃ frame c, m.frames.head? = some frame ∧ frame.function.isAsync = true ∧
      m.continuations.size ≤ k ∧ m'.continuations[k]? = some c ∧ c.function = frame.function ∧
      c.promise = frame.promise := by
  generalize he : Ending.suspended k = e at h
  induction h with
  | refl | move | fail | slip | call | settled | cut | skip => cases he
  | @trans _ m m1 m2 e h1 h2 _ ih2 =>
    obtain ⟨frame, c, hframe, hasync, hk, hc⟩ := ih2 he
    exact ⟨frame, c, h1.context.2 ▸ hframe, hasync,
      Nat.le_trans h1.grows.size_continuations hk, hc⟩
  | within scope _ ih => exact ih he
  | @suspend _ m m' k' frame value target hframe hasync h =>
    cases he
    obtain ⟨rfl, hplaced⟩ := Run.suspend_inv h
    let c : Continuation :=
      { scope := m.scope, function := frame.function, target, promise := frame.promise }
    refine ⟨frame, c, hframe, hasync, Nat.le_refl _, ?_, rfl, rfl⟩
    rw [hplaced.aside.continuations]
    exact Array.getElem?_push_size
  | @defer _ m m' k' stmts h _ ih =>
    cases he
    obtain ⟨frame, c, hframe, hasync, hk, hc, hf, hp⟩ := ih rfl
    exact ⟨frame, { c with statements := c.statements ++ stmts }, hframe, hasync, hk, by
      simp [deferred, Array.getElem?_modify, hc], hf, hp⟩

end Machine

end EventLoop
