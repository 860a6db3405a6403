/-
  The calls that a run enters, and those of them that make a promise.

  A `Visit` is a call that is entered, with the place where it stands.  A `Making` is one evaluation
  of a call that makes a promise, with the states in which its arguments were evaluated and in which
  it ended.  It owns one mark, a microtask that marks the promise as settled, if nothing consumes its
  promise and that is settled, and else none.

  A `Trace` of a result lists both.  The debug log, if it is detailed enough, has the calls that are
  entered and no others, and all marks belong to the promises that are made.
-/
import EventLoop.Proofs.Task
import Mathlib.Data.List.Perm.Subperm

namespace EventLoop

open Script

variable {α β : Type}

/-! ## What is watched -/

/-- The call that a line of the log says to be entered. -/
def Log.Line.call? : Log.Line → Option Expr
  | .entered callee args line => some (.call callee args line)
  | .text _ => none

/-- The calls that a log says to be entered, in order. -/
def Log.calls (l : Log) : List Expr := l.output.toList.filterMap Log.Line.call?

theorem Log.level_write (l : Log) (level : Nat) (line : Log.Line) :
    (l.write level line).level = l.level := by
  rw [write]
  split <;> rfl

theorem Log.calls_write (l : Log) (level : Nat) (line : Log.Line) :
    (l.write level line).calls = l.calls ++ if level ≤ l.level then line.call?.toList else [] := by
  rw [write]
  split
  · cases line <;> simp [calls, Log.Line.call?]
  · simp

namespace Machine

/-- The microtasks that only mark a promise as settled, in the order in which they were queued. -/
def marks (m : Machine) : List Microtask := m.microtasks.toList.filter (·.kind == "settle")

/-- The state of a promise; a number without one counts as fulfilled. -/
def stateAt (m : Machine) (id : Nat) : PromiseState :=
  ((m.promises[id]?).getD { state := .fulfilled }).state

/-- The marks, and the calls in the log. -/
def watched (m : Machine) : List Microtask × Nat × List Expr := (m.marks, m.log.level, m.log.calls)

end Machine

open Run

namespace Run

/-- A microtask without a reaction is a mark, and any other one is not. -/
theorem enqueue_watched (name : String) (scope : Scope) (reaction : Option Reaction)
    (state : PromiseState) (value : Value) (m : Machine) :
    ∃ l, (final (enqueue name scope reaction state value m)).watched =
      (m.marks ++ l, m.log.level, m.log.calls) ∧ l.length = if reaction = none then 1 else 0 := by
  have hlog (level : Nat) (s : String) (l : Log) :
      (l.write level s).level = l.level ∧ (l.write level s).calls = l.calls := by
    simp [Log.level_write, Log.calls_write, Log.Line.call?]
  obtain ⟨hlevel, hcalls⟩ := hlog 2 ("enqueue microtask #" ++ toString (m.microtaskCount + 1) ++
    " " ++ name ++ " (" ++ state.name ++ ")") m.log
  refine ⟨_, Prod.ext (Array.toList_push ▸ List.filter_append ..) (Prod.ext hlevel hcalls), ?_⟩
  cases reaction with
  | none => simp [Microtask.kind]
  | some r => simp [Microtask.kind, r.kind_ne_settle]

/-- An action that neither marks a promise nor enters a call. -/
def Still (act : Run α) : Prop := ∀ m, (final (act m)).watched = m.watched

theorem Still.of_reads {act : Run α} (h : Reads act) : Still act := by
  intro m
  rw [h.final_eq]

theorem Still.bind {act : Run α} {f : α → Run β} (h : Still act) (hf : ∀ a, Still (f a)) :
    Still (act >>= f) :=
  fun m => final_bind (h m) fun a m' => (hf a m').trans

theorem note_still (level : Nat) {line : Log.Line} (h : line.call? = none) :
    Still (note level line) := by
  intro m
  rw [note_apply, final_ok, Machine.watched, Machine.logged_log, Log.level_write, Log.calls_write, h]
  simp [Machine.watched, Machine.marks, Machine.logged]

theorem emit_still (s : Step) : Still (emit s) := by
  have hpush : Still (modify fun m => { m with steps := m.steps.push s } : Run PUnit) :=
    fun _ => rfl
  refine (Still.of_reads reads_get).bind fun m => ?_
  by_cases hfull : m.steps.isFull
  · simp only [hfull, if_true]
    exact .of_reads fun _ => .inr ⟨_, rfl⟩
  · simp only [hfull]
    exact hpush.bind fun _ => note_still 3 rfl

theorem emitAll_still (l : List Step) : Still (emitAll l) := by
  induction l with
  | nil => exact .of_reads (reads_pure ())
  | cons s rest ih => exact (emit_still s).bind fun _ => ih

theorem settledValues_still (vs : List Value) : Still (vs.mapM settledValue) := by
  induction vs with
  | nil => exact .of_reads (reads_pure [])
  | cons v rest ih =>
    rw [List.mapM_cons]
    exact (Still.of_reads (reads_settledValue v)).bind fun _ => ih.bind fun _ =>
      .of_reads (reads_pure _)

theorem combine_still (v : Value) : Still (combine v) := by
  have harray (items : List Value) (state : PromiseState) :
      Still (do newPromise state (← newArray items)) :=
    fun _ => rfl
  cases v with
  | array id =>
    refine (Still.of_reads (reads_itemsOf id)).bind fun items => ?_
    refine (Still.of_reads (reads_rejection _)).bind fun rejected => ?_
    cases rejected with
    | some v => exact fun _ => rfl
    | none => exact (settledValues_still _).bind fun vs => harray vs _
  | _ => exact harray [] _

theorem made_still (maker : Maker) (v : Value) : Still (made maker v) := by
  cases maker with
  | reject => exact fun _ => rfl
  | all => exact combine_still v
  | resolve => cases v <;> exact fun _ => rfl

end Run

/-! ## Calls -/

/-- Where an expression stands. -/
inductive Position where
  /-- It is what a method is called on. -/
  | receiver
  /-- It is what an `await` applies to. -/
  | operand
  | elsewhere
  deriving DecidableEq

/-- Whether what stands there is consumed. -/
def Position.consumes : Position → Bool
  | .elsewhere => false
  | .receiver | .operand => true

/-- A call that is entered, and where it stands. -/
structure Visit where
  place : Position
  callee : Expr
  args : List Expr
  line : Nat

namespace Visit

/-- The call as an expression. -/
def call (v : Visit) : Expr := .call v.callee v.args v.line

/-- Whether the call makes a promise. -/
def makes (v : Visit) : Bool :=
  match CallShape.ofCallee v.callee with
  | .promise _ => true
  | _ => false

end Visit

/-- A call that made a promise. -/
structure Making extends Visit where
  maker : Maker
  shape : CallShape.ofCallee callee = .promise maker
  values : List Value
  promise : Nat
  /-- The state once the arguments were evaluated. -/
  before : Machine
  /-- The state at the end of the call. -/
  after : Machine
  made : makePromise maker place.consumes values line before = .ok (.promise promise) after

namespace Making

/-- The marks that the call itself queued. -/
def owned (c : Making) : List Microtask := c.after.marks.drop c.before.marks.length

theorem makes (c : Making) : c.toVisit.makes = true := by
  rw [Visit.makes, c.shape]

end Making

namespace Run

/-- A promise is marked as settled if it is, unless it is consumed. -/
theorem announce_marks (name : String) (consumed : Bool) (id : Nat) (m : Machine) :
    ∃ m' l, announce name consumed id m = .ok (.promise id) m' ∧ m'.promises = m.promises ∧
      m'.watched = (m.marks ++ l, m.log.level, m.log.calls) ∧
      l.length = if consumed = false ∧ m.stateAt id ≠ .pending then 1 else 0 := by
  simp only [announce, promiseOf, bind_apply, get_apply, pure_apply, modify_apply]
  by_cases hmark : consumed = false ∧ m.stateAt id ≠ .pending
  · rw [if_pos (by simpa [Machine.stateAt] using hmark), if_pos hmark]
    obtain ⟨l, hwatched, hlength⟩ := enqueue_watched name m.scope none (m.stateAt id)
      ((m.promises[id]?).getD { state := .fulfilled }).value { m with rootState := m.stateAt id }
    exact ⟨_, l, rfl, rfl, hwatched, hlength⟩
  · rw [if_neg (by simpa [Machine.stateAt] using hmark), if_neg hmark]
    exact ⟨_, [], rfl, rfl, by rw [List.append_nil]; rfl, rfl⟩

/-- What a call that makes a promise does first: it shows itself, and makes the promise. -/
def preparePromise (maker : Maker) (values : List Value) (line : Nat) : Run Nat := do
  emitAll [.highlight line, .push ("Promise." ++ maker.method ++ "()"), .pop]
  made maker (values.headD .undefined)

theorem makePromise_eq (maker : Maker) (consumed : Bool) (values : List Value) (line : Nat) :
    makePromise maker consumed values line =
      preparePromise maker values line >>= announce ("Promise." ++ maker.method) consumed :=
  (bind_assoc _ _ _).symm

/-- A call that makes a promise fails before it marks anything, or gives a promise. -/
theorem makePromise_marks (maker : Maker) (consumed : Bool) (values : List Value) (line : Nat)
    (m : Machine) :
    (∃ fault m', makePromise maker consumed values line m = .error fault m' ∧
      m'.watched = m.watched) ∨
    ∃ id m' l, makePromise maker consumed values line m = .ok (.promise id) m' ∧
      m'.watched = (m.marks ++ l, m.log.level, m.log.calls) ∧
      l.length = if consumed = false ∧ m'.stateAt id ≠ .pending then 1 else 0 := by
  have hm : (final (preparePromise maker values line m)).watched = m.watched :=
    ((emitAll_still _).bind fun _ => made_still maker _) m
  rw [makePromise_eq, bind_apply]
  cases hr : preparePromise maker values line m with
  | error fault m' =>
    rw [hr] at hm
    exact .inl ⟨fault, m', rfl, hm⟩
  | ok id m1 =>
    rw [hr, final_ok, Machine.watched, Machine.watched, Prod.mk.injEq, Prod.mk.injEq] at hm
    obtain ⟨m', l, hannounce, hpromises, hwatched, hlength⟩ :=
      announce_marks ("Promise." ++ maker.method) consumed id m1
    rw [hm.1, hm.2.1, hm.2.2] at hwatched
    refine .inr ⟨id, m', l, hannounce, hwatched, ?_⟩
    rw [hlength, Machine.stateAt, Machine.stateAt, hpromises]

end Run

/-- A call queues one mark if nothing consumes its promise and that is settled, and else none.  It
    enters no other call. -/
theorem Making.owned_exact (c : Making) :
    c.after.watched = (c.before.marks ++ c.owned, c.before.log.level, c.before.log.calls) ∧
    c.owned.length =
      if c.place = .elsewhere ∧ c.after.stateAt c.promise ≠ .pending then 1 else 0 := by
  rcases makePromise_marks c.maker c.place.consumes c.values c.line c.before with
    ⟨fault, m', h, _⟩ | ⟨id, m', l, h, hwatched, hlength⟩
  · cases h.symm.trans c.made
  · cases h.symm.trans c.made
    have hmarks : c.after.marks = c.before.marks ++ l := congrArg Prod.fst hwatched
    have howned : c.owned = l := by rw [owned, hmarks, List.drop_left]
    have hplace : c.place.consumes = false ↔ c.place = .elsewhere := by cases c.place <;> decide
    simp only [howned, hlength, hplace]
    exact ⟨hwatched, trivial⟩

/-! ## Traces -/

/-- From one state to another the log, if it is detailed enough, gets the calls that are entered,
    and the marks are those of the promises that are made. -/
structure Machine.Traces (m : Machine) (visits : List Visit) (makings : List Making)
    (m' : Machine) : Prop where
  marks : m'.marks = m.marks ++ makings.flatMap Making.owned
  level : m'.log.level = m.log.level
  calls : m'.log.calls = m.log.calls ++ if 3 ≤ m.log.level then visits.map Visit.call else []

namespace Machine.Traces

variable {m m1 m' : Machine} {visits visits' : List Visit} {makings makings' : List Making}

theorem of_watched (h : m'.watched = m.watched) : m.Traces [] [] m' := by
  obtain ⟨hmarks, hlevel, hcalls⟩ : _ ∧ _ ∧ _ := by
    simpa only [watched, Prod.mk.injEq] using h
  exact ⟨by simpa using hmarks, hlevel, by simpa using hcalls⟩

theorem trans (h : m.Traces visits makings m1) (h' : m1.Traces visits' makings' m') :
    m.Traces (visits ++ visits') (makings ++ makings') m' where
  marks := by rw [h'.marks, h.marks, List.flatMap_append, List.append_assoc]
  level := h'.level.trans h.level
  calls := by
    rw [h'.calls, h.calls, h.level, List.append_assoc]
    split <;> simp

/-- A call that is entered is the first one of all that are entered inside. -/
theorem enter {v : Visit}
    (h : (m.logged (m.log.write 3 (.entered v.callee v.args v.line))).Traces visits makings m') :
    m.Traces (v :: visits) makings m' where
  marks := h.marks
  level := h.level.trans (Log.level_write _ _ _)
  calls := by
    rw [h.calls]
    simp only [logged_log, Log.calls_write, Log.level_write, Log.Line.call?]
    split <;> simp [Visit.call]

theorem made (c : Making) : c.before.Traces [] [c] c.after := by
  obtain ⟨hmarks, hlevel, hcalls⟩ : _ ∧ _ ∧ _ := by
    simpa only [watched, Prod.mk.injEq] using c.owned_exact.1
  exact ⟨by simpa using hmarks, hlevel, by simpa using hcalls⟩

end Machine.Traces

/-- The promises that are made belong to the calls that are entered to make one; after a failure,
    to some of them. -/
def Run.Accounts (makings : List Making) (visits : List Visit) :
    EStateM.Result Fault Machine α → Prop
  | .ok _ _ => (makings.map Making.toVisit).Perm (visits.filter Visit.makes)
  | .error _ _ => (makings.map Making.toVisit).Subperm (visits.filter Visit.makes)

theorem Run.Accounts.subperm {makings : List Making} {visits : List Visit}
    {r : EStateM.Result Fault Machine α} (h : Accounts makings visits r) :
    (makings.map Making.toVisit).Subperm (visits.filter Visit.makes) := by
  cases r with
  | ok a m => exact List.Perm.subperm h
  | error fault m => exact h

/-- A result with the calls that were entered for it, all of which stand where they may, and with
    the promises that were made. -/
structure Run.Trace (S : Position → Expr → Prop) (m : Machine)
    (r : EStateM.Result Fault Machine α) (visits : List Visit) (makings : List Making) : Prop where
  sites : ∀ v ∈ visits, S v.place v.call
  traces : m.Traces visits makings (final r)
  accounts : Accounts makings visits r

namespace Run.Trace

variable {S : Position → Expr → Prop} {m m1 : Machine} {a : α}
  {r : EStateM.Result Fault Machine β} {visits visits' : List Visit} {makings makings' : List Making}

theorem of_watched (h : (final r).watched = m.watched) : Trace S m r [] [] where
  sites := by simp
  traces := .of_watched h
  accounts := by
    cases r with
    | ok a m' => exact List.Perm.nil
    | error fault m' => exact List.nil_subperm

theorem append (h : Trace S m (.ok a m1) visits makings) (h' : Trace S m1 r visits' makings') :
    Trace S m r (visits ++ visits') (makings ++ makings') where
  sites := List.forall_mem_append.2 ⟨h.sites, h'.sites⟩
  traces := h.traces.trans h'.traces
  accounts := by
    have haccounts := h'.accounts
    cases r with
    | ok b m' =>
      rw [Accounts, List.map_append, List.filter_append]
      exact List.Perm.append h.accounts haccounts
    | error fault m' =>
      rw [Accounts, List.map_append, List.filter_append]
      exact h.accounts.subperm.append haccounts

section

variable {v : Visit} {r' : EStateM.Result Fault Machine α} (hsite : S v.place v.call)

include hsite

/-- A call is entered that makes no promise. -/
theorem enter (hmakes : v.makes = false)
    (h : Trace S (m.logged (m.log.write 3 (.entered v.callee v.args v.line))) r visits makings) :
    Trace S m r (v :: visits) makings where
  sites := List.forall_mem_cons.2 ⟨hsite, h.sites⟩
  traces := h.traces.enter
  accounts := by
    have hfilter : (v :: visits).filter Visit.makes = visits.filter Visit.makes :=
      List.filter_cons_of_neg (by simp [hmakes])
    have haccounts := h.accounts
    cases r <;> rwa [Accounts, hfilter]

/-- A call is entered that fails to make a promise. -/
theorem fail {fault : Fault} {m' : Machine} (hend : m'.watched = (final r').watched)
    (h : Trace S (m.logged (m.log.write 3 (.entered v.callee v.args v.line))) r' visits makings) :
    Trace S m (.error fault m' : EStateM.Result Fault Machine β) (v :: visits) makings where
  sites := List.forall_mem_cons.2 ⟨hsite, h.sites⟩
  traces := by simpa using (h.traces.trans (.of_watched hend)).enter
  accounts := h.accounts.subperm.trans ((List.sublist_cons_self v visits).filter _).subperm

end

/-- A call is entered that makes a promise, once its arguments are evaluated. -/
theorem make {c : Making} {b : β} (hsite : S c.place c.call)
    (h : Trace S (m.logged (m.log.write 3 (.entered c.callee c.args c.line))) (.ok a c.before)
      visits makings) :
    Trace S m (.ok b c.after) (c.toVisit :: visits) (makings ++ [c]) where
  sites := List.forall_mem_cons.2 ⟨hsite, h.sites⟩
  traces := by simpa using (h.traces.trans (.made c)).enter
  accounts := by
    rw [Accounts, List.filter_cons_of_pos c.makes, List.map_append]
    exact (List.perm_append_singleton _ _).trans (List.Perm.cons _ h.accounts)

end Run.Trace

end EventLoop
