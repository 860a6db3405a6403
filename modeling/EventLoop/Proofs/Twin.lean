/-
  Two runs in step.

  Two calls of functions whose bodies differ only in the last statement go through states that are
  twins until they come to it: they differ in the bodies of the active functions, in the
  continuations and in the log (`Machine.Twin`).  `InStep R act act'` says that from twins, whenever
  `act` gives a result, `act'` gives one that is related to it by `R`, and the states are twins again.

  The same code is in step with itself: it does not look into the bodies of the active functions,
  nor into the continuations of suspended calls.  It adds statements to continuations, but only to
  those that it has made itself.  These are the ones from number `n` on; until the code is done, they
  hold the same statements on both sides.
-/
import EventLoop.Proofs.Alike
import EventLoop.Proofs.Aloof
import EventLoop.Proofs.Execution
import EventLoop.Proofs.Turn

namespace EventLoop

open Script

variable {α β α' β' : Type} {frame : Frame}

/-! ## Twins -/

/-- The functions are the same but for their bodies. -/
def Function.Twin (f f' : Function) : Prop := ∃ body, f' = { f with body }

/-- The calls are the same but for the bodies of their functions. -/
structure Frame.Twin (frame frame' : Frame) : Prop where
  function : frame.function.Twin frame'.function
  promise : frame'.promise = frame.promise

theorem Frame.Twin.refl (frame : Frame) : frame.Twin frame := ⟨⟨_, rfl⟩, rfl⟩

/-- The difference between two runs: the call with the given promise has `last` for its last
    statement in one of them, and `last'` in the other. -/
structure Swap where
  promise : Nat
  last : Stmt
  last' : Stmt

/-- The suspended calls are the same but for the bodies of their functions, and for the last
    statement where that differs. -/
structure Continuation.Twin (δ : Swap) (c c' : Continuation) : Prop where
  function : c.function.Twin c'.function
  scope : c'.scope = c.scope
  target : c'.target = c.target
  promise : c'.promise = c.promise
  statements : c'.statements = c.statements ∨
    (c.promise = some δ.promise ∧ c.function.isAsync = true ∧
      ∃ stmts, c.statements = stmts ++ [δ.last] ∧ c'.statements = stmts ++ [δ.last'])

theorem Continuation.Twin.name_eq {δ : Swap} {c c' : Continuation} (h : c.Twin δ c') :
    c'.function.name = c.function.name := by
  obtain ⟨body, hbody⟩ := h.function
  rw [hbody]

theorem Continuation.Twin.refl (δ : Swap) (c : Continuation) : c.Twin δ c :=
  ⟨⟨_, rfl⟩, rfl, rfl, rfl, .inl rfl⟩

namespace Machine

/-- The states differ in the bodies of active functions, in continuations and in the log.  From
    number `n` on, continuations hold the same statements. -/
structure Twin (δ : Swap) (n : Nat) (m m' : Machine) : Prop where
  rest : m' = m.before ⟨m.steps, m'.frames, m'.continuations, m'.log⟩
  frames : List.Forall₂ Frame.Twin m.frames m'.frames
  size : m'.continuations.size = m.continuations.size
  continuations : ∀ (k : Nat) (c c' : Continuation), m.continuations[k]? = some c →
    m'.continuations[k]? = some c' → c.Twin δ c' ∧ (n ≤ k → c'.statements = c.statements)
  made : n ≤ m.continuations.size

namespace Twin

variable {δ : Swap} {n : Nat} {m m' : Machine}

theorem refl (δ : Swap) (m : Machine) : m.Twin δ m.continuations.size m where
  rest := rfl
  frames := List.forall₂_same.2 fun frame _ => .refl frame
  size := rfl
  continuations k c c' hc hc' := by
    obtain rfl : c = c' := Option.some.inj (hc.symm.trans hc')
    exact ⟨.refl δ c, fun _ => rfl⟩
  made := Nat.le_refl _

section

variable (h : m.Twin δ n m')

include h

/-- What was made until now is no longer added to. -/
theorem settle : m.Twin δ m.continuations.size m' where
  rest := h.rest
  frames := h.frames
  size := h.size
  continuations k c c' hc hc' := by
    refine ⟨(h.continuations k c c' hc hc').1, fun hk => ?_⟩
    have hlt := (Array.getElem?_eq_some_iff.1 hc).1
    omega
  made := Nat.le_refl _

theorem scope_eq : m'.scope = m.scope := by
  rw [h.rest]
  rfl

theorem promises_eq : m'.promises = m.promises := by
  rw [h.rest]
  rfl

theorem callBudget_eq : m'.callBudget = m.callBudget := by
  rw [callBudget, callBudget, h.frames.length_eq]

theorem moved (scope : Scope) {frames frames' : List Frame}
    (hframes : List.Forall₂ Frame.Twin frames frames') :
    Twin δ n { m with scope, frames } { m' with scope, frames := frames' } where
  rest := by
    rw [h.rest]
    rfl
  frames := hframes
  size := h.size
  continuations := h.continuations
  made := h.made

theorem head (hframe : m.frames.head? = some frame) :
    ∃ frame', m'.frames.head? = some frame' ∧ frame.Twin frame' := by
  have hframes := h.frames
  generalize m.frames = frames at hframe hframes
  generalize m'.frames = frames' at hframes
  cases hframes with
  | nil => cases hframe
  | cons hhead _ =>
    cases hframe
    exact ⟨_, rfl, hhead⟩

/-- The suspended calls are twins, also where there is none. -/
theorem continuationAt (k : Nat) : (m.continuationAt k).Twin δ (m'.continuationAt k) := by
  rw [Machine.continuationAt, Machine.continuationAt]
  cases hc : m.continuations[k]? with
  | none =>
    have hnone : m'.continuations[k]? = none := by
      rw [Array.getElem?_eq_none_iff, h.size]
      exact Array.getElem?_eq_none_iff.1 hc
    rw [hnone]
    exact .refl δ _
  | some c =>
    have hlt : k < m'.continuations.size := by
      rw [h.size]
      exact (Array.getElem?_eq_some_iff.1 hc).1
    have hc' := Array.getElem?_eq_getElem hlt
    rw [hc']
    exact (h.continuations k c _ hc hc').1

theorem taken : m.taken.Twin δ n m'.taken where
  rest := by
    rw [h.rest]
    rfl
  frames := h.frames
  size := h.size
  continuations := h.continuations
  made := h.made

/-- The calls are suspended before the statements in which they differ. -/
theorem deferred_last {k : Nat} (hk : n ≤ k) {c : Continuation}
    (hc : m.continuations[k]? = some c) (hpromise : c.promise = some δ.promise)
    (hasync : c.function.isAsync = true) :
    (m.deferred k [δ.last]).Twin δ (m.deferred k [δ.last]).continuations.size
      (m'.deferred k [δ.last']) where
  rest := by
    rw [h.rest]
    rfl
  frames := h.frames
  size := by simp [deferred, h.size]
  continuations := by
    intro j c1 c1' hc1 hc1'
    refine ⟨?_, fun hj => ?_⟩
    · simp only [deferred, Array.getElem?_modify] at hc1 hc1'
      split at hc1
      · -- the suspended call itself: from now on its last statements differ
        rename_i hj
        subst hj
        rw [if_pos rfl] at hc1'
        rw [hc] at hc1
        obtain ⟨c', hc', rfl⟩ := Option.map_eq_some_iff.1 hc1'
        obtain rfl := Option.some.inj hc1
        obtain ⟨htwin, heq⟩ := h.continuations k c c' hc hc'
        refine ⟨htwin.function, htwin.scope, htwin.target, htwin.promise, .inr ?_⟩
        exact ⟨hpromise, hasync, c.statements, rfl, by rw [heq hk]⟩
      · rw [if_neg ‹_›] at hc1'
        exact (h.continuations j c1 c1' hc1 hc1').1
    · have hlt := (Array.getElem?_eq_some_iff.1 hc1).1
      omega
  made := Nat.le_refl _

end

end Twin

end Machine

/-! ## Actions in step -/

namespace Run

open Machine

variable {frame' : Frame}

/-- From twins, whenever the first action gives a result, the second one gives one that is related to
    it, and the states are twins again. -/
def InStep (δ : Swap) (n : Nat) (R : α → α' → Prop) (act : Run α) (act' : Run α') : Prop :=
  ∀ (m m' : Machine), m.Twin δ n m' → ∀ a m1, act m = .ok a m1 →
    ∃ a' m1', act' m' = .ok a' m1' ∧ R a a' ∧ m1.Twin δ n m1'

namespace InStep

variable {δ : Swap} {n : Nat} {R : α → α' → Prop} {S : β → β' → Prop} {act : Run α} {act' : Run α'}

theorem pure {a : α} {a' : α'} (h : R a a') : InStep δ n R (pure a) (pure a') := by
  rintro m m' hm _ _ ⟨⟩
  exact ⟨a', m', rfl, h, hm⟩

theorem same (a : α) : InStep δ n Eq (Pure.pure a) (Pure.pure a : Run α) := pure rfl

theorem imp {R' : α → α' → Prop} (h : InStep δ n R act act') (hR : ∀ a a', R a a' → R' a a') :
    InStep δ n R' act act' := by
  intro m m' hm a m1 hact
  obtain ⟨a', m1', hact', ha, hm1⟩ := h m m' hm a m1 hact
  exact ⟨a', m1', hact', hR a a' ha, hm1⟩

theorem bind {f : α → Run β} {f' : α' → Run β'} (h : InStep δ n R act act')
    (hf : ∀ a a', R a a' → InStep δ n S (f a) (f' a')) :
    InStep δ n S (act >>= f) (act' >>= f') := by
  intro m m' hm b m2 hact
  obtain ⟨a, m1, ha, hb⟩ := bind_eq_ok hact
  obtain ⟨a', m1', ha', hR, hm1⟩ := h m m' hm a m1 ha
  obtain ⟨b', m2', hb', hS, hm2⟩ := hf a a' hR m1 m1' hm1 b m2 hb
  exact ⟨b', m2', (bind_of_ok ha' f').trans hb', hS, hm2⟩

theorem next {act' : Run α} {f : α → Run β} {f' : α → Run β'} (h : InStep δ n Eq act act')
    (hf : ∀ a, InStep δ n S (f a) (f' a)) : InStep δ n S (act >>= f) (act' >>= f') := by
  refine h.bind ?_
  rintro a _ rfl
  exact hf a

theorem discard (h : InStep δ n R act act') :
    InStep δ n Eq (discard act : Run PUnit) (discard act') := by
  intro m m' hm b m1 hact
  rw [discard_apply] at hact
  cases ha : act m with
  | error fault m2 =>
    rw [ha] at hact
    cases hact
  | ok a m2 =>
    rw [ha] at hact
    cases hact
    obtain ⟨a', m1', ha', _, hm1⟩ := h m m' hm a m1 ha
    exact ⟨⟨⟩, m1', by rw [discard_apply, ha'], rfl, hm1⟩

theorem of_aloof (h : Aloof act) : InStep δ n Eq act act := by
  intro m m' hm a m1 hact
  obtain ⟨write, hblind⟩ := h.blind m
  have hother := hblind ⟨m.steps, m'.frames, m'.continuations, m'.log⟩
  obtain ⟨hsteps, hframes, hconts⟩ := h.kept hact
  rw [← hm.rest, hact, ← hsteps] at hother
  refine ⟨a, _, hother, rfl, rfl, ?_, ?_, ?_, ?_⟩
  · rw [hframes]
    exact hm.frames
  · rw [hconts]
    exact hm.size
  · rw [hconts]
    exact hm.continuations
  · rw [hconts]
    exact hm.made

theorem emit (s : Step) : InStep δ n Eq (emit s) (emit s) := by
  intro m m' hm a m1 hact
  rcases emit_cases s m with ⟨hroom, log, hemit⟩ | ⟨_, hemit⟩
  · have hroom' : m'.Room 1 := by
      rw [hm.rest]
      exact hroom
    obtain ⟨log', hemit'⟩ := emit_of_room s hroom'
    cases hemit.symm.trans hact
    refine ⟨(), _, hemit', rfl, ?_, hm.frames, hm.size, hm.continuations, hm.made⟩
    rw [hm.rest]
    rfl
  · cases hemit.symm.trans hact

theorem emitAll (l : List Step) : InStep δ n Eq (emitAll l) (emitAll l) := by
  induction l with
  | nil => exact same ()
  | cons s l ih => exact (emit s).next fun _ => ih

theorem restoring {scope : Scope} {frames frames' : List Frame} (h : InStep δ n R act act')
    (hframes : List.Forall₂ Frame.Twin frames frames') :
    InStep δ n R (Run.restoring scope frames act) (Run.restoring scope frames' act') := by
  intro m m' hm a m1 hact
  rw [Run.restoring] at hact
  cases ha : act m with
  | error fault m2 =>
    rw [ha] at hact
    cases hact
  | ok b m2 =>
    rw [ha] at hact
    cases hact
    obtain ⟨a', m2', ha', hR, hm2⟩ := h m m' hm a m2 ha
    exact ⟨a', _, by rw [Run.restoring, ha'], hR, hm2.moved scope hframes⟩

/-- Two actions that run in another scope, and in frames that are made of the present ones. -/
theorem within (scope : Scope) {move move' : List Frame → List Frame}
    (hmove : ∀ {l l'}, List.Forall₂ Frame.Twin l l' → List.Forall₂ Frame.Twin (move l) (move' l'))
    (h : InStep δ n R act act') : InStep δ n R
      (fun m => Run.restoring m.scope m.frames act { m with scope, frames := move m.frames })
      (fun m => Run.restoring m.scope m.frames act' { m with scope, frames := move' m.frames }) := by
  intro m m' hm a m1 hact
  have hback : InStep δ n R (Run.restoring m.scope m.frames act)
      (Run.restoring m.scope m'.frames act') := h.restoring hm.frames
  obtain ⟨a', m1', ha', hR, hm1⟩ := hback _ _ (hm.moved scope (hmove hm.frames)) a m1 hact
  rw [← hm.scope_eq] at ha'
  exact ⟨a', m1', ha', hR, hm1⟩

theorem inScope (scope : Scope) (h : InStep δ n R act act') :
    InStep δ n R (inScope scope act) (inScope scope act') := h.within scope id

theorem inFrame (scope : Scope) (hframe : frame.Twin frame') (h : InStep δ n R act act') :
    InStep δ n R (inFrame scope frame act) (inFrame scope frame' act') :=
  h.within scope (.cons hframe)

theorem nested (h : InStep δ n R act act') : InStep δ n R (nested act) (nested act') := by
  have hscope : Aloof (do newScope (← get).scope [] : Run Scope) :=
    .get_bind (fun _ => newScope_aloof _ []) fun _ _ => rfl
  have hact {γ : Type} (act : Run γ) : Run.nested act =
      (do newScope (← get).scope [] : Run Scope) >>= fun scope => Run.inScope scope act := rfl
  rw [hact, hact]
  exact (of_aloof hscope).next fun scope => h.inScope scope

end InStep

/-! ## Suspension -/

variable {δ : Swap} {n : Nat}

theorem asyncFrame_inStep : InStep δ n (Option.Rel Frame.Twin) asyncFrame? asyncFrame? := by
  intro m m' hm a m1 hact
  have hrel : Option.Rel Frame.Twin (m.frames.head?.filter (·.function.isAsync))
      (m'.frames.head?.filter (·.function.isAsync)) := by
    have hframes := hm.frames
    generalize m.frames = frames at hframes
    generalize m'.frames = frames' at hframes
    cases hframes with
    | nil => exact .none
    | @cons frame frame' _ _ hframe _ =>
      obtain ⟨body, hbody⟩ := hframe.function
      have hasync : frame'.function.isAsync = frame.function.isAsync := by rw [hbody]
      cases h : frame.function.isAsync with
      | false => simp [Option.filter, hasync, h]
      | true => simpa [Option.filter, hasync, h] using Option.Rel.some hframe
  cases hact
  exact ⟨_, m', rfl, hrel, hm⟩

/-- A call that is suspended on both sides leaves one new continuation. -/
theorem newContinuation_inStep (h : frame.Twin frame') (target : Target) :
    InStep δ n Eq (newContinuation frame target) (newContinuation frame' target) := by
  rintro m m' hm _ _ ⟨⟩
  refine ⟨_, _, rfl, hm.size.symm, ?_⟩
  constructor
  case rest => rw [hm.rest]; rfl
  case frames => exact hm.frames
  case size => simp [hm.size]
  case made =>
    rw [Array.size_push]
    exact Nat.le_succ_of_le hm.made
  case continuations =>
    intro k c c' hc hc'
    rw [Array.getElem?_push] at hc hc'
    rw [hm.size] at hc'
    split at hc
    · rw [if_pos ‹_›] at hc'
      cases hc
      cases hc'
      exact ⟨⟨h.function, hm.scope_eq, rfl, h.promise, .inl rfl⟩, fun _ => rfl⟩
    · rw [if_neg ‹_›] at hc'
      exact hm.continuations k c c' hc hc'

theorem suspend_inStep (h : frame.Twin frame') (v : Value) (target : Target) :
    InStep δ n (fun k k' => k' = k ∧ n ≤ k) (suspend frame v target)
      (suspend frame' v target) := by
  obtain ⟨body, hbody⟩ := h.function
  have hname : frame'.function.name = frame.function.name := by rw [hbody]
  have hsame : InStep δ n Eq (suspend frame v target) (suspend frame' v target) := by
    refine (newContinuation_inStep h target).next fun k => ?_
    rw [hname]
    refine .of_aloof (.get_bind (fun m => ?_) fun _ _ => rfl)
    exact (stateOf_aloof v).bind fun _ => (react_aloof _ _ _ _).bind fun _ => .pure k
  intro m m' hm k m1 hact
  obtain ⟨_, m1', hact', rfl, hm1⟩ := hsame m m' hm k m1 hact
  exact ⟨k, m1', hact', ⟨rfl, (suspend_inv hact).1 ▸ hm.made⟩, hm1⟩

/-- Statements are added on both sides to a continuation that the code has made. -/
theorem defer_inStep {k : Nat} (hk : n ≤ k) (stmts : List Stmt) :
    InStep δ n Eq (defer k stmts) (defer k stmts) := by
  rintro m m' hm _ _ ⟨⟩
  refine ⟨_, _, rfl, rfl, ?_⟩
  constructor
  case rest => rw [hm.rest]; rfl
  case frames => exact hm.frames
  case size => simp [hm.size]
  case made => simpa using hm.made
  case continuations =>
    intro j c c' hc hc'
    rw [Array.getElem?_modify] at hc hc'
    split at hc
    · rename_i hj
      subst hj
      rw [if_pos rfl] at hc'
      obtain ⟨c0, hc0, rfl⟩ := Option.map_eq_some_iff.1 hc
      obtain ⟨c0', hc0', rfl⟩ := Option.map_eq_some_iff.1 hc'
      obtain ⟨htwin, heq⟩ := hm.continuations k c0 c0' hc0 hc0'
      have hstmts : c0'.statements ++ stmts = c0.statements ++ stmts := by rw [heq hk]
      exact ⟨⟨htwin.function, htwin.scope, htwin.target, htwin.promise, .inl hstmts⟩,
        fun _ => hstmts⟩
    · rw [if_neg ‹_›] at hc'
      exact hm.continuations j c c' hc hc'

/-! ## Expressions -/

/-- Calls of the same function are in step. -/
def CallsInStep (δ : Swap) (n : Nat) (call : Invoke) : Prop :=
  ∀ f args label line, InStep δ n Eq (call f args label line) (call f args label line)

variable {call : Invoke}

def inStep_basic : BasicCongruence (InStep δ n Eq) :=
  .of_aloof .of_aloof .next .emit

def inStep_congruence : Congruence (InStep δ n Eq) := inStep_basic.congruence

theorem eval_inStep (h : CallsInStep δ n call) (consumed : Bool) (e : Expr) :
    InStep δ n Eq (eval call consumed e) (eval call consumed e) :=
  eval_congr inStep_congruence h consumed e

/-! ## Statements -/

end Run

/-- The statements end in the same way; one that is suspended is so in a continuation from number `n`
    on. -/
def Outcome.InStep (n : Nat) (outcome outcome' : Outcome) : Prop :=
  outcome' = outcome ∧ ∀ k, outcome = .suspended k → n ≤ k

/-- The same comes of an expression; a suspension is one in a continuation from number `n` on. -/
def Run.Awaited.InStep (n : Nat) (a a' : Run.Awaited) : Prop :=
  a' = a ∧ ∀ k, a = .suspended k → n ≤ k

namespace Run

open Machine

variable {δ : Swap} {n : Nat} {call : Invoke}

/-- The value is awaited in the innermost call, if that is an async one. -/
theorem orSuspend_inStep {R : α → α → Prop} {act act' : Run Value} {plain plain' : Run α}
    {suspended : Nat → α} (target : Target) (hact : InStep δ n Eq act act')
    (hsuspended : ∀ k, n ≤ k → R (suspended k) (suspended k)) (hplain : InStep δ n R plain plain') :
    InStep δ n R (orSuspend act target suspended plain)
      (orSuspend act' target suspended plain') := by
  refine asyncFrame_inStep.bind fun o o' ho => ?_
  cases ho with
  | some hframe =>
    refine hact.next fun v => (suspend_inStep hframe v target).bind ?_
    rintro _ k ⟨rfl, hk⟩
    exact .pure (hsuspended k hk)
  | none => exact hplain

def inStep_statements : StmtCongruence (InStep δ n Eq) (fun k k' => k' = k ∧ n ≤ k)
    (InStep δ n (Awaited.InStep n)) (InStep δ n (Outcome.InStep n)) where
  toCongruence := inStep_congruence
  value h := h.next fun _ => .pure ⟨rfl, nofun⟩
  await target h := orSuspend_inStep target h fun k hk => ⟨rfl, fun j hj => by cases hj; exact hk⟩
  awaitStmt target h :=
    orSuspend_inStep target h fun k hk => ⟨rfl, fun j hj => by cases hj; exact hk⟩
  completed := .pure ⟨rfl, nofun⟩
  returned _ := .pure ⟨rfl, nofun⟩
  suspended := by
    rintro k _ ⟨rfl, hk⟩
    exact .pure ⟨rfl, fun j hj => by cases hj; exact hk⟩
  next := .next
  awaited h hvalue hsuspended := h.bind <| by
    rintro _ a ⟨rfl, ha⟩
    cases a with
    | value v => exact hvalue v
    | suspended k => exact hsuspended k k ⟨rfl, ha k rfl⟩
  proceed h hcompleted hreturned hsuspended := h.bind <| by
    rintro _ outcome ⟨rfl, ho⟩
    cases outcome with
    | completed => exact hcompleted
    | returned v => exact hreturned v
    | suspended k => exact hsuspended k k ⟨rfl, ho k rfl⟩
  defer := by
    rintro k _ stmts ⟨rfl, hk⟩
    exact defer_inStep hk stmts
  discardValue := .discard
  discard := .discard
  nested := .nested
  renewScope := .of_aloof renewScope_aloof
  warn text := .of_aloof (warn_aloof text)
  emit := inStep_basic.emit
  declareVariable := inStep_basic.declareVariable
  bindFunction _ _ _ _ _ := .of_aloof (bindFunction_aloof _ _ _ _ _)

theorem execAll_inStep (h : CallsInStep δ n call) (stmts : List Stmt) :
    InStep δ n (Outcome.InStep n) (execAll call stmts) (execAll call stmts) :=
  execAll_congr inStep_statements h stmts

/-! ## Calls -/

theorem runBody_inStep (h : CallsInStep δ n call) (b : Body) :
    InStep δ n Eq (runBody call b) (runBody call b) :=
  (runBody_congr inStep_statements h b).imp fun _ _ hout => hout.1.symm

theorem invoke_inStep (depth : Nat) : CallsInStep δ n (invoke depth) := by
  induction depth with
  | zero =>
    intro f args label line m m' hm v m1 hact
    obtain ⟨_, m2, _, hact⟩ := bind_eq_ok hact
    obtain ⟨_, m3, _, hact⟩ := bind_eq_ok hact
    cases hact
  | succ depth ih =>
    intro f args label line
    refine (InStep.emitAll _).next fun _ => ?_
    refine (InStep.of_aloof (note_aloof _ _)).next fun _ => ?_
    have hcall : InStep δ n Eq (runCall (invoke depth) f args) (runCall (invoke depth) f args) :=
      (InStep.of_aloof (newScope_aloof _ _)).next fun scope =>
        (InStep.of_aloof (callPromise_aloof f)).next fun promise =>
          ((runBody_inStep ih f.body).inFrame scope (.refl _)).next fun _ => .same _
    refine hcall.next fun r => ?_
    exact (InStep.emit _).next fun _ => .of_aloof ((finish_aloof _ _).bind fun _ => .pure _)

theorem withCalls_inStep {act : Invoke → Run α} {act' : Invoke → Run α'} {R : α → α' → Prop}
    (h : ∀ call, CallsInStep δ n call → InStep δ n R (act call) (act' call)) :
    InStep δ n R (withCalls act) (withCalls act') := by
  intro m m' hm a m1 hact
  obtain ⟨a', m1', hact', hR, hm1⟩ :=
    h (invoke m.callBudget) (invoke_inStep m.callBudget) m m' hm a m1 hact
  rw [← hm.callBudget_eq] at hact'
  exact ⟨a', m1', hact', hR, hm1⟩

def inStep_callbacks : CallbackCongruence fun act => InStep δ n Eq act act where
  pure := .same
  next := .next
  note level line := .of_aloof (note_aloof level line)
  settledValue v := .of_aloof (settledValue_aloof v)
  newFunction _ _ _ _ _ _ := .of_aloof (newFunction_aloof _ _ _ _ _ _)
  value _ scope := .inScope scope (withCalls_inStep fun _ h => eval_inStep h false _)
  callBack f args label := withCalls_inStep fun _ h => h f args label f.line

end Run

end EventLoop
