/-
  What a function body means in which each `await` is passed at once.

  `Run.pass` executes a statement like `Run.exec`, but an `await` in a position where it would
  suspend its function is passed: what receives the settled value receives it right away.  If the
  operand is a promise that is pending or rejected, the passage is stuck.

  There are two readings of the scopes on the way (`Scoping`).  In the lexical one a block, and each
  round of a loop, is left at its end.  In the captured one a block or loop in which an `await` was
  passed is not left: what follows it runs in its scope, and a loop whose round has passed an
  `await` goes on as a loop without a start.  The two agree on a statement whose inner blocks have
  no such `await` (`pass_captured_of_flat`).
-/
import EventLoop.Proofs.Turn

namespace EventLoop

open Script

/-! ## Passages -/

/-- Which scopes are left behind an `await`. -/
inductive Scoping where
  /-- All of them, at the end of their blocks. -/
  | lexical
  /-- Those of blocks in which no `await` was passed. -/
  | captured
  deriving DecidableEq

/-- How a statement is passed. -/
inductive Passage where
  /-- There is an `await` whose operand is pending or rejected. -/
  | stuck
  /-- The statement ends, and an `await` was passed in it or not. -/
  | ended (awaited : Bool) (outcome : Outcome)

namespace Passage

/-- Whether an `await` was passed. -/
def awaited : Passage → Bool
  | stuck => false
  | ended awaited _ => awaited

/-- The passage, behind statements in which an `await` was passed or not. -/
def after (before : Bool) : Passage → Passage
  | stuck => stuck
  | ended awaited outcome => ended (before || awaited) outcome

/-- The value that a body returns. -/
def value? : Passage → Option Value
  | ended _ .completed => some .undefined
  | ended _ (.returned v) => some v
  | ended _ (.suspended _) | stuck => none

end Passage

namespace Run

/-- Passes one thing and then another, which depends on whether an `await` was passed. -/
def passThen (first : Run Passage) (rest : Bool → Run Passage) : Run Passage := do
  match ← first with
  | .ended awaited .completed => return (← rest awaited).after awaited
  | p => return p

/-- The value with which a function goes on that awaits `v`, unless that is a promise that is
    pending or rejected.  If a promise was fulfilled with a promise, it is the value of the latter.
-/
def fulfillment? : Value → Run (Option Value)
  | .promise id => do
    let p ← promiseOf id
    if p.state = .fulfilled then return some (← settledValue p.value) else return none
  | v => return some v

/-- Passes an `await`. -/
def passAwait (call : Invoke) (target : Target) (e : Expr) : Run Passage := do
  match ← fulfillment? (← eval call true e) with
  | none => return .stuck
  | some v => return .ended true (← receive target v)

def passExpr (call : Invoke) : Expr → Run Passage
  | .assign op x (.await e _) _ => passAwait call (.assign x op) e
  | .await e _ => passAwait call .discard e
  | e => do
    let _ ← eval call false e
    return .ended false .completed

def passDeclarators (call : Invoke) : List Declarator → Run Passage
  | [] => pure (.ended false .completed)
  | .mk x none :: rest => do
    declareVariable x .undefined
    passDeclarators call rest
  | .mk x (some (.await e _)) :: rest =>
    passThen (passAwait call (.declare x) e) fun _ => passDeclarators call rest
  | .mk x (some e) :: rest => do
    declareVariable x (← eval call false e)
    passDeclarators call rest

def passReturn (call : Invoke) : Option Expr → Run Passage
  | none => pure (.ended false (.returned .undefined))
  | some (.await e _) => passAwait call .ret e
  | some e => do return .ended false (.returned (← eval call false e))

def passInit (call : Invoke) : LoopInit → Run Passage
  | .nothing => pure (.ended false .completed)
  | .declare _ decls _ => passDeclarators call decls
  | .expr e => do
    let _ ← eval call false e
    return .ended false .completed

/-- Passes the update of a loop as a statement, if there is one. -/
def passUpdate (call : Invoke) : Option Expr → Run Passage
  | none => pure (.ended false .completed)
  | some e => passExpr call e

/-- Passes something in a new scope nested in the current one. -/
def passNested (scoping : Scoping) (act : Run Passage) : Run Passage := do
  let m ← get
  let scope ← newScope m.scope []
  modify (·.under scope)
  let p ← act
  if scoping = .lexical || !p.awaited then modify (·.back m)
  return p

/-- Passes the rounds of a loop, at most `rounds` of them. -/
def passRounds (scoping : Scoping) (call : Invoke) (condition update : Option Expr)
    (body : Run Passage) : LoopInit → Nat → Run Passage
  | _, 0 => do return if ← loopTest call condition then .stuck else .ended false .completed
  | init, rounds + 1 => do
    if ← loopTest call condition then
      passThen body fun awaited =>
        if scoping = .captured && awaited then
          passThen (passUpdate call update) fun _ => passNested scoping
            (passRounds scoping call condition update body .nothing rounds)
        else do
          loopStep call init update
          passRounds scoping call condition update body init rounds
    else return .ended false .completed

mutual

def pass (scoping : Scoping) (call : Invoke) : Stmt → Run Passage
  | .expr e _ => passExpr call e
  | .declare _ decls _ => passDeclarators call decls
  | .function name params body isAsync line => do
    bindFunction name params body isAsync line
    emit (.glance line)
    return .ended false .completed
  | .block b => passBlock scoping call b
  | .branch condition body otherwise _ => do
    let v ← eval call false condition
    let _ ← textOf v
    if v.isTruthy then passBlock scoping call body else passOptional scoping call otherwise
  | .loop init condition update body _ =>
    passNested scoping <| passThen (passInit call init) fun _ =>
      passRounds scoping call condition update (passBlock scoping call body) init maxLoopRounds
  | .ret e _ => passReturn call e

def passOptional (scoping : Scoping) (call : Invoke) : Option Stmt → Run Passage
  | none => pure (.ended false .completed)
  | some s => pass scoping call s

def passBlock (scoping : Scoping) (call : Invoke) : Block → Run Passage
  | .mk stmts _ => passNested scoping (passAll scoping call stmts)

def passAll (scoping : Scoping) (call : Invoke) : List Stmt → Run Passage
  | [] => pure (.ended false .completed)
  | s :: rest => passThen (pass scoping call s) fun _ => passAll scoping call rest

end

def passBody (scoping : Scoping) (call : Invoke) : Body → Run Passage
  | .value e => do return .ended false (.returned (← eval call false e))
  | .block b => do
    hoist b.stmts
    passAll scoping call b.stmts

/-- Calls an async function whose body is passed, with `depth` more calls allowed inside: its
    promise is fulfilled when the call ends.  Gives the promise, unless the passage is stuck. -/
def passCall (scoping : Scoping) :
    Nat → Function → List Value → String → Nat → Run (Option Value)
  | depth, f, args, label, line => do
    emitAll [.highlight line, .push label]
    match depth with
    | 0 => throw .callDepth
    | depth + 1 => do
      let scope ← newScope f.scope (bindParams f.params args [])
      let id ← newPromise .pending .undefined
      let p ← inFrame scope ⟨f, some id⟩ (passBody scoping (invoke depth) f.body)
      emit .pop
      match p.value? with
      | none => return none
      | some v =>
        settle id .fulfilled (← settledValue v)
        return some (.promise id)

theorem passThen_pure (ref : Run Passage) :
    passThen ref (fun _ => pure (.ended false .completed)) = ref := by
  funext m
  rw [passThen, bind_apply]
  cases ref m with
  | error fault m1 => rfl
  | ok p m1 =>
    cases p with
    | stuck => rfl
    | ended b outcome => cases outcome <;> cases b <;> rfl

/-- What is passed behind something that passes no `await` and always completes. -/
theorem passThen_plain (act : Run Unit) (ref : Bool → Run Passage) : passThen (do
      act
      return .ended false .completed) ref = (do
      act
      ref false) := by
  have hafter (p : Passage) : p.after false = p := by cases p <;> rfl
  simp only [passThen, bind_assoc, pure_bind, hafter, bind_pure]

end Run

/-! ## What passages keep -/

/-- Code has run in the innermost call: the frames are the same, no microtask was taken, and some
    may have been queued. -/
structure Machine.Onward (m m' : Machine) : Prop where
  frames : m'.frames = m.frames
  cursor : m'.cursor = m.cursor
  microtasks : m.microtasks.size ≤ m'.microtasks.size

namespace Machine.Onward

variable {m m1 m2 : Machine}

theorem refl (m : Machine) : m.Onward m := ⟨rfl, rfl, Nat.le_refl _⟩

theorem trans (h1 : m.Onward m1) (h2 : m1.Onward m2) : m.Onward m2 :=
  ⟨h2.frames.trans h1.frames, h2.cursor.trans h1.cursor, Nat.le_trans h1.microtasks h2.microtasks⟩

theorem of_walk {tame : Bool} {depth : Nat} {e : Ending} (h : m.Walk tame depth e m1) :
    m.Onward m1 := by
  obtain ⟨l, hl⟩ := h.grows.microtasks
  refine ⟨h.context.2, h.grows.cursor, ?_⟩
  rw [← Array.length_toList, ← Array.length_toList, hl, List.length_append]
  exact Nat.le_add_right _ _

theorem of_aside (h : m.Aside m1) : m.Onward m1 := by
  obtain ⟨l, hl⟩ := h.microtasks
  refine ⟨h.frames, h.cursor, ?_⟩
  rw [← Array.length_toList, ← Array.length_toList, hl, List.length_append]
  exact Nat.le_add_right _ _

end Machine.Onward

namespace Run

variable {α β : Type} {tame : Bool} {depth : Nat} {call : Invoke}

/-- Every result of the action is onward from where it started. -/
def Advances (act : Run α) : Prop := ∀ m a m', act m = .ok a m' → m.Onward m'

namespace Advances

theorem of_walks (tame : Bool) (depth : Nat) {act : Run α} (h : Walks tame depth act) :
    Advances act := by
  intro m a m' hact
  have hm := h m
  rw [hact] at hm
  cases hm with
  | ok hw => exact .of_walk hw

theorem of_reads {act : Run α} (h : Reads act) : Advances act := of_walks true 0 (.of_reads h)

theorem pure (a : α) : Advances (pure a : Run α) := of_reads (reads_pure a)

theorem bind {act : Run α} {f : α → Run β} (h : Advances act) (hf : ∀ a, Advances (f a)) :
    Advances (act >>= f) := by
  intro m b m' hb
  obtain ⟨a, m1, ha, hb⟩ := bind_eq_ok hb
  exact (h m a m1 ha).trans (hf a m1 b m' hb)

variable {first : Run Passage} {rest : Bool → Run Passage}

theorem passThen (h : Advances first) (hrest : ∀ awaited, Advances (rest awaited)) :
    Advances (passThen first rest) := by
  refine h.bind fun p => ?_
  cases p with
  | stuck => exact .pure _
  | ended awaited outcome =>
    cases outcome with
    | completed => exact (hrest awaited).bind fun _ => .pure _
    | _ => exact .pure _

end Advances

theorem emit_advances (s : Step) : Advances (emit s) := by
  intro m _ m' h
  rcases emit_cases s m with ⟨_, log, hemit⟩ | ⟨_, hemit⟩
  · rw [hemit] at h
    cases h
    exact { Machine.Onward.refl m with }
  · rw [hemit] at h
    cases h

theorem emitAll_advances (l : List Step) : Advances (emitAll l) := by
  induction l with
  | nil => exact .pure ()
  | cons s l ih => exact (emit_advances s).bind fun _ => ih

theorem settle_advances (id : Nat) (state : PromiseState) (value : Value) :
    Advances (settle id state value) :=
  fun _ _ _ h => .of_aside (Machine.aside_of_settle h)

theorem newScope_advances (outer : Scope) (bindings : Bindings) :
    Advances (newScope outer bindings) :=
  .of_walks true 0 (newScope_walks outer bindings)

variable {act : Run Passage}

theorem passNested_advances {scoping : Scoping} (h : Advances act) :
    Advances (passNested scoping act) := by
  intro m p m' hp
  obtain ⟨_, _, ⟨⟩, hp⟩ := bind_eq_ok hp
  obtain ⟨scope, m1, hscope, hp⟩ := bind_eq_ok hp
  obtain ⟨_, _, ⟨⟩, hp⟩ := bind_eq_ok hp
  obtain ⟨p', m2, hact, hp⟩ := bind_eq_ok hp
  have h1 : m.Onward m1 := newScope_advances m.scope [] m scope m1 hscope
  have h2 : m.Onward m2 := h1.trans { h _ _ _ hact with }
  split at hp
  · obtain ⟨_, _, ⟨⟩, ⟨⟩⟩ := bind_eq_ok hp
    exact { h2 with frames := rfl }
  · cases hp
    exact h2

theorem reads_fulfillment (v : Value) : Reads (fulfillment? v) := by
  cases v with
  | promise id =>
    refine (reads_promiseOf id).bind fun p => ?_
    split
    · exact (reads_settledValue _).bind fun _ => reads_pure _
    · exact reads_pure _
  | _ => exact reads_pure _

theorem receive_advances (target : Target) (v : Value) : Advances (receive target v) := by
  intro m outcome m' h
  have hleads : m.Leads true 0 Outcome.ending (receive target v m) := receive_leads target v m
  rw [h] at hleads
  cases hleads with
  | ok hw => exact .of_walk hw

theorem renewScope_advances : Advances renewScope := by
  refine Advances.bind (.of_reads reads_get) fun m => (newScope_advances _ _).bind fun scope => ?_
  rintro m _ _ ⟨⟩
  exact { Machine.Onward.refl m with }

section Passages

variable (h : CallsWalk tame depth call)
include h

theorem eval_advances (consumed : Bool) (e : Expr) : Advances (eval call consumed e) :=
  .of_walks tame depth (eval_walks h consumed e)

theorem passAwait_advances (target : Target) (e : Expr) : Advances (passAwait call target e) := by
  refine (eval_advances h true e).bind fun v => (Advances.of_reads (reads_fulfillment v)).bind
    fun found => ?_
  cases found with
  | none => exact .pure _
  | some v => exact (receive_advances target v).bind fun _ => .pure _

theorem passExpr_advances (e : Expr) : Advances (passExpr call e) := by
  have hplain (e : Expr) : Advances (do
      let _ ← eval call false e
      return Passage.ended false .completed) :=
    (eval_advances h false e).bind fun _ => .pure _
  cases e with
  | assign op x e line =>
    cases e with
    | await e awaitLine => exact passAwait_advances h (.assign x op) e
    | _ => exact hplain _
  | await e line => exact passAwait_advances h .discard e
  | _ => exact hplain _

theorem passDeclarators_advances (decls : List Declarator) :
    Advances (passDeclarators call decls) := by
  induction decls with
  | nil => exact .pure _
  | cons d rest ih =>
    obtain ⟨x, init⟩ := d
    have hdeclare (v : Value) : Advances (declareVariable x v) :=
      .of_walks true 0 (declareVariable_walks x v)
    cases init with
    | none => exact (hdeclare .undefined).bind fun _ => ih
    | some e =>
      cases e with
      | await e line => exact (passAwait_advances h (.declare x) e).passThen fun _ => ih
      | _ => exact (eval_advances h false _).bind fun v => (hdeclare v).bind fun _ => ih

theorem passReturn_advances (e : Option Expr) : Advances (passReturn call e) := by
  cases e with
  | none => exact .pure _
  | some e =>
    cases e with
    | await e line => exact passAwait_advances h .ret e
    | _ => exact (eval_advances h false _).bind fun _ => .pure _

theorem passInit_advances (init : LoopInit) : Advances (passInit call init) := by
  cases init with
  | nothing => exact .pure _
  | declare kind decls line => exact passDeclarators_advances h decls
  | expr e => exact (eval_advances h false e).bind fun _ => .pure _

theorem passUpdate_advances (update : Option Expr) : Advances (passUpdate call update) := by
  cases update with
  | none => exact .pure _
  | some e => exact passExpr_advances h e

theorem loopTest_advances (condition : Option Expr) : Advances (loopTest call condition) :=
  .of_walks tame depth (loopTest_walks h condition)

theorem loopStep_advances (init : LoopInit) (update : Option Expr) :
    Advances (loopStep call init update) := by
  have hupdate : Advances (loopUpdate call update) := by
    cases update with
    | none => exact .pure ()
    | some e => exact .of_walks tame depth ((eval_walks h false e).map _)
  unfold loopStep
  cases renewsBindings init with
  | true => exact renewScope_advances.bind fun _ => hupdate
  | false => exact hupdate

variable {body : Run Passage}

theorem passRounds_advances (scoping : Scoping) (condition update : Option Expr)
    (hbody : Advances body) (init : LoopInit) (rounds : Nat) :
    Advances (passRounds scoping call condition update body init rounds) := by
  induction rounds generalizing init with
  | zero => exact (loopTest_advances h condition).bind fun _ => .pure _
  | succ rounds ih =>
    refine (loopTest_advances h condition).bind fun go => ?_
    cases go with
    | false => exact .pure _
    | true =>
      refine hbody.passThen fun awaited => ?_
      split
      · exact (passUpdate_advances h update).passThen fun _ => passNested_advances (ih .nothing)
      · exact (loopStep_advances h init update).bind fun _ => ih init

end Passages

mutual

theorem pass_advances (h : CallsWalk tame depth call) (scoping : Scoping) :
    (s : Stmt) → Advances (pass scoping call s)
  | .expr e _ => passExpr_advances h e
  | .declare _ decls _ => passDeclarators_advances h decls
  | .function name params body isAsync line =>
    (Advances.of_walks true 0 (bindFunction_walks name params body isAsync line)).bind fun _ =>
      (Advances.of_walks true 0 (glance_walks line)).bind fun _ => .pure _
  | .block b => passBlock_advances h scoping b
  | .branch condition body otherwise _ => by
    refine (eval_advances h false condition).bind fun v => ?_
    refine (Advances.of_reads (reads_textOf v)).bind fun _ => ?_
    by_cases hv : v.isTruthy
    · simpa [hv] using passBlock_advances h scoping body
    · simpa [hv] using passOptional_advances h scoping otherwise
  | .loop init condition update body _ =>
    passNested_advances <| (passInit_advances h init).passThen fun _ =>
      passRounds_advances h scoping condition update (passBlock_advances h scoping body) init _
  | .ret e _ => passReturn_advances h e

theorem passOptional_advances (h : CallsWalk tame depth call) (scoping : Scoping) :
    (s : Option Stmt) → Advances (passOptional scoping call s)
  | none => .pure _
  | some s => pass_advances h scoping s

theorem passBlock_advances (h : CallsWalk tame depth call) (scoping : Scoping) :
    (b : Block) → Advances (passBlock scoping call b)
  | .mk stmts _ => passNested_advances (passAll_advances h scoping stmts)

theorem passAll_advances (h : CallsWalk tame depth call) (scoping : Scoping) :
    (stmts : List Stmt) → Advances (passAll scoping call stmts)
  | [] => .pure _
  | s :: rest => (pass_advances h scoping s).passThen fun _ => passAll_advances h scoping rest

end

theorem passBody_advances (h : CallsWalk tame depth call) (scoping : Scoping) (b : Body) :
    Advances (passBody scoping call b) := by
  cases b with
  | value e => exact (eval_advances h false e).bind fun _ => .pure _
  | block b =>
    exact (Advances.of_walks true 0 (hoist_walks b.stmts)).bind fun _ =>
      passAll_advances h scoping b.stmts

end Run

/-! ## Where the two readings agree -/

namespace Script

/-- Whether an expression is an `await`, or assigns one, so that it suspends its function when it is
    a statement. -/
def Expr.awaits : Expr → Bool
  | .await _ _ | .assign _ _ (.await _ _) _ => true
  | _ => false

/-- Whether the value that is returned is awaited. -/
def Expr.optionAwaits : Option Expr → Bool
  | some (.await _ _) => true
  | _ => false

mutual

/-- Whether a statement can never suspend its function.  Functions inside the statement have bodies
    of their own and do not count. -/
def Stmt.awaitFree : Stmt → Bool
  | .expr e _ => !e.awaits
  | .declare _ decls _ => decls.all (·.steady)
  | .function _ _ _ _ _ => true
  | .ret e _ => !Expr.optionAwaits e
  | .block b => b.awaitFree
  | .branch _ body otherwise _ => body.awaitFree && Stmt.optionAwaitFree otherwise
  | .loop init _ _ body _ => init.steady && body.awaitFree

/-- Whether a statement can never suspend its function, if there is one. -/
def Stmt.optionAwaitFree : Option Stmt → Bool
  | none => true
  | some s => s.awaitFree

/-- Whether the statements of a block can never suspend their function. -/
def Block.awaitFree : Block → Bool
  | .mk stmts _ => Stmt.allAwaitFree stmts

/-- Whether some statements can never suspend their function. -/
def Stmt.allAwaitFree : List Stmt → Bool
  | [] => true
  | s :: rest => s.awaitFree && Stmt.allAwaitFree rest

end

/-- Whether a statement is one without blocks, or can never suspend its function. -/
def Stmt.flat (s : Stmt) : Bool :=
  match s with
  | .expr _ _ | .declare _ _ _ | .function _ _ _ _ _ | .ret _ _ => true
  | .block _ | .branch _ _ _ _ | .loop _ _ _ _ _ => s.awaitFree

/-- Whether each `await` of a function body that may suspend it stands among the body's own
    statements, in no inner block. -/
def Body.flat : Body → Bool
  | .block b => b.stmts.all (·.flat)
  | .value _ => true

end Script

namespace Run

variable {call : Invoke}

/-- The action passes no `await`. -/
def Unawaited (act : Run Passage) : Prop := ∀ m p m', act m = .ok p m' → p.awaited = false

namespace Unawaited

theorem pure {p : Passage} (h : p.awaited = false) : Unawaited (pure p) := by
  rintro m _ _ ⟨⟩
  exact h

theorem bind {α : Type} {act : Run α} {f : α → Run Passage} (hf : ∀ a, Unawaited (f a)) :
    Unawaited (act >>= f) := by
  intro m p m' h
  obtain ⟨a, m1, _, h⟩ := bind_eq_ok h
  exact hf a m1 p m' h

theorem passThen (h : Unawaited first) (hrest : Unawaited (rest false)) :
    Unawaited (passThen first rest) := by
  intro m p m' hp
  obtain ⟨p1, m1, hfirst, hp⟩ := bind_eq_ok hp
  have hp1 := h m p1 m1 hfirst
  cases p1 with
  | stuck =>
    cases hp
    rfl
  | ended awaited outcome =>
    obtain rfl : awaited = false := hp1
    cases outcome with
    | completed =>
      obtain ⟨p2, m2, hp2, ⟨⟩⟩ := bind_eq_ok hp
      have hp2 := hrest m1 p2 m' hp2
      cases p2 with
      | stuck => rfl
      | ended awaited outcome => simpa [Passage.after, Passage.awaited] using hp2
    | returned v =>
      cases hp
      rfl
    | suspended k =>
      cases hp
      rfl

theorem passNested {scoping : Scoping} (h : Unawaited act) :
    Unawaited (passNested scoping act) := by
  refine bind fun m => bind fun scope => bind fun _ => ?_
  intro m p m' hp
  obtain ⟨p', m1, hact, hp⟩ := bind_eq_ok hp
  have hp' := h m p' m1 hact
  split at hp
  · obtain ⟨_, _, _, ⟨⟩⟩ := bind_eq_ok hp
    exact hp'
  · cases hp
    exact hp'

end Unawaited

/-- Behind something that passes no `await`, only that case counts. -/
theorem passThen_congr {rest' : Bool → Run Passage} (h : Unawaited first)
    (hrest : rest false = rest' false) : passThen first rest = passThen first rest' := by
  funext m
  rw [passThen, passThen, bind_apply, bind_apply]
  cases hfirst : first m with
  | error fault m1 => rfl
  | ok p m1 =>
    cases p with
    | stuck => rfl
    | ended awaited outcome =>
      obtain rfl : awaited = false := h m _ m1 hfirst
      cases outcome with
      | completed => simp only [hrest]
      | _ => rfl

/-- A block in which no `await` is passed is left in both readings. -/
theorem passNested_captured (h : Unawaited act) :
    passNested .captured act = passNested .lexical act := by
  have hleave (m : Machine) :
      (do
        let p ← act
        if Scoping.captured = .lexical || !p.awaited then modify (·.back m)
        return p : Run Passage) =
      (do
        let p ← act
        if Scoping.lexical = .lexical || !p.awaited then modify (·.back m)
        return p : Run Passage) := by
    funext m1
    rw [bind_apply, bind_apply]
    cases hact : act m1 with
    | error fault m2 => rfl
    | ok p m2 => simp [h m1 p m2 hact]
  simp only [passNested, hleave]

theorem passDeclarators_unawaited {decls : List Declarator} (h : decls.all (·.steady) = true) :
    Unawaited (passDeclarators call decls) := by
  induction decls with
  | nil => exact .pure rfl
  | cons d rest ih =>
    obtain ⟨hd, hrest⟩ := Bool.and_eq_true_iff.1 (List.all_cons ▸ h)
    obtain ⟨x, init⟩ := d
    cases init with
    | none => exact .bind fun _ => ih hrest
    | some e =>
      cases e with
      | await e line => cases hd
      | _ => exact .bind fun _ => .bind fun _ => ih hrest

theorem passInit_unawaited {init : LoopInit} (h : init.steady = true) :
    Unawaited (passInit call init) := by
  cases init with
  | nothing => exact .pure rfl
  | declare kind decls line => exact passDeclarators_unawaited h
  | expr e => exact .bind fun _ => .pure rfl

theorem passRounds_unawaited (scoping : Scoping) (condition update : Option Expr)
    (hbody : Unawaited body) (init : LoopInit) (rounds : Nat) :
    Unawaited (passRounds scoping call condition update body init rounds) := by
  induction rounds with
  | zero =>
    refine .bind fun go => ?_
    cases go <;> exact .pure rfl
  | succ rounds ih =>
    refine .bind fun go => ?_
    cases go with
    | false => exact .pure rfl
    | true =>
      refine hbody.passThen ?_
      rw [Bool.and_false]
      exact .bind fun _ => ih

theorem passRounds_captured (condition update : Option Expr) (hbody : Unawaited body)
    (init : LoopInit) (rounds : Nat) : passRounds .captured call condition update body init rounds =
      passRounds .lexical call condition update body init rounds := by
  induction rounds with
  | zero => rfl
  | succ rounds ih =>
    rw [passRounds, passRounds]
    refine bind_congr fun go => ?_
    cases go with
    | false => rfl
    | true => exact passThen_congr hbody (by simp [ih])

mutual

/-- A statement that can never suspend its function passes no `await`, and both readings agree on
    it. -/
theorem pass_of_awaitFree : (s : Stmt) → s.awaitFree = true →
    Unawaited (pass .lexical call s) ∧ pass .captured call s = pass .lexical call s
  | .expr e _, h => by
    have he : e.awaits = false := by simpa [Stmt.awaitFree] using h
    refine ⟨?_, rfl⟩
    cases e with
    | await e line => cases he
    | assign op x e line =>
      cases e with
      | await e awaitLine => cases he
      | _ => exact .bind fun _ => .pure rfl
    | _ => exact .bind fun _ => .pure rfl
  | .declare _ decls _, h => ⟨passDeclarators_unawaited (by simpa [Stmt.awaitFree] using h), rfl⟩
  | .function .., _ => ⟨.bind fun _ => .bind fun _ => .pure rfl, rfl⟩
  | .block b, h => by
    simpa only [pass] using passBlock_of_awaitFree b (by simpa [Stmt.awaitFree] using h)
  | .branch condition body otherwise _, h => by
    obtain ⟨hbody, hother⟩ : body.awaitFree = true ∧ Stmt.optionAwaitFree otherwise = true := by
      simpa [Stmt.awaitFree] using h
    obtain ⟨hun, heq⟩ := passBlock_of_awaitFree body hbody
    obtain ⟨hun', heq'⟩ := passOptional_of_awaitFree otherwise hother
    refine ⟨.bind fun v => .bind fun _ => ?_, by rw [pass, pass, heq, heq']⟩
    split
    · exact hun
    · exact hun'
  | .loop init condition update body _, h => by
    obtain ⟨hinit, hbody⟩ : init.steady = true ∧ body.awaitFree = true := by
      simpa [Stmt.awaitFree] using h
    obtain ⟨hun, heq⟩ := passBlock_of_awaitFree body hbody
    have hloop : Unawaited (passThen (passInit call init) fun _ =>
        passRounds .lexical call condition update (passBlock .lexical call body) init
          maxLoopRounds) :=
      (passInit_unawaited hinit).passThen (passRounds_unawaited _ _ _ hun init _)
    refine ⟨hloop.passNested, ?_⟩
    rw [pass, pass, heq, passRounds_captured condition update hun, passNested_captured hloop]
  | .ret e _, h => by
    have he : Expr.optionAwaits e = false := by simpa [Stmt.awaitFree] using h
    refine ⟨?_, rfl⟩
    cases e with
    | none => exact .pure rfl
    | some e =>
      cases e with
      | await e line => cases he
      | _ => exact .bind fun _ => .pure rfl

theorem passOptional_of_awaitFree : (s : Option Stmt) → Stmt.optionAwaitFree s = true →
    Unawaited (passOptional .lexical call s) ∧
      passOptional .captured call s = passOptional .lexical call s
  | none, _ => ⟨.pure rfl, rfl⟩
  | some s, h => pass_of_awaitFree s (by simpa [Stmt.optionAwaitFree] using h)

theorem passBlock_of_awaitFree : (b : Block) → b.awaitFree = true →
    Unawaited (passBlock .lexical call b) ∧ passBlock .captured call b = passBlock .lexical call b
  | .mk stmts _, h => by
    obtain ⟨hun, heq⟩ := passAll_of_awaitFree stmts (by simpa [Block.awaitFree] using h)
    exact ⟨hun.passNested, by rw [passBlock, passBlock, heq, passNested_captured hun]⟩

theorem passAll_of_awaitFree : (stmts : List Stmt) → Stmt.allAwaitFree stmts = true →
    Unawaited (passAll .lexical call stmts) ∧
      passAll .captured call stmts = passAll .lexical call stmts
  | [], _ => ⟨.pure rfl, rfl⟩
  | s :: rest, h => by
    obtain ⟨hs, hrest⟩ : s.awaitFree = true ∧ Stmt.allAwaitFree rest = true := by
      simpa [Stmt.allAwaitFree] using h
    obtain ⟨hun, heq⟩ := pass_of_awaitFree s hs
    obtain ⟨hun', heq'⟩ := passAll_of_awaitFree rest hrest
    exact ⟨hun.passThen hun', by rw [passAll, passAll, heq, heq']⟩

end

/-- The two readings agree on a statement whose inner blocks never suspend their function. -/
theorem pass_captured_of_flat {s : Stmt} (h : s.flat = true) :
    pass .captured call s = pass .lexical call s := by
  cases s with
  | expr | declare | function | ret => rfl
  | block | branch | loop => exact (pass_of_awaitFree _ h).2

theorem passBody_captured_of_flat {b : Body} (h : b.flat = true) :
    passBody .captured call b = passBody .lexical call b := by
  have hall (stmts : List Stmt) (hstmts : stmts.all (·.flat) = true) :
      passAll .captured call stmts = passAll .lexical call stmts := by
    induction stmts with
    | nil => rfl
    | cons s rest ih =>
      obtain ⟨hs, hrest⟩ := Bool.and_eq_true_iff.1 (List.all_cons ▸ hstmts)
      rw [passAll, passAll, pass_captured_of_flat hs, ih hrest]
  cases b with
  | value e => rfl
  | block b => rw [passBody, passBody, hall b.stmts h]

theorem passCall_captured_of_flat {f : Function} (h : f.body.flat = true) (depth : Nat)
    (args : List Value) (label : String) (line : Nat) :
    passCall .captured depth f args label line = passCall .lexical depth f args label line := by
  cases depth with
  | zero => rfl
  | succ depth => simp only [passCall, passBody_captured_of_flat h]

end Run

end EventLoop
