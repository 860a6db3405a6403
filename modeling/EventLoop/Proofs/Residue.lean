/-
  What is left to do when code is suspended.

  Code that is suspended has come to an `await` (`AwaitPoint`).  `Residual` follows the text of the
  statements to this point, and says which statements are left to do behind it.

  The continuation is made at the `await`, and each statement around it adds its part to it on the
  way out.  `AwaitPoint.Leaves` says what comes of this: the continuation is the newest of all, it
  belongs to the innermost call, and it holds the residual.  Execution is suspended exactly if there
  is such a point and its operand can be evaluated (`suspended_with_residual`).
-/
import EventLoop.Proofs.Context
import EventLoop.Proofs.Suspension

namespace EventLoop

open Script

variable {depth : Nat} {call : Invoke}

/-! ## The point of a suspension -/

/-- An `await` that code comes to: its operand, what receives the value, and the state in which the
    operand is evaluated. -/
structure AwaitPoint where
  operand : Expr
  target : Target
  state : Machine

/-- The state in a new scope nested in the current one. -/
def Machine.inner (m : Machine) : Machine :=
  { m with
    tables := (m.tables.nest m.scope []).1
    scope := (m.tables.nest m.scope []).2 }

/-- Code that was executed in the context of `m` is suspended at `p` in continuation `k`, with `rest`
    left to do.  The operand is evaluated and the innermost call suspended; after that only the
    statements of its continuation change, and the context is put back. -/
inductive AwaitPoint.Leaves (call : Invoke) (p : AwaitPoint) (m : Machine) (rest : List Stmt)
    (k : Nat) (m' : Machine) : Prop
  | intro {frame : Frame} {v : Value} {m1 m2 : Machine} (hframe : m.frames.head? = some frame)
      (hasync : frame.function.isAsync = true)
      (heval : Run.eval call true p.operand p.state = .ok v m1)
      (hsuspend : Run.suspend frame v p.target m1 = .ok k m2)
      (hnewest : k = m1.continuations.size)
      (hstate : m' = { m2 with
        continuations := m1.continuations.push
          { statements := rest, scope := p.state.scope, function := frame.function,
            target := p.target, promise := frame.promise }
        scope := m.scope
        frames := m.frames })

namespace Run

/-- Evaluates the condition of a branch. -/
def branchValue (call : Invoke) (condition : Expr) : Run Value := do
  let v ← eval call false condition
  tell (.condition v)
  return v

/-- Whole rounds of a loop, one after the other. -/
inductive WholeRounds (test : Run Bool) (body : Run Outcome) (step : Run Unit) :
    Nat → Machine → Machine → Prop
  | none (m : Machine) : WholeRounds test body step 0 m m
  | round {n : Nat} {m m1 m2 m3 m' : Machine} (htest : test m = .ok true m1)
      (hbody : body m1 = .ok .completed m2) (hstep : step m2 = .ok () m3)
      (h : WholeRounds test body step n m3 m') : WholeRounds test body step (n + 1) m m'

end Run

/-- Executing the first statements from `m` comes to an `await`, and the second ones are left to do
    behind it. -/
inductive Residual (call : Invoke) : List Stmt → Machine → AwaitPoint → List Stmt → Prop
  /-- The first statement is suspended; those after it are left. -/
  | head {s : Stmt} {m : Machine} {p : AwaitPoint} {rest : List Stmt} (post : List Stmt)
      (h : Residual call [s] m p rest) : Residual call (s :: post) m p (rest ++ post)
  /-- The first statement is done, and one after it is suspended. -/
  | tail {s : Stmt} {post : List Stmt} {m m1 : Machine} {p : AwaitPoint} {rest : List Stmt}
      (hdone : Run.exec call s m = .ok .completed m1) (h : Residual call post m1 p rest) :
      Residual call (s :: post) m p rest
  | await (e : Expr) (awaitLine line : Nat) (m : Machine) :
      Residual call [.expr (.await e awaitLine) line] m ⟨e, .discard, m⟩ []
  | assign (op : AssignOp) (x : String) (e : Expr) (awaitLine assignLine line : Nat) (m : Machine) :
      Residual call [.expr (.assign op x (.await e awaitLine) assignLine) line] m
        ⟨e, .assign x op, m⟩ []
  | ret (e : Expr) (awaitLine line : Nat) (m : Machine) :
      Residual call [.ret (some (.await e awaitLine)) line] m ⟨e, .ret, m⟩ []
  /-- Variables before the one that is awaited are declared; those after it are left. -/
  | declare {kind : DeclKind} {pre post : List Declarator} {x : String} {line : Nat} {m m1 : Machine}
      (e : Expr) (awaitLine : Nat)
      (hpre : Run.execDeclarators call kind line pre m = .ok .completed m1) :
      Residual call [.declare kind (pre ++ .mk x (some (.await e awaitLine)) :: post) line] m
        ⟨e, .declare x, m1⟩ (if post.isEmpty then [] else [.declare kind post line])
  | block {stmts : List Stmt} {m : Machine} {p : AwaitPoint} {rest : List Stmt} (line : Nat)
      (h : Residual call stmts m.inner p rest) : Residual call [.block (.mk stmts line)] m p rest
  | branch {condition : Expr} {body : Block} {otherwise : Option Stmt} {v : Value} {m m1 : Machine}
      {p : AwaitPoint} {rest : List Stmt} (line : Nat)
      (hcondition : Run.branchValue call condition m = .ok v m1)
      (h : Residual call (if v.isTruthy then [.block body] else otherwise.toList) m1 p rest) :
      Residual call [.branch condition body otherwise line] m p rest
  /-- The body is suspended after some whole rounds: its residual is left, then the update, then the
      loop without its start. -/
  | loop {init : LoopInit} {condition update : Option Expr} {body : Block} {line n : Nat}
      {m m1 m2 m3 : Machine} {p : AwaitPoint} {rest : List Stmt}
      (hinit : Run.execInit call init m.inner = .ok () m1)
      (hrounds : Run.WholeRounds (Run.loopTest call condition) (Run.execBlock call body)
        (Run.loopStep call init update) n m1 m2) (hn : n < maxLoopRounds)
      (htest : Run.loopTest call condition m2 = .ok true m3)
      (h : Residual call [.block body] m3 p rest) :
      Residual call [.loop init condition update body line] m p
        (rest ++ (update.toList.map (fun e => Stmt.expr e line) ++
          [.loop .nothing condition update body line]))

/-! ## What the code around an `await` adds -/

theorem Machine.deferred_push {m : Machine} {cs : Array Continuation} {c : Continuation}
    (h : m.continuations = cs.push c) (more : List Stmt) : m.deferred cs.size more =
      { m with continuations := cs.push { c with statements := c.statements ++ more } } := by
  rw [deferred, h]
  congr 1
  refine Array.ext_getElem? fun i => ?_
  rw [Array.getElem?_modify, Array.getElem?_push, Array.getElem?_push]
  by_cases hi : i = cs.size
  · simp [hi]
  · rw [if_neg hi, if_neg hi, if_neg (Ne.symm hi)]

namespace AwaitPoint.Leaves

variable {p : AwaitPoint} {m m1 m' : Machine} {rest more : List Stmt} {k : Nat}

theorem back (h : p.Leaves call m1 rest k m') (hframes : m1.frames = m.frames) :
    p.Leaves call m rest k (m'.back m) := by
  obtain ⟨hframe, hasync, heval, hsuspend, hnewest, rfl⟩ := h
  exact .intro (hframes ▸ hframe) hasync heval hsuspend hnewest rfl

theorem back_back (h : p.Leaves call m rest k m') (m1 : Machine) : (m'.back m1).back m = m' := by
  obtain ⟨_, _, _, _, _, rfl⟩ := h
  rfl

/-- Only the context from which code is executed matters for the state that it leaves. -/
theorem congr (h : p.Leaves call m1 rest k m') (hcontext : m.SameContext m1) :
    p.Leaves call m rest k m' := by
  obtain ⟨hframe, hasync, heval, hsuspend, hnewest, rfl⟩ := h
  rw [hcontext.2] at hframe
  refine .intro hframe hasync heval hsuspend hnewest ?_
  rw [hcontext.1, hcontext.2]

/-- What comes after the code that was suspended is left to do, too. -/
theorem deferred (h : p.Leaves call m rest k m') (more : List Stmt) :
    p.Leaves call m (rest ++ more) k (m'.deferred k more) := by
  obtain ⟨hframe, hasync, heval, hsuspend, hnewest, rfl⟩ := h
  refine .intro hframe hasync heval hsuspend hnewest ?_
  rw [hnewest, Machine.deferred_push rfl]

theorem of_deferred (h : p.Leaves call m (rest ++ more) k m') :
    ∃ m1, p.Leaves call m rest k m1 ∧ m1.deferred k more = m' := by
  obtain ⟨hframe, hasync, heval, hsuspend, hnewest, rfl⟩ := h
  refine ⟨_, .intro hframe hasync heval hsuspend hnewest rfl, ?_⟩
  rw [hnewest, Machine.deferred_push rfl]

end AwaitPoint.Leaves

/-! ## Awaits -/

namespace Run

variable {m m1 m2 m' : Machine} {k : Nat} {e : Expr} {line : Nat} {kind : DeclKind}
  {target : Target}

/-- The state that a suspension leaves, before anything is added to the continuation. -/
theorem suspend_state {frame : Frame} {v : Value} (h : suspend frame v target m1 = .ok k m2)
    (hcontext : m.SameContext m1) : k = m1.continuations.size ∧ m2 = { m2 with
      continuations := m1.continuations.push
        { statements := [], scope := m.scope, function := frame.function, target,
          promise := frame.promise }
      scope := m.scope
      frames := m.frames } := by
  obtain ⟨hk, hplaced⟩ := suspend_inv h
  have haside := hplaced.aside
  have hscope : m2.scope = m.scope := haside.scope.trans hcontext.1
  have hframes : m2.frames = m.frames := haside.frames.trans hcontext.2
  have hcontinuations : m2.continuations = m1.continuations.push
      { statements := [], scope := m2.scope, function := frame.function, target,
        promise := frame.promise } := by
    rw [haside.continuations, haside.scope]
    rfl
  rw [← hscope, ← hframes, ← hcontinuations]
  exact ⟨hk, rfl⟩

section

variable (hcall : CallsWalk false depth call)

include hcall

/-- In an async function an operand is evaluated and then suspends the innermost call. -/
theorem orSuspend_iff {β : Type} {suspended : Nat → β} {plain : Run β} (e : Expr)
    (hinj : ∀ k k', suspended k = suspended k' → k = k')
    (hplain : plain m ≠ .ok (suspended k) m') :
    orSuspend (eval call true e) target suspended plain m = .ok (suspended k) m' ↔
      (⟨e, target, m⟩ : AwaitPoint).Leaves call m [] k m' := by
  have hcontext {v : Value} {m1 : Machine} (h : eval call true e m = .ok v m1) :
      m.SameContext m1 := (eval_walks hcall true e m).sameContext_of_ok h
  rw [orSuspend, bind_apply, asyncFrame_apply]
  constructor
  · intro h
    cases hframe : m.frames.head?.filter (·.function.isAsync) with
    | none =>
      -- outside async functions nothing is suspended
      rw [hframe] at h
      exact absurd h hplain
    | some frame =>
      rw [hframe] at h
      obtain ⟨hhead, hasync⟩ := Option.filter_eq_some_iff.1 hframe
      obtain ⟨v, m1, heval, h⟩ := bind_eq_ok h
      obtain ⟨k', m2, hsuspend, h⟩ := bind_eq_ok h
      obtain ⟨hk, rfl⟩ : suspended k' = suspended k ∧ m2 = m' := by simpa using h
      obtain rfl := hinj k' k hk
      obtain ⟨hnewest, hstate⟩ := suspend_state hsuspend (hcontext heval)
      exact .intro hhead hasync heval hsuspend hnewest hstate
  · intro hleaves
    obtain ⟨hhead, hasync, heval, hsuspend, -, rfl⟩ := hleaves
    obtain ⟨_, hstate⟩ := suspend_state hsuspend (hcontext heval)
    rw [Option.filter_eq_some_iff.2 ⟨hhead, hasync⟩]
    simp only []
    rw [bind_of_ok heval, bind_of_ok hsuspend, ← hstate]
    rfl

theorem evalAwaiting_suspended_iff : evalAwaiting call target e m = .ok (.suspended k) m' ↔
      ∃ e' line, e = .await e' line ∧
        (⟨e', target, m⟩ : AwaitPoint).Leaves call m [] k m' := by
  have hawait (e' : Expr) (line : Nat) : evalAwaiting call target (.await e' line) m =
      .ok (.suspended k) m' ↔ (⟨e', target, m⟩ : AwaitPoint).Leaves call m [] k m' :=
    orSuspend_iff hcall e' (by simp) fun h => by
      obtain ⟨v, m1, _, h⟩ := bind_eq_ok h
      cases h
  constructor
  · intro h
    obtain ⟨e', line, rfl⟩ := evalAwaiting_suspended h
    exact ⟨e', line, rfl, (hawait e' line).1 h⟩
  · rintro ⟨e', line, rfl, hleaves⟩
    exact (hawait e' line).2 hleaves

omit hcall in
/-- How a statement ends that goes by what comes of an expression. -/
def Awaited.outcome (f : Value → Outcome) : Awaited → Outcome
  | .value v => f v
  | .suspended k => .suspended k

omit hcall in
theorem execReturn_eq (e : Expr) :
    execReturn call (some e) = Awaited.outcome .returned <$> evalAwaiting call .ret e := by
  funext m
  rw [execReturn, bind_apply, map_apply]
  cases evalAwaiting call .ret e m with
  | error fault m1 => rfl
  | ok a m1 => cases a <;> rfl

omit hcall in
theorem execExpr_eq (h : ∀ op x e' awaitLine line, e ≠ .assign op x (.await e' awaitLine) line) :
    execExpr call e = Awaited.outcome (fun _ => .completed) <$> evalAwaiting call .discard e := by
  funext m
  unfold execExpr
  split
  · exact absurd rfl (h _ _ _ _ _)
  · rw [bind_apply, map_apply]
    cases evalAwaiting call .discard e m with
    | error fault m1 => rfl
    | ok a m1 => cases a <;> rfl

omit hcall in
theorem outcome_suspended_iff {f : Value → Outcome} (hf : ∀ v k, f v ≠ .suspended k)
    {act : Run Awaited} :
    (Awaited.outcome f <$> act) m = .ok (.suspended k) m' ↔ act m = .ok (.suspended k) m' := by
  rw [map_apply]
  cases act m with
  | error fault m1 => simp
  | ok a m1 => cases a <;> simp [Awaited.outcome, hf]

/-- An expression that is executed as a statement is suspended if it is an `await`, or assigns one.
-/
theorem execExpr_suspended_iff : execExpr call e m = .ok (.suspended k) m' ↔
      (∃ e' line, e = .await e' line ∧ (⟨e', .discard, m⟩ : AwaitPoint).Leaves call m [] k m') ∨
      ∃ op x e' awaitLine line, e = .assign op x (.await e' awaitLine) line ∧
        (⟨e', .assign x op, m⟩ : AwaitPoint).Leaves call m [] k m' := by
  by_cases hassign : ∃ op x e' awaitLine line, e = .assign op x (.await e' awaitLine) line
  · obtain ⟨op, x, e', awaitLine, line, rfl⟩ := hassign
    refine (orSuspend_iff hcall e' (by simp) fun h => ?_).trans (by simp)
    obtain ⟨v, m1, _, h⟩ := bind_eq_ok h
    cases h
  · have hplain : ∀ op x e' awaitLine line, e ≠ .assign op x (.await e' awaitLine) line :=
      fun op x e' awaitLine line h => hassign ⟨op, x, e', awaitLine, line, h⟩
    rw [execExpr_eq hplain, outcome_suspended_iff (by simp), evalAwaiting_suspended_iff hcall]
    constructor
    · exact .inl
    · rintro (h | ⟨_, _, _, _, _, h, _⟩)
      · exact h
      · exact absurd h (hplain _ _ _ _ _)

theorem execReturn_suspended_iff {e : Option Expr} : execReturn call e m = .ok (.suspended k) m' ↔
      ∃ e' line, e = some (.await e' line) ∧
        (⟨e', .ret, m⟩ : AwaitPoint).Leaves call m [] k m' := by
  cases e with
  | none => simp [execReturn]
  | some e =>
    rw [execReturn_eq, outcome_suspended_iff (by simp), evalAwaiting_suspended_iff hcall]
    simp

/-! ## Declarations -/

omit hcall in
theorem execDeclarators_append {pre decls : List Declarator}
    (h : execDeclarators call kind line pre m = .ok .completed m1) :
    execDeclarators call kind line (pre ++ decls) m = execDeclarators call kind line decls m1 := by
  induction pre generalizing m with
  | nil =>
    cases h
    rfl
  | cons d pre ih =>
    obtain ⟨x, init⟩ := d
    cases init with
    | none =>
      obtain ⟨_, m2, hdeclare, h⟩ := bind_eq_ok h
      rw [List.cons_append, execDeclarators, bind_of_ok hdeclare]
      exact ih h
    | some e =>
      obtain ⟨a, m2, heval, h⟩ := bind_eq_ok h
      rw [List.cons_append, execDeclarators, bind_of_ok heval]
      cases a with
      | value v =>
        obtain ⟨_, m3, hdeclare, h⟩ := bind_eq_ok h
        dsimp only
        rw [bind_of_ok hdeclare]
        exact ih h
      | suspended k =>
        cases pre with
        | nil => cases h
        | cons d pre => cases h

/-- The first variable whose value is awaited suspends the declaration. -/
theorem execDeclarators_leaves {decls : List Declarator}
    (h : execDeclarators call kind line decls m = .ok (.suspended k) m') :
    ∃ pre x e awaitLine post m1, decls = pre ++ .mk x (some (.await e awaitLine)) :: post ∧
      execDeclarators call kind line pre m = .ok .completed m1 ∧
      (⟨e, .declare x, m1⟩ : AwaitPoint).Leaves call m
        (if post.isEmpty then [] else [.declare kind post line]) k m' := by
  induction decls generalizing m with
  | nil => cases h
  | cons d decls ih =>
    obtain ⟨x, init⟩ := d
    cases init with
    | none =>
      obtain ⟨_, m2, hdeclare, h⟩ := bind_eq_ok h
      obtain ⟨pre, y, e, awaitLine, post, m1, rfl, hpre, hleaves⟩ := ih h
      have hcontext := (@declareVariable_walks false depth x .undefined m).sameContext_of_ok
        hdeclare
      refine ⟨.mk x none :: pre, y, e, awaitLine, post, m1, rfl, ?_, hleaves.congr hcontext⟩
      rw [execDeclarators, bind_of_ok hdeclare]
      exact hpre
    | some e =>
      obtain ⟨a, m2, heval, hrest⟩ := bind_eq_ok h
      have hcontext := (evalAwaiting_leads hcall (.declare x) e m).sameContext_of_ok heval
      cases a with
      | value v =>
        -- this variable has its value, and a later one is awaited
        obtain ⟨_, m3, hdeclare, hrest⟩ := bind_eq_ok hrest
        obtain ⟨pre, y, e', awaitLine, post, m1, rfl, hpre, hleaves⟩ := ih hrest
        have hdeclared := (@declareVariable_walks false depth x v m2).sameContext_of_ok hdeclare
        refine ⟨.mk x (some e) :: pre, y, e', awaitLine, post, m1, rfl, ?_,
          hleaves.congr (hcontext.trans hdeclared)⟩
        rw [execDeclarators, bind_of_ok heval]
        dsimp only
        rw [bind_of_ok hdeclare]
        exact hpre
      | suspended k' =>
        -- the declarations behind the first awaited value are left to do
        obtain ⟨e', awaitLine, rfl, hleaves⟩ := (evalAwaiting_suspended_iff hcall).1 heval
        refine ⟨[], x, e', awaitLine, decls, m, rfl, rfl, ?_⟩
        cases decls with
        | nil =>
          cases hrest
          exact hleaves
        | cons d decls =>
          cases hrest
          exact hleaves.deferred _

/-! ## Blocks and loops -/

omit hcall in
theorem nested_ok_iff {α : Type} {act : Run α} {a : α} :
    nested act m = .ok a m' ↔ ∃ m1, act m.inner = .ok a m1 ∧ m1.back m = m' := by
  have hnested : nested act m = restoring m.scope m.frames act m.inner := rfl
  rw [hnested, restoring]
  cases act m.inner with
  | error fault m1 => simp
  | ok a' m1 => simp [Machine.back]

omit hcall in
theorem exec_branch (condition : Expr) (body : Block) (otherwise : Option Stmt) (line : Nat) :
    exec call (.branch condition body otherwise line) =
      branchValue call condition >>= fun v =>
        if v.isTruthy then execBlock call body else execOptional call otherwise := by
  simp only [exec, branchValue, bind_assoc, pure_bind]

theorem branchValue_walks (condition : Expr) : Walks false depth (branchValue call condition) :=
  (eval_walks hcall false condition).bind fun v => (tell_walks _).bind fun _ => .pure v

omit hcall in
/-- A loop is suspended by its body, in the round after some whole ones. -/
theorem iterate_suspended_iff {test : Run Bool} {body : Run Outcome} {step : Run Unit}
    {residue : List Stmt} {rounds : Nat} :
    iterate line test body step residue rounds m = .ok (.suspended k) m' ↔
      ∃ n m1 m2 m3, n < rounds ∧ WholeRounds test body step n m m1 ∧ test m1 = .ok true m2 ∧
        body m2 = .ok (.suspended k) m3 ∧ m3.deferred k residue = m' := by
  constructor
  · intro h
    induction rounds generalizing m with
    | zero =>
      obtain ⟨go, m1, htest, hrest⟩ := bind_eq_ok h
      cases go <;> cases hrest
    | succ rounds ih =>
      obtain ⟨go, m1, htest, hround⟩ := bind_eq_ok h
      cases go with
      | false => cases hround
      | true =>
        obtain ⟨outcome, m2, hbody, hrest⟩ := bind_eq_ok hround
        cases outcome with
        | completed =>
          obtain ⟨_, m3, hstep, hrest⟩ := bind_eq_ok hrest
          obtain ⟨n, x1, x2, x3, hn, hrounds, hend⟩ := ih hrest
          exact ⟨n + 1, x1, x2, x3, by omega, .round htest hbody hstep hrounds, hend⟩
        | returned v => cases hrest
        | suspended k' =>
          cases hrest
          exact ⟨0, m, m1, m2, by omega, .none m, htest, hbody, rfl⟩
  · rintro ⟨n, m1, m2, m3, hn, hrounds, htest, hbody, rfl⟩
    induction hrounds generalizing rounds with
    | none m =>
      obtain ⟨rounds, rfl⟩ : ∃ r, rounds = r + 1 := ⟨rounds - 1, by omega⟩
      rw [iterate, bind_of_ok htest]
      exact bind_of_ok hbody _
    | round htest' hbody' hstep _ ih =>
      obtain ⟨rounds, rfl⟩ : ∃ r, rounds = r + 1 := ⟨rounds - 1, by omega⟩
      rw [iterate, bind_of_ok htest']
      refine (bind_of_ok hbody' _).trans ?_
      refine (bind_of_ok hstep _).trans ?_
      exact ih (by omega) htest

theorem WholeRounds.frames {init : LoopInit}
    {condition update : Option Expr} {body : Block} {n : Nat}
    (h : WholeRounds (loopTest call condition) (execBlock call body) (loopStep call init update) n
      m m') : m'.frames = m.frames := by
  induction h with
  | none => rfl
  | @round n m m1 m2 m3 m' htest hbody hstep _ ih =>
    have htest' := (loopTest_walks hcall condition m).sameContext_of_ok htest
    have hbody' := (execBlock_leads hcall body m1 (by simp)).sameContext_of_ok hbody
    have hstep' : m3.frames = m2.frames := by
      have hdrifts := loopStep_drifts hcall init update m2
      rw [hstep] at hdrifts
      cases hdrifts with
      | ok hw => exact hw.context.2
    calc m'.frames = m3.frames := ih
      _ = m2.frames := hstep'
      _ = m1.frames := hbody'.2
      _ = m.frames := htest'.2

theorem WholeRounds.frames_of_loop {init : LoopInit}
    {condition update : Option Expr} {body : Block} {n : Nat} {m3 : Machine}
    (h : WholeRounds (loopTest call condition) (execBlock call body) (loopStep call init update) n
      m1 m2) (hinit : execInit call init m.inner = .ok () m1)
    (htest : loopTest call condition m2 = .ok true m3) : m3.frames = m.frames := by
  have hinit' := (execInit_leads hcall init m.inner (by simp)).sameContext_of_ok hinit
  have htest' := (loopTest_walks hcall condition m2).sameContext_of_ok htest
  calc m3.frames = m2.frames := htest'.2
    _ = m1.frames := h.frames hcall
    _ = m.frames := hinit'.2

/-! ## Statements -/

omit hcall in
theorem proceed_suspended_iff {act next : Run Outcome} {left : List Stmt} :
    proceed act next left m = .ok (.suspended k) m' ↔
      (∃ m1, act m = .ok .completed m1 ∧ next m1 = .ok (.suspended k) m') ∨
      ∃ m1, act m = .ok (.suspended k) m1 ∧ m1.deferred k left = m' := by
  rw [proceed, bind_apply]
  cases act m with
  | error fault m1 => simp
  | ok outcome m1 =>
    cases outcome with
    | completed => simp
    | returned v => simp
    | suspended k' =>
      simp only [EStateM.Result.ok.injEq, reduceCtorEq, false_and, exists_false, false_or,
        Outcome.suspended.injEq]
      constructor
      · intro h
        cases h
        exact ⟨m1, ⟨rfl, rfl⟩, rfl⟩
      · rintro ⟨_, ⟨rfl, rfl⟩, rfl⟩
        rfl

omit hcall in
theorem execAll_singleton_iff {s : Stmt} :
    execAll call [s] m = .ok (.suspended k) m' ↔ exec call s m = .ok (.suspended k) m' := by
  rw [execAll_singleton]

omit hcall in
mutual

/-- A statement that is suspended has come to an `await`, and leaves its residual. -/
theorem exec_residual (hcall : CallsWalk false depth call) : (s : Stmt) → {m m' : Machine} →
    {k : Nat} → exec call s m = .ok (.suspended k) m' →
    ∃ p rest, Residual call [s] m p rest ∧ p.Leaves call m rest k m'
  | .expr e line, m, m', k, h => by
    rcases (execExpr_suspended_iff hcall).1 h with
      ⟨e', awaitLine, rfl, hleaves⟩ | ⟨op, x, e', awaitLine, line', rfl, hleaves⟩
    · exact ⟨_, _, .await e' awaitLine line m, hleaves⟩
    · exact ⟨_, _, .assign op x e' awaitLine line' line m, hleaves⟩
  | .declare kind decls line, m, m', k, h => by
    obtain ⟨pre, x, e, awaitLine, post, m1, rfl, hpre, hleaves⟩ :=
      execDeclarators_leaves hcall h
    exact ⟨_, _, .declare e awaitLine hpre, hleaves⟩
  | .function name params body isAsync line, m, m', k, h => by
    obtain ⟨_, _, _, h⟩ := bind_eq_ok h
    obtain ⟨_, _, _, h⟩ := bind_eq_ok h
    cases h
  | .block b, m, m', k, h => execBlock_residual hcall b h
  | .branch condition body otherwise line, m, m', k, h => by
    rw [exec_branch] at h
    obtain ⟨v, m1, hcondition, h⟩ := bind_eq_ok h
    have hcontext := (branchValue_walks hcall condition m).sameContext_of_ok hcondition
    cases hv : v.isTruthy with
    | true =>
      rw [hv] at h
      obtain ⟨p, rest, hresidual, hleaves⟩ := execBlock_residual hcall body h
      refine ⟨p, rest, .branch line hcondition ?_, hleaves.congr hcontext⟩
      rw [hv]
      exact hresidual
    | false =>
      rw [hv] at h
      obtain ⟨p, rest, hresidual, hleaves⟩ := execOptional_residual hcall otherwise h
      refine ⟨p, rest, .branch line hcondition ?_, hleaves.congr hcontext⟩
      rw [hv]
      exact hresidual
  | .loop init condition update body line, m, m', k, h => by
    -- the body is suspended in some round, and the loop defers the rounds that are left
    obtain ⟨m1, hloop, rfl⟩ := nested_ok_iff.1 h
    obtain ⟨_, m2, hinit, hloop⟩ := bind_eq_ok hloop
    obtain ⟨n, m3, m4, m5, hn, hrounds, htest, hbody, rfl⟩ := iterate_suspended_iff.1 hloop
    obtain ⟨p, rest, hresidual, hleaves⟩ := execBlock_residual hcall body hbody
    have hframes := hrounds.frames_of_loop hcall hinit htest
    exact ⟨p, _, .loop hinit hrounds hn htest hresidual, (hleaves.deferred _).back hframes⟩
  | .ret e line, m, m', k, h => by
    obtain ⟨e', awaitLine, rfl, hleaves⟩ := (execReturn_suspended_iff hcall).1 h
    exact ⟨_, _, .ret e' awaitLine line m, hleaves⟩

theorem execOptional_residual (hcall : CallsWalk false depth call) : (s : Option Stmt) →
    {m m' : Machine} → {k : Nat} → execOptional call s m = .ok (.suspended k) m' →
    ∃ p rest, Residual call s.toList m p rest ∧ p.Leaves call m rest k m'
  | none, _, _, _, h => by cases h
  | some s, _, _, _, h => exec_residual hcall s h

theorem execBlock_residual (hcall : CallsWalk false depth call) : (b : Block) → {m m' : Machine} →
    {k : Nat} → execBlock call b m = .ok (.suspended k) m' →
    ∃ p rest, Residual call [.block b] m p rest ∧ p.Leaves call m rest k m'
  | .mk stmts line, m, m', k, h => by
    obtain ⟨m1, hstmts, rfl⟩ := nested_ok_iff.1 h
    obtain ⟨p, rest, hresidual, hleaves⟩ := execAll_residual hcall stmts hstmts
    exact ⟨p, rest, .block line hresidual, hleaves.back rfl⟩

theorem execAll_residual (hcall : CallsWalk false depth call) : (stmts : List Stmt) →
    {m m' : Machine} → {k : Nat} → execAll call stmts m = .ok (.suspended k) m' →
    ∃ p rest, Residual call stmts m p rest ∧ p.Leaves call m rest k m'
  | [], _, _, _, h => by cases h
  | s :: post, m, m', k, h => by
    rw [execAll_cons] at h
    rcases proceed_suspended_iff.1 h with ⟨m1, hdone, hpost⟩ | ⟨m1, hs, rfl⟩
    · obtain ⟨p, rest, hresidual, hleaves⟩ := execAll_residual hcall post hpost
      have hcontext := (exec_leads hcall s m (by simp)).sameContext_of_ok hdone
      exact ⟨p, rest, .tail hdone hresidual, hleaves.congr hcontext⟩
    · obtain ⟨p, rest, hresidual, hleaves⟩ := exec_residual hcall s hs
      exact ⟨p, _, .head post hresidual, hleaves.deferred post⟩

end

theorem execDeclarators_of_leaves {kind : DeclKind}
    {line awaitLine : Nat} {x : String} {e : Expr} {post : List Declarator}
    (h : (⟨e, .declare x, m⟩ : AwaitPoint).Leaves call m
      (if post.isEmpty then [] else [.declare kind post line]) k m') :
    execDeclarators call kind line (.mk x (some (.await e awaitLine)) :: post) m =
      .ok (.suspended k) m' := by
  cases post with
  | nil =>
    have hawait := (evalAwaiting_suspended_iff hcall).2 ⟨e, awaitLine, rfl, h⟩
    exact bind_of_ok hawait _
  | cons d post =>
    have hleft : (⟨e, .declare x, m⟩ : AwaitPoint).Leaves call m
      ([] ++ [.declare kind (d :: post) line]) k m' := h
    obtain ⟨m1, hleaves, rfl⟩ := hleft.of_deferred
    have hawait := (evalAwaiting_suspended_iff hcall).2 ⟨e, awaitLine, rfl, hleaves⟩
    exact bind_of_ok hawait _

/-- Statements that come to an `await` whose operand can be evaluated are suspended there. -/
theorem execAll_of_residual {stmts rest : List Stmt}
    {p : AwaitPoint} (h : Residual call stmts m p rest) (hleaves : p.Leaves call m rest k m') :
    execAll call stmts m = .ok (.suspended k) m' := by
  induction h generalizing m' with
  | head post _ ih =>
    obtain ⟨m1, hfirst, rfl⟩ := hleaves.of_deferred
    rw [execAll_cons]
    exact proceed_suspended_iff.2 (.inr ⟨m1, execAll_singleton_iff.1 (ih hfirst), rfl⟩)
  | @tail s post m m1 _ _ hdone _ ih =>
    have hcontext := (exec_leads hcall s m (by simp)).sameContext_of_ok hdone
    have hpost := ih (hleaves.congr hcontext.symm)
    rw [execAll_cons]
    exact proceed_suspended_iff.2 (.inl ⟨m1, hdone, hpost⟩)
  | await e awaitLine line m =>
    exact execAll_singleton_iff.2
      ((execExpr_suspended_iff hcall).2 (.inl ⟨e, awaitLine, rfl, hleaves⟩))
  | assign op x e awaitLine assignLine line m =>
    exact execAll_singleton_iff.2 ((execExpr_suspended_iff hcall).2
      (.inr ⟨op, x, e, awaitLine, assignLine, rfl, hleaves⟩))
  | ret e awaitLine line m =>
    exact execAll_singleton_iff.2
      ((execReturn_suspended_iff hcall).2 ⟨e, awaitLine, rfl, hleaves⟩)
  | @declare kind pre post x line m m1 e awaitLine hpre =>
    have hcontext := (execDeclarators_leads hcall kind line pre m).sameContext_of_ok hpre
    refine execAll_singleton_iff.2 ((execDeclarators_append hpre).trans ?_)
    exact execDeclarators_of_leaves hcall
      (hleaves.congr hcontext.symm)
  | @block stmts m _ _ line _ ih =>
    have hstmts := ih (@AwaitPoint.Leaves.back _ _ m.inner _ _ _ _ hleaves rfl)
    exact execAll_singleton_iff.2 (nested_ok_iff.2 ⟨_, hstmts, hleaves.back_back m.inner⟩)
  | @branch condition body otherwise v m m1 _ _ line hcondition _ ih =>
    have hcontext := (branchValue_walks hcall condition m).sameContext_of_ok hcondition
    have hchosen := ih (hleaves.congr hcontext.symm)
    refine execAll_singleton_iff.2 ?_
    rw [exec_branch, bind_of_ok hcondition]
    cases hv : v.isTruthy with
    | true =>
      rw [hv] at hchosen
      exact execAll_singleton_iff.1 hchosen
    | false =>
      rw [hv] at hchosen
      cases otherwise with
      | none => cases hchosen
      | some s => exact execAll_singleton_iff.1 hchosen
  | @loop init condition update body line n m m1 m2 m3 _ _ hinit hrounds hn htest _ ih =>
    have hframes := hrounds.frames_of_loop hcall hinit htest
    -- the rest of the loop stands behind what the body leaves to do
    obtain ⟨m4, hround, hafter⟩ := (hleaves.back hframes.symm).of_deferred
    have hbody := execAll_singleton_iff.1 (ih hround)
    refine execAll_singleton_iff.2 (nested_ok_iff.2 ⟨_, ?_, hleaves.back_back m3⟩)
    rw [bind_of_ok hinit]
    exact iterate_suspended_iff.2 ⟨n, m2, m3, m4, hn, hrounds, htest, hbody, hafter⟩

end

/-- Statements, and a statement alone, are suspended exactly if they come to an `await` whose operand
    can be evaluated in an async function.  The continuation is then the one that this `await` made,
    the newest of all; it belongs to the innermost call, and the statements that it holds are the
    residual. -/
theorem suspended_with_residual (depth : Nat) :
    (∀ (stmts : List Stmt) (m : Machine) (k : Nat) (m' : Machine),
      execAll (invoke depth) stmts m = .ok (.suspended k) m' ↔
        ∃ p rest, Residual (invoke depth) stmts m p rest ∧
          p.Leaves (invoke depth) m rest k m') ∧
    (∀ (s : Stmt) (m : Machine) (k : Nat) (m' : Machine),
      exec (invoke depth) s m = .ok (.suspended k) m' ↔
        ∃ p rest, Residual (invoke depth) [s] m p rest ∧
          p.Leaves (invoke depth) m rest k m') := by
  have hstmts (stmts : List Stmt) (m : Machine) (k : Nat) (m' : Machine) :
      execAll (invoke depth) stmts m = .ok (.suspended k) m' ↔
        ∃ p rest, Residual (invoke depth) stmts m p rest ∧
          p.Leaves (invoke depth) m rest k m' := by
    constructor
    · exact execAll_residual (invoke_wanders depth) stmts
    · rintro ⟨p, rest, hresidual, hleaves⟩
      exact execAll_of_residual (invoke_wanders depth) hresidual hleaves
  refine ⟨hstmts, fun s m k m' => ?_⟩
  rw [← execAll_singleton_iff]
  exact hstmts [s] m k m'

end Run

end EventLoop
