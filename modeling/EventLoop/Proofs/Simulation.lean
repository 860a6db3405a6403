/-
  Statements and their passages, one construct of the language after the other.

  A statement of an async body is suspended where its passage passes an `await`; then what it leaves
  to do is what the passage does next.  A declaration leaves the variables behind the one that is
  awaited.  A loop leaves its update and the loop without its start, so that its rounds are counted
  anew: the loop may then have more rounds left than the passage allows.  The start of a loop is
  the exception, for a suspension there does not hold up the loop; hence all statements are steady.

  The proof follows the program text, and `runBody_mimics` is its end.
-/
import EventLoop.Proofs.Suspension

namespace EventLoop

open Script

variable {α β : Type}

/-! ## Expressions and declarations -/

namespace Run

variable {call : Invoke}

theorem evalAwaiting_plain (target : Target) {e : Expr} (h : ∀ e' line, e ≠ .await e' line) :
    evalAwaiting call target e = (do return .value (← eval call false e)) := by
  cases e with
  | await e line => exact absurd rfl (h e line)
  | _ => rfl

theorem execExpr_plain {e : Expr} (h : e.awaits = false) : execExpr call e = (do
      let _ ← eval call false e
      return .completed) := by
  have hplain (e : Expr) (he : ∀ e' line, e ≠ .await e' line) :
      execUnassigned call e = (do
        let _ ← eval call false e
        return .completed) := by
    simp only [execUnassigned, evalAwaiting_plain .discard he, bind_assoc, pure_bind]
  cases e with
  | await e line => cases h
  | assign op x e line =>
    cases e with
    | await e awaitLine => cases h
    | _ => exact hplain _ (by simp)
  | _ => exact hplain _ (by simp)

theorem passExpr_plain {e : Expr} (h : e.awaits = false) : passExpr call e = (do
      let _ ← eval call false e
      return .ended false .completed) := by
  cases e with
  | await e line => cases h
  | assign op x e line =>
    cases e with
    | await e awaitLine => cases h
    | _ => rfl
  | _ => rfl

end Run

namespace Activation

open Run

variable {a : Activation} {m m1 m2 m' : Machine} {v w : Value}

theorem asyncFrame_of_frames {y : Machine} (h : y.frames = a.frames) :
    asyncFrame? y = .ok (some a.frame) y := by
  rw [asyncFrame_apply, h]
  simp [frames, frame, a.isAsync]

/-- An `await` in the body suspends the call; `f` makes something of the continuation. -/
theorem evalAwaiting_bind {y : Machine} (h : y.frames = a.frames) (target : Target) (e : Expr)
    (line : Nat) (f : Awaited → Run β) : (evalAwaiting a.call target (.await e line) >>= f) y =
      (do f (.suspended (← suspend a.frame (← eval a.call true e) target)) : Run β) y := by
  have hawait : evalAwaiting a.call target (.await e line) y =
      (do return .suspended (← suspend a.frame (← eval a.call true e) target) : Run Awaited) y := by
    rw [evalAwaiting, bind_apply, asyncFrame_of_frames h]
  rw [bind_apply, hawait, ← bind_apply]
  simp only [bind_assoc, pure_bind]

theorem execExpr_mimics (e : Expr) : a.Mimics (execExpr a.call e) (passExpr a.call e) := by
  have hplain (e : Expr) (h : e.awaits = false) :
      a.Mimics (execExpr a.call e) (passExpr a.call e) := by
    rw [execExpr_plain h, passExpr_plain h]
    exact .bind (eval_repeats a.call_repeats false e) (eval_advances a.call_walks false e)
      (fun _ => .pure _) fun _ => .pure
  cases e with
  | await e line =>
    exact (await_mimics .discard e).congr fun y hy => evalAwaiting_bind hy .discard e line _
  | assign op x e line =>
    cases e with
    | await e awaitLine =>
      refine (await_mimics (.assign x op) e).congr fun y hy => ?_
      rw [execExpr, bind_apply, asyncFrame_of_frames hy]
    | _ => exact hplain _ rfl
  | _ => exact hplain _ rfl

theorem execReturn_mimics (e : Option Expr) :
    a.Mimics (execReturn a.call e) (passReturn a.call e) := by
  have hplain (e : Expr) (he : ∀ e' line, e ≠ .await e' line) :
      a.Mimics (execReturn a.call (some e))
        (do return .ended false (.returned (← eval a.call false e))) := by
    simp only [execReturn, evalAwaiting_plain .ret he, bind_assoc, pure_bind]
    exact .bind (eval_repeats a.call_repeats false e) (eval_advances a.call_walks false e)
      (fun _ => .pure _) fun _ => .pure
  cases e with
  | none => exact .pure
  | some e =>
    cases e with
    | await e line =>
      exact (await_mimics .ret e).congr fun y hy => evalAwaiting_bind hy .ret e line _
    | _ => exact hplain _ (by simp)

/-- An `await` followed by what it leaves to do. -/
theorem await_passThen {next : Run Outcome} {left : List Stmt} {ref : Run Passage}
    (target : Target) (e : Expr) (hadv : Advances ref) (hnext : a.Mimics next ref)
    (hleft : a.Mimics (execAll a.call left) ref) : a.Mimics (do
      let k ← suspend a.frame (← eval a.call true e) target
      defer k left
      return .suspended k) (passThen (passAwait a.call target e) fun _ => ref) := by
  have h := Mimics.passThen (passAwait_advances a.call_walks target e) (fun _ => hadv)
    (await_mimics target e) hnext hleft
  simp only [proceed, bind_assoc, pure_bind] at h
  exact h

theorem defer_nil (k : Nat) : defer k [] = pure () :=
  funext fun m => congrArg (EStateM.Result.ok ()) (deferred_nil m k)

theorem tell_condition (v : Value) : Run.tell (.condition v) =
    textOf v >>= fun text => note 3 (Message.line text (.condition v)) :=
  (bind_assoc _ _ _).symm

/-- The declarators mimic theirs; an `await` defers the ones behind it. -/
theorem execDeclarators_mimics (kind : DeclKind) (line : Nat) (decls : List Declarator) :
    a.Mimics (execDeclarators a.call kind line decls) (passDeclarators a.call decls) := by
  induction decls with
  | nil => exact .pure
  | cons d rest ih =>
    have hadv : Advances (passDeclarators a.call rest) :=
      passDeclarators_advances a.call_walks rest
    obtain ⟨x, init⟩ := d
    have hdeclare (v : Value) : Advances (declareVariable x v) :=
      .of_walks true 0 (declareVariable_walks x v)
    have hplain (e : Expr) (he : ∀ e' line, e ≠ .await e' line) :
        a.Mimics (execDeclarators a.call kind line (.mk x (some e) :: rest)) (do
          declareVariable x (← eval a.call false e)
          passDeclarators a.call rest) := by
      simp only [execDeclarators, evalAwaiting_plain (.declare x) he, bind_assoc, pure_bind]
      exact .bind (eval_repeats a.call_repeats false e) (eval_advances a.call_walks false e)
        (fun v => (hdeclare v).bind fun _ => hadv) fun v =>
          .bind (follows_basic.declareVariable x v) (hdeclare v) (fun _ => hadv) fun _ => ih
    cases init with
    | none =>
      exact .bind (follows_basic.declareVariable x .undefined) (hdeclare _) (fun _ => hadv)
        fun _ => ih
    | some e =>
      cases e with
      | await e awaitLine =>
        cases rest with
        | nil =>
          have hleft : a.Mimics (execAll a.call []) (passDeclarators a.call []) := .pure
          refine (await_passThen (.declare x) e hadv ih hleft).congr fun y hy => ?_
          rw [execDeclarators, evalAwaiting_bind hy]
          simp only [defer_nil, pure_bind]
          rfl
        | cons d' rest =>
          -- the other declarations are left to do, as a statement of their own
          have hleft : a.Mimics (execAll a.call [.declare kind (d' :: rest) line])
              (passDeclarators a.call (d' :: rest)) := .single hadv ih
          refine (await_passThen (.declare x) e hadv ih hleft).congr fun y hy => ?_
          rw [execDeclarators, evalAwaiting_bind hy]
          rfl
      | _ => exact hplain _ (by simp)

/-! ## Loops and statements -/

theorem passDeclarators_steady {call : Invoke} (kind : DeclKind) (line : Nat)
    {decls : List Declarator} (h : decls.all (·.steady) = true) : passDeclarators call decls = (do
      let _ ← execDeclarators call kind line decls
      return .ended false .completed) := by
  induction decls with
  | nil => rfl
  | cons d rest ih =>
    obtain ⟨hd, hrest⟩ := Bool.and_eq_true_iff.1 (List.all_cons ▸ h)
    obtain ⟨x, init⟩ := d
    have hplain (e : Expr) (he : ∀ e' line, e ≠ .await e' line) :
        (do
          declareVariable x (← eval call false e)
          passDeclarators call rest) = (do
          let _ ← execDeclarators call kind line (.mk x (some e) :: rest)
          return .ended false .completed) := by
      simp only [execDeclarators, evalAwaiting_plain (.declare x) he, bind_assoc, pure_bind,
        ih hrest]
    cases init with
    | none => simp only [passDeclarators, execDeclarators, bind_assoc, ih hrest]
    | some e =>
      cases e with
      | await e line => cases hd
      | _ => exact hplain _ (by simp)

theorem discard_bind (act : Run α) (f : PUnit → Run β) :
    (discard act >>= f) = (act >>= fun _ => f ⟨⟩) := by
  funext m
  rw [bind_apply, discard_apply, bind_apply]
  cases act m <;> rfl

theorem passInit_steady {call : Invoke} {init : LoopInit} (h : init.steady = true) :
    passInit call init = (do
      execInit call init
      return .ended false .completed) := by
  cases init with
  | nothing => rfl
  | declare kind decls line =>
    simp only [passInit, passDeclarators_steady kind line h, execInit, discard_bind]
  | expr e => simp only [passInit, execInit, discard_bind]

theorem execInit_advances (a : Activation) (init : LoopInit) : Advances (execInit a.call init) :=
  .of_walks false _ fun m => execInit_leads (invoke_walks _) init m (by simp)

/-- The rounds of a loop.  A loop that is suspended starts to count its rounds again, so it may have
    more rounds left than the passage. -/
theorem iterate_mimics (condition update : Option Expr) (body : Block) (line : Nat)
    {ref : Run Passage} (hadv : Advances ref) (hbody : a.Mimics (execBlock a.call body) ref)
    (rounds : Nat) (hrounds : rounds ≤ maxLoopRounds) (init : LoopInit) (count : Nat)
    (hcount : rounds ≤ count) :
    a.Mimics (iterate line (loopTest a.call condition) (execBlock a.call body)
        (loopStep a.call init update) (loopResidue condition update body line) count)
      (passRounds .captured a.call condition update ref init rounds) := by
  have htest := loopTest_congr follows_statements a.call_repeats condition
  have hadvTest := loopTest_advances a.call_walks condition
  induction rounds generalizing init count with
  | zero =>
    rw [passRounds]
    cases count with
    | zero =>
      refine .bind htest hadvTest (fun _ => .pure _) fun go => ?_
      cases go with
      | false => exact .pure
      | true => exact .stuck
    | succ count =>
      refine .bind htest hadvTest (fun _ => .pure _) fun go => ?_
      cases go with
      | false => exact .pure
      | true => exact .stuck
  | succ rounds ih =>
    obtain ⟨count, rfl⟩ : ∃ c, count = c + 1 := ⟨count - 1, by omega⟩
    have hadvRounds (init : LoopInit) :
        Advances (passRounds .captured a.call condition update ref init rounds) :=
      passRounds_advances a.call_walks .captured condition update hadv init rounds
    have hadvLoop : Advances (passNested .captured
        (passRounds .captured a.call condition update ref .nothing rounds)) :=
      passNested_advances (hadvRounds .nothing)
    -- the loop that is left to do when the body is suspended
    have hloop : a.Mimics (execAll a.call [.loop .nothing condition update body line])
        (passNested .captured
          (passRounds .captured a.call condition update ref .nothing rounds)) := by
      refine .single hadvLoop ?_
      have hnested := Mimics.nested (hadvRounds .nothing)
        (ih (by omega) .nothing maxLoopRounds (by omega))
      simpa only [exec, execInit, pure_bind] using hnested
    have hleft : a.Mimics (execAll a.call (loopResidue condition update body line))
        (passThen (passUpdate a.call update) fun _ => passNested .captured
          (passRounds .captured a.call condition update ref .nothing rounds)) := by
      cases update with
      | none =>
        have hplain := passThen_plain (pure ()) fun _ => passNested .captured
          (passRounds .captured a.call condition none ref .nothing rounds)
        simp only [pure_bind] at hplain
        rw [passUpdate, hplain]
        exact hloop
      | some e =>
        exact .passThen (passExpr_advances a.call_walks e) (fun _ => hadvLoop)
          (execExpr_mimics e) hloop hloop
    have hnext : a.Mimics
        (do
          loopStep a.call init update
          iterate line (loopTest a.call condition) (execBlock a.call body)
            (loopStep a.call init update) (loopResidue condition update body line) count)
        (do
          loopStep a.call init update
          passRounds .captured a.call condition update ref init rounds) :=
      .bind (loopStep_congr follows_statements a.call_repeats init update)
        (loopStep_advances a.call_walks init update) (fun _ => hadvRounds init)
        fun _ => ih (by omega) init count (by omega)
    have hadvNext (awaited : Bool) : Advances (
        if Scoping.captured = .captured && awaited then
          passThen (passUpdate a.call update) fun _ => passNested .captured
            (passRounds .captured a.call condition update ref .nothing rounds)
        else do
          loopStep a.call init update
          passRounds .captured a.call condition update ref init rounds) := by
      cases awaited with
      | false => exact (loopStep_advances a.call_walks init update).bind fun _ => hadvRounds init
      | true => exact (passUpdate_advances a.call_walks update).passThen fun _ => hadvLoop
    rw [passRounds]
    refine .bind htest hadvTest (fun go => ?_) fun go => ?_
    · cases go with
      | false => exact .pure _
      | true => exact hadv.passThen hadvNext
    · cases go with
      | false => exact .pure
      | true => exact .passThen hadv hadvNext hbody hnext hleft

mutual

/-- Each steady statement mimics its passage in the captured reading. -/
theorem exec_mimics : (s : Stmt) → s.steady = true →
    a.Mimics (exec a.call s) (Run.pass .captured a.call s)
  | .expr e _, _ => execExpr_mimics e
  | .declare kind decls line, _ => execDeclarators_mimics kind line decls
  | .function name params body isAsync line, _ =>
    .bind (bindFunction_repeats name params body isAsync line)
      (.of_walks true 0 (bindFunction_walks name params body isAsync line))
      (fun _ => (Advances.of_walks true 0 (glance_walks line)).bind fun _ => .pure _) fun _ =>
        .bind (emit_repeats _) (.of_walks true 0 (glance_walks line)) (fun _ => .pure _) fun _ =>
          .note _ _ .pure
  | .block b, h => by
    rw [exec, Run.pass]
    exact execBlock_mimics b (by simpa only [Stmt.steady] using h)
  | .branch condition body otherwise _, h => by
    obtain ⟨hbody, hother⟩ : body.steady = true ∧ Stmt.optionSteady otherwise = true := by
      simpa only [Stmt.steady, Bool.and_eq_true] using h
    have hadv (v : Value) : Advances (if v.isTruthy then passBlock .captured a.call body
        else passOptional .captured a.call otherwise) := by
      split
      · exact passBlock_advances a.call_walks .captured body
      · exact passOptional_advances a.call_walks .captured otherwise
    have htext (v : Value) : Advances (textOf v) := .of_reads (reads_textOf v)
    rw [exec, Run.pass]
    simp only [tell_condition, bind_assoc]
    refine .bind (eval_repeats a.call_repeats false condition)
      (eval_advances a.call_walks false condition) (fun v => (htext v).bind fun _ => hadv v)
      fun v => .bind (textOf_repeats v) (htext v) (fun _ => hadv v) fun _ => .note _ _ ?_
    split
    · exact execBlock_mimics body hbody
    · exact execOptional_mimics otherwise hother
  | .loop init condition update body line, h => by
    obtain ⟨hinit, hbody⟩ : init.steady = true ∧ body.steady = true := by
      simpa only [Stmt.steady, Bool.and_eq_true] using h
    have hadv := passBlock_advances a.call_walks .captured body
    have hadvRounds :=
      passRounds_advances a.call_walks .captured condition update hadv init maxLoopRounds
    rw [exec, Run.pass, passInit_steady hinit, passThen_plain]
    refine .nested ((execInit_advances a init).bind fun _ => hadvRounds) ?_
    refine .bind (execInit_congr follows_statements a.call_repeats init) (execInit_advances a init)
      (fun _ => hadvRounds) fun _ => ?_
    exact iterate_mimics condition update body line hadv (execBlock_mimics body hbody)
      maxLoopRounds (Nat.le_refl _) init maxLoopRounds (Nat.le_refl _)
  | .ret e _, _ => execReturn_mimics e

theorem execOptional_mimics : (s : Option Stmt) → Stmt.optionSteady s = true →
    a.Mimics (execOptional a.call s) (passOptional .captured a.call s)
  | none, _ => .pure
  | some s, h => exec_mimics s (by simpa only [Stmt.optionSteady] using h)

theorem execBlock_mimics : (b : Block) → b.steady = true →
    a.Mimics (execBlock a.call b) (passBlock .captured a.call b)
  | .mk stmts _, h =>
    .nested (passAll_advances a.call_walks .captured stmts)
      (execAll_mimics stmts (by simpa only [Block.steady] using h))

theorem execAll_mimics : (stmts : List Stmt) → Stmt.allSteady stmts = true →
    a.Mimics (execAll a.call stmts) (passAll .captured a.call stmts)
  | [], _ => .pure
  | s :: rest, h => by
    obtain ⟨hs, hrest⟩ : s.steady = true ∧ Stmt.allSteady rest = true := by
      simpa only [Stmt.allSteady, Bool.and_eq_true] using h
    have hmimics := execAll_mimics rest hrest
    exact .passThen (pass_advances a.call_walks .captured s)
      (fun _ => passAll_advances a.call_walks .captured rest) (exec_mimics s hs) hmimics hmimics

end

theorem runBody_mimics {b : Body} (h : b.steady = true) :
    a.Mimics (runBody a.call b) (passBody .captured a.call b) := by
  cases b with
  | value e =>
    exact .bind (eval_repeats a.call_repeats false e) (eval_advances a.call_walks false e)
      (fun _ => .pure _) fun _ => .pure
  | block b =>
    obtain ⟨stmts, line⟩ := b
    have hhoist := hoist_congr follows_basic.toCallFreeCongruence bindFunction_repeats stmts
    refine .bind hhoist (.of_walks true 0 (hoist_walks stmts))
      (fun _ => passAll_advances a.call_walks .captured stmts) fun _ => ?_
    exact execAll_mimics stmts (by simpa only [Body.steady, Block.steady] using h)

end Activation

end EventLoop
