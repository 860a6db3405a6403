/-
  Every execution is a walk: statements, calls of functions, and the callbacks and continuations
  that the queues run.

  A statement leads to its outcome.  The hypothesis of the theorems about statements is that the
  code belongs to the innermost call, `Covers`: what a loop goes on with after its start was
  suspended, and what is left to a continuation, is steady if the body of the call is.  The rounds
  of a loop renew its scope, so inside a loop the results are stated up to the scope (`Drifts`).

  `invoke_walks` closes the knot of expressions and calls by induction on the depth of nesting that
  is left.
-/
import EventLoop.Proofs.Evaluation

namespace EventLoop

open Script

variable {α β : Type} {tame : Bool} {depth : Nat} {m m' : Machine} {act : Run α} {e : α → Ending}
  {f : α → Run β}

/-! ## Suspension -/

/-- The ending of a statement. -/
def Outcome.ending : Outcome → Ending
  | .completed | .returned _ => .done
  | .suspended k => .suspended k

/-- The ending of an expression that may be suspended. -/
def Run.Awaited.ending : Run.Awaited → Ending
  | .value _ => .done
  | .suspended k => .suspended k

namespace Run

variable {call : Invoke}

section

variable (h : CallsWalk tame depth call)

include h

omit h in
theorem asyncFrame_apply (m : Machine) :
    asyncFrame? m = .ok (m.frames.head?.filter (·.function.isAsync)) m := rfl

/-- An expression that is awaited in an async function is evaluated and then suspends the function.
-/
theorem orSuspend_leads {plain : Run β} (e : Expr) (target : Target)
    (f : Nat → β) (end? : β → Ending) (hend : ∀ k, end? (f k) = .suspended k)
    (hplain : m.Leads tame depth end? (plain m)) :
    m.Leads tame depth end? (orSuspend (eval call true e) target f plain m) := by
  rw [orSuspend, bind_apply, asyncFrame_apply]
  cases hframe : m.frames.head?.filter (·.function.isAsync) with
  | none => exact hplain
  | some frame =>
    obtain ⟨hhead, hasync⟩ := Option.filter_eq_some_iff.1 hframe
    refine (eval_walks h true e).bind_leads fun v m' hw => ?_
    obtain ⟨m'', hs, _⟩ := suspend_placed frame v target m'
    simp only [bind_apply, hs, pure_apply]
    exact .ok (hend _ ▸ .suspend (hw.context.2 ▸ hhead) hasync hs)

theorem evalAwaiting_leads (target : Target) (e : Expr)
    (m : Machine) : m.Leads tame depth Awaited.ending (evalAwaiting call target e m) := by
  have hplain (e : Expr) : m.Leads tame depth Awaited.ending
      ((do return .value (← eval call false e) : Run Awaited) m) :=
    (eval_walks h false e).bind_leads fun v m' _ => .ok (.refl m')
  cases e with
  | await e line =>
    exact orSuspend_leads h e target .suspended _ (fun _ => rfl) (hplain (.await e line))
  | _ => exact hplain _

omit h in
theorem evalAwaiting_suspended {target : Target} {e : Expr} {k : Nat}
    (h : evalAwaiting call target e m = .ok (.suspended k) m') : ∃ e' line, e = .await e' line := by
  cases e with
  | await e line => exact ⟨e, line, rfl⟩
  | _ =>
    simp only [evalAwaiting, bind_apply] at h
    split at h <;> simp at h

theorem execExpr_leads (e : Expr) (m : Machine) :
    m.Leads tame depth Outcome.ending (execExpr call e m) := by
  have hplain (e : Expr) : m.Leads tame depth Outcome.ending ((do
      match ← evalAwaiting call .discard e with
      | .value _ => return .completed
      | .suspended k => return .suspended k : Run Outcome) m) := by
    refine (evalAwaiting_leads h .discard e m).bind fun a m' hw => ?_
    cases a with
    | value v => exact .ok hw
    | suspended k => exact .ok hw
  cases e with
  | assign op x e line =>
    cases e with
    | await e awaitLine =>
      refine orSuspend_leads h e (.assign x op) .suspended Outcome.ending (fun _ => rfl) ?_
      exact (eval_walks h false _).bind_leads fun _ m' _ => .ok (.refl m')
    | _ => exact hplain _
  | _ => exact hplain _

theorem execReturn_leads (e : Option Expr) (m : Machine) :
    m.Leads tame depth Outcome.ending (execReturn call e m) := by
  cases e with
  | none => exact .ok (.refl m)
  | some e =>
    refine (evalAwaiting_leads h .ret e m).bind fun a m' hw => ?_
    cases a with
    | value v => exact .ok hw
    | suspended k => exact .ok hw

omit h in
theorem covers_true (m : Machine) : m.Covers true := fun _ _ _ => rfl

theorem execDeclarators_leads (kind : DeclKind) (line : Nat)
    (decls : List Declarator) (m : Machine) :
    m.Leads tame depth Outcome.ending (execDeclarators call kind line decls m) := by
  induction decls generalizing m with
  | nil => exact .ok (.refl m)
  | cons d rest ih =>
    obtain ⟨x, init⟩ := d
    cases init with
    | none => exact (declareVariable_walks x .undefined).bind_leads fun _ m' _ => ih m'
    | some e =>
      refine (evalAwaiting_leads h (.declare x) e m).bind fun a m' hw => ?_
      cases a with
      | value v =>
        exact hw.leads ((declareVariable_walks x v).bind_leads fun _ m' _ => ih m')
      | suspended k =>
        cases rest with
        | nil => exact .ok hw
        | cons d' rest =>
          exact .ok (.defer [.declare kind (d' :: rest) line] hw fun _ => covers_true m)

omit h in
/-- Variables that do not await their values are declared without a suspension. -/
theorem execDeclarators_suspended {kind : DeclKind} {line : Nat} {decls : List Declarator} {k : Nat}
    (h : execDeclarators call kind line decls m = .ok (.suspended k) m') :
    decls.all (·.steady) = false := by
  induction decls generalizing m with
  | nil => simp [execDeclarators] at h
  | cons d rest ih =>
    rw [List.all_cons, Bool.and_eq_false_iff]
    obtain ⟨x, init⟩ := d
    cases init with
    | none =>
      simp only [execDeclarators, bind_apply] at h
      split at h
      · exact .inr (ih h)
      · cases h
    | some e =>
      simp only [execDeclarators, bind_apply] at h
      split at h
      next a m1 ha =>
        cases a with
        | value v =>
          simp only [bind_apply] at h
          split at h
          · exact .inr (ih h)
          · cases h
        | suspended k' =>
          obtain ⟨e', line', rfl⟩ := evalAwaiting_suspended ha
          exact .inl rfl
      next => cases h

omit h in
theorem discard_apply (act : Run α) (m : Machine) : (discard act : Run PUnit) m = match act m with
      | .ok _ m' => .ok ⟨⟩ m'
      | .error e m' => .error e m' :=
  map_apply (fun _ => PUnit.unit) act m

omit h in
theorem final_discard (act : Run α) (m : Machine) :
    final ((discard act : Run PUnit) m) = final (act m) := by
  rw [discard_apply]
  cases act m <;> rfl

/-- The start of a loop.  If its declarations are suspended, the loop goes on nevertheless. -/
theorem execInit_leads (init : LoopInit) (m : Machine) (hm : tame = true → m.Covers init.steady) :
    m.Leads tame depth (fun _ => .done) (execInit call init m) := by
  cases init with
  | nothing => exact .ok (.refl m)
  | expr e => exact ((eval_walks h false e).map _) m
  | declare kind decls line =>
    have hleads := execDeclarators_leads h kind line decls m
    rw [execInit, discard_apply]
    cases hr : execDeclarators call kind line decls m with
    | error fault m' =>
      rw [hr] at hleads
      cases hleads with
      | error hw => exact .error hw
    | ok outcome m' =>
      rw [hr] at hleads
      cases hleads with
      | ok hw =>
        cases outcome with
        | completed => exact .ok hw
        | returned v => exact .ok hw
        | suspended k =>
          refine .ok (.skip hw fun ht => ?_)
          rw [← execDeclarators_suspended hr]
          exact hm ht

end

/-! ## Statements -/

end Run

namespace Machine

/-- The same as `Leads`, up to the scope in which the action ends: the rounds of a loop renew it. -/
inductive Drifts (tame : Bool) (depth : Nat) (e : α → Ending) (m : Machine) :
    EStateM.Result Fault Machine α → Prop
  | ok {a : α} {m' : Machine} (h : m.Walk tame depth (e a) (m'.under m.scope)) :
      Drifts tame depth e m (.ok a m')
  | error {fault : Fault} {m' : Machine} (h : m.Walk tame depth .failed (m'.under m.scope)) :
      Drifts tame depth e m (.error fault m')

theorem Leads.drifts {r : EStateM.Result Fault Machine α} (h : m.Leads tame depth e r) :
    m.Drifts tame depth e r := by
  have hscope {e : Ending} {m' : Machine} (hw : m.Walk tame depth e m') :
      m.Walk tame depth e (m'.under m.scope) := by
    rw [← hw.context.1]
    exact hw
  cases h with
  | ok hw => exact .ok (hscope hw)
  | error hw => exact .error (hscope hw)

theorem Walk.drifts {r : EStateM.Result Fault Machine α} (h : m.Walk tame depth .done m')
    (hr : m'.Drifts tame depth e r) : m.Drifts tame depth e r := by
  cases hr with
  | ok hw => exact .ok (h.trans (h.context.1 ▸ hw))
  | error hw => exact .error (h.trans (h.context.1 ▸ hw))

theorem Drifts.bind {e : β → Ending} (h : m.Drifts tame depth (fun _ => .done) (act m))
    (hf : ∀ (a : α) (m' : Machine), m'.frames = m.frames → m'.Drifts tame depth e (f a m')) :
    m.Drifts tame depth e ((act >>= f) m) := by
  rw [Run.bind_apply]
  cases hact : act m with
  | ok a m' =>
    rw [hact] at h
    cases h with
    | ok hw =>
      -- the second action starts in the scope in which the first one ended
      have hrest := hf a m' hw.context.2
      have hback {e : Ending} {m'' : Machine}
          (hw' : m'.Walk tame depth e (m''.under m'.scope)) :
          m.Walk tame depth e (m''.under m.scope) := by
        have hwithin := @Walk.within tame depth (m'.under m.scope) _ e m'.scope hw'
        exact hw.trans hwithin
      change m.Drifts tame depth e (f a m')
      generalize f a m' = r at hrest
      cases hrest with
      | ok hw' => exact .ok (hback hw')
      | error hw' => exact .error (hback hw')
  | error fault m' =>
    rw [hact] at h
    cases h with
    | error hw => exact .error hw

theorem Leads.bind_drifts {e' : β → Ending} (h : m.Leads tame depth e (act m))
    (hf : ∀ a m', m.Walk tame depth (e a) m' → m.Drifts tame depth e' (f a m')) :
    m.Drifts tame depth e' ((act >>= f) m) := by
  rw [Run.bind_apply]
  cases hact : act m with
  | ok a m' =>
    rw [hact] at h
    cases h with
    | ok hw => exact hf a m' hw
  | error fault m' =>
    rw [hact] at h
    exact (Leads.error (by cases h; assumption)).drifts

end Machine

namespace Run

variable {call : Invoke}

theorem inScope_leads {scope : Scope}
    (h : (m.under scope).Drifts tame depth e (act (m.under scope))) :
    m.Leads tame depth e (inScope scope act m) := by
  rw [inScope, restoring]
  change m.Leads tame depth e (match act (m.under scope) with
    | .ok a m' => .ok a { m' with scope := m.scope, frames := m.frames }
    | .error f m' => .error f { m' with scope := m.scope, frames := m.frames })
  cases hact : act (m.under scope) with
  | ok a m' =>
    rw [hact] at h
    cases h with
    | ok hw =>
      have hframes : m'.frames = m.frames := hw.context.2
      have hback := Machine.Walk.within scope hw
      rw [← hframes]
      exact .ok hback
  | error fault m' =>
    rw [hact] at h
    cases h with
    | error hw =>
      have hframes : m'.frames = m.frames := hw.context.2
      have hback := Machine.Walk.within scope hw
      rw [← hframes]
      exact .error hback

theorem nested_leads (h : ∀ m' : Machine, m'.frames = m.frames → m'.Drifts tame depth e (act m')) :
    m.Leads tame depth e (nested act m) :=
  Walks.get.bind_leads fun _ _ hw => (newScope_walks _ []).bind_leads fun _ _ hw' =>
    inScope_leads (h _ (hw'.context.2.trans hw.context.2))

theorem renewScope_drifts (m : Machine) : m.Drifts tame depth (fun _ => .done) (renewScope m) :=
  .ok (.move (.nest m m.scope.tail (m.tables.bindings (m.scope.headD 0))))

/-- The rounds of a loop.  What a suspended round leaves to do is steady if the body is. -/
theorem iterate_drifts {steady : Bool} {test : Run Bool} {body : Run Outcome} {step : Run Unit}
    {residue : List Stmt} (line : Nat) (htest : Walks tame depth test)
    (hbody : ∀ m : Machine, (tame = true → m.Covers steady) →
      m.Leads tame depth Outcome.ending (body m))
    (hstep : ∀ m : Machine, m.Drifts tame depth (fun _ => .done) (step m))
    (hresidue : steady = Stmt.allSteady residue) (rounds : Nat) (m : Machine)
    (hm : tame = true → m.Covers steady) :
    m.Drifts tame depth Outcome.ending (iterate line test body step residue rounds m) := by
  induction rounds generalizing m with
  | zero =>
    refine Machine.Leads.drifts (htest.bind_leads fun go m' _ => ?_)
    cases go with
    | true => exact (warn_walks _).bind_leads fun _ m'' _ => .ok (.refl m'')
    | false => exact .ok (.refl m')
  | succ rounds ih =>
    refine (htest m).bind_drifts fun go m1 hw => hw.drifts ?_
    have hm1 : tame = true → m1.Covers steady := fun ht => (hm ht).of_frames hw.context.2
    cases go with
    | false => exact Machine.Leads.drifts (.ok (.refl m1))
    | true =>
      refine (hbody m1 hm1).bind_drifts fun outcome m2 hw2 => ?_
      cases outcome with
      | completed =>
        refine hw2.drifts ((hstep m2).bind fun _ m3 hframes => ih m3 fun ht => ?_)
        exact (hm1 ht).of_frames (hframes.trans hw2.context.2)
      | returned v => exact Machine.Leads.drifts (.ok hw2)
      | suspended k =>
        -- the rounds that are left stand behind what the body leaves to do
        refine Machine.Leads.drifts (.ok (.defer residue hw2 fun ht => ?_))
        exact hresidue ▸ hm1 ht

section

variable (h : CallsWalk tame depth call)

include h

theorem loopTest_walks (condition : Option Expr) : Walks tame depth (loopTest call condition) := by
  cases condition with
  | none => exact .pure true
  | some e => exact (eval_walks h false e).bind fun _ => .pure _

theorem loopStep_drifts (init : LoopInit) (update : Option Expr)
    (m : Machine) : m.Drifts tame depth (fun _ => .done) (loopStep call init update m) := by
  have hupdate : Walks tame depth (loopUpdate call update) := by
    cases update with
    | none => exact .pure ()
    | some e => exact (eval_walks h false e).map fun _ => ()
  unfold loopStep
  cases renewsBindings init with
  | true => exact (renewScope_drifts m).bind fun _ m' _ => (hupdate m').drifts
  | false => exact (hupdate m).drifts

omit h in
theorem loopResidue_steady (condition update : Option Expr) (body : Block) (line : Nat) :
    Stmt.allSteady (loopResidue condition update body line) = body.steady := by
  cases update <;> simp [loopResidue, Stmt.allSteady, Stmt.steady, LoopInit.steady]

omit h in
theorem covers_and {a b : Bool} (h : tame = true → m.Covers (a && b)) :
    (tame = true → m.Covers a) ∧ (tame = true → m.Covers b) := by
  simp only [Machine.Covers, Bool.and_eq_true] at h
  exact ⟨fun ht frame hf hs => (h ht frame hf hs).1, fun ht frame hf hs => (h ht frame hf hs).2⟩

omit h in
mutual

/-- Each statement is a walk that ends as its outcome says. -/
theorem exec_leads (h : CallsWalk tame depth call) : (s : Stmt) → (m : Machine) →
    (tame = true → m.Covers s.steady) → m.Leads tame depth Outcome.ending (exec call s m)
  | .expr e _, m, _ => execExpr_leads h e m
  | .declare kind decls line, m, _ => execDeclarators_leads h kind line decls m
  | .function name params body isAsync line, m, _ =>
    (bindFunction_walks name params body isAsync line).bind_leads fun _ _ _ =>
      (glance_walks line).bind_leads fun _ _ _ => (note_walks _ _).bind_leads fun _ m' _ =>
        .ok (.refl m')
  | .block b, m, hm => execBlock_leads h b m (by simpa only [Stmt.steady] using hm)
  | .branch condition body otherwise _, m, hm => by
    obtain ⟨hbody, hother⟩ := covers_and (by simpa only [Stmt.steady] using hm)
    refine (eval_walks h false condition).bind_leads fun v m1 hw1 => ?_
    refine (tell_walks _).bind_leads fun _ m2 hw2 => ?_
    have hframes : m2.frames = m.frames := hw2.context.2.trans hw1.context.2
    by_cases hv : v.isTruthy
    · simp only [hv, if_true]
      exact execBlock_leads h body m2 fun ht => (hbody ht).of_frames hframes
    · simp only [hv]
      exact execOptional_leads h otherwise m2 fun ht => (hother ht).of_frames hframes
  | .loop init condition update body line, m, hm => by
    obtain ⟨hinit, hbody⟩ := covers_and (by simpa only [Stmt.steady] using hm)
    refine nested_leads fun m1 hframes1 => ?_
    refine (execInit_leads h init m1 fun ht => (hinit ht).of_frames hframes1).bind_drifts
      fun _ m2 hw2 => hw2.drifts ?_
    exact iterate_drifts line (loopTest_walks h condition)
      (fun m hm => execBlock_leads h body m hm) (loopStep_drifts h init update)
      (loopResidue_steady condition update body line).symm maxLoopRounds m2 fun ht =>
        (hbody ht).of_frames (hw2.context.2.trans hframes1)
  | .ret e _, m, _ => execReturn_leads h e m

theorem execOptional_leads (h : CallsWalk tame depth call) : (s : Option Stmt) → (m : Machine) →
    (tame = true → m.Covers (Stmt.optionSteady s)) →
    m.Leads tame depth Outcome.ending (execOptional call s m)
  | none, m, _ => .ok (.refl m)
  | some s, m, hm => exec_leads h s m (by simpa only [Stmt.optionSteady] using hm)

theorem execBlock_leads (h : CallsWalk tame depth call) : (b : Block) → (m : Machine) →
    (tame = true → m.Covers b.steady) → m.Leads tame depth Outcome.ending (execBlock call b m)
  | .mk stmts _, m, hm =>
    nested_leads fun m' hframes => (execAll_leads h stmts m' fun ht =>
      (by simpa only [Block.steady] using hm ht : m.Covers _).of_frames hframes).drifts

theorem execAll_leads (h : CallsWalk tame depth call) : (stmts : List Stmt) → (m : Machine) →
    (tame = true → m.Covers (Stmt.allSteady stmts)) →
    m.Leads tame depth Outcome.ending (execAll call stmts m)
  | [], m, _ => .ok (.refl m)
  | s :: rest, m, hm => by
    obtain ⟨hs, hrest⟩ := covers_and (by simpa only [Stmt.allSteady] using hm)
    refine (exec_leads h s m hs).bind fun outcome m' hw => ?_
    cases outcome with
    | completed =>
      exact hw.leads (execAll_leads h rest m' fun ht => (hrest ht).of_frames hw.context.2)
    | returned v => exact .ok hw
    | suspended k => exact .ok (.defer rest hw hrest)

end

/-! ## Calls -/

theorem runBody_leads (body : Body) (m : Machine) (hm : tame = true → m.Covers body.steady) :
    m.Leads tame depth Outcome.ending (runBody call body m) := by
  cases body with
  | value e => exact (eval_walks h false e).bind_leads fun _ m' _ => .ok (.refl m')
  | block b =>
    obtain ⟨stmts, line⟩ := b
    refine (hoist_walks stmts).bind_leads fun _ m' hw => execAll_leads h stmts m' fun ht => ?_
    have hstmts : m.Covers (Stmt.allSteady stmts) := by
      simpa only [Body.steady, Block.steady] using hm ht
    exact hstmts.of_frames hw.context.2

end

theorem callPromise_apply (f : Function) (m : Machine) :
    callPromise f m = .ok (if f.isAsync then some m.promises.size else none)
      { m with
        promises := if f.isAsync then m.promises.push { state := .pending } else m.promises } := by
  unfold callPromise
  cases f.isAsync <;> rfl

/-- The body of a called function runs in the state in which it is entered, and whatever it does the
    scope and the frames are those of the caller again. -/
theorem runCall_apply (call : Invoke) (f : Function) (args : List Value) (m : Machine) :
    runCall call f args m = match runBody call f.body (m.entered f args) with
      | .ok outcome m' =>
        .ok (if f.isAsync then some m.promises.size else none, outcome) (m'.back m)
      | .error e m' => .error e (m'.back m) := by
  simp only [runCall, bind_apply, newScope, modifyGet_apply, callPromise_apply, inFrame, restoring,
    Machine.entered]
  cases runBody call f.body _ <;> rfl

/-- The end of an async body settles the promise of its call, without fail. -/
theorem finish_settles (id : Nat) {outcome : Outcome} (h : outcome.ending = .done) (m : Machine) :
    ∃ v m', finish (some id) outcome m = .ok () m' ∧ settle id .fulfilled v m = .ok () m' := by
  obtain ⟨v, hv⟩ : ∃ v, settledValue outcome.value m = .ok v m := by
    cases outcome.value <;> exact ⟨_, rfl⟩
  obtain ⟨ps, queue, passed, log, _, hsettle⟩ := settle_cascade id .fulfilled v m
  refine ⟨v, _, ?_, hsettle⟩
  cases outcome with
  | suspended k => cases h
  | completed => simp only [finish, bind_apply, hv, hsettle]
  | returned w => simp only [finish, bind_apply, hv, hsettle]

/-- What closes a call: its frame is popped, and its promise settles. -/
theorem finish_leads {f : Function} {args : List Value} {label : String} {line : Nat}
    {m m' : Machine} {outcome : Outcome} (hroom : m.Room 2)
    (h : Machine.Walk tame depth ((m.emitted [.highlight line, .push label]).entered f args)
      outcome.ending m') : m.Leads tame (depth + 1) (fun _ => .done) ((do
      emit .pop
      finish (if f.isAsync then some m.promises.size else none) outcome
      return callValue (if f.isAsync then some m.promises.size else none) outcome : Run Value)
      (m'.back m)) := by
  rcases emit_cases .pop (m'.back m) with ⟨hpop, log, hemit⟩ | ⟨_, hemit⟩
  case inr =>
    simp only [bind_apply, hemit]
    exact .error (.cut hroom h)
  have hreturns (hfailed : outcome.ending ≠ .failed)
      (hasync : f.isAsync = true → outcome.ending ≠ .done) :
      m.Walk tame (depth + 1) .done (((m'.back m).emitted [.pop]).logged log) :=
    (Machine.Walk.call hroom h hfailed hasync hpop).trans (walk_logged _ log)
  simp only [bind_apply, hemit]
  cases hasync : f.isAsync with
  | false => exact .ok (hreturns (by cases outcome <;> simp [Outcome.ending]) (by simp [hasync]))
  | true =>
    by_cases hend : outcome.ending = .done
    · -- only a body that has come to its end settles the promise
      obtain ⟨v, m'', hfinish, hsettle⟩ := finish_settles m.promises.size hend
        (((m'.back m).emitted [.pop]).logged log)
      have hbody := hend ▸ h
      have hroom' : m'.Room 1 := hpop
      simp only [if_true, hfinish]
      exact .ok (.settled log hroom hasync hbody hroom' hsettle)
    · cases outcome with
      | suspended k => exact .ok (hreturns (by simp [Outcome.ending]) fun _ => hend)
      | completed => exact absurd rfl hend
      | returned v => exact absurd rfl hend

/-- A call is a walk, by induction on the depth of nesting that is left. -/
theorem invoke_walks (depth : Nat) : CallsWalk tame depth (invoke depth) := by
  have hcode (label : String) (line : Nat) :
      ∀ s ∈ [Step.highlight line, .push label], s.ofCode := by
    simp [Step.ofCode, Step.highlight, Step.push]
  induction depth with
  | zero =>
    -- the call is shown, and fails before its body is entered
    intro f args label line m
    rcases emitAll_cases (.highlight line) [.push label] m with
      ⟨_, log, h⟩ | ⟨log, part, hpart, h⟩
    · simp only [invoke, bind_apply, h, note_apply, throw_apply]
      exact .error (walk_cutShort m _ (hcode label line) (List.prefix_refl _))
    · simp only [invoke, bind_apply, h]
      exact .error (walk_cutShort m log (hcode label line) hpart)
  | succ depth ih =>
    intro f args label line m
    rcases emitAll_cases (.highlight line) [.push label] m with
      ⟨hroom, log, h⟩ | ⟨log, part, hpart, h⟩
    case inr =>
      simp only [invoke, bind_apply, h]
      exact .error (walk_cutShort m log (hcode label line) hpart)
    -- the call opens with the log of its note already written
    generalize hlog : log.write 2 ("call " ++ label) = log'
    refine (walk_logged m log').leads ?_
    have hbody := runBody_leads ih f.body
      (((m.logged log').emitted [.highlight line, .push label]).entered f args) (by
        intro _ frame hframe hsteady
        cases hframe
        exact hsteady)
    simp only [invoke, bind_apply, h, note_apply, Machine.logged_log, hlog,
      Machine.logged_logged, runCall_apply]
    rw [← Machine.emitted_logged]
    cases hr : runBody (invoke depth) f.body
      (((m.logged log').emitted [.highlight line, .push label]).entered f args) with
    | ok outcome m' =>
      rw [hr] at hbody
      cases hbody with
      | ok hw =>
        have hfinish := finish_leads (m := m.logged log') hroom hw
        simp only [bind_apply] at hfinish
        exact hfinish
    | error fault m' =>
      rw [hr] at hbody
      cases hbody with
      | error hw => exact .error (.cut (m := m.logged log') hroom hw)

theorem withCalls_leads {act : Invoke → Run α} {e : α → Ending} {m : Machine}
    (h : ∀ call, CallsWalk tame m.callBudget call → m.Leads tame m.callBudget e (act call m)) :
    m.Leads tame m.callBudget e (withCalls act m) :=
  h (invoke m.callBudget) (invoke_walks m.callBudget)

/-! ## Callbacks and suspended functions -/

/-- An action that walks from every state, with as many calls nested in one another as the present
    ones leave room for. -/
def Roams (tame : Bool) (act : Run α) : Prop :=
  ∀ m : Machine, m.Leads tame m.callBudget (fun _ => .done) (act m)

theorem callBudget_of_frames (h : m'.frames = m.frames) : m'.callBudget = m.callBudget := by
  rw [Machine.callBudget, h, Machine.callBudget]

namespace Roams

theorem bind_leads {e : β → Ending} (h : Roams tame act)
    (hf : ∀ a m', m.Walk tame m.callBudget .done m' → m'.Leads tame m'.callBudget e (f a m')) :
    m.Leads tame m.callBudget e ((act >>= f) m) := by
  refine (h m).bind fun a m' hw => hw.leads ?_
  rw [← callBudget_of_frames hw.context.2]
  exact hf a m' hw

theorem bind (h : Roams tame act) (hf : ∀ a, Roams tame (f a)) : Roams tame (act >>= f) :=
  fun _ => h.bind_leads fun a m' _ => hf a m'

theorem of_walks (h : ∀ depth, Walks tame depth act) : Roams tame act :=
  fun m => h m.callBudget m

theorem pure (a : α) : Roams tame (pure a : Run α) := of_walks fun _ => .pure a

theorem note (level : Nat) (line : Log.Line) : Roams tame (note level line) :=
  of_walks fun _ => note_walks level line

theorem withCalls {act : Invoke → Run α}
    (h : ∀ depth call, CallsWalk tame depth call → Walks tame depth (act call)) :
    Roams tame (withCalls act) :=
  fun m => withCalls_leads fun call hcall => h _ call hcall m

theorem inScope (scope : Scope) (h : Roams tame act) : Roams tame (inScope scope act) :=
  fun m => inScope_leads (h (m.under scope)).drifts

end Roams

def roams_callbacks : CallbackCongruence (Roams tame) where
  pure := .pure
  next := .bind
  note := .note
  settledValue v := .of_walks fun _ => .of_reads (reads_settledValue v)
  newFunction _ _ _ _ _ _ := .of_walks fun _ => newFunction_walks _ _ _ _ _ _
  value _ scope := .inScope scope (.withCalls fun _ _ h => eval_walks h false _)
  callBack f args label := .withCalls fun _ _ h => h f args label f.line

theorem receive_leads (target : Target) (v : Value) (m : Machine) :
    m.Leads tame depth Outcome.ending (receive target v m) := by
  cases target with
  | discard => exact .ok (.refl m)
  | declare x => exact (declare_walks x v).bind_leads fun _ m' _ => .ok (.refl m')
  | assign x op =>
    exact (Walks.of_reads (reads_assigned op x v)).bind_leads fun v m1 _ =>
      (assign_walks x v).bind_leads fun _ m2 _ => .ok (.refl m2)
  | ret => exact .ok (.refl m)

theorem runRest_leads (k : Continuation) (v : Value) (m : Machine)
    (hm : tame = true → m.Covers (Stmt.allSteady k.statements)) :
    m.Leads tame m.callBudget Outcome.ending (runRest k v m) := by
  refine (receive_leads k.target v m).bind fun outcome m' hw => ?_
  cases outcome with
  | completed =>
    refine hw.leads ?_
    rw [← callBudget_of_frames hw.context.2]
    refine withCalls_leads fun call hcall => ?_
    exact execAll_leads hcall k.statements m' fun ht => (hm ht).of_frames hw.context.2
  | returned v => exact .ok hw
  | suspended j => exact .ok hw

end Run

end EventLoop
