/-
  What a run shows can be written to a file.

  All code that is evaluated comes from the program or from the state, and is on lines of the source
  in both cases, so evaluation, calls, reactions and the turns of the event loop are safe.  A run
  starts in a state without code and steps.  Hence every step of a program whose generation succeeds
  is legible.  Nothing depends on which functions are registered, either.
-/
import EventLoop.Proofs.Code

namespace EventLoop

open Script

variable {P : Region} {C : Scope → Prop} {L : Level} {α β : Type} {source : Option String}

/-- The value that an outcome carries holds code on lines with the property. -/
def Outcome.Sound (P : Region) : Outcome → Prop
  | .returned v => v.Sound P
  | .completed | .suspended _ => True

theorem Outcome.Sound.value {o : Outcome} (h : o.Sound P) : o.value.Sound P := by
  cases o with
  | returned v => exact h
  | _ => trivial

namespace Run

variable {v : Value} {args : List Value} {cb : Callback} {e : Expr} {t : Microtask}

/-- A way to call functions that is safe for sound functions and arguments, in every scope. -/
def CallsSafe (P : Region) (L : Level) (call : Invoke) : Prop :=
  ∀ {C : Scope → Prop} f args label line, f.Sound P → (∀ v ∈ args, v.Sound P) → P line →
    Safe P C L (Value.Sound P) (call f args label line)

variable {call : Invoke}

/-! ## Expressions -/

/-- No member is called like a function of the program. -/
theorem ofCallee_member_ne (target : Expr) (name : String) (line : Nat) :
    CallShape.ofCallee (.member target name line) ≠ .userFunction := by
  have hmethod : CallShape.ofMethod name ≠ .userFunction := by
    unfold CallShape.ofMethod
    repeat' split
    all_goals simp
  cases target with
  | ident x l =>
    rw [CallShape.ofCallee, CallShape.ofNamedMethod]
    repeat' split
    all_goals simp [hmethod]
  | _ => exact hmethod

theorem ofLiteral_sound (v : Literal) : (Value.ofLiteral v).Sound P := by
  cases v <;> trivial

mutual

/-- Evaluating an expression is safe; only the entered call depends on its position. -/
theorem eval_safe (h : CallsSafe P L call) (place : Position) : (e : Expr) → CodeAt P place e →
      Safe P C L (Value.Sound P) (eval call place.consumes e)
  | .literal v _, _ => .pure (ofLiteral_sound v)
  | .ident x _, _ => lookup_safe x
  | .template spans tail _, he =>
    (evalSpans_safe h spans (he.plain rfl)).bind fun _ _ => .pure trivial
  | .array items _, he =>
    (evalAll_safe h items (he.plain rfl)).bind fun _ hvs => newArray_safe hvs
  | .binary op left right _, he => by
    obtain ⟨hleft, hright⟩ := List.forall_mem_append.1 (he.plain rfl)
    refine (eval_safe h .elsewhere left hleft).bind fun a ha => ?_
    have hright : Safe P C L _ _ := eval_safe h .elsewhere right hright
    cases op with
    | and => exact .ite hright (.pure ha)
    | or => exact .ite (.pure ha) hright
    | _ => exact hright.bind fun b _ => applyOp_safe _ a b
  | .unary op e _, he => by
    refine (eval_safe h .elsewhere e (he.plain rfl)).bind fun v _ => ?_
    cases op <;> exact .pure trivial
  | .assign op x e _, he =>
    (eval_safe h .elsewhere e (he.plain rfl)).bind fun _ hv =>
      (assigned_safe op x hv).bind fun _ hv => (assign_safe x hv).bind fun _ _ => .pure hv
  | .update op x before _, _ => by
    refine (lookup_safe x).bind fun _ _ => ?_
    refine .lift_bind fun new => ?_
    exact (assign_safe (v := .number new) x trivial).bind fun _ _ => .pure trivial
  | .member target name _, he => by
    refine (eval_safe h .elsewhere target (he.plain rfl)).bind fun v _ => .ite ?_ (.pure trivial)
    cases v with
    | array id => exact (itemsOf_safe id).bind fun _ _ => .pure trivial
    | _ => exact .pure trivial
  | .call callee args line, he => by
    have hline : P line := he.line
    rw [eval]
    cases hshape : CallShape.ofCallee callee with
    | timer kind =>
      exact .enter_bind he.site (by simp [hshape]) (registerTimer_safe kind he.args hline)
    | clearTimer =>
      exact .enter_bind he.site (by simp [hshape]) <| (evalFirst_safe h args he.args).bind
        fun v _ => clearTimer_safe _ args v hline
    | console =>
      exact .enter_bind he.site (by simp [hshape]) <| (consoleTexts_safe h args he.args).bind
        fun _ _ => consoleLine_safe _ _ hline
    | promise maker =>
      exact promiseCall_safe hshape he.site hline (evalAll_safe h args he.args)
    | link l =>
      exact .enter_bind he.site (by simp [hshape]) <| (evalTarget_safe h callee he).bind
        fun _ hv => addLink_safe l callee he.args.head? hv hline
    | userFunction =>
      refine .enter_bind he.site (by simp [hshape]) ?_
      refine (eval_safe h .elsewhere callee (he.callee ?_)).bind fun f hf => ?_
      · rintro target name memberLine rfl
        exact ofCallee_member_ne target name memberLine hshape
      refine (evalAll_safe h args he.args).bind fun vs hvs => ?_
      cases f with
      | function f =>
        refine .lift_bind fun label => ?_
        exact h f vs label line hf hvs hline
      | _ => exact unrecognized_safe callee hline
    | method =>
      refine .enter_bind he.site (by simp [hshape]) ?_
      refine (evalTarget_safe h callee he).bind fun receiver _ => ?_
      exact (evalAll_safe h args he.args).bind fun vs hvs =>
        callMethod_safe callee _ receiver hvs hline
    | unrecognized =>
      exact .enter_bind he.site (by simp [hshape]) (unrecognized_safe callee hline)
  | .function params body name _ isAsync line, he =>
    .get_bind (fun _ _ => rfl) fun _ hm =>
      (newFunction_safe _ _ _ (he.plain rfl) he.line hm.scope).bind fun _ hf => .pure hf
  | .await e _, he =>
    (eval_safe h .operand e he.operand).bind fun _ hv => settledValue_safe hv

theorem evalTarget_safe (h : CallsSafe P L call) {place : Position} {args : List Expr}
    {line : Nat} : (e : Expr) → CodeAt P place (Expr.call e args line) →
      Safe P C L (Value.Sound P) (evalTarget call e)
  | .member target _ _, he => eval_safe h .receiver target he.receiver
  | .literal .., _ | .ident .., _ | .template .., _ | .array .., _ | .binary .., _ | .unary .., _
  | .assign .., _ | .update .., _ | .call .., _ | .function .., _ | .await .., _ => .pure trivial

theorem evalFirst_safe (h : CallsSafe P L call) : (es : List Expr) → CodeIn P es →
      Safe P C L (Value.Sound P) (evalFirst call es)
  | [], _ => .pure trivial
  | e :: _, hes => eval_safe h .elsewhere e (each_cons.1 hes).1

theorem evalAll_safe (h : CallsSafe P L call) : (es : List Expr) → CodeIn P es →
      Safe P C L (fun vs => ∀ v ∈ vs, v.Sound P) (evalAll call es)
  | [], _ => .pure (by simp)
  | e :: rest, hes =>
    (eval_safe h .elsewhere e (each_cons.1 hes).1).bind fun _ hv =>
      (evalAll_safe h rest (each_cons.1 hes).2).bind fun _ hvs =>
        .pure (List.forall_mem_cons.2 ⟨hv, hvs⟩)

theorem evalSpans_safe (h : CallsSafe P L call) : (spans : List Span) → CodeIn P spans →
      Safe P C L Any (evalSpans call spans)
  | [], _ => .pure trivial
  | .mk text e :: rest, hspans => by
    obtain ⟨he, hrest⟩ := each_cons.1 hspans
    refine (eval_safe h .elsewhere e he).bind fun v _ => (textOf_safe v).bind fun _ _ => ?_
    exact (evalSpans_safe h rest hrest).bind fun _ _ => .pure trivial

theorem consoleTexts_safe (h : CallsSafe P L call) : (es : List Expr) → CodeIn P es →
      Safe P C L Any (consoleTexts call es)
  | [], _ => .pure trivial
  | e :: rest, hes => by
    have hrest (s : String) :
        Safe P C L Any (do return s :: (← consoleTexts call rest)) :=
      (consoleTexts_safe h rest (each_cons.1 hes).2).bind fun _ _ => .pure trivial
    have heval : Safe P C L _ _ := eval_safe h .elsewhere e (each_cons.1 hes).1
    cases e with
    | literal v line => exact (textOf_safe _).bind fun s _ => hrest s
    | ident x line =>
      refine (isBound_safe x).bind fun bound _ => ?_
      cases bound with
      | true =>
        exact (lookup_safe x).bind fun v _ => (textOf_safe v).bind fun s _ => hrest s
      | false => exact Safe.bind (R := Any) (.pure trivial) fun s _ => hrest s
    | binary | unary | template =>
      exact heval.bind fun v _ => (textOf_safe v).bind fun s _ => hrest s
    | _ => exact Safe.bind (R := Any) (.pure trivial) fun s _ => hrest s

end

section

variable (h : CallsSafe P L call)

include h

/-! ## Statements -/

omit h in
/-- What comes of an expression that may suspend its function. -/
def Awaited.Sound (P : Region) : Awaited → Prop
  | .value v => v.Sound P
  | .suspended _ => True

theorem evalAwaiting_safe (target : Target) (he : CodeIn P e) :
    Safe P C L (Awaited.Sound P) (evalAwaiting call target e) := by
  have hplain {e : Expr} (he : CodeIn P e) :
      Safe P C L (Awaited.Sound P) (do return .value (← eval call false e)) :=
    (eval_safe h .elsewhere e he).bind fun _ hv => .pure hv
  cases e with
  | await e line =>
    refine asyncFrame?_safe.bind fun frame hframe => ?_
    cases frame with
    | some frame =>
      exact (eval_safe h .operand e he.operand).bind fun _ hv =>
        (suspend_safe target (hframe frame rfl) hv).bind fun _ _ => .pure trivial
    | none => exact hplain he
  | _ => exact hplain he

theorem execExpr_safe (he : CodeIn P e) : Safe P C L (Outcome.Sound P) (execExpr call e) := by
  have hplain {e : Expr} (he : CodeIn P e) : Safe P C L (Outcome.Sound P) (do
      match ← evalAwaiting call .discard e with
      | .value _ => return .completed
      | .suspended k => return .suspended k) := by
    refine (evalAwaiting_safe h .discard he).bind fun a _ => ?_
    cases a <;> exact .pure trivial
  cases e with
  | assign op x e line =>
    cases e with
    | await e awaitLine =>
      refine asyncFrame?_safe.bind fun frame hframe => ?_
      cases frame with
      | some frame =>
        have hawait : CodeIn P (Expr.await e awaitLine) := he.plain rfl
        exact (eval_safe h .operand e hawait.operand).bind fun _ hv =>
          (suspend_safe _ (hframe frame rfl) hv).bind fun _ _ => .pure trivial
      | none => exact (eval_safe h .elsewhere _ he).bind fun _ _ => .pure trivial
    | _ => exact hplain he
  | _ => exact hplain he

theorem execDeclarators_safe (kind : DeclKind) {line : Nat} (hline : P line)
    {decls : List Declarator} (hdecls : CodeIn P decls) :
    Safe P C L (Outcome.Sound P) (execDeclarators call kind line decls) := by
  induction decls with
  | nil => exact .pure trivial
  | cons d rest ih =>
    obtain ⟨x, init⟩ := d
    obtain ⟨hinit, hrest⟩ := each_cons.1 hdecls
    cases init with
    | none =>
      exact (declareVariable_safe (v := .undefined) x trivial).bind fun _ _ => ih hrest
    | some e =>
      refine (evalAwaiting_safe h (.declare x) (each_cons.1 hinit).1).bind fun a ha => ?_
      cases a with
      | value v => exact (declareVariable_safe x ha).bind fun _ _ => ih hrest
      | suspended k =>
        have hrest : CodeIn P [Stmt.declare kind rest line] := codeIn_stmt hline hrest
        refine .ite ?_ (.pure trivial)
        exact (defer_safe k hrest).bind fun _ _ => .pure trivial

omit h in
theorem discard_safe {R : α → Prop} {act : Run α} (h : Safe P C L R act) :
    Safe P C L Any (discard act) :=
  h.map _ fun _ _ => trivial

theorem execInit_safe {init : LoopInit} (hinit : CodeIn P init) :
    Safe P C L Any (execInit call init) := by
  cases init with
  | nothing => exact .pure trivial
  | declare kind decls line =>
    have hinit : CodeIn P (Stmt.declare kind decls line) := hinit
    exact discard_safe (execDeclarators_safe h kind hinit.stmt.1 hinit.stmt.2)
  | expr e => exact discard_safe (eval_safe h .elsewhere e hinit)

theorem execReturn_safe {e : Option Expr} (he : CodeIn P e) :
    Safe P C L (Outcome.Sound P) (execReturn call e) := by
  cases e with
  | none => exact .pure trivial
  | some e =>
    refine (evalAwaiting_safe h .ret (each_cons.1 he).1).bind fun a ha => ?_
    cases a with
    | value v => exact .pure ha
    | suspended k => exact .pure trivial

omit h in
theorem iterate_safe (line : Nat) {test : Run Bool} {body : Run Outcome} {step : Run Unit}
    {residue : List Stmt} (htest : Safe P C L Any test)
    (hbody : Safe P C L (Outcome.Sound P) body) (hstep : Safe P C L Any step)
    (hresidue : CodeIn P residue) (rounds : Nat) :
    Safe P C L (Outcome.Sound P) (iterate line test body step residue rounds) := by
  induction rounds with
  | zero =>
    refine htest.bind fun more _ => .ite ?_ (.pure trivial)
    exact (warn_safe _).bind fun _ _ => .pure trivial
  | succ rounds ih =>
    refine htest.bind fun more _ => .ite ?_ (.pure trivial)
    refine hbody.bind fun outcome houtcome => ?_
    cases outcome with
    | completed => exact hstep.bind fun _ _ => ih
    | returned v => exact .pure houtcome
    | suspended k => exact (defer_safe k hresidue).bind fun _ _ => .pure trivial

omit h in
theorem loopResidue_code {condition update : Option Expr} {body : Block} {line : Nat}
    (hcondition : CodeIn P condition) (hupdate : CodeIn P update)
    (hbody : CodeIn P body) (hline : P line) :
    CodeIn P (loopResidue condition update body line) := by
  refine each_append.2 ⟨?_, ?_⟩
  · cases update with
    | none => exact each_nil
    | some e => exact codeIn_stmt hline (each_cons.1 hupdate).1
  · have hrest := List.forall_mem_append.2 ⟨hcondition, List.forall_mem_append.2 ⟨hupdate, hbody⟩⟩
    exact codeIn_stmt hline (List.forall_mem_append.2 ⟨by simp [nodes], hrest⟩)

theorem loopTest_safe {condition : Option Expr} (hcondition : CodeIn P condition) :
    Safe P C L Any (loopTest call condition) := by
  cases condition with
  | none => exact .pure trivial
  | some e =>
    exact (eval_safe h .elsewhere e (each_cons.1 hcondition).1).bind fun _ _ => .pure trivial

theorem loopStep_safe (init : LoopInit) {update : Option Expr} (hupdate : CodeIn P update) :
    Safe P (· ≠ Scope.global) L Any (loopStep call init update) := by
  have hlast : Safe P (· ≠ Scope.global) L Any (loopUpdate call update) := by
    cases update with
    | none => exact .pure trivial
    | some e => exact discard_safe (eval_safe h .elsewhere e (each_cons.1 hupdate).1)
  exact .ite (renewScope_safe.bind fun _ _ => hlast) hlast

omit h in
mutual

theorem exec_safe (h : CallsSafe P L call) : (s : Stmt) → CodeIn P s →
      ∀ {C : Scope → Prop}, Safe P C L (Outcome.Sound P) (exec call s)
  | .expr _ _, hs => execExpr_safe h hs.stmt.2
  | .declare kind _ _, hs => execDeclarators_safe h kind hs.stmt.1 hs.stmt.2
  | .function name params _ isAsync line, hs =>
    (bindFunction_safe name params isAsync hs.stmt.2 hs.stmt.1).bind fun _ _ =>
      (emit_safe fun _ hlines => Step.glance_legible (hlines line hs.stmt.1)).bind fun _ _ =>
        .note_bind _ _ (.pure trivial)
  | .block b, hs => execBlock_safe h b hs
  | .branch condition body otherwise _, hs => by
    obtain ⟨hcondition, hrest⟩ := List.forall_mem_append.1 hs.stmt.2
    obtain ⟨hbody, hother⟩ := List.forall_mem_append.1 hrest
    refine (eval_safe h .elsewhere condition hcondition).bind fun v _ => ?_
    exact (tell_safe _).bind fun _ _ =>
      .ite (execBlock_safe h body hbody) (execOptional_safe h otherwise hother)
  | .loop init _ _ body line, hs => by
    obtain ⟨hinit, hrest⟩ := List.forall_mem_append.1 hs.stmt.2
    obtain ⟨hcondition, hrest⟩ := List.forall_mem_append.1 hrest
    obtain ⟨hupdate, hbody⟩ := List.forall_mem_append.1 hrest
    exact nested_safe ((execInit_safe h hinit).bind fun _ _ =>
      iterate_safe line (loopTest_safe h hcondition) (execBlock_safe h body hbody)
        (loopStep_safe h init hupdate) (loopResidue_code hcondition hupdate hbody hs.stmt.1) _)
  | .ret _ _, hs => execReturn_safe h hs.stmt.2

theorem execOptional_safe (h : CallsSafe P L call) : (s : Option Stmt) → CodeIn P s →
      ∀ {C : Scope → Prop}, Safe P C L (Outcome.Sound P) (execOptional call s)
  | none, _ => .pure trivial
  | some s, hs => exec_safe h s (each_cons.1 hs).1

theorem execBlock_safe (h : CallsSafe P L call) : (b : Block) → CodeIn P b →
      ∀ {C : Scope → Prop}, Safe P C L (Outcome.Sound P) (execBlock call b)
  | .mk stmts line, hb =>
    nested_safe (execAll_safe h stmts (Each.stmt (s := .block (.mk stmts line)) hb).2)

theorem execAll_safe (h : CallsSafe P L call) : (stmts : List Stmt) → CodeIn P stmts →
      ∀ {C : Scope → Prop}, Safe P C L (Outcome.Sound P) (execAll call stmts)
  | [], _ => .pure trivial
  | s :: rest, hstmts => by
    obtain ⟨hs, hrest⟩ := each_cons.1 hstmts
    refine (exec_safe h s hs).bind fun outcome houtcome => ?_
    cases outcome with
    | completed => exact execAll_safe h rest hrest
    | returned v => exact .pure houtcome
    | suspended k => exact (defer_safe k hrest).bind fun _ _ => .pure trivial

end

/-! ## Calls -/

omit h in
theorem bindParams_sound (params : List String) {bindings : Bindings}
    (hargs : ∀ v ∈ args, v.Sound P) (hb : ∀ p ∈ bindings, p.2.Sound P) :
    ∀ p ∈ bindParams params args bindings, p.2.Sound P := by
  induction params generalizing args bindings with
  | nil => exact hb
  | cons x params ih =>
    cases args with
    | nil => exact ih hargs (forall_mem_insert (Q := Value.Sound P) hb trivial)
    | cons v args =>
      rw [List.forall_mem_cons] at hargs
      exact ih hargs.2 (forall_mem_insert hb hargs.1)

theorem runBody_safe {body : Body} (hbody : CodeIn P body) :
    Safe P C L (Outcome.Sound P) (runBody call body) := by
  cases body with
  | value e => exact (eval_safe h .elsewhere e hbody).bind fun _ hv => .pure hv
  | block b =>
    have hb : CodeIn P (Stmt.block b) := hbody
    exact (hoist_safe hb.stmt.2).bind fun _ _ => execAll_safe h _ hb.stmt.2

omit h in
theorem finish_safe (promise : Option Nat) {outcome : Outcome} (h : outcome.Sound P) :
    Safe P C L Any (finish promise outcome) := by
  cases promise with
  | none => exact .pure trivial
  | some id =>
    have hsettle : Safe P C L Any (do
        settle id .fulfilled (← settledValue outcome.value)) :=
      (settledValue_safe h.value).bind fun _ hv => settle_safe id _ hv
    cases outcome with
    | suspended k => exact .pure trivial
    | _ => exact hsettle

omit h in
theorem callPromise_safe (f : Function) : Safe P C L Any (callPromise f) :=
  .ite ((newPromise_safe (v := .undefined) _ trivial).map _ fun _ _ => trivial) (.pure trivial)

theorem runCall_safe {f : Function} (hf : f.Sound P)
    (hargs : ∀ v ∈ args, v.Sound P) : Safe P C L (fun r => r.2.Sound P) (runCall call f args) := by
  refine (newScope_safe f.scope (bindParams_sound f.params hargs (by simp))).bind ?_
  rintro _ ⟨id, -, rfl⟩
  refine (callPromise_safe f).bind fun promise _ => ?_
  refine (inFrame_safe (D := Any) (hf.scope.trans (List.suffix_cons id _)) trivial ⟨f, promise⟩
    hf.scope (runBody_safe h hf.body)).bind fun outcome ho => ?_
  exact .pure ho

end

theorem callValue_sound (promise : Option Nat) {outcome : Outcome} (h : outcome.Sound P) :
    (callValue promise outcome).Sound P := by
  cases promise with
  | none => exact h.value
  | some id => trivial

theorem invoke_safe (depth : Nat) : CallsSafe P L (invoke depth) := by
  have hstart {C : Scope → Prop} {line : Nat} (hline : P line) (label : String) :
      Safe P C L Any (emitAll [.highlight line, .push label]) := by
    refine emitAll_safe fun _ hlines => ?_
    simp only [List.forall_mem_cons]
    exact ⟨Step.highlight_legible (hlines line hline), Step.push_legible label, by simp⟩
  induction depth with
  | zero =>
    intro C f args label line hf hargs hline
    rw [invoke]
    exact (hstart hline label).bind fun _ _ => .note_bind _ _ (.throw _)
  | succ depth ih =>
    intro C f args label line hf hargs hline
    rw [invoke]
    refine (hstart hline label).bind fun _ _ => .note_bind _ _ ?_
    refine (runCall_safe ih hf hargs).bind fun r hr => ?_
    refine (emit_safe fun _ _ => Step.pop_legible).bind fun _ _ => ?_
    exact (finish_safe r.1 hr).bind fun _ _ => .pure (callValue_sound r.1 hr)

theorem withCalls_safe {R : α → Prop} {act : Invoke → Run α}
    (h : ∀ call, CallsSafe P L call → Safe P C L R (act call)) : Safe P C L R (withCalls act) :=
  .get_bind (fun _ _ => rfl) fun _ _ => h _ (invoke_safe _)

/-! ## Callbacks and suspended functions -/

theorem resolveCallback_safe {scope : Scope} (hscope : Scope.global <:+ scope) (he : CodeIn P e) :
    Safe P C L (fun f => ∀ f' ∈ f, f'.Sound P) (resolveCallback e scope) := by
  unfold resolveCallback
  split
  · refine (newFunction_safe _ _ _ (he.plain rfl) he.line hscope).bind fun f hf => .pure ?_
    rintro f' ⟨⟩
    exact hf
  · refine (inScope_safe (D := Any) hscope trivial
      (withCalls_safe fun call hcall => eval_safe hcall .elsewhere e he)).bind fun v hv => ?_
    cases v with
    | function f =>
      refine .pure ?_
      rintro f' ⟨⟩
      exact hv
    | _ => exact .pure (by simp)

theorem callBack_safe {f : Function} (label : String) (hf : f.Sound P)
    (hargs : ∀ v ∈ args, v.Sound P) : Safe P C L (Value.Sound P) (callBack f args label) :=
  withCalls_safe fun _ hcall => hcall f args label f.line hf hargs hf.line

theorem runCallback_safe (hcb : cb.Sound P) : Safe P C L Any (runCallback cb) := by
  have hcode := hcb.callback
  rw [runCallback]
  cases hcallback : cb.callback with
  | none => exact Safe.bind (R := Any) (.pure trivial) fun _ _ => .note _ _
  | some e =>
    rw [hcallback] at hcode
    refine (resolveCallback_safe hcb.scope (each_cons.1 hcode).1).bind fun f hf => ?_
    cases f with
    | none => exact .note _ _
    | some f => exact discard_safe (callBack_safe _ (hf f rfl) (by simp))

theorem callLink_safe (name : String) {scope : Scope} (l : Link) {callback : Option Expr}
    (hscope : Scope.global <:+ scope) (hcallback : CodeIn P callback) (hv : v.Sound P) :
    Safe P C L (fun r => ∀ v ∈ r, v.Sound P) (callLink name scope l callback v) := by
  cases callback with
  | none => exact .pure (by simp)
  | some e =>
    refine (resolveCallback_safe hscope (each_cons.1 hcallback).1).bind fun f hf => ?_
    cases f with
    | none => exact .note_bind _ _ (.pure (by simp))
    | some f =>
      have hargs : ∀ a ∈ l.arguments v, a.Sound P := by cases l <;> simp [Link.arguments, hv]
      exact (callBack_safe _ (hf f rfl) hargs).bind fun result hresult => .pure (by simpa)

theorem runLink_safe (name : String) {scope : Scope} (l : Link) {callback : Option Expr}
    (state : PromiseState) (hscope : Scope.global <:+ scope) (hcallback : CodeIn P callback)
    (hv : v.Sound P) :
    Safe P C L (fun r => r.2.Sound P) (runLink name scope l callback state v) := by
  refine (callLink_safe name l hscope hcallback hv).bind fun result hresult => ?_
  cases result with
  | none => exact .pure hv
  | some result =>
    refine (settledValue_safe (hresult result rfl)).bind fun _ hsettled => .pure ?_
    cases l <;> assumption

theorem receive_safe (target : Target) (hv : v.Sound P) :
    Safe P C L (Outcome.Sound P) (receive target v) := by
  cases target with
  | discard => exact .pure trivial
  | declare x => exact (declare_safe x hv).bind fun _ _ => .pure trivial
  | assign x op =>
    exact (assigned_safe op x hv).bind fun _ hv => (assign_safe x hv).bind fun _ _ =>
      .pure trivial
  | ret => exact .pure hv

theorem runRest_safe {k : Continuation} (hk : CodeIn P k.statements) (hv : v.Sound P) :
    Safe P C L (Outcome.Sound P) (runRest k v) := by
  refine (receive_safe k.target hv).bind fun outcome houtcome => ?_
  cases outcome with
  | completed => exact withCalls_safe fun _ hcall => execAll_safe hcall _ hk
  | _ => exact .pure houtcome

/-- A suspended function may fail before it is back in its scope, and is then left there. -/
theorem resume_safe {k : Continuation} (state : PromiseState) (hk : k.Sound P) (hv : v.Sound P) :
    Safe P Any L Any (resume k state v) := by
  rw [resume]
  refine .ite ?_ ?_
  · refine .note_bind _ _ ?_
    cases k.promise with
    | some id => exact settle_safe id _ hv
    | none => exact .pure trivial
  · show Safe P Any L Any (do
      let here ← modifyGet fun m : Machine => ((m.scope, m.frames),
        { m with scope := k.scope, frames := ⟨k.function, k.promise⟩ :: m.frames })
      emit (.push (k.function.name ++ "()"))
      let outcome ← restoring here.1 here.2 do runRest k (← settledValue v)
      emit .pop
      finish k.promise outcome)
    -- what is kept until the function is left again is where the state was before
    refine Safe.bind (R := fun here => Scope.global <:+ here.1 ∧ ∀ frame ∈ here.2,
      Scope.global <:+ frame.function.scope) (.modifyGet (fun _ _ => rfl)
      (fun _ _ h => { h with }) (fun _ => rfl) fun m hm => ⟨?_, hm.scope, hm.frames⟩)
      fun here hhere => ?_
    · exact { hm with
        scope := hk.scope
        frames := List.forall_mem_cons.2 ⟨hk.function, hm.frames⟩ }
    refine (emit_safe fun _ _ => Step.push_legible _).bind fun _ _ => ?_
    have hrest := (settledValue_safe (C := Any) (L := L) hv).bind fun _ hv =>
      runRest_safe hk.statements hv
    refine Safe.bind (hrest.within id (fun _ => here.1) (fun _ => here.2)
      (fun _ _ => ⟨rfl, rfl, rfl⟩) (fun _ h => h) (fun _ => rfl) (fun _ hm => hm)
      fun _ _ => ⟨hhere.1, trivial, hhere.2⟩) fun outcome houtcome => ?_
    exact (emit_safe fun _ _ => Step.pop_legible).bind fun _ _ => finish_safe k.promise houtcome

theorem continuationOf_safe (id : Nat) :
    Safe P C L (Continuation.Sound P) (continuationOf id) := by
  refine .get_bind (fun _ _ => rfl) fun m hm => .pure (getD_of_forall_mem hm.continuations ?_ id)
  exact ⟨each_nil, List.suffix_refl _, List.suffix_refl _⟩

theorem runMicrotask_safe (ht : t.Sound P) :
    Safe P Any L Any (runMicrotask t) := by
  rw [runMicrotask]
  split
  · exact .pure trivial
  · exact (continuationOf_safe _).bind fun k hk => resume_safe t.state hk ht.value
  next l callback derived hreaction =>
    have hcallback : CodeIn P callback := ht.reaction _ hreaction
    refine (runLink_safe t.name l t.state ht.scope hcallback ht.value).bind fun r hr => ?_
    exact settle_safe derived r.1 hr

/-! ## Turns -/

theorem numbered_id {m : Machine} {i : Nat} (h : m.Numbered) (ht : m.microtasks[i]? = some t) :
    t.id = i + 1 := by
  have hid : (m.microtasks.toList.map (·.id))[i]? = some t.id := by simp [ht]
  rw [h] at hid
  obtain ⟨hlt, hid⟩ := List.getElem?_eq_some_iff.1 hid
  rw [← hid, List.getElem_range', Nat.one_mul, Nat.add_comm]

theorem shown_taken {m : Machine} (hm : m.Shown P) (ht : m.microtasks[m.cursor]? = some t)
    (hroom : m.Room 2) : (m.taken.emitted t.steps).Shown P := by
  have hid : readable t.id = true := by
    have hcursor := hm.cursor
    have hsize : m.steps.size + 0 ≤ m.steps.limit := hm.room
    rw [numbered_id hm.numbered ht]
    exact readable_of_le hm.limit (by omega)
  have hlegible : ∀ s ∈ t.steps, s.Legible := by
    simp only [Microtask.steps, List.forall_mem_cons]
    exact ⟨Step.enqueue_legible (by decide) hid _, Step.dequeue_legible (by decide) hid, by simp⟩
  have hshown := hm.emitted hlegible hroom
  exact { hshown with
    cursor := by
      show m.cursor + 1 ≤ (m.emitted t.steps).steps.size
      rw [Machine.size_emitted]
      exact Nat.add_le_add hm.cursor (Nat.succ_le_succ (Nat.zero_le 1)) }

theorem takeMicrotask_safe :
    Safe P C { L with legible := False } (fun o => ∀ t ∈ o, t.Sound P) takeMicrotask where
  sound {m} hm := by
    rw [takeMicrotask_apply]
    cases m.microtasks[m.cursor]? with
    | none => exact hm
    | some t => exact { hm with }
  ok {m a m'} hm hact := by
    rw [takeMicrotask_apply] at hact
    refine ⟨fun t ht => ?_, False.elim⟩
    cases hnext : m.microtasks[m.cursor]? with
    | none =>
      rw [hnext] at hact
      cases hact
      cases ht
    | some t' =>
      rw [hnext] at hact
      cases hact
      cases ht
      exact hm.microtasks t (Array.mem_of_getElem? hnext)
  blind {m registry} _ _ := by
    refine ⟨registry, ?_⟩
    rw [takeMicrotask_apply, takeMicrotask_apply]
    cases m.microtasks[m.cursor]? <;> rfl
  traced _ {m} _ := by
    refine ⟨[], [], .of_watched ?_⟩
    rw [takeMicrotask_apply]
    cases m.microtasks[m.cursor]? <;> rfl

/-- The turns of microtasks are safe, by induction on the budget. -/
theorem microtaskTurns_safe (budget : Nat) :
    Safe P Any L Any (microtaskTurns budget) := by
  induction budget generalizing L with
  | zero =>
    have hparts : Safe P Any { L with legible := False } Any (microtaskTurns 0) :=
      takeMicrotask_safe.bind fun _ _ => .ite (.throw _) (.pure trivial)
    refine { hparts with ok := fun {m a m'} hm hact => ⟨trivial, fun _ hshown => ?_⟩ }
    obtain ⟨-, rfl⟩ | ⟨_, _, _, _, hn, _⟩ := microtaskTurns_inv hact
    · exact hshown
    · cases hn
  | succ budget ih =>
    have hturn {L : Level} {t : Microtask} (ht : t.Sound P) :
        Safe P Any L Any (do
          runMicrotask t
          microtaskTurns budget) :=
      (runMicrotask_safe ht).bind fun _ _ => ih
    have hparts : Safe P Any { L with legible := False } Any (microtaskTurns (budget + 1)) := by
      refine takeMicrotask_safe.bind fun o ho => ?_
      cases o with
      | none => exact .pure trivial
      | some t => exact (emitAll_safe False.elim).bind fun _ _ => hturn (ho t rfl)
    refine { hparts with ok := fun {m a m'} hm hact => ⟨trivial, fun hL hshown => ?_⟩ }
    obtain ⟨-, rfl⟩ | ⟨_, t, log, m1, ⟨⟩, ht, hroom, -, hrun, hrest⟩ := microtaskTurns_inv hact
    · exact hshown
    · have hm2 : Machine.Sound P Any ((m.taken.emitted t.steps).logged log) := { hm with }
      refine ((hturn (hm.microtasks t (Array.mem_of_getElem? ht))).ok hm2
        ((bind_of_ok hrun _).trans hrest)).2 hL ?_
      exact { shown_taken hshown ht hroom with }

theorem drainMicrotasks_safe : Safe P Any L Any drainMicrotasks :=
  .get_bind (fun _ _ => rfl) fun _ _ => microtaskTurns_safe _

theorem takeCallback_safe (id : Nat) : Safe P C L Any (takeCallback id) :=
  .get_bind (fun _ _ => rfl) fun _ _ => .ite (.throw _) (.modify (fun _ _ => rfl)
    (fun _ _ hm => shown_dropped hm id) (fun _ => rfl) fun _ hm => sound_dropped hm id)

theorem frameTurn_safe (hcb : cb.Sound P) (hid : L → readable cb.id = true) :
    Safe P Any L Any (frameTurn cb) := by
  refine (takeCallback_safe cb.id).bind fun _ _ => (emitAll_safe fun hL _ => ?_).bind fun _ _ => ?_
  · exact Step.passage_legible (by decide) (by decide) (by decide) (hid hL) _
  · exact (runCallback_safe hcb).bind fun _ _ => drainMicrotasks_safe

theorem frameTurns_safe {cbs : List Callback} (hcbs : ∀ cb ∈ cbs, cb.Sound P)
    (hids : L → ∀ cb ∈ cbs, readable cb.id = true) :
    Safe P Any L Any (frameTurns cbs) := by
  induction cbs with
  | nil => exact .pure trivial
  | cons cb rest ih =>
    simp only [List.forall_mem_cons] at hcbs hids
    exact (frameTurn_safe hcbs.1 fun hL => (hids hL).1).bind fun _ _ =>
      ih hcbs.2 fun hL => (hids hL).2

theorem drainFrames_safe : Safe P Any L Any drainFrames :=
  .look (fun _ _ => rfl) fun _ hm =>
    frameTurns_safe (fun cb hcb => hm.callbacks cb (List.mem_of_mem_filter hcb))
      fun hL cb hcb => hL.2.ids cb (List.mem_of_mem_filter hcb)

theorem timerTurn_safe (hcb : cb.Sound P) (hid : L → readable cb.id = true) :
    Safe P Any L Any (timerTurn cb) := by
  have htake : Safe P Any L Any (takeTimer cb) :=
    .modify (fun _ _ => rfl) (fun _ _ hm => { shown_dropped hm cb.id with }) (fun _ => rfl)
      fun _ hm => { sound_dropped hm cb.id with }
  refine htake.bind fun _ _ => (tell_safe _).bind fun _ _ => ?_
  refine (emitAll_safe fun hL _ => ?_).bind fun _ _ => ?_
  · exact Step.passage_legible (by decide) (by decide) (by decide) (hid hL) _
  · exact (runCallback_safe hcb).bind fun _ _ => drainMicrotasks_safe

theorem timerTurns_safe (fuel : Nat) : Safe P Any L Any (timerTurns fuel) := by
  induction fuel with
  | zero => exact .pure trivial
  | succ fuel ih =>
    refine .look (fun _ _ => rfl) fun m hm => ?_
    cases hnext : nextTimer m.callbacks with
    | none => exact .pure trivial
    | some cb =>
      have hcb := (nextTimer_some hnext).1
      have hid (hL : L ∧ m.Shown P) : readable cb.id = true := hL.2.ids cb hcb
      refine (timerTurn_safe (hm.callbacks cb hcb) hid).bind fun _ _ => ?_
      exact drainFrames_safe.bind fun _ _ => ih.imp And.left id

theorem drainTimers_safe : Safe P Any L Any drainTimers :=
  .get_bind (fun _ _ => rfl) fun _ _ => timerTurns_safe _

/-! ## Programs -/

theorem runProgram_safe {p : Program} (hp : CodeIn P p.body) :
    Safe P Any L (Outcome.Sound P) (runProgram p) :=
  (hoist_safe hp).bind fun _ _ => withCalls_safe fun _ hcall => execAll_safe hcall _ hp

theorem generate_safe (h : ∀ p, readProgram source = .ok p → CodeIn P p.body) :
    Safe P Any L Any (generate source) := by
  have hwalk : Safe P Any L (Outcome.Sound P) (walkSource source) := by
    refine .note_bind _ _ ((Safe.lift h).bind fun p hp => .note_bind _ _ ?_)
    exact runProgram_safe hp
  have hsource : Safe P Any L Any (runSource source) :=
    hwalk.bind fun _ _ => .note_bind _ _ drainMicrotasks_safe
  refine hsource.bind fun _ _ => .note_bind _ _ (drainFrames_safe.bind fun _ _ => ?_)
  exact .note_bind _ _ (drainTimers_safe.bind fun _ _ => .note _ _)

end Run

namespace Machine

theorem sound_start (limit : Nat) (log : Log) : (Machine.start limit log).Sound P Any where
  bindings := by simp [Machine.start]
  arrays := by simp [Machine.start]
  promises := by simp [Machine.start]
  continuations := by simp [Machine.start]
  microtasks := by simp [Machine.start]
  callbacks := by simp [Machine.start]
  frames := by simp [Machine.start]
  global := Nat.one_pos
  registry := by simp [Machine.start, Tables.Lists]
  scope := List.suffix_refl _
  place := trivial

theorem shown_start {limit : Nat} (log : Log) (hlines : ∀ n, P n → readable n = true)
    (hlimit : readable (limit + 1) = true) : (Machine.start limit log).Shown P where
  lines := hlines
  ids := by simp [Machine.start]
  steps := by simp [Machine.start, StepSequence.toList]
  numbered := rfl
  timerCount := Nat.le_refl 0
  cursor := Nat.le_refl 0
  room := Nat.zero_le _
  limit := hlimit

end Machine

/-- A program that is read is on the lines of its source, which has no more of them than it may have
    characters. -/
theorem readProgram_lines {p : Program} (h : readProgram source = .ok p) :
    ∃ last ≤ maxSourceLength + 1, CodeIn ⟨IsLine last, fun _ _ => True⟩ p.body := by
  cases source with
  | none => cases h
  | some source =>
    rw [readProgram] at h
    split at h
    · cases h
    split at h
    · cases h
    next hlength =>
      split at h
      next p' hparse =>
        cases h
        have hlines := parse?_lines hparse
        refine ⟨lineCount source, ?_, fun n hn _ _ hreaches => ⟨?_, fun _ _ => trivial⟩⟩
        swap
        · obtain ⟨hline, -⟩ := Node.All.reaches hreaches (hlines n hn)
          exact hline
        have hbreaks : lineBreaks source.toList ≤ source.toList.length := List.count_le_length
        rw [String.length_toList] at hbreaks
        unfold lineCount
        omega
      next => cases h

/-- Every step of a program whose generation succeeds can be written to a file and read back. -/
theorem Generator.generate_legible {g : Generator} (hlimit : readable (g.limit + 1) = true)
    (h : (g.generate source).1.succeeded = true) :
    ∀ s ∈ (g.generate source).1.steps, s.Legible := by
  obtain ⟨m, -, hrun, hsteps, -, -⟩ := Generator.generate_succeeded h
  obtain ⟨P, hlines, hsafe⟩ : ∃ P : Region, (∀ n, P n → readable n = true) ∧
      Run.Safe P Any ⟨True, False⟩ Any (Run.generate source) := by
    cases hread : readProgram source with
    | error fault =>
      refine ⟨⟨fun _ => False, fun _ _ => False⟩, fun _ hn => hn.elim,
        Run.generate_safe fun p hp => ?_⟩
      rw [hread] at hp
      cases hp
    | ok p =>
      obtain ⟨last, hlast, hp⟩ := readProgram_lines hread
      refine ⟨⟨IsLine last, fun _ _ => True⟩, fun n hn => ?_, Run.generate_safe fun p' hp' => ?_⟩
      · exact Step.readable_small (Nat.le_trans hn.2 (Nat.le_trans hlast (by decide)))
      · rw [hread] at hp'
        cases hp'
        exact hp
  have hshown := (hsafe.ok (Machine.sound_start _ _) hrun).2 trivial
    (Machine.shown_start g.machine.log hlines hlimit)
  rw [hsteps]
  exact hshown.steps

end EventLoop
