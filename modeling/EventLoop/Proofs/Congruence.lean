/-
  Relations between actions that follow the way in which code is put together.

  Many properties of evaluated code are proved along the program text: it is enough that the parts
  have the property, and that it is kept when they are put one after the other.  Here that part is
  done once.  `Run.Congruence` lists what a relation must satisfy for expressions, and
  `Run.StmtCongruence` what is needed beyond that for statements.  Then an expression or a statement
  is related to itself, with two ways to call functions that are related.  A property of one action
  is a relation that leaves the other one out.
-/
import EventLoop.Machine.Reaction

namespace EventLoop

open Script

universe u

variable {α β : Type}

namespace Run

/-! ## Expressions -/

/-- A relation that is kept when actions are put together, and in which the actions from which
    expressions without calls are put together are related to themselves. -/
structure CallFreeCongruence (R : {α : Type} → Run α → Run α → Sort u) : Sort (max 2 u) where
  pure : ∀ {α : Type} (a : α), R (pure a) (pure a)
  bind : ∀ {α β : Type} {act act' : Run α} {f f' : α → Run β}, R act act' →
    (∀ a, R (f a) (f' a)) → R (act >>= f) (act' >>= f')
  note : ∀ level line, R (note level line) (note level line)
  lookup : ∀ x, R (lookup x) (lookup x)
  isBound : ∀ x, R (isBound x) (isBound x)
  textOf : ∀ v, R (textOf v) (textOf v)
  tell : ∀ msg, R (tell msg) (tell msg)
  /-- The operators that may skip an operand are never applied. -/
  applyOp : ∀ {op}, op ≠ .or → op ≠ .and → ∀ a b, R (applyOp op a b) (applyOp op a b)
  increment : ∀ n : Number, R (lift (n.add (.int 1))) (lift (n.add (.int 1)))
  decrement : ∀ n : Number, R (lift (n.sub (.int 1))) (lift (n.sub (.int 1)))
  assign : ∀ x v, R (assign x v) (assign x v)
  itemsOf : ∀ id, R (itemsOf id) (itemsOf id)
  newArray : ∀ items, R (newArray items) (newArray items)
  settledValue : ∀ v, R (settledValue v) (settledValue v)
  /-- A function is made in the current scope. -/
  close : ∀ name params body isAsync line,
    R (do return Value.function (← newFunction name params body isAsync line (← get).scope))
      (do return .function (← newFunction name params body isAsync line (← get).scope))
  callLabel : ∀ name args, R (lift (callLabel name args)) (lift (callLabel name args))

/-- What is needed for all expressions: built-in calls, too, are related to themselves. -/
structure Congruence (R : {α : Type} → Run α → Run α → Sort u) : Sort (max 2 u)
    extends CallFreeCongruence R where
  registerTimer : ∀ kind args line, R (registerTimer kind args line) (registerTimer kind args line)
  clearTimer : ∀ name args line v, R (clearTimer name args line v) (clearTimer name args line v)
  consoleLine : ∀ method message line,
    R (consoleLine method message line) (consoleLine method message line)
  makePromise : ∀ maker consumed vs line,
    R (makePromise maker consumed vs line) (makePromise maker consumed vs line)
  addLink : ∀ l callee callback receiver line,
    R (addLink l callee callback receiver line) (addLink l callee callback receiver line)
  callMethod : ∀ callee method receiver args line,
    R (callMethod callee method receiver args line) (callMethod callee method receiver args line)
  unrecognized : ∀ callee line, R (unrecognized callee line) (unrecognized callee line)

/-- Two ways to call functions of which every call is related. -/
def CallsRelated (R : {α : Type} → Run α → Run α → Sort u) (call call' : Invoke) :
    Sort (imax 1 u) :=
  ∀ f args label line, R (call f args label line) (call' f args label line)

variable {R : {α : Type} → Run α → Run α → Sort u} {call call' : Invoke}

def ite_congr {p : Prop} [Decidable p] {act1 act1' act2 act2' : Run α} (h1 : R act1 act1')
    (h2 : R act2 act2') : R (if p then act1 else act2) (if p then act1' else act2') := by
  split
  · exact h1
  · exact h2

def assigned_congr (h : CallFreeCongruence R) (op : AssignOp) (x : String) (v : Value) :
    R (assigned op x v) (assigned op x v) := by
  unfold assigned
  cases op with
  | set => exact h.pure v
  | _ => exact h.bind (h.lookup x) fun a => h.applyOp (by decide) (by decide) a v

def hoist_congr (h : CallFreeCongruence R) (hbind : ∀ name params body isAsync line,
      R (bindFunction name params body isAsync line) (bindFunction name params body isAsync line)) :
    (stmts : List Stmt) → R (hoist stmts) (hoist stmts)
  | [] => h.pure ()
  | .function name params body isAsync line :: rest =>
    h.bind (hbind name params body isAsync line) fun _ => hoist_congr h hbind rest
  | .expr .. :: rest | .declare .. :: rest | .block .. :: rest | .branch .. :: rest
  | .loop .. :: rest | .ret .. :: rest => hoist_congr h hbind rest

/-- The end of a call that makes a promise: a settled one is marked by a microtask of its own, unless
    it is consumed. -/
def announce (name : String) (consumed : Bool) (id : Nat) : Run Value := do
  let p ← promiseOf id
  modify fun m => { m with rootState := p.state }
  if !consumed && p.state ≠ .pending then
    enqueue name (← get).scope none p.state p.value
  return .promise id

/-- What is needed to make promises. -/
structure MakerCongruence (R : {α : Type} → Run α → Run α → Sort u) : Sort (max 2 u)
    extends CallFreeCongruence R where
  newPromise : ∀ state v, R (newPromise state v) (newPromise state v)
  rejection : ∀ vs, R (rejection? vs) (rejection? vs)

namespace MakerCongruence

variable (h : MakerCongruence R)

include h

def settledValues : (vs : List Value) → R (vs.mapM Run.settledValue) (vs.mapM Run.settledValue)
  | [] => h.pure []
  | v :: rest => by
    rw [List.mapM_cons]
    exact h.bind (h.settledValue v) fun _ => h.bind (settledValues rest) fun _ => h.pure _

def combine (v : Value) : R (combine v) (combine v) := by
  cases v with
  | array id =>
    refine h.bind (h.itemsOf id) fun items => h.bind (h.rejection items.toList) fun found => ?_
    cases found with
    | some v => exact h.newPromise .rejected v
    | none =>
      exact h.bind (h.settledValues items.toList) fun vs => h.bind (h.newArray vs) fun all =>
        h.newPromise .fulfilled all
  | _ => exact h.bind (h.newArray []) fun all => h.newPromise .fulfilled all

def made (maker : Maker) (first : Value) : R (made maker first) (made maker first) := by
  cases maker with
  | reject => exact h.newPromise .rejected first
  | all => exact h.combine first
  | resolve =>
    cases first with
    | promise id => exact h.pure id
    | _ => exact h.newPromise .fulfilled _

end MakerCongruence

/-- A relation in which the parts of built-in calls are related to themselves. -/
structure BasicCongruence (R : {α : Type} → Run α → Run α → Sort u) : Sort (max 2 u)
    extends MakerCongruence R where
  emit : ∀ s, R (emit s) (emit s)
  declare : ∀ x v, R (declare x v) (declare x v)
  timerDelay : ∀ kind args, R (lift (timerDelay kind args)) (lift (timerDelay kind args))
  addCallback : ∀ kind callback delay line,
    R (addCallback kind callback delay line) (addCallback kind callback delay line)
  dropCallback : ∀ name v, R (dropCallback name v) (dropCallback name v)
  pushItems : ∀ id items, R (pushItems id items) (pushItems id items)
  receiverState : ∀ callee v, R (receiverState callee v) (receiverState callee v)
  attach : ∀ name l callback state v,
    R (attach name l callback state v) (attach name l callback state v)
  announce : ∀ name consumed id, R (announce name consumed id) (announce name consumed id)

namespace BasicCongruence

variable (h : BasicCongruence R)

include h

def emitAll : (l : List Step) → R (Run.emitAll l) (Run.emitAll l)
  | [] => h.pure ()
  | s :: rest => h.bind (h.emit s) fun _ => emitAll rest

def declareVariable (x : String) (v : Value) : R (declareVariable x v) (declareVariable x v) :=
  h.bind (h.declare x v) fun _ => h.tell _

def congruence : Congruence R where
  toCallFreeCongruence := h.toCallFreeCongruence
  registerTimer kind args line :=
    h.bind (h.timerDelay kind args) fun delay =>
      h.bind (h.addCallback kind args.head? delay line) fun cb =>
        h.bind (h.tell (.registered cb)) fun _ => h.pure _
  clearTimer name args line v :=
    h.bind (h.emit _) fun _ => h.bind (h.callLabel name args) fun _ => h.bind (h.emit _) fun _ =>
      h.bind (h.dropCallback name v) fun _ => h.bind (h.emit _) fun _ => h.pure _
  consoleLine _ _ _ := h.bind (h.emitAll _) fun _ => h.bind (h.note _ _) fun _ => h.pure _
  makePromise maker consumed vs _ :=
    h.bind (h.emitAll _) fun _ => h.bind (h.made maker (vs.headD .undefined)) fun id =>
      h.announce ("Promise." ++ maker.method) consumed id
  addLink l callee callback receiver _ :=
    h.bind (h.receiverState callee receiver) fun state =>
      ite_congr (h.bind (h.note _ _) fun _ => h.pure _) <|
        h.bind (h.emitAll _) fun _ => h.bind (h.attach _ l callback state receiver) fun _ => h.pure _
  callMethod callee method receiver args line := by
    have hnone : R (Run.unrecognized callee line) (Run.unrecognized callee line) :=
      h.bind (h.emit _) fun _ => h.bind (h.note _ _) fun _ => h.pure _
    cases receiver with
    | array id =>
      exact ite_congr (h.bind (h.pushItems id args) fun _ => h.bind (h.emit _) fun _ => h.pure _)
        hnone
    | _ => exact hnone
  unrecognized _ _ := h.bind (h.emit _) fun _ => h.bind (h.note _ _) fun _ => h.pure _

end BasicCongruence

section

variable (h : Congruence R) (hcall : CallsRelated R call call')

include h hcall

mutual

def eval_congr (consumed : Bool) : (e : Expr) → R (eval call consumed e) (eval call' consumed e)
  | .literal v _ => h.pure _
  | .ident x _ => h.lookup x
  | .template spans tail _ => h.bind (evalSpans_congr spans) fun _ => h.pure _
  | .array items _ => h.bind (evalAll_congr items) h.newArray
  | .binary op left right _ => by
    refine h.bind (eval_congr false left) fun a => ?_
    have hright := eval_congr false right
    cases op with
    | and => exact ite_congr hright (h.pure a)
    | or => exact ite_congr (h.pure a) hright
    | _ => exact h.bind hright fun b => h.applyOp (by decide) (by decide) a b
  | .unary op e _ => by
    refine h.bind (eval_congr false e) fun v => ?_
    cases op <;> exact h.pure _
  | .assign op x e _ =>
    h.bind (eval_congr false e) fun v =>
      h.bind (assigned_congr h.toCallFreeCongruence op x v) fun v =>
      h.bind (h.assign x v) fun _ => h.pure v
  | .update op x before _ => by
    refine h.bind (h.lookup x) fun v => ?_
    cases op with
    | increment => exact h.bind (h.increment _) fun _ => h.bind (h.assign x _) fun _ => h.pure _
    | decrement => exact h.bind (h.decrement _) fun _ => h.bind (h.assign x _) fun _ => h.pure _
  | .member target name _ => by
    refine h.bind (eval_congr false target) fun v => ite_congr ?_ (h.pure _)
    cases v with
    | array id => exact h.bind (h.itemsOf id) fun _ => h.pure _
    | _ => exact h.pure _
  | .call callee args line => by
    refine h.bind (h.note _ _) fun _ => ?_
    cases CallShape.ofCallee callee with
    | timer kind => exact h.registerTimer kind args line
    | clearTimer =>
      exact h.bind (evalFirst_congr args) fun v => h.clearTimer _ args line v
    | console =>
      exact h.bind (consoleTexts_congr args) fun _ => h.consoleLine _ _ line
    | promise maker =>
      exact h.bind (evalAll_congr args) fun vs => h.makePromise maker consumed vs line
    | link l =>
      exact h.bind (evalTarget_congr callee) fun receiver =>
        h.addLink l callee args.head? receiver line
    | userFunction =>
      refine h.bind (eval_congr false callee) fun f => ?_
      refine h.bind (evalAll_congr args) fun vs => ?_
      cases f with
      | function f => exact h.bind (h.callLabel _ _) fun label => hcall f vs label line
      | _ => exact h.unrecognized callee line
    | method =>
      refine h.bind (evalTarget_congr callee) fun receiver => ?_
      exact h.bind (evalAll_congr args) fun vs => h.callMethod callee _ receiver vs line
    | unrecognized => exact h.unrecognized callee line
  | .function params body name _ isAsync line =>
    h.close (name.getD "anonymous") params body isAsync line
  | .await e _ => h.bind (eval_congr true e) h.settledValue

def evalTarget_congr : (e : Expr) → R (evalTarget call e) (evalTarget call' e)
  | .member target _ _ => eval_congr true target
  | .literal .. | .ident .. | .template .. | .array .. | .binary .. | .unary .. | .assign ..
  | .update .. | .call .. | .function .. | .await .. => h.pure _

def evalFirst_congr : (es : List Expr) → R (evalFirst call es) (evalFirst call' es)
  | [] => h.pure _
  | e :: _ => eval_congr false e

def evalAll_congr : (es : List Expr) → R (evalAll call es) (evalAll call' es)
  | [] => h.pure _
  | e :: rest =>
    h.bind (eval_congr false e) fun _ => h.bind (evalAll_congr rest)
      fun _ => h.pure _

def evalSpans_congr : (spans : List Span) → R (evalSpans call spans) (evalSpans call' spans)
  | [] => h.pure _
  | .mk _ e :: rest =>
    h.bind (eval_congr false e) fun v => h.bind (h.textOf v) fun _ =>
      h.bind (evalSpans_congr rest) fun _ => h.pure _

def consoleTexts_congr : (es : List Expr) → R (consoleTexts call es) (consoleTexts call' es)
  | [] => h.pure _
  | e :: rest => by
    have hrest (s : String) : R (do return s :: (← consoleTexts call rest))
        (do return s :: (← consoleTexts call' rest)) :=
      h.bind (consoleTexts_congr rest) fun _ => h.pure _
    have heval := eval_congr false e
    cases e with
    | literal v line => exact h.bind (h.textOf _) hrest
    | ident x line =>
      refine h.bind (h.isBound x) fun bound => ?_
      cases bound with
      | true => exact h.bind (h.lookup x) fun v => h.bind (h.textOf v) hrest
      | false => exact h.bind (h.pure x) hrest
    | binary | unary | template => exact h.bind heval fun v => h.bind (h.textOf v) hrest
    | _ => exact h.bind (h.pure _) hrest

end

end

/-! ## Statements -/

/-- Awaits the value of an action in an async function, and does something else in any other
    place. -/
def orSuspend (act : Run Value) (target : Target) (suspended : Nat → α) (plain : Run α) : Run α := do
  match ← asyncFrame? with
  | some frame => return suspended (← suspend frame (← act) target)
  | none => plain

/-- Executes an expression as a statement, if it does not assign an `await`. -/
def execUnassigned (call : Invoke) (e : Expr) : Run Outcome := do
  match ← evalAwaiting call .discard e with
  | .value _ => return .completed
  | .suspended k => return .suspended k

/-- What is needed beyond expressions.  The ends of statements are related by `O`, what comes of
    expressions that may be awaited by `A`, and the numbers of the continuations in which both sides
    are suspended by `K`. -/
structure StmtCongruence (R : {α : Type} → Run α → Run α → Sort u) (K : Nat → Nat → Prop)
    (A : Run Awaited → Run Awaited → Sort u) (O : Run Outcome → Run Outcome → Sort u) : Sort (max 2 u)
    extends Congruence R where
  value : ∀ {act act' : Run Value}, R act act' →
    A (do return .value (← act)) (do return .value (← act'))
  await : ∀ {act act' : Run Value} {plain plain' : Run Awaited} (target : Target), R act act' →
    A plain plain' → A (orSuspend act target .suspended plain)
      (orSuspend act' target .suspended plain')
  awaitStmt : ∀ {act act' : Run Value} {plain plain' : Run Outcome} (target : Target),
    R act act' → O plain plain' → O (orSuspend act target .suspended plain)
      (orSuspend act' target .suspended plain')
  completed : O (do return .completed) (do return .completed)
  returned : ∀ v, O (do return .returned v) (do return .returned v)
  suspended : ∀ {k k'}, K k k' → O (do return .suspended k) (do return .suspended k')
  next : ∀ {α : Type} {act act' : Run α} {f f' : α → Run Outcome}, R act act' →
    (∀ a, O (f a) (f' a)) → O (act >>= f) (act' >>= f')
  awaited : ∀ {act act' : Run Awaited} {f f' : Awaited → Run Outcome}, A act act' →
    (∀ v, O (f (.value v)) (f' (.value v))) →
    (∀ k k', K k k' → O (f (.suspended k)) (f' (.suspended k'))) → O (act >>= f) (act' >>= f')
  proceed : ∀ {act act' : Run Outcome} {f f' : Outcome → Run Outcome}, O act act' →
    O (f .completed) (f' .completed) → (∀ v, O (f (.returned v)) (f' (.returned v))) →
    (∀ k k', K k k' → O (f (.suspended k)) (f' (.suspended k'))) → O (act >>= f) (act' >>= f')
  defer : ∀ {k k'} stmts, K k k' → R (defer k stmts) (defer k' stmts)
  discardValue : ∀ {act act' : Run Value}, R act act' → R (discard act) (discard act')
  discard : ∀ {act act' : Run Outcome}, O act act' → R (discard act) (discard act')
  nested : ∀ {act act' : Run Outcome}, O act act' → O (nested act) (nested act')
  renewScope : R renewScope renewScope
  warn : ∀ text, R (warn text) (warn text)
  emit : ∀ s, R (emit s) (emit s)
  declareVariable : ∀ x v, R (declareVariable x v) (declareVariable x v)
  bindFunction : ∀ name params body isAsync line,
    R (bindFunction name params body isAsync line) (bindFunction name params body isAsync line)

variable {K : Nat → Nat → Prop} {A : Run Awaited → Run Awaited → Sort u}
  {O : Run Outcome → Run Outcome → Sort u}

section

variable (h : StmtCongruence R K A O) (hcall : CallsRelated R call call')

include h

/-- A suspended statement leaves something to do. -/
def deferring_congr {k k' : Nat} (stmts : List Stmt) (hk : K k k') :
    O (do defer k stmts; return .suspended k) (do defer k' stmts; return .suspended k') :=
  h.next (h.defer stmts hk) fun _ => h.suspended hk

def iterate_congr {test test' : Run Bool} {body body' : Run Outcome} {step step' : Run Unit}
    (line : Nat) (residue : List Stmt) (htest : R test test') (hbody : O body body')
    (hstep : R step step') :
    (rounds : Nat) → O (iterate line test body step residue rounds)
      (iterate line test' body' step' residue rounds)
  | 0 => h.next htest fun go => by
    cases go with
    | true => exact h.next (h.warn _) fun _ => h.completed
    | false => exact h.completed
  | rounds + 1 => h.next htest fun go => by
    have hrest := iterate_congr line residue htest hbody hstep rounds
    cases go with
    | false => exact h.completed
    | true =>
      exact h.proceed hbody (h.next hstep fun _ => hrest) h.returned fun _ _ =>
        deferring_congr h residue

include hcall

def evalAwaiting_congr (target : Target) (e : Expr) :
    A (evalAwaiting call target e) (evalAwaiting call' target e) := by
  have hplain (e : Expr) := h.value (eval_congr h.toCongruence hcall false e)
  cases e with
  | await e line => exact h.await target (eval_congr h.toCongruence hcall true e) (hplain _)
  | _ => exact hplain _

def execExpr_congr (e : Expr) : O (execExpr call e) (execExpr call' e) := by
  have hplain (e : Expr) : O (execUnassigned call e) (execUnassigned call' e) :=
    h.awaited (evalAwaiting_congr h hcall .discard e) (fun _ => h.completed) fun _ _ => h.suspended
  have heval := eval_congr h.toCongruence hcall
  cases e with
  | assign op x e line =>
    cases e with
    | await e awaitLine =>
      exact h.awaitStmt (.assign x op) (heval true e)
        (h.next (heval false _) fun _ => h.completed)
    | _ => exact hplain _
  | _ => exact hplain _

def execReturn_congr (e : Option Expr) : O (execReturn call e) (execReturn call' e) := by
  cases e with
  | none => exact h.returned _
  | some e =>
    exact h.awaited (evalAwaiting_congr h hcall .ret e) h.returned fun _ _ => h.suspended

def execDeclarators_congr (kind : DeclKind) (line : Nat) : (decls : List Declarator) →
    O (execDeclarators call kind line decls) (execDeclarators call' kind line decls)
  | [] => h.completed
  | .mk x none :: rest =>
    h.next (h.declareVariable x .undefined) fun _ => execDeclarators_congr kind line rest
  | .mk x (some e) :: rest => by
    have hrest := execDeclarators_congr kind line rest
    refine h.awaited (evalAwaiting_congr h hcall (.declare x) e)
      (fun v => h.next (h.declareVariable x v) fun _ => hrest) fun k k' hk => ?_
    cases rest with
    | nil => exact h.suspended hk
    | cons d' rest => exact deferring_congr h _ hk

def execInit_congr (init : LoopInit) : R (execInit call init) (execInit call' init) := by
  cases init with
  | nothing => exact h.pure ()
  | expr e => exact h.discardValue (eval_congr h.toCongruence hcall false e)
  | declare kind decls line => exact h.discard (execDeclarators_congr h hcall kind line decls)

def loopTest_congr (condition : Option Expr) :
    R (loopTest call condition) (loopTest call' condition) := by
  cases condition with
  | none => exact h.pure true
  | some e => exact h.bind (eval_congr h.toCongruence hcall false e) fun _ => h.pure _

def loopStep_congr (init : LoopInit) (update : Option Expr) :
    R (loopStep call init update) (loopStep call' init update) := by
  have hupdate : R (loopUpdate call update) (loopUpdate call' update) := by
    cases update with
    | none => exact h.pure ()
    | some e => exact h.discardValue (eval_congr h.toCongruence hcall false e)
  exact ite_congr (h.bind h.renewScope fun _ => hupdate) hupdate

mutual

def exec_congr : (s : Stmt) → O (exec call s) (exec call' s)
  | .expr e _ => execExpr_congr h hcall e
  | .declare kind decls line => execDeclarators_congr h hcall kind line decls
  | .function name params body isAsync line =>
    h.next (h.bindFunction name params body isAsync line) fun _ =>
      h.next (h.emit _) fun _ => h.next (h.note _ _) fun _ => h.completed
  | .block b => execBlock_congr b
  | .branch condition body otherwise _ => by
    refine h.next (eval_congr h.toCongruence hcall false condition) fun v => ?_
    refine h.next (h.tell (.condition v)) fun _ => ?_
    have hbody := execBlock_congr body
    have hotherwise := execOptional_congr otherwise
    split
    · exact hbody
    · exact hotherwise
  | .loop init condition update body line =>
    h.nested <| h.next (execInit_congr h hcall init) fun _ =>
      iterate_congr h line _ (loopTest_congr h hcall condition) (execBlock_congr body)
        (loopStep_congr h hcall init update) maxLoopRounds
  | .ret e _ => execReturn_congr h hcall e

def execOptional_congr : (s : Option Stmt) → O (execOptional call s) (execOptional call' s)
  | none => h.completed
  | some s => exec_congr s

def execBlock_congr : (b : Block) → O (execBlock call b) (execBlock call' b)
  | .mk stmts _ => h.nested (execAll_congr stmts)

def execAll_congr : (stmts : List Stmt) → O (execAll call stmts) (execAll call' stmts)
  | [] => h.completed
  | s :: rest =>
    h.proceed (exec_congr s) (execAll_congr rest) h.returned fun _ _ =>
      deferring_congr h rest

end

def runBody_congr (b : Body) : O (runBody call b) (runBody call' b) := by
  cases b with
  | value e => exact h.next (eval_congr h.toCongruence hcall false e) h.returned
  | block b =>
    exact h.next (hoist_congr h.toCallFreeCongruence h.bindFunction b.stmts) fun _ =>
      execAll_congr h hcall b.stmts

end

/-! ## Relations that do not look at results -/

/-- What is needed for statements if their ends are related by the relation itself. -/
structure PlainCongruence (R : {α : Type} → Run α → Run α → Sort u) : Sort (max 2 u)
    extends Congruence R where
  asyncFrame : R asyncFrame? asyncFrame?
  suspend : ∀ frame v target, R (suspend frame v target) (suspend frame v target)
  defer : ∀ k stmts, R (defer k stmts) (defer k stmts)
  discard : ∀ {α : Type} {act act' : Run α}, R act act' →
    R (discard act : Run Unit) (discard act' : Run Unit)
  nested : ∀ {act act' : Run Outcome}, R act act' → R (nested act) (nested act')
  renewScope : R renewScope renewScope
  warn : ∀ text, R (warn text) (warn text)
  emit : ∀ s, R (emit s) (emit s)
  declareVariable : ∀ x v, R (declareVariable x v) (declareVariable x v)
  bindFunction : ∀ name params body isAsync line,
    R (bindFunction name params body isAsync line) (bindFunction name params body isAsync line)

namespace PlainCongruence

def orSuspend (h : PlainCongruence R) {act act' : Run Value} {plain plain' : Run α}
    (target : Target) (suspended : Nat → α) (hact : R act act') (hplain : R plain plain') :
    R (orSuspend act target suspended plain) (orSuspend act' target suspended plain') := by
  refine h.bind h.asyncFrame fun frame => ?_
  cases frame with
  | some frame =>
    exact h.bind hact fun v => h.bind (h.suspend frame v target) fun _ => h.pure _
  | none => exact hplain

def statements (h : PlainCongruence R) : StmtCongruence R Eq R R where
  toCongruence := h.toCongruence
  value hact := h.bind hact fun _ => h.pure _
  await target := h.orSuspend target _
  awaitStmt target := h.orSuspend target _
  completed := h.pure _
  returned _ := h.pure _
  suspended hk := hk ▸ h.pure _
  next := h.bind
  awaited hact hvalue hsuspended := h.bind hact fun a => by
    cases a with
    | value v => exact hvalue v
    | suspended k => exact hsuspended k k rfl
  proceed hact hcompleted hreturned hsuspended := h.bind hact fun outcome => by
    cases outcome with
    | completed => exact hcompleted
    | returned v => exact hreturned v
    | suspended k => exact hsuspended k k rfl
  defer stmts hk := hk ▸ h.defer _ stmts
  discardValue := h.discard
  discard := h.discard
  nested := h.nested
  renewScope := h.renewScope
  warn := h.warn
  emit := h.emit
  declareVariable := h.declareVariable
  bindFunction := h.bindFunction

end PlainCongruence

/-! ## Callbacks -/

/-- What is needed for the callbacks of links and timers. -/
structure CallbackCongruence (P : {α : Type} → Run α → Sort u) : Sort (max 2 u) where
  pure : ∀ {α : Type} (a : α), P (pure a)
  next : ∀ {α β : Type} {act : Run α} {f : α → Run β}, P act → (∀ a, P (f a)) → P (act >>= f)
  note : ∀ level line, P (note level line)
  settledValue : ∀ v, P (settledValue v)
  newFunction : ∀ name params body isAsync line scope,
    P (newFunction name params body isAsync line scope)
  /-- A callback that is no function expression is evaluated where it was handed over. -/
  value : ∀ callback scope, P (inScope scope (withCalls fun call => eval call false callback))
  callBack : ∀ f args label, P (callBack f args label)

namespace CallbackCongruence

variable {P : {α : Type} → Run α → Sort u} (h : CallbackCongruence P)

include h

def resolveCallback (callback : Expr) (scope : Scope) : P (resolveCallback callback scope) :=
  match callback with
  | .function .. => h.next (h.newFunction _ _ _ _ _ _) fun _ => h.pure _
  | .literal .. | .ident .. | .template .. | .array .. | .binary .. | .unary .. | .assign ..
  | .update .. | .member .. | .call .. | .await .. => h.next (h.value _ scope) fun v =>
    match v with
    | .function _ => h.pure _
    | .undefined | .null | .bool _ | .number _ | .text _ | .array _ | .promise _ => h.pure _

def runCallback (cb : Callback) : P (runCallback cb) := by
  unfold Run.runCallback
  cases cb.callback with
  | none => exact h.next (h.pure none) fun _ => h.note _ _
  | some e =>
    refine h.next (h.resolveCallback e cb.scope) fun f => ?_
    cases f with
    | none => exact h.note _ _
    | some f => exact h.next (h.callBack f [] _) fun _ => h.pure _

def callLink (name : String) (scope : Scope) (l : Link) (callback : Option Expr) (value : Value) :
    P (callLink name scope l callback value) :=
  match callback with
  | none => h.pure _
  | some e => h.next (h.resolveCallback e scope) fun f =>
    match f with
    | none => h.next (h.note _ _) fun _ => h.pure _
    | some f => h.next (h.callBack f _ _) fun _ => h.pure _

def runLink (name : String) (scope : Scope) (l : Link) (callback : Option Expr)
    (state : PromiseState) (value : Value) : P (runLink name scope l callback state value) :=
  h.next (h.callLink name scope l callback value) fun result =>
    match result with
    | none => h.pure _
    | some v => h.next (h.settledValue v) fun _ => h.pure _

end CallbackCongruence

end Run

end EventLoop
