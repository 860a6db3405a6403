/-
  Evaluation of expressions, execution of statements and calls of functions. The first two follow
  the program text; how a function of the program is called is a parameter of theirs, and `invoke`
  supplies it, once for each depth of nesting that is left.

  A statement completes, returns a value, or suspends its function. In the last case the rest of
  the function is gathered in a continuation: each enclosing statement adds what it has left to
  do.
-/
import EventLoop.Machine.Builtin

namespace EventLoop

open Script

/-- How a statement ends. -/
inductive Outcome where
  | completed
  | returned (v : Value)
  /-- The rest of the function is in this continuation. -/
  | suspended (continuation : Nat)
  deriving Inhabited

/-- The value that a body with this end returns. -/
def Outcome.value : Outcome → Value
  | .returned v => v
  | .completed | .suspended _ => .undefined

/-- A way to call functions: with the function, its arguments, the label of its frame and the line
to show. -/
abbrev Invoke := Function → List Value → String → Nat → Run Value

namespace Run

/-! ## Expressions -/

/-- The name under which a call of `f` is shown: the one it is called by, else its own. -/
def callName (callee : Expr) (f : Function) : String :=
  match callee with
  | .ident name _ => name
  | _ => f.name

mutual

/-- Evaluates an expression. It is `consumed` if it is what a link or an `await` applies to. -/
def eval (call : Invoke) (consumed : Bool) : Expr → Run Value
  | .literal v _ => pure (.ofLiteral v)
  | .ident x _ => lookup x
  | .template spans tail _ => do
    let s ← evalSpans call spans
    return .text (s ++ tail)
  | .array items _ => do newArray (← evalAll call items)
  | .binary op left right _ => do
    let a ← eval call false left
    match op with
    | .and => if a.isTruthy then eval call false right else return a
    | .or => if a.isTruthy then return a else eval call false right
    | op =>
      let b ← eval call false right
      applyOp op a b
  | .unary op e _ => do
    let v ← eval call false e
    match op with
    | .not => return .bool (!v.isTruthy)
    | .neg => return .number v.toNumber.neg
    | .pos => return .number v.toNumber
  | .assign op x e _ => do
    let v ← eval call false e
    let v ← assigned op x v
    assign x v
    return v
  | .update op x before _ => do
    let old := (← lookup x).toNumber
    let new ← lift (match op with
      | .increment => old.add (.int 1)
      | .decrement => old.sub (.int 1))
    assign x (.number new)
    return .number (if before then new else old)
  | .member target name _ => do
    let v ← eval call false target
    if name = "length" then
      match v with
      | .array id => return .int (← itemsOf id).size
      | .text s => return .int s.length
      | _ => return .undefined
    else return .undefined
  | .call callee args line => do
    note 3 (.entered callee args line)
    match CallShape.ofCallee callee with
    | .timer kind => registerTimer kind args line
    | .clearTimer =>
      let v ← evalFirst call args
      clearTimer (calleeName callee) args line v
    | .console =>
      let parts ← consoleTexts call args
      consoleLine (memberName callee) (" ".intercalate parts) line
    | .promise maker =>
      let vs ← evalAll call args
      makePromise maker consumed vs line
    | .link l =>
      let receiver ← evalTarget call callee
      addLink l callee args.head? receiver line
    | .userFunction =>
      let f ← eval call false callee
      let vs ← evalAll call args
      match f with
      | .function f =>
        let label ← lift (callLabel (callName callee f) args)
        call f vs label line
      | _ => unrecognized callee line
    | .method =>
      let receiver ← evalTarget call callee
      let vs ← evalAll call args
      callMethod callee (memberName callee) receiver vs line
    | .unrecognized => unrecognized callee line
  | .function params body name _ isAsync line => do
    return .function (← newFunction (name.getD "anonymous") params body isAsync line (← get).scope)
  | .await e _ => do settledValue (← eval call true e)

/-- Evaluates what the callee of a method call is a member of. -/
def evalTarget (call : Invoke) : Expr → Run Value
  | .member target _ _ => eval call true target
  | _ => pure .undefined

/-- Evaluates the first of some expressions, if there is one. -/
def evalFirst (call : Invoke) : List Expr → Run Value
  | [] => pure .undefined
  | e :: _ => eval call false e

/-- Evaluates expressions in order. -/
def evalAll (call : Invoke) : List Expr → Run (List Value)
  | [] => pure []
  | e :: rest => do
    let v ← eval call false e
    return v :: (← evalAll call rest)

/-- The text of the spans of a template. -/
def evalSpans (call : Invoke) : List Span → Run String
  | [] => pure ""
  | .mk text e :: rest => do
    let s ← textOf (← eval call false e)
    return text ++ s ++ (← evalSpans call rest)

/-- What the console shows for some arguments. Only constants, names, operators and templates are
evaluated, and a name without a value is shown as itself. -/
def consoleTexts (call : Invoke) : List Expr → Run (List String)
  | [] => pure []
  | e :: rest => do
    let s ← match e with
      | .literal v _ => textOf (.ofLiteral v)
      | .ident x _ => do if ← isBound x then textOf (← lookup x) else pure x
      | .binary .. | .unary .. | .template .. => do textOf (← eval call false e)
      | _ => pure "[complex expression]"
    return s :: (← consoleTexts call rest)

end

/-! ## Suspension -/

/-- What comes of an expression in a position where an `await` may suspend its function. -/
inductive Awaited where
  | value (v : Value)
  | suspended (continuation : Nat)

/-- Evaluates an expression. An `await` in an async function suspends the function instead; `target`
then receives the settled value. -/
def evalAwaiting (call : Invoke) (target : Target) : Expr → Run Awaited
  | .await e line => do
    match ← asyncFrame? with
    | some frame => do return .suspended (← suspend frame (← eval call true e) target)
    | none => do return .value (← eval call false (.await e line))
  | e => do return .value (← eval call false e)

/-- Executes an expression as a statement. -/
def execExpr (call : Invoke) : Expr → Run Outcome
  | .assign op x (.await e awaitLine) line => do
    match ← asyncFrame? with
    | some frame => do return .suspended (← suspend frame (← eval call true e) (.assign x op))
    | none => do
      let _ ← eval call false (.assign op x (.await e awaitLine) line)
      return .completed
  | e => do
    match ← evalAwaiting call .discard e with
    | .value _ => return .completed
    | .suspended k => return .suspended k

/-- Declares variables in order. If one of them suspends, the ones after it are left to do. -/
def execDeclarators (call : Invoke) (kind : DeclKind) (line : Nat) : List Declarator → Run Outcome
  | [] => pure .completed
  | .mk x none :: rest => do
    declareVariable x .undefined
    execDeclarators call kind line rest
  | .mk x (some e) :: rest => do
    match ← evalAwaiting call (.declare x) e with
    | .value v =>
      declareVariable x v
      execDeclarators call kind line rest
    | .suspended k =>
      if !rest.isEmpty then defer k [.declare kind rest line]
      return .suspended k

/-- Executes what a loop does first. A suspension there does not hold up the loop. -/
def execInit (call : Invoke) : LoopInit → Run Unit
  | .nothing => pure ()
  | .declare kind decls line => discard (execDeclarators call kind line decls)
  | .expr e => discard (eval call false e)

/-- Executes the return of a value. -/
def execReturn (call : Invoke) : Option Expr → Run Outcome
  | none => pure (.returned .undefined)
  | some e => do
    match ← evalAwaiting call .ret e with
    | .value v => return .returned v
    | .suspended k => return .suspended k

/-! ## Statements -/

/-- Runs the rounds of a loop, at most `rounds` of them. -/
def iterate (line : Nat) (test : Run Bool) (body : Run Outcome) (step : Run Unit)
    (residue : List Stmt) : Nat → Run Outcome
  | 0 => do
    if ← test then
      warn ("Loop at line " ++ toString line ++ " stopped after " ++ toString maxLoopRounds ++
        " iterations")
    return .completed
  | rounds + 1 => do
    if ← test then
      match ← body with
      | .completed =>
        step
        iterate line test body step residue rounds
      | .returned v => return .returned v
      | .suspended k =>
        defer k residue
        return .suspended k
    else return .completed

/-- What a loop leaves to do when its body is suspended: its update, and the loop without its start.
-/
def loopResidue (condition update : Option Expr) (body : Block) (line : Nat) : List Stmt :=
  (update.toList.map fun e => Stmt.expr e line) ++ [.loop .nothing condition update body line]

/-- Whether a loop has variables of its own in each round. -/
def renewsBindings : LoopInit → Bool
  | .declare kind _ _ => kind != .varWord
  | .nothing | .expr _ => false

/-- Whether a loop has another round; without a condition it always has. -/
def loopTest (call : Invoke) : Option Expr → Run Bool
  | none => pure true
  | some e => do return (← eval call false e).isTruthy

/-- Evaluates the update of a loop, if it has one. -/
def loopUpdate (call : Invoke) : Option Expr → Run Unit
  | none => pure ()
  | some e => discard (eval call false e)

/-- What a loop does between two rounds. -/
def loopStep (call : Invoke) (init : LoopInit) (update : Option Expr) : Run Unit := do
  if renewsBindings init then renewScope
  loopUpdate call update

mutual

/-- Executes a statement. -/
def exec (call : Invoke) : Stmt → Run Outcome
  | .expr e _ => execExpr call e
  | .declare kind decls line => execDeclarators call kind line decls
  | .function name params body isAsync line => do
    bindFunction name params body isAsync line
    emit (.glance line)
    note 2 ("define function " ++ name)
    return .completed
  | .block b => execBlock call b
  | .branch condition body otherwise _ => do
    let v ← eval call false condition
    tell (.condition v)
    if v.isTruthy then execBlock call body else execOptional call otherwise
  | .loop init condition update body line =>
    nested do
      execInit call init
      iterate line (loopTest call condition) (execBlock call body) (loopStep call init update)
        (loopResidue condition update body line) maxLoopRounds
  | .ret e _ => execReturn call e

/-- Executes a statement, if there is one. -/
def execOptional (call : Invoke) : Option Stmt → Run Outcome
  | none => pure .completed
  | some s => exec call s

/-- Executes a block in a scope of its own. -/
def execBlock (call : Invoke) : Block → Run Outcome
  | .mk stmts _ => nested (execAll call stmts)

/-- Executes statements in order. If one of them suspends, the ones after it are left to do. -/
def execAll (call : Invoke) : List Stmt → Run Outcome
  | [] => pure .completed
  | s :: rest => do
    match ← exec call s with
    | .completed => execAll call rest
    | .returned v => return .returned v
    | .suspended k =>
      defer k rest
      return .suspended k

end

/-! ## Calls -/

/-- The bindings of parameters to arguments; a parameter without an argument is undefined. -/
def bindParams : List String → List Value → Bindings → Bindings
  | [], _, bindings => bindings
  | x :: params, [], bindings => bindParams params [] (Assoc.insert bindings x .undefined)
  | x :: params, v :: args, bindings => bindParams params args (Assoc.insert bindings x v)

/-- Runs the body of a function. -/
def runBody (call : Invoke) : Body → Run Outcome
  | .value e => do return .returned (← eval call false e)
  | .block b => do
    hoist b.stmts
    execAll call b.stmts

/-- Settles the promise of an async function whose body ended; a suspended one ends later. -/
def finish (promise : Option Nat) (outcome : Outcome) : Run Unit :=
  match promise, outcome with
  | none, _ | some _, .suspended _ => pure ()
  | some id, outcome => do settle id .fulfilled (← settledValue outcome.value)

/-- Makes the promise of a call, if the function is async. -/
def callPromise (f : Function) : Run (Option Nat) :=
  if f.isAsync then some <$> newPromise .pending .undefined else pure none

/-- Runs the body of a called function in a frame of its own. Gives the promise of the call, if the
function is async, and how the body ended. -/
def runCall (call : Invoke) (f : Function) (args : List Value) : Run (Option Nat × Outcome) := do
  let scope ← newScope f.scope (bindParams f.params args [])
  let promise ← callPromise f
  let outcome ← inFrame scope ⟨f, promise⟩ (runBody call f.body)
  return (promise, outcome)

/-- What a call gives: the promise of an async function, else what the body returned. -/
def callValue (promise : Option Nat) (outcome : Outcome) : Value :=
  match promise with
  | none => outcome.value
  | some id => .promise id

/-- Calls a function, with `depth` more calls allowed inside. A call of an async function gives a
promise, which is pending if the body was suspended. -/
def invoke : Nat → Invoke
  | depth, f, args, label, line => do
    emitAll [.highlight line, .push label]
    note 2 ("call " ++ label)
    match depth with
    | 0 => throw .callDepth
    | depth + 1 => do
      let (promise, outcome) ← runCall (invoke depth) f args
      emit .pop
      finish promise outcome
      return callValue promise outcome

/-- An action that may call functions, as deep as the present calls allow. -/
def withCalls {α : Type} (act : Invoke → Run α) : Run α := do act (invoke (← get).callBudget)

end Run

end EventLoop
