/-
  What runs when a microtask, a timer or an animation frame has its turn: callbacks of promise
  links and timers, and the bodies of suspended functions.
-/
import EventLoop.Machine.Eval

namespace EventLoop.Run

open Script

/-! ## Callbacks -/

/-- The function that a callback denotes in the scope in which it was given. -/
def resolveCallback (callback : Expr) (scope : Scope) : Run (Option Function) :=
  match callback with
  | .function params body name _ isAsync line => do
    return some (← newFunction (name.getD "anonymous") params body isAsync line scope)
  | e => do
    match ← inScope scope (withCalls fun call => eval call false e) with
    | .function f => return some f
    | _ => return none

/-- The label of the frame of a callback: its name, if it was given by name. -/
def callbackLabel (callback : Expr) (otherwise : String) : String :=
  match callback with
  | .ident name _ => name ++ "()"
  | _ => otherwise

/-- Calls a function from outside the program. -/
def callBack (f : Function) (args : List Value) (label : String) : Run Value :=
  withCalls fun call => call f args label f.line

/-- Runs the callback of a timer or an animation frame. -/
def runCallback (cb : Callback) : Run Unit := do
  let f ← match cb.callback with
    | some e => resolveCallback e cb.scope
    | none => pure none
  match cb.callback, f with
  | some e, some f => discard (callBack f [] (callbackLabel e cb.kind.label))
  | _, _ => note 1 ("timer #" ++ toString cb.id ++ ": callback is not a function")

/-- Calls the callback of a link, if it has one that denotes a function, and gives what that
returns. -/
def callLink (name : String) (scope : Scope) (l : Link) (callback : Option Expr) (value : Value) :
    Run (Option Value) := do
  match callback with
  | none => return none
  | some e =>
    match ← resolveCallback e scope with
    | none =>
      note 1 (name ++ ": callback is not a function")
      return none
    | some f =>
      let result ← callBack f (l.arguments value) (callbackLabel e (name ++ " callback"))
      return some result

/-- The settlement behind a link: by what its callback returned, and what came in without a call. -/
def runLink (name : String) (scope : Scope) (l : Link) (callback : Option Expr)
    (state : PromiseState) (value : Value) : Run (PromiseState × Value) := do
  match ← callLink name scope l callback value with
  | none => return (state, value)
  | some result => return l.settlement state value (← settledValue result)

/-! ## Suspended functions -/

/-- Gives the settled value of an `await` to what receives it. The result is how the statement of
the `await` ends. -/
def receive (target : Target) (v : Value) : Run Outcome := do
  match target with
  | .discard => return .completed
  | .declare x =>
    declare x v
    return .completed
  | .assign x op =>
    let v ← assigned op x v
    assign x v
    return .completed
  | .ret => return .returned v

/-- Runs the rest of a suspended body in its scope. -/
def runRest (k : Continuation) (v : Value) : Run Outcome := do
  match ← receive k.target v with
  | .completed => withCalls fun call => execAll call k.statements
  | outcome => return outcome

/-- Goes on with a suspended function. If what it waits for is rejected, its rest never runs and its
promise is rejected too. -/
def resume (k : Continuation) (state : PromiseState) (value : Value) : Run Unit := do
  if state = .rejected then
    note 2 ("await in " ++ k.function.name ++ " rejected; body abandoned")
    match k.promise with
    | some id => settle id .rejected value
    | none => pure ()
  else
    let m ← get
    set { m with scope := k.scope, frames := ⟨k.function, k.promise⟩ :: m.frames }
    emit (.push (k.function.name ++ "()"))
    let outcome ← restoring m.scope m.frames do runRest k (← settledValue value)
    emit .pop
    finish k.promise outcome

/-! ## Microtasks -/

/-- A suspended body. A number without one counts as that of a body with nothing left to do. -/
def continuationOf (id : Nat) : Run Continuation := do
  return ((← get).continuations[id]?).getD default

/-- Runs a microtask. -/
def runMicrotask (t : Microtask) : Run Unit := do
  match t.reaction with
  | none => pure ()
  | some (.resume k) => resume (← continuationOf k) t.state t.value
  | some (.link l callback derived) =>
    let (state, value) ← runLink t.name t.scope l callback t.state t.value
    settle derived state value

end EventLoop.Run
