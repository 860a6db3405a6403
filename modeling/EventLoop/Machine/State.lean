/-
  The state of a run: bindings, arrays and promises, the call stack, the microtasks and timers that
  wait, and the steps emitted so far.
-/
import EventLoop.Call
import EventLoop.Scope
import EventLoop.Step.Sequence

namespace EventLoop

open Script

/-- What is done when a promise that is waited for settles. -/
inductive Reaction where
  /-- The suspended body with this number goes on. -/
  | resume (continuation : Nat)
  /-- The callback of a link runs, if the link applies, and settles the promise of the link. -/
  | link (link : Link) (callback : Option Expr) (derived : Nat)
  deriving Inhabited

/-- The kind of microtask that a reaction makes. -/
def Reaction.kind : Reaction → String
  | .resume _ => "await"
  | .link l _ _ => l.method

/-- A reaction that waits for a promise. -/
structure Waiter where
  name : String
  scope : Scope
  reaction : Reaction
  deriving Inhabited

/-- A promise. -/
structure Promise where
  state : PromiseState
  value : Value := .undefined
  waiters : List Waiter := []
  deriving Inhabited

/-- A microtask in its queue, with the settlement that it reacts to. A task without a reaction only
marks that a promise was settled. -/
structure Microtask where
  id : Nat
  name : String
  scope : Scope
  reaction : Option Reaction
  state : PromiseState
  value : Value
  deriving Inhabited

/-- The kind of a microtask. -/
def Microtask.kind (t : Microtask) : String :=
  match t.reaction with
  | some r => r.kind
  | none => "settle"

/-- What receives the value of an `await` when its function goes on. -/
inductive Target where
  | discard
  | declare (name : String)
  | assign (name : String) (op : AssignOp)
  | ret
  deriving DecidableEq, Repr, Inhabited

/-- The rest of a suspended function body, and the promise of the call that it belongs to. -/
structure Continuation where
  statements : List Stmt := []
  scope : Scope
  function : Function
  target : Target
  promise : Option Nat

/-- A body in the global scope with nothing left to do. -/
instance : Inhabited Continuation where
  default :=
    { scope := Scope.global, function := { (default : Function) with scope := Scope.global },
      target := .discard, promise := none }

/-- A callback registered with the Web APIs. -/
structure Callback where
  id : Nat
  kind : TimerKind
  callback : Option Expr
  delay : Nat
  due : Nat
  scope : Scope
  deriving Inhabited

/-- An active call; the promise is that of a call of an async function. -/
structure Frame where
  function : Function
  promise : Option Nat
  deriving Inhabited

/-- A line of debug output: that a call is entered, or any other text. -/
inductive Log.Line where
  | entered (callee : Expr) (args : List Expr) (line : Nat)
  | text (s : String)

instance : Coe String Log.Line := ⟨.text⟩

/-- How a line is written. -/
def Log.Line.shown : Log.Line → String
  | .entered callee _ _ =>
    "call " ++ calleeName callee ++ " -> " ++ (CallShape.ofCallee callee).name
  | .text s => s

/-- Debug output, up to a level of detail. -/
structure Log where
  level : Nat := 0
  output : Array Log.Line := #[]
  deriving Inhabited

/-- The lines of the output. -/
def Log.lines (l : Log) : Array String := l.output.map (·.shown)

/-- Writes a line of the given level of detail. -/
def Log.write (l : Log) (level : Nat) (line : Log.Line) : Log :=
  if level ≤ l.level then { l with output := l.output.push line } else l

/-- The state of a run. -/
structure Machine where
  tables : Tables := {}
  arrays : Value.Arrays := #[]
  promises : Array Promise := #[]
  continuations : Array Continuation := #[]
  /-- The current scope. -/
  scope : Scope := Scope.global
  /-- The functions declared in the global scope. -/
  registry : List (String × Function) := []
  /-- How many functions were made. -/
  functionCount : Nat := 0
  /-- The active calls, innermost first. -/
  frames : List Frame := []
  steps : StepSequence
  /-- All microtasks that were ever queued. -/
  microtasks : Array Microtask := #[]
  /-- The position of the first microtask that was not yet taken. -/
  cursor : Nat := 0
  /-- How many microtasks were taken. -/
  processed : Nat := 0
  microtaskCount : Nat := 0
  /-- The callbacks that wait, in order of registration. -/
  callbacks : List Callback := []
  timerCount : Nat := 0
  /-- Virtual time. -/
  clock : Nat := 0
  /-- The state in which the last call that makes a promise left it. -/
  rootState : PromiseState := .fulfilled
  warnings : Array String := #[]
  log : Log := {}
  deriving Inhabited

/-- The state at the start of a run. -/
def Machine.start (limit : Nat) (log : Log) : Machine := { steps := { limit }, log }

/-- An action of a run: it changes the state, and gives a result or fails. The state stays as it was
at the failure. -/
abbrev Run := EStateM Fault Machine

/-- The limit on active calls. -/
def maxCallDepth : Nat := 400

/-- The limit on rounds of a loop. -/
def maxLoopRounds : Nat := 1000

/-- The limit on microtasks that are run. -/
def maxMicrotasks : Nat := 1000

/-- How many more calls may be nested in the present ones. -/
def Machine.callBudget (m : Machine) : Nat := maxCallDepth - m.frames.length

end EventLoop
