/-
  What a call asks for, as far as its text shows: a timer, a console line, a promise, a link of a
  promise chain, or a function of the program. Chains of links are followed down to the call that
  makes their first promise.
-/
import EventLoop.Value.Coercion

namespace EventLoop

open Script

/-- What is registered with the Web APIs. -/
inductive TimerKind where
  | timeout | interval | frame
  deriving DecidableEq, Repr, Inhabited

/-- The function that registers a callback of this kind. -/
def TimerKind.api : TimerKind → String
  | .timeout => "setTimeout"
  | .interval => "setInterval"
  | .frame => "requestAnimationFrame"

/-- The short name of a kind. -/
def TimerKind.name : TimerKind → String
  | .timeout => "timeout"
  | .interval => "interval"
  | .frame => "raf"

/-- The label of the frame in which a callback of this kind runs. -/
def TimerKind.label : TimerKind → String
  | .timeout => "setTimeout callback"
  | .interval => "setInterval callback"
  | .frame => "rAF callback"

/-- Calls that make a promise. -/
inductive Maker where
  | resolve | reject | all
  deriving DecidableEq, Repr, Inhabited

/-- The method that makes the promise. -/
def Maker.method : Maker → String
  | .resolve => "resolve"
  | .reject => "reject"
  | .all => "all"

/-- Links of a promise chain: for a fulfilled promise, for a rejected one, and for both. -/
inductive Link where
  | thenLink | catchLink | finallyLink
  deriving DecidableEq, Repr, Inhabited

/-- The method that adds the link. -/
def Link.method : Link → String
  | .thenLink => "then"
  | .catchLink => "catch"
  | .finallyLink => "finally"

/-- Whether the callback of the link runs for a promise in the given state. -/
def Link.runs : Link → PromiseState → Bool
  | .thenLink, state => state == .fulfilled
  | .catchLink, state => state == .rejected
  | .finallyLink, _ => true

/-- The arguments that a link gives to its callback, for a settlement with `value`. -/
def Link.arguments (l : Link) (value : Value) : List Value :=
  match l with
  | .thenLink | .catchLink => [value]
  | .finallyLink => []

/-- The settlement behind a link whose callback returned `result`: that one for a `then` or `catch`,
and what came in for a `finally`. -/
def Link.settlement (l : Link) (state : PromiseState) (value result : Value) :
    PromiseState × Value :=
  match l with
  | .thenLink | .catchLink => (.fulfilled, result)
  | .finallyLink => (state, value)

/-- What a call asks for. -/
inductive CallShape where
  | timer (kind : TimerKind)
  | clearTimer
  | console
  | promise (maker : Maker)
  | link (link : Link)
  | userFunction
  | method
  | unrecognized
  deriving DecidableEq, Repr, Inhabited

namespace CallShape

/-- The name of a shape. -/
def name : CallShape → String
  | .timer .timeout => "TIMEOUT"
  | .timer .interval => "INTERVAL"
  | .timer .frame => "ANIMATION_FRAME"
  | .clearTimer => "CLEAR_TIMER"
  | .console => "CONSOLE"
  | .promise .resolve => "PROMISE_RESOLVE"
  | .promise .reject => "PROMISE_REJECT"
  | .promise .all => "PROMISE_ALL"
  | .link .thenLink => "PROMISE_THEN"
  | .link .catchLink => "PROMISE_CATCH"
  | .link .finallyLink => "PROMISE_FINALLY"
  | .userFunction => "USER_FUNCTION"
  | .method => "METHOD"
  | .unrecognized => "UNRECOGNIZED"

/-- The shape of a call of a plain name. -/
def ofName (name : String) : CallShape :=
  if name = "setTimeout" then .timer .timeout
  else if name = "setInterval" then .timer .interval
  else if name = "requestAnimationFrame" then .timer .frame
  else if name = "clearTimeout" || name = "clearInterval" || name = "cancelAnimationFrame" then
    .clearTimer
  else .userFunction

/-- The shape of a call of a member, whatever it is a member of. -/
def ofMethod (method : String) : CallShape :=
  if method = "then" then .link .thenLink
  else if method = "catch" then .link .catchLink
  else if method = "finally" then .link .finallyLink
  else .method

/-- The shape of a call of a member of the plain name `target`. -/
def ofNamedMethod (target method : String) : CallShape :=
  if target = "console" && ["log", "info", "warn", "error"].contains method then .console
  else if target = "Promise" && method = "resolve" then .promise .resolve
  else if target = "Promise" && method = "reject" then .promise .reject
  else if target = "Promise" && method = "all" then .promise .all
  else ofMethod method

/-- The shape of a call with the given callee. -/
def ofCallee : Expr → CallShape
  | .ident name _ => ofName name
  | .member (.ident target _) member _ => ofNamedMethod target member
  | .member _ member _ => ofMethod member
  | .function .. | .call .. => .userFunction
  | _ => .unrecognized

/-- Whether the callback of a call of this shape runs for a promise in the given state. -/
def runs : CallShape → PromiseState → Bool
  | .link l, state => l.runs state
  | _, _ => true

end CallShape

/-! ## Names and labels -/

/-- The name under which a callee is shown. -/
def calleeName : Expr → String
  | .ident name _ => name
  | .member target name _ => calleeName target ++ "." ++ name
  | .call callee _ _ => calleeName callee
  | .function _ _ (some name) _ _ _ => name
  | _ => "anonymous"

/-- The name of the member that a callee is. -/
def memberName : Expr → String
  | .member _ name _ => name
  | _ => ""

/-- An argument as the label of a frame shows it: constants and names, and dots for all else. -/
def argumentLabel : Expr → Except Fault String
  | .literal value _ => (Value.ofLiteral value).label #[]
  | .ident name _ => .ok name
  | _ => .ok "..."

/-- The label of the frame of a call. -/
def callLabel (name : String) (args : List Expr) : Except Fault String := do
  let parts ← args.mapM argumentLabel
  return name ++ "(" ++ ", ".intercalate parts ++ ")"

/-! ## Chains -/

/-- A promise chain below a link: the call that makes its first promise, and the links above that,
first one first. -/
structure Chain where
  root : Expr
  links : List Link

/-- How many calls are looked at below a link. -/
def maxChainHops : Nat := 20

/-- Follows a chain down from `e`, through at most `hops` calls. `links` are those already passed,
in the order in which they are applied. -/
def chainFrom : Nat → List Link → Expr → Option Chain
  | 0, _, _ => none
  | hops + 1, links, e =>
    match e with
    | .call callee _ _ =>
      match CallShape.ofCallee callee, callee with
      | .promise _, _ => some ⟨e, links⟩
      | .link l, .member target _ _ => chainFrom hops (l :: links) target
      | _, _ => none
    | _ => none

/-- The chain below a call of `callee`; `none` if it does not start at a call that makes a promise.
-/
def chainBelow (hops : Nat) (callee : Expr) : Option Chain :=
  match callee with
  | .member target _ _ => chainFrom hops [] target
  | _ => none

/-- The state that a chain has behind some links: a `catch` reached in the rejected state recovers,
and every other link passes the state on. -/
def chainState (root : PromiseState) (links : List Link) : PromiseState :=
  links.foldl (fun state l =>
    if l = .catchLink && state = .rejected then .fulfilled else state) root

end EventLoop
