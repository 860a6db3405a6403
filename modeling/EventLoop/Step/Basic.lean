/-
  Micro-steps: the unit of visible effect. A step carries what is needed to show it again: a line, a
  name, a console message, the number of a queue item, a delay, and how long it nominally lasts.
  Steps can come from files, so what they carry is JSON data; the null value stands for nothing.
-/
import EventLoop.Json.Basic

namespace EventLoop

/-- What a step shows. -/
inductive StepKind where
  | highlight
  | callstackPush | callstackPop
  | consoleOutput
  | webapiAdd | webapiRemove
  | taskqueueAdd | taskqueueRemove
  | microtaskAdd | microtaskRemove
  | rafqueueAdd | rafqueueRemove
  /-- A kind that no store can show. -/
  | unknown (label : String)
  deriving DecidableEq, Repr, Inhabited

namespace StepKind

/-- The name of a kind. -/
def name : StepKind → String
  | .highlight => "highlight"
  | .callstackPush => "callstack_push"
  | .callstackPop => "callstack_pop"
  | .consoleOutput => "console_output"
  | .webapiAdd => "webapi_add"
  | .webapiRemove => "webapi_remove"
  | .taskqueueAdd => "taskqueue_add"
  | .taskqueueRemove => "taskqueue_remove"
  | .microtaskAdd => "microtask_add"
  | .microtaskRemove => "microtask_remove"
  | .rafqueueAdd => "rafqueue_add"
  | .rafqueueRemove => "rafqueue_remove"
  | .unknown label => label

/-- The kinds that can be shown. -/
def all : List StepKind :=
  [.highlight, .callstackPush, .callstackPop, .consoleOutput, .webapiAdd, .webapiRemove,
   .taskqueueAdd, .taskqueueRemove, .microtaskAdd, .microtaskRemove, .rafqueueAdd, .rafqueueRemove]

/-- The kind with a given name. -/
def ofName? (s : String) : Option StepKind := all.find? (·.name == s)

end StepKind

/-- How long a step nominally lasts: milliseconds, or a truth value that counts as one or none. -/
inductive Duration where
  | ms (n : Int)
  | flag (b : Bool)
  /-- Milliseconds and parts of them. -/
  | real (x : Float)
  deriving Repr, Inhabited

/-- The milliseconds of a duration. -/
def Duration.number : Duration → Number
  | .ms n => .int n
  | .flag b => .int (if b then 1 else 0)
  | .real x => .float x

/-- A micro-step. -/
structure Step where
  kind : StepKind
  duration : Duration
  line : Json := .null
  name : Json := .null
  message : Json := .null
  itemId : Json := .null
  delay : Json := .null
  deriving Inhabited, Repr

namespace Step

/-- Shows the line that is being run. -/
def highlight (line : Nat) : Step :=
  { kind := .highlight, duration := .ms 400, line := .int line }

/-- Shows a line for a shorter time. -/
def glance (line : Nat) : Step :=
  { kind := .highlight, duration := .ms 300, line := .int line }

/-- A frame goes onto the call stack. -/
def push (name : String) : Step :=
  { kind := .callstackPush, duration := .ms 300, name := .str name }

/-- The innermost frame leaves the call stack. -/
def pop : Step := { kind := .callstackPop, duration := .ms 300 }

/-- A line appears on the console. -/
def console (message : String) : Step :=
  { kind := .consoleOutput, duration := .ms 200, message := .str message }

/-- A timer or a frame request is handed to the Web APIs. -/
def webapiAdd (id : Nat) (name : String) (delay : Nat) : Step :=
  { kind := .webapiAdd, duration := .ms 300, name := .str name, itemId := .int id,
    delay := .int delay }

/-- A step that puts an item into a queue. -/
def enqueue (kind : StepKind) (id : Nat) (name : String) : Step :=
  { kind, duration := .ms 300, name := .str name, itemId := .int id }

/-- A step that takes an item out of a queue. -/
def dequeue (kind : StepKind) (id : Nat) : Step := { kind, duration := .ms 200, itemId := .int id }

/-- A timer or a frame request leaves the Web APIs. -/
def webapiRemove (id : Nat) : Step := dequeue .webapiRemove id

/-- A timer callback enters the task queue. -/
def taskqueueAdd (id : Nat) (name : String) : Step := enqueue .taskqueueAdd id name

/-- A timer callback leaves the task queue. -/
def taskqueueRemove (id : Nat) : Step := dequeue .taskqueueRemove id

/-- A microtask enters its queue. -/
def microtaskAdd (id : Nat) (name : String) : Step := enqueue .microtaskAdd id name

/-- A microtask leaves its queue. -/
def microtaskRemove (id : Nat) : Step := dequeue .microtaskRemove id

/-- A frame callback enters the frame queue. -/
def rafqueueAdd (id : Nat) (name : String) : Step := enqueue .rafqueueAdd id name

/-- A frame callback leaves the frame queue. -/
def rafqueueRemove (id : Nat) : Step := dequeue .rafqueueRemove id

/-- Whether a JSON value is the null value. -/
def isAbsent : Json → Bool
  | .null => true
  | _ => false

/-- A step on one line. -/
def describe (s : Step) : String :=
  let kind := s.kind.name
  let item := " #" ++ s.itemId.plain
  match s.kind with
  | .highlight => kind ++ " line " ++ s.line.plain
  | .consoleOutput => kind ++ " " ++ s.message.plain
  | .callstackPop | .microtaskRemove | .taskqueueRemove | .rafqueueRemove | .webapiRemove =>
    if isAbsent s.itemId then kind else kind ++ item
  | .webapiAdd => kind ++ item ++ " " ++ s.name.plain ++ "(" ++ s.delay.plain ++ ")"
  | _ =>
    if isAbsent s.itemId then kind ++ " " ++ s.name.plain
    else kind ++ item ++ " " ++ s.name.plain

/-- The console messages among some steps, in order. -/
def consoleLines (steps : List Step) : List Json :=
  steps.filterMap fun s => if s.kind = .consoleOutput then some s.message else none

end Step

end EventLoop
