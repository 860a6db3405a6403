/-
  The picture that replay draws: call stack, queues, Web APIs, console and current line. Steps can
  come from files, so names and numbers are JSON data.
-/
import EventLoop.Step.Basic

namespace EventLoop

/-- An entry of a queue or of the Web APIs. -/
structure QueueItem where
  id : Json
  name : Json
  delay : Json := .null
  deriving Inhabited, Repr

/-- The items without the ones that have the given number; without a number, all but the first. -/
def QueueItem.remove (id : Json) (items : List QueueItem) : List QueueItem :=
  match id with
  | .null => items.tail
  | id => items.filter fun item => !item.id.same id

/-- What is shown at one time. -/
structure Store where
  /-- The names of the active calls, outermost first. -/
  callStack : List Json := []
  taskQueue : List QueueItem := []
  microtaskQueue : List QueueItem := []
  rafQueue : List QueueItem := []
  webApis : List QueueItem := []
  console : List Json := []
  currentLine : Json := .null
  running : Bool := false
  paused : Bool := false
  deriving Inhabited, Repr

namespace Store

/-- Puts a call onto the stack. -/
def pushCall (s : Store) (name : Json) : Store := { s with callStack := s.callStack ++ [name] }

/-- Takes the innermost call from the stack, if there is one. -/
def popCall (s : Store) : Store := { s with callStack := s.callStack.dropLast }

/-- Adds a line to the console. -/
def addToConsole (s : Store) (message : Json) : Store :=
  { s with console := s.console ++ [message] }

/-- Shows a line of the source as the current one. -/
def setCurrentLine (s : Store) (line : Json) : Store := { s with currentLine := line }

/-- Adds an item to the task queue. -/
def addTask (s : Store) (item : QueueItem) : Store := { s with taskQueue := s.taskQueue ++ [item] }

/-- Removes an item from the task queue. -/
def removeTask (s : Store) (id : Json) : Store :=
  { s with taskQueue := QueueItem.remove id s.taskQueue }

/-- Adds an item to the microtask queue. -/
def addMicrotask (s : Store) (item : QueueItem) : Store :=
  { s with microtaskQueue := s.microtaskQueue ++ [item] }

/-- Removes an item from the microtask queue. -/
def removeMicrotask (s : Store) (id : Json) : Store :=
  { s with microtaskQueue := QueueItem.remove id s.microtaskQueue }

/-- Adds an item to the queue of animation frames. -/
def addFrame (s : Store) (item : QueueItem) : Store := { s with rafQueue := s.rafQueue ++ [item] }

/-- Removes an item from the queue of animation frames. -/
def removeFrame (s : Store) (id : Json) : Store :=
  { s with rafQueue := QueueItem.remove id s.rafQueue }

/-- Hands an item to the Web APIs. -/
def addWebApi (s : Store) (item : QueueItem) : Store := { s with webApis := s.webApis ++ [item] }

/-- Takes an item back from the Web APIs. -/
def removeWebApi (s : Store) (id : Json) : Store :=
  { s with webApis := QueueItem.remove id s.webApis }

/-- Sets whether a replay is going on. -/
def setRunning (s : Store) (running : Bool) : Store := { s with running }

/-- Sets whether the replay is held. -/
def setPaused (s : Store) (paused : Bool) : Store := { s with paused }

/-- Whether nothing is shown, apart from the current line. -/
def isEmpty (s : Store) : Bool :=
  s.callStack.isEmpty && s.taskQueue.isEmpty && s.microtaskQueue.isEmpty && s.rafQueue.isEmpty &&
    s.webApis.isEmpty && s.console.isEmpty

/-- Shows a step; a step of an unknown kind cannot be shown. -/
def show? (s : Store) (step : Step) : Option Store :=
  match step.kind with
  | .highlight => some (s.setCurrentLine step.line)
  | .callstackPush => some (s.pushCall step.name)
  | .callstackPop => some s.popCall
  | .consoleOutput => some (s.addToConsole step.message)
  | .webapiAdd => some (s.addWebApi ⟨step.itemId, step.name, step.delay⟩)
  | .webapiRemove => some (s.removeWebApi step.itemId)
  | .taskqueueAdd => some (s.addTask ⟨step.itemId, step.name, .null⟩)
  | .taskqueueRemove => some (s.removeTask step.itemId)
  | .microtaskAdd => some (s.addMicrotask ⟨step.itemId, step.name, .null⟩)
  | .microtaskRemove => some (s.removeMicrotask step.itemId)
  | .rafqueueAdd => some (s.addFrame ⟨step.itemId, step.name, .null⟩)
  | .rafqueueRemove => some (s.removeFrame step.itemId)
  | .unknown _ => none

end Store

end EventLoop
