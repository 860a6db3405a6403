/-
  The commands: run a program, an example or a file of steps, write the steps of a program to a
  file, and list the examples. Files, output and time are those of a host, so that a command can
  be carried out on a real machine or on a table of files.
-/
import EventLoop.Cli.Arguments
import EventLoop.Cli.Path
import EventLoop.Json.Reader
import EventLoop.Json.Writer
import EventLoop.Preset
import EventLoop.Replay.Visualizer
import EventLoop.Step.Json

namespace EventLoop.Cli

/-! ## Hosts -/

/-- What is found at a path. -/
inductive Found where
  | nothing
  | directory
  | text (s : String)
  /-- Nothing, as no file can have so long a name. -/
  | nameTooLong
  deriving DecidableEq, Repr, Inhabited

/-- Why a command broke off. -/
inductive Crash where
  | isDirectory
  | noDirectory
  | nameTooLong
  | json (e : Json.ReadError)
  deriving DecidableEq, Repr, Inhabited

/-- What is said of a command that broke off. -/
def Crash.message : Crash → String
  | .isDirectory => "the path is that of a directory"
  | .noDirectory => "there is no directory for the file"
  | .nameTooLong => "the name of the file is too long"
  | .json .malformed => "the step file holds no JSON"
  | .json .tooManyDigits => "the step file holds a number with too many digits"

/-- Where a command is carried out. -/
structure Host (m : Type → Type) where
  read : String → m Found
  /-- Writes a file, or says why it cannot be written. -/
  write : String → String → m (Option Crash)
  /-- Writes a line to the output. -/
  print : String → m Unit
  /-- Writes a line to the error output. -/
  warn : String → m Unit
  /-- Waits for some milliseconds. -/
  wait : Float → m Unit

/-- How a command ends. -/
inductive Exit where
  | success
  | failure
  | usage
  | crash (c : Crash)
  deriving DecidableEq, Repr, Inhabited

/-! ## What is to be done -/

/-- What a command does. -/
inductive Mode where
  | listPresets
  | emitSteps (path : String)
  | replay (path : String)
  | preset (id : String)
  | program (path : String)
  deriving DecidableEq, Repr, Inhabited

/-- A value that is not empty. -/
def given (value : Option String) : Option String := value.filter (· ≠ "")

/-- What the arguments ask for. -/
def Arguments.mode? (a : Arguments) : Option Mode :=
  if a.listPresets then some .listPresets
  else
    ((given a.emitSteps).map Mode.emitSteps).or
      (((given a.steps).map Mode.replay).or
        (((given a.preset).map Mode.preset).or ((given a.program).map Mode.program)))

/-! ## Texts -/

/-- A text in which every line ends with a line feed alone, behind the reversed text `done`. -/
def unifyLines (done : List Char) : List Char → List Char
  | [] => done.reverse
  | '\r' :: '\n' :: rest => unifyLines ('\n' :: done) rest
  | '\r' :: rest => unifyLines ('\n' :: done) rest
  | c :: rest => unifyLines (c :: done) rest

/-- A text filled up with blanks. -/
def padTo (width : Nat) (s : String) : String := s.pushn ' ' (width - s.length)

/-- The line that lists an example. -/
def presetLine (p : Preset) : String := padTo 24 p.id ++ " " ++ p.title

/-- The lines that show what was heard during a replay; steps are shown only if they are traced. -/
def signalLine? (trace : Bool) : Signal → Option String
  | .line message => some message.plain
  | .step s => if trace then some ("  [" ++ s.describe ++ "]") else none

/-! ## Commands -/

section

variable {m : Type → Type} [Monad m]

/-- The text of a file, or how the command ends without it. -/
def readText (host : Host m) (path : String) : m (Except Exit String) := do
  let path := Path.normalize path
  match ← host.read path with
  | .nothing =>
    host.warn ("Error: file " ++ path ++ " not found")
    return .error .failure
  | .directory => return .error (.crash .isDirectory)
  | .nameTooLong => return .error (.crash .nameTooLong)
  | .text s => return .ok (String.ofList (unifyLines [] s.toList))

/-- Shows what was heard, and forgets it. -/
def showHeard (host : Host m) (trace : Bool) (v : Visualizer) : m Visualizer := do
  for line in v.engine.listener.heard.toList.filterMap (signalLine? trace) do
    host.print line
  return { v with engine := { v.engine with listener := { v.engine.listener with heard := #[] } } }

/-- Goes on with a job to its end, with at most `fuel` waits. -/
def finishJob (host : Host m) (trace : Bool) :
    Nat → Visualizer → JobProgress → m (Visualizer × JobResult)
  | _, v, .ended result => do return (← showHeard host trace v, result)
  | 0, v, .waits _ _ => do return (← showHeard host trace v, .run false)
  | fuel + 1, v, .waits ms job => do
    let v ← showHeard host trace v
    host.wait ms
    let (v, p) := v.continueJob job
    finishJob host trace fuel v p

/-- Does a job to its end. -/
def doJob (host : Host m) (trace : Bool) (v : Visualizer) (job : Job) :
    m (Visualizer × JobResult) :=
  let (v, p) := v.startJob job
  finishJob host trace (v.engine.steps.size + 1) v p

/-- Writes the steps of a program to a file. -/
def emitSteps (host : Host m) (log : Log) (path source : String) : m (Exit × Log) := do
  let (generation, generator) := (Generator.withLog log).generate (some source)
  let log := generator.machine.log
  match generation.result with
  | .error report =>
    host.warn ("Error: " ++ report.message)
    return (.failure, log)
  | .ok steps =>
    let file := Path.stepFile path
    match ← host.write file ((Step.listToJson steps).render .indented) with
    | some c => return (.crash c, log)
    | none =>
      host.print file
      return (.success, log)

/-- Replays the steps of a file. -/
def replaySteps (host : Host m) (a : Arguments) (log : Log) (text : String) : m (Exit × Log) := do
  match Json.read text with
  | .error e => return (.crash (.json e), log)
  | .ok data =>
    match Step.listOfJson data with
    | .error e =>
      host.warn ("Error: invalid step file: " ++ e.message)
      return (.failure, log)
    | .ok steps =>
      let engine := ({ log } : Engine).load steps
      let (v, result) ← doJob host a.trace { engine } (.run a.speed)
      match result with
      | .run true => return (.success, v.engine.log)
      | _ => return (.failure, v.engine.log)

/-- Runs a program. -/
def runProgram (host : Host m) (a : Arguments) (log : Log) (source : String) : m (Exit × Log) := do
  let (v, result) ← doJob host a.trace { engine := { log } } (.play (.str source) a.speed)
  match result with
  | .play generation =>
    for warning in generation.warnings do
      host.warn ("Warning: " ++ warning)
    return (if generation.succeeded then .success else .failure, v.engine.log)
  | _ => return (.failure, v.engine.log)

/-- Does what is asked for. -/
def perform (host : Host m) (a : Arguments) (log : Log) : Mode → m (Exit × Log)
  | .listPresets => do
    for p in Preset.all do
      host.print (presetLine p)
    return (.success, log)
  | .emitSteps path => do
    match ← readText host path with
    | .error exit => return (exit, log)
    | .ok source => emitSteps host log path source
  | .replay path => do
    match ← readText host path with
    | .error exit => return (exit, log)
    | .ok text => replaySteps host a log text
  | .preset id => do
    match Preset.find? id with
    | some p => runProgram host a log p.code
    | none =>
      host.warn ("Error: unknown preset " ++ id)
      return (.failure, log)
  | .program path => do
    match ← readText host path with
    | .error exit => return (exit, log)
    | .ok source => runProgram host a log source

/-- How a command is written. -/
def usage : String :=
  "usage: [-v] [--speed MS] [--trace] " ++
    "(PROGRAM | --preset ID | --steps FILE | --emit-steps PROGRAM | --list-presets)"

/-- The file that holds the debug log. -/
def logFile : String := "debug.txt"

/-- Carries out a command line. -/
def run (host : Host m) (line : List String) : m Exit := do
  match Arguments.ofWords line with
  | .error .help =>
    host.print usage
    return .success
  | .error .usage =>
    host.warn usage
    return .usage
  | .ok a =>
    match a.mode? with
    | none =>
      host.warn usage
      return .usage
    | some mode =>
      let (exit, log) ← perform host a { level := a.verbosity } mode
      if !log.lines.isEmpty then
        let _ ← host.write logFile (String.join (log.lines.toList.map (· ++ "\n")))
      return exit

end

end EventLoop.Cli
