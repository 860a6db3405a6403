/-
  The arguments of the command line. Long options can be shortened as long as only one option is
  meant, their value follows as the next word or behind an equals sign, and short flags can be
  written together, also with an equals sign behind the first of them. Behind `--` no word is an
  option, and as a value behind an equals sign it leaves the option without one.
-/
import EventLoop.Number.Basic
import EventLoop.Number.Reading
import EventLoop.Text.Blank

namespace EventLoop.Cli

/-! ## Options -/

/-- The options. -/
inductive Flag where
  | help
  | verbose
  | speed
  | trace
  | emitSteps
  | steps
  | preset
  | listPresets
  deriving DecidableEq, Repr, Inhabited

namespace Flag

/-- The options with the ways to write them. -/
def table : List (String × Flag) :=
  [("-h", .help), ("--help", .help), ("-v", .verbose), ("--speed", .speed), ("--trace", .trace),
   ("--emit-steps", .emitSteps), ("--steps", .steps), ("--preset", .preset),
   ("--list-presets", .listPresets)]

/-- The option that is written in a given way. -/
def find? (name : String) : Option Flag := table.lookup name

/-- The option that is written as a dash and a letter. -/
def ofLetter? (c : Char) : Option Flag := find? (String.ofList ['-', c])

/-- Whether the option has a value. -/
def takesValue : Flag → Bool
  | .speed | .emitSteps | .steps | .preset => true
  | .help | .verbose | .trace | .listPresets => false

/-- Whether the option says what is to be done. At most one such option may be given. -/
def isMode : Flag → Bool
  | .emitSteps | .steps | .preset | .listPresets => true
  | .help | .verbose | .speed | .trace => false

end Flag

/-- What a word of the command line is. -/
inductive Word where
  /-- No option. -/
  | plain (text : String)
  /-- The mark behind which no word is an option. -/
  | mark
  /-- An option, with a value behind an equals sign if there is one. -/
  | option (flag : Flag) (value : Option String)
  /-- Short flags that are written together. -/
  | flags (all : List Flag)
  /-- A short flag with something behind it that is no flag. -/
  | malformed
  /-- Looks like an option, but is none or could be several. -/
  | unknown
  | ambiguous
  deriving DecidableEq, Repr, Inhabited

/-- Splits a word at its first equals sign. -/
def splitValue (cs : List Char) : List Char × Option (List Char) :=
  match cs.dropWhile (· ≠ '=') with
  | [] => (cs, none)
  | _ :: value => (cs.takeWhile (· ≠ '='), some value)

/-- A text without the line feed at its end, if there is one. -/
def dropLineEnd (cs : List Char) : List Char :=
  if cs.getLast? = some '\n' then cs.dropLast else cs

/-- Whether a word is a negative number: digits, or a point with digits behind it. A line feed may
end it. -/
def isNegativeNumber (cs : List Char) : Bool :=
  match dropLineEnd cs with
  | '-' :: ds =>
    let whole := ds.takeWhile Text.isDigit
    match ds.dropWhile Text.isDigit with
    | [] => !whole.isEmpty
    | '.' :: fraction => !fraction.isEmpty && fraction.all Text.isDigit
    | _ => false
  | _ => false

/-- A short flag with letters behind it, which have to be flags too. -/
def cluster (first : Flag) (letters : List Char) : Word :=
  match letters.mapM Flag.ofLetter? with
  | some more => .flags (first :: more)
  | none => .malformed

/-- A written out option with a value behind an equals sign. Behind a short flag, the value is more
flags. -/
def withValue (name : List Char) (flag : Flag) (value : Option (List Char)) : Word :=
  match name, value with
  | ['-', _], some (c :: letters) => cluster flag (c :: letters)
  | _, value => .option flag (value.map String.ofList)

/-- The options that a word may be short for: a long one by its beginning, a short one by its letter
with more behind it. -/
def candidates (cs : List Char) : List Word :=
  match cs with
  | '-' :: '-' :: _ =>
    let (name, value) := splitValue cs
    Flag.table.filterMap fun (s, flag) =>
      if name.isPrefixOf s.toList then some (.option flag (value.map String.ofList)) else none
  | '-' :: c :: rest =>
    ((Flag.ofLetter? c).map (cluster · rest)).toList
  | _ => []

/-- What a word is, before the mark. -/
def classify (word : String) : Word :=
  let cs := word.toList
  match cs with
  | [] | ['-'] => .plain word
  | ['-', '-'] => .mark
  | '-' :: _ =>
    let (name, value) := splitValue cs
    match Flag.find? word, Flag.find? (String.ofList name) with
    | some flag, _ => .option flag none
    | none, some flag => withValue name flag value
    | none, none =>
      match candidates cs with
      | [one] => one
      | _ :: _ :: _ => .ambiguous
      | [] => if isNegativeNumber cs || cs.contains ' ' then .plain word else .unknown
  | _ => .plain word

/-- What the words of a command line are. -/
def words : List String → List Word
  | [] => []
  | w :: rest =>
    match classify w with
    | .mark => .mark :: rest.map .plain
    | word => word :: words rest

/-! ## Arguments -/

/-- The arguments of a command. -/
structure Arguments where
  verbosity : Nat := 0
  /-- The speed of the replay; none if it was given without a value. -/
  speed : Option Number := some (.int 0)
  trace : Bool := false
  emitSteps : Option String := none
  steps : Option String := none
  preset : Option String := none
  listPresets : Bool := false
  program : Option String := none
  /-- The option given so far that says what is to be done. -/
  mode : Option Flag := none
  /-- Whether the place of the program is taken. -/
  isPlaced : Bool := false
  /-- Whether there are words that mean nothing. -/
  hasRest : Bool := false
  deriving Inhabited

/-- Why arguments give no command. -/
inductive Refusal where
  /-- Help was asked for. -/
  | help
  /-- They are wrong. -/
  | usage
  deriving DecidableEq, Repr, Inhabited

namespace Arguments

/-- Takes an option into account that has a value, or is given without one. -/
def set (a : Arguments) (flag : Flag) (value : Option String) : Except Refusal Arguments :=
  if flag.isMode && a.mode.any (· ≠ flag) then .error .usage
  else
    let a := if flag.isMode then { a with mode := some flag } else a
    match flag with
    | .help => .error .help
    | .verbose => .ok { a with verbosity := a.verbosity + 1 }
    | .speed =>
      match value with
      | none => .ok { a with speed := none }
      | some text =>
        match Binary64.read? (Text.trimBlanks text.toList) with
        | some x => .ok { a with speed := some (.float x) }
        | none => .error .usage
    | .trace => .ok { a with trace := true }
    | .emitSteps => .ok { a with emitSteps := value }
    | .steps => .ok { a with steps := value }
    | .preset => .ok { a with preset := value }
    | .listPresets => .ok { a with listPresets := true }

/-- Takes options without values into account. -/
def setAll (a : Arguments) (flags : List Flag) : Except Refusal Arguments :=
  flags.foldlM (fun a flag => a.set flag none) a

/-- The value that is written behind an equals sign. The mark is none. -/
def valueOf (text : String) : Option String := if text = "--" then none else some text

/-- Takes words into account in order. The first word that is no option is the program. -/
def read (a : Arguments) : List Word → Except Refusal Arguments
  | [] => .ok a
  | .mark :: .plain text :: rest =>
    if a.isPlaced then { a with hasRest := true }.read rest
    else { a with program := some text, isPlaced := true }.read rest
  | .plain text :: .mark :: rest =>
    if a.isPlaced then { a with hasRest := true }.read rest
    else { a with program := some text, isPlaced := true }.read rest
  | .plain text :: rest =>
    if a.isPlaced then { a with hasRest := true }.read rest
    else { a with program := some text, isPlaced := true }.read rest
  | .mark :: rest =>
    if a.isPlaced then { a with hasRest := true }.read rest
    else { a with isPlaced := true }.read rest
  | .option flag none :: .plain text :: rest =>
    if flag.takesValue then do (← a.set flag (some text)).read rest
    else do (← a.set flag none).read (.plain text :: rest)
  | .option flag none :: rest =>
    if flag.takesValue then .error .usage else do (← a.set flag none).read rest
  | .option flag (some text) :: rest =>
    if flag.takesValue then do (← a.set flag (valueOf text)).read rest else .error .usage
  | .flags all :: rest => do (← a.setAll all).read rest
  | .unknown :: rest => { a with hasRest := true }.read rest
  | .malformed :: _ | .ambiguous :: _ => .error .usage

/-- The arguments that a command line gives. A word that could be several options is wrong wherever
it stands, even behind a wish for help. -/
def ofWords (line : List String) : Except Refusal Arguments := do
  let line := words line
  if line.contains .ambiguous then .error .usage
  let a ← ({} : Arguments).read line
  if a.hasRest then .error .usage else .ok a

end Arguments

end EventLoop.Cli
