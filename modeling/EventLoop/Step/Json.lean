/-
  Steps as JSON objects. What a step does not carry is left out; what is not known is passed over.
-/
import EventLoop.Step.Basic

namespace EventLoop

/-- Why a JSON value is no step sequence. -/
inductive StepError where
  /-- The value is no list. -/
  | notList
  /-- An item of the list is no object. -/
  | notObject
  /-- A step is of no kind that can be shown. -/
  | unknownType (type : Json)
  /-- A duration is no whole number from zero upwards. -/
  | invalidDuration (duration : Json)
  deriving Inhabited, Repr

/-- The text of the error. -/
def StepError.message : StepError → String
  | .notList => "Step sequence must be a list"
  | .notObject => "Invalid step object"
  | .unknownType type => "Unknown step type: " ++ type.plain
  | .invalidDuration duration => "Invalid step duration: " ++ duration.shown

/-- The duration as JSON. -/
def Duration.toJson : Duration → Json
  | .ms n => .int n
  | .flag b => .bool b
  | .real x => .float x

/-- The duration that a JSON value gives. Parts of milliseconds are not accepted. -/
def Duration.ofJson? : Json → Option Duration
  | .int n => if 0 ≤ n then some (.ms n) else none
  | .bool b => some (.flag b)
  | _ => none

namespace Step

/-- The fields besides kind and duration, with their names. -/
def payload (s : Step) : List (String × Json) :=
  [("line", s.line), ("name", s.name), ("message", s.message), ("item_id", s.itemId),
   ("delay", s.delay)]

/-- The fields of a step as an object, nulls left out. -/
def toFields (s : Step) : List (String × Json) :=
  [("type", .str s.kind.name), ("duration", s.duration.toJson)] ++
    s.payload.filter fun f => !isAbsent f.2

/-- A step as an object. -/
def toJson (s : Step) : Json := .obj s.toFields

/-- The kind that a JSON value names. -/
def kindOfJson? : Json → Option StepKind
  | .str name => StepKind.ofName? name
  | _ => none

/-- The step that an object describes. -/
def ofFields (fields : List (String × Json)) : Except StepError Step :=
  let type := Json.field fields "type"
  let duration := (fields.lookup "duration").getD (.int 100)
  match kindOfJson? type, Duration.ofJson? duration with
  | none, _ => .error (.unknownType type)
  | some _, none => .error (.invalidDuration duration)
  | some kind, some d =>
    .ok { kind, duration := d
          line := Json.field fields "line"
          name := Json.field fields "name"
          message := Json.field fields "message"
          itemId := Json.field fields "item_id"
          delay := Json.field fields "delay" }

/-- The step that a JSON value describes. -/
def ofJson : Json → Except StepError Step
  | .obj fields => ofFields fields
  | _ => .error .notObject

/-- Steps as a JSON list. -/
def listToJson (steps : List Step) : Json := .arr (steps.map toJson)

/-- The steps that a JSON list describes. The first item that is none decides the error. -/
def listOfJson : Json → Except StepError (List Step)
  | .arr items => items.mapM ofJson
  | _ => .error .notList

end Step

end EventLoop
