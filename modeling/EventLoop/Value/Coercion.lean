/-
  Values as numbers, texts and conditions.
-/
import EventLoop.Text.Quoted
import EventLoop.Value.Basic

namespace EventLoop.Value

/-- The items of all arrays, by number. -/
abbrev Arrays := Array (Array Value)

/-- A value as a number. -/
def toNumber : Value → Number
  | .bool b => .int (if b then 1 else 0)
  | .number n => n
  | .null => .int 0
  | .text s => .ofText s
  | .undefined | .function _ | .array _ | .promise _ => .nan

/-- A value as a condition. -/
def isTruthy : Value → Bool
  | .undefined | .null => false
  | .bool b => b
  | .number n => !(n.isZero || n.isNanFloat)
  | .text s => !s.isEmpty
  | .function _ | .array _ | .promise _ => true

/-- The text of a value, where arrays may be nested at most `depth` deep. -/
def textWithin (arrays : Arrays) : Nat → Value → Except Fault String
  | _, .undefined => .ok "undefined"
  | _, .null => .ok "null"
  | _, .bool b => .ok (if b then "true" else "false")
  | _, .number n => n.text
  | _, .text s => .ok s
  | _, .function f => .ok ("[Function: " ++ f.name ++ "]")
  | _, .promise _ => .ok "[object Promise]"
  | 0, .array _ => .error .endlessText
  | depth + 1, .array id => do
    let parts ← ((arrays[id]?).getD #[]).toList.mapM fun v =>
      if v.isNullish then .ok "" else textWithin arrays depth v
    return ",".intercalate parts

/-- The text of a value. An array nested more deeply than there are arrays contains itself and has
no text. -/
def toText (arrays : Arrays) (v : Value) : Except Fault String := textWithin arrays arrays.size v

/-- A value as the label of a frame shows it: texts are quoted. -/
def label (arrays : Arrays) : Value → Except Fault String
  | .text s => .ok (Text.Quoted.data true s)
  | v => v.toText arrays

/-- Whether `+` adds the value as a number instead of joining it as a text. -/
def isAddend : Value → Bool
  | .undefined | .null | .bool _ | .number _ => true
  | .text _ | .function _ | .array _ | .promise _ => false

/-- Whether the value is a number, a text or a truth value. -/
def isScalar : Value → Bool
  | .bool _ | .number _ | .text _ => true
  | .undefined | .null | .function _ | .array _ | .promise _ => false

end EventLoop.Value
