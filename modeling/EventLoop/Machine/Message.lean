/-
  The lines of the debug log that show a value or a time.
-/
import EventLoop.Machine.State
import EventLoop.Value.Operator

namespace EventLoop

/-- A line of the debug log that shows a value or a time. -/
inductive Message where
  | declared (name : String) (v : Value)
  | condition (v : Value)
  | registered (cb : Callback)
  | fired (cb : Callback)

namespace Message

/-- The text that has to be made for a line. -/
def text (m : Machine) : Message → Except Fault String
  | .declared _ v | .condition v => v.toText m.arrays
  | .registered cb => Number.intText cb.due
  | .fired _ => Number.intText m.clock

/-- The level of detail of a line. -/
def level : Message → Nat
  | .condition _ => 3
  | _ => 2

/-- The line around a text. -/
def line (text : String) : Message → String
  | .declared name v => "declare " ++ name ++ ": " ++ v.typeName ++ " = " ++ text
  | .condition v => "if condition " ++ text ++ " -> " ++ if v.isTruthy then "True" else "False"
  | .registered cb =>
    cb.kind.api ++ " #" ++ toString cb.id ++ " delay=" ++ toString cb.delay ++ " due=" ++ text
  | .fired cb => "task #" ++ toString cb.id ++ " at t=" ++ text

end Message

end EventLoop
