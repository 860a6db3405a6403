/-
  Operators on values.
-/
import EventLoop.Value.Coercion

namespace EventLoop.Value

open Script

/-- Equality without conversion: of numbers and texts by value, of functions, arrays and promises by
identity. -/
def strictEquals : Value → Value → Bool
  | .undefined, .undefined => true
  | .null, .null => true
  | .bool a, .bool b => a == b
  | .number a, .number b => a.equals b
  | .text a, .text b => a == b
  | .function f, .function g => f.id == g.id
  | .array a, .array b => a == b
  | .promise a, .promise b => a == b
  | _, _ => false

/-- Equality with conversion: null equals undefined, and numbers, texts and truth values are
compared as numbers where their types differ. -/
def looseEquals (a b : Value) : Bool :=
  if a.isNullish || b.isNullish then a.isNullish && b.isNullish
  else if a.typeName == b.typeName then a.strictEquals b
  else if a.isScalar && b.isScalar then a.toNumber.equals b.toNumber
  else false

/-- The order of two values: of texts by their characters, of all else as numbers. -/
def ordered (test : Ordering → Bool) : Value → Value → Except Fault Value
  | .text a, .text b => .ok (.bool (test (compare a b)))
  | a, b => do return .bool (← a.toNumber.ordered test b.toNumber)

/-- The sum of two values, or the join of their texts if one of them is no addend. -/
def plus (arrays : Arrays) (a b : Value) : Except Fault Value :=
  if a.isAddend && b.isAddend then do return .number (← a.toNumber.add b.toNumber)
  else do
    let s ← a.toText arrays
    let t ← b.toText arrays
    return .text (s ++ t)

/-- Applies an operator to two values. The operators that may skip an operand are not applied here.
-/
def apply (arrays : Arrays) (op : BinaryOp) (a b : Value) : Except Fault Value :=
  match op with
  | .add => plus arrays a b
  | .sub => do return .number (← a.toNumber.sub b.toNumber)
  | .mul => do return .number (← a.toNumber.mul b.toNumber)
  | .div => do return .number (← a.toNumber.div b.toNumber)
  | .rem => do return .number (← a.toNumber.rem b.toNumber)
  | .strictEq => .ok (.bool (a.strictEquals b))
  | .strictNe => .ok (.bool (!a.strictEquals b))
  | .looseEq => .ok (.bool (a.looseEquals b))
  | .looseNe => .ok (.bool (!a.looseEquals b))
  | .lt => ordered (· == .lt) a b
  | .gt => ordered (· == .gt) a b
  | .le => ordered (· != .gt) a b
  | .ge => ordered (· != .lt) a b
  | .or | .and => .error (.unsupportedOperator op.text)

/-- Applies the operator that is written as `op`. -/
def applyText (arrays : Arrays) (op : String) (a b : Value) : Except Fault Value :=
  match BinaryOp.ofText? op with
  | some op => apply arrays op a b
  | none => .error (.unsupportedOperator op)

end EventLoop.Value
