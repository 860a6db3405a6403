/-
  Script values. Arrays and promises are shared and can change, so a value holds only their number
  in the store of the run; a function carries the number that tells it from every other one.
-/
import EventLoop.Script.Basic

namespace EventLoop

/-- A lexical scope: the numbers of the tables of bindings seen in it, innermost first. -/
abbrev Scope := List Nat

/-- A function together with the scope in which it was made. -/
structure Function where
  id : Nat
  name : String
  params : List String
  body : Script.Body
  scope : Scope
  isAsync : Bool
  line : Nat
  deriving Inhabited

/-- A script value. -/
inductive Value where
  | undefined
  | null
  | bool (b : Bool)
  | number (n : Number)
  | text (s : String)
  | function (f : Function)
  | array (id : Nat)
  | promise (id : Nat)
  deriving Inhabited

namespace Value

/-- An integer. -/
def int (n : Int) : Value := .number (.int n)

/-- Not a number. -/
def nan : Value := .number .nan

/-- The value of a constant. -/
def ofLiteral : Script.Literal → Value
  | .null => .null
  | .bool b => .bool b
  | .number n => .number n
  | .text s => .text s

/-- The name of the type of a value. -/
def typeName : Value → String
  | .undefined => "undefined"
  | .null => "object"
  | .bool _ => "boolean"
  | .number _ => "number"
  | .text _ => "string"
  | .function _ => "function"
  | .array _ => "object"
  | .promise _ => "object"

/-- Whether the value is null or undefined. -/
def isNullish : Value → Bool
  | .undefined | .null => true
  | _ => false

end Value

/-- The state of a promise. -/
inductive PromiseState where
  | pending | fulfilled | rejected
  deriving DecidableEq, Repr, Inhabited

/-- The name of a state. -/
def PromiseState.name : PromiseState → String
  | .pending => "pending"
  | .fulfilled => "fulfilled"
  | .rejected => "rejected"

end EventLoop
