/-
  The operators of the script language, with their spelling and how tightly they bind.
-/
namespace EventLoop.Script

/-- Operators between two operands. -/
inductive BinaryOp where
  | or | and
  | strictEq | strictNe | looseEq | looseNe
  | le | ge | lt | gt
  | add | sub
  | mul | div | rem
  deriving DecidableEq, Repr, Inhabited

namespace BinaryOp

/-- How the operator is written. -/
def text : BinaryOp → String
  | .or => "||"
  | .and => "&&"
  | .strictEq => "==="
  | .strictNe => "!=="
  | .looseEq => "=="
  | .looseNe => "!="
  | .le => "<="
  | .ge => ">="
  | .lt => "<"
  | .gt => ">"
  | .add => "+"
  | .sub => "-"
  | .mul => "*"
  | .div => "/"
  | .rem => "%"

/-- How tightly the operator binds, from one upwards. -/
def level : BinaryOp → Nat
  | .or => 1
  | .and => 2
  | .strictEq | .strictNe | .looseEq | .looseNe => 3
  | .le | .ge | .lt | .gt => 4
  | .add | .sub => 5
  | .mul | .div | .rem => 6

/-- All operators. -/
def all : List BinaryOp :=
  [.or, .and, .strictEq, .strictNe, .looseEq, .looseNe, .le, .ge, .lt, .gt, .add, .sub, .mul, .div,
   .rem]

/-- The operator written as `s`. -/
def ofText? (s : String) : Option BinaryOp := all.find? (·.text == s)

end BinaryOp

/-- Operators in front of an operand. -/
inductive UnaryOp where
  | not | neg | pos
  deriving DecidableEq, Repr, Inhabited

/-- How the operator is written. -/
def UnaryOp.text : UnaryOp → String
  | .not => "!"
  | .neg => "-"
  | .pos => "+"

/-- Assignment operators: a plain one, and those that apply an operator to the old value. -/
inductive AssignOp where
  | set | add | sub | mul | div | rem
  deriving DecidableEq, Repr, Inhabited

/-- How the operator is written. -/
def AssignOp.text : AssignOp → String
  | .set => "="
  | .add => "+="
  | .sub => "-="
  | .mul => "*="
  | .div => "/="
  | .rem => "%="

/-- The operator applied to the old value; `none` for a plain assignment. -/
def AssignOp.operator? : AssignOp → Option BinaryOp
  | .set => none
  | .add => some .add
  | .sub => some .sub
  | .mul => some .mul
  | .div => some .div
  | .rem => some .rem

/-- Operators that count a variable up or down. -/
inductive UpdateOp where
  | increment | decrement
  deriving DecidableEq, Repr, Inhabited

/-- How the operator is written. -/
def UpdateOp.text : UpdateOp → String
  | .increment => "++"
  | .decrement => "--"

/-- The words that declare variables. -/
inductive DeclKind where
  | letWord | constWord | varWord
  deriving DecidableEq, Repr, Inhabited

/-- How the word is written. -/
def DeclKind.text : DeclKind → String
  | .letWord => "let"
  | .constWord => "const"
  | .varWord => "var"

end EventLoop.Script
