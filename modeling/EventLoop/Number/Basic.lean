/-
  Script numbers: integers of any size and doubles. A result that is a small integer is always kept
  as an integer. An integer meets a double by its nearest double, except in comparisons, which are
  exact.
-/
import EventLoop.Fault
import EventLoop.Text.Blank
import EventLoop.Number.Decimal
import EventLoop.Number.Reading

namespace EventLoop

/-- A script number. -/
inductive Number where
  | int (n : Int)
  | float (x : Float)
  deriving Repr, Inhabited

namespace Number

/-- Not a number. -/
def nan : Number := .float Binary64.nan

/-- An infinity. -/
def infinity (negative : Bool) : Number := .float (Binary64.infinity negative)

/-- A double that is an integer below `2 ^ 53` in magnitude becomes that integer. -/
def normalize : Number → Number
  | .int n => .int n
  | .float x =>
    match Binary64.toInt? x with
    | some n => if n.natAbs < Nat.pow 2 53 then .int n else .float x
    | none => .float x

/-- The number as a double; an integer too large for one is an error. -/
def toFloat : Number → Except Fault Float
  | .int n => match Binary64.ofInt? n with
    | some x => .ok x
    | none => .error .numberTooLarge
  | .float x => .ok x

/-- Whether the number is zero. -/
def isZero : Number → Bool
  | .int n => n == 0
  | .float x => x == 0.0

/-- Whether the number is a double that is no number. -/
def isNanFloat : Number → Bool
  | .int _ => false
  | .float x => x.isNaN

/-- Whether the number is no number, asked of its nearest double. -/
def isNan (a : Number) : Except Fault Bool := do return (← a.toFloat).isNaN

/-- Whether the number is infinite, asked of its nearest double. -/
def isInf (a : Number) : Except Fault Bool := do return (← a.toFloat).isInf

/-- The exact order of two numbers; `none` if one of them is no number. -/
def compare? : Number → Number → Option Ordering
  | .int m, .int n => some (compare m n)
  | .int m, .float y => Binary64.compareInt? m y
  | .float x, .int n => (Binary64.compareInt? n x).map Ordering.swap
  | .float x, .float y => Binary64.compare? x y

/-- Exact equality; a double that is no number equals nothing. -/
def equals (a b : Number) : Bool := a.compare? b == some .eq

/-- Applies an operation on integers to two integers, and one on doubles to all else. -/
def arith (onInt : Int → Int → Int) (onFloat : Float → Float → Float) (a b : Number) :
    Except Fault Number :=
  match a, b with
  | .int m, .int n => .ok (.int (onInt m n))
  | a, b => do
    let x ← a.toFloat
    let y ← b.toFloat
    return normalize (.float (onFloat x y))

/-- The sum. -/
def add : Number → Number → Except Fault Number := arith (· + ·) (· + ·)

/-- The difference. -/
def sub : Number → Number → Except Fault Number := arith (· - ·) (· - ·)

/-- The product. -/
def mul : Number → Number → Except Fault Number := arith (· * ·) (· * ·)

/-- The number with the other sign. -/
def neg : Number → Number
  | .int n => .int (-n)
  | .float x => normalize (.float (-x))

/-- The quotient by a number other than zero: of two integers the double nearest to it. -/
def quotient (a b : Number) : Except Fault Number :=
  match a, b with
  | .int m, .int n =>
    match Binary64.ofRatio? ((m < 0) != (n < 0)) m.natAbs n.natAbs with
    | some x => .ok (normalize (.float x))
    | none => .error .numberTooLarge
  | a, b => do
    let x ← a.toFloat
    let y ← b.toFloat
    return normalize (.float (x / y))

/-- The quotient. By zero it is an infinity with the sign of the dividend, or not a number. -/
def div (a b : Number) : Except Fault Number := do
  if b.isZero then
    if a.isZero then return nan
    if ← a.isNan then return nan
    return infinity (a.compare? (.int 0) != some .gt)
  else quotient a b

/-- The remainder, with the sign of the dividend. -/
def rem (a b : Number) : Except Fault Number := do
  if b.isZero then return nan
  if ← a.isNan then return nan
  if ← b.isNan then return nan
  if ← a.isInf then return nan
  if ← b.isInf then return a
  return normalize (.float (Binary64.remainder (← a.toFloat) (← b.toFloat)))

/-- Whether the order of two numbers satisfies `test`; it never does if one is no number. -/
def ordered (test : Ordering → Bool) (a b : Number) : Except Fault Bool := do
  if ← a.isNan then return false
  if ← b.isNan then return false
  return (a.compare? b).any test

/-- The most digits an integer may have to be turned to text or read from it. -/
def maxDigits : Nat := 4300

/-- The digits of an integer, if there are not too many of them. -/
def intText (n : Int) : Except Fault String :=
  if n.natAbs < Nat.pow 10 maxDigits then .ok (toString n) else .error .tooManyDigits

/-- The text of a number. An integral double below `10 ^ 21` is written as an integer. -/
def text : Number → Except Fault String
  | .int n => intText n
  | .float x =>
    match Binary64.view x with
    | .nan => .ok "NaN"
    | .infinite negative => .ok (if negative then "-Infinity" else "Infinity")
    | .finite .. =>
      match Binary64.toInt? x with
      | some n => if n.natAbs < Nat.pow 10 21 then .ok (toString n) else .ok (Binary64.text x)
      | none => .ok (Binary64.text x)

/-- The number that a text denotes: zero for a blank one, and not a number for any other text that
is not the text of a number. -/
def ofText (s : String) : Number :=
  let cs := Text.trimBlanks s.toList
  if cs.isEmpty then .int 0
  else match Binary64.read? cs with
    | some x => normalize (.float x)
    | none => nan

/-- A number cut to an integer. -/
def truncate : Number → Except Fault Int
  | .int n => .ok n
  | .float x => match Binary64.truncate? x with
    | some n => .ok n
    | none => .error .numberTooLarge

end Number

end EventLoop
