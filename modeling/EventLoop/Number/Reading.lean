/-
  Reading the text of a number. Digits of every script count, an underscore may stand between two
  digits, and infinities and "not a number" are written as words in any case.
-/
import EventLoop.Text.Digit
import EventLoop.Number.Binary64

namespace EventLoop.Binary64

/-- The double nearest to `digits * 10 ^ exponent`; an infinity beyond the largest one. -/
def ofDecimal (digits : Nat) (exponent : Int) : Float :=
  let size : Int := (toString digits).length + exponent
  if digits = 0 || size < -400 then ofMagnitudeBits false 0
  else if 400 < size then infinity false
  else
    (ofRatio? false (digits * Nat.pow 10 exponent.toNat) (Nat.pow 10 (-exponent).toNat)).getD
      (infinity false)

/-- Whether `c` is a decimal digit of ASCII. -/
def isPlainDigit (c : Char) : Bool := '0' ≤ c && c ≤ '9'

/-- The characters of a text with every digit in its ASCII form. -/
def plainDigits (cs : List Char) : List Char :=
  cs.map fun c => match Text.digitValue? c with
    | some d => Char.ofNat ('0'.toNat + d)
    | none => c

/-- The text without its underscores, `last` being the character before it; `none` if an underscore
does not stand between two digits. -/
def joinGroups? (last : Char) : List Char → Option (List Char)
  | [] => if last = '_' then none else some []
  | c :: rest =>
    if c = '_' then
      if isPlainDigit last then joinGroups? c rest else none
    else if last = '_' && !isPlainDigit c then none
    else (joinGroups? c rest).map (c :: ·)

/-- Splits off a sign: whether it is a minus, and the rest. -/
def splitSign : List Char → Bool × List Char
  | '-' :: rest => (true, rest)
  | '+' :: rest => (false, rest)
  | cs => (false, cs)

/-- The exponent that ends a number: the mark, an optional sign and digits, or nothing at all. -/
def exponent? : List Char → Option Int
  | [] => some 0
  | c :: rest =>
    if c = 'e' || c = 'E' then
      let (negative, ds) := splitSign rest
      if !ds.isEmpty && ds.all isPlainDigit then some (signed negative (Text.digitsValue ds))
      else none
    else none

/-- An unsigned number: digits with an optional point among them, and an optional exponent. -/
def unsigned? (cs : List Char) : Option Float :=
  let whole := cs.takeWhile isPlainDigit
  let rest := cs.dropWhile isPlainDigit
  let fraction := match rest with
    | '.' :: more => more.takeWhile isPlainDigit
    | _ => []
  let tail := match rest with
    | '.' :: more => more.dropWhile isPlainDigit
    | _ => rest
  if whole.isEmpty && fraction.isEmpty then none
  else (exponent? tail).map fun e =>
    ofDecimal (Text.digitsValue (whole ++ fraction)) (e - fraction.length)

/-- The double that a text without surrounding blanks denotes. -/
def read? (text : List Char) : Option Float := do
  let cs ← joinGroups? 'x' (plainDigits text)
  let (negative, body) := splitSign cs
  let word := String.ofList (body.map Char.toLower)
  let x ←
    if word = "inf" || word = "infinity" then some (infinity false)
    else if word = "nan" then some nan
    else unsigned? body
  return if negative then -x else x

end EventLoop.Binary64
