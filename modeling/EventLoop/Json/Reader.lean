/-
  Reading JSON text. Besides the standard forms the words `NaN`, `Infinity` and `-Infinity` are
  numbers. A number with a fraction or an exponent is a double, any other an integer. Of two fields
  with one key the later value stands.
-/
import EventLoop.Assoc
import EventLoop.Json.Basic

namespace EventLoop.Json

/-- Why a text could not be read. -/
inductive ReadError where
  /-- The text is no JSON. -/
  | malformed
  /-- An integer has too many digits. -/
  | tooManyDigits
  deriving DecidableEq, Repr, Inhabited

/-- Whether `c` may stand between the parts of a JSON text. -/
def isSpace (c : Char) : Bool := c = ' ' || c = '\t' || c = '\n' || c = '\r'

/-- The text without leading spaces. -/
def skipSpace (cs : List Char) : List Char := cs.dropWhile isSpace

/-- The character of an escape of one letter. -/
def letterEscape? (c : Char) : Option Char :=
  match c with
  | '"' => some '"'
  | '\\' => some '\\'
  | '/' => some '/'
  | 'b' => some (Char.ofNat 8)
  | 'f' => some (Char.ofNat 12)
  | 'n' => some '\n'
  | 'r' => some '\r'
  | 't' => some '\t'
  | _ => none

/-- The character for a sixteen-bit unit; one half of a pair on its own is shown as the replacement
character. -/
def unitChar (n : Nat) : Char := if n.isValidChar then Char.ofNat n else Char.ofNat 0xFFFD

/-- Whether a sixteen-bit unit is the first half of a pair. -/
def isLeadUnit (n : Nat) : Bool := 0xD800 ≤ n && n < 0xDC00

/-- Whether a sixteen-bit unit is the second half of a pair. -/
def isTrailUnit (n : Nat) : Bool := 0xDC00 ≤ n && n < 0xE000

/-- Reads the rest of a string up to its closing quote. `done` is what was read, last character
first, and `lead` a first half of a pair that was just read. -/
def readString (done : List Char) (lead : Option Nat) :
    List Char → Except ReadError (String × List Char)
  | [] => .error .malformed
  | '"' :: rest =>
    let done := match lead with
      | some n => unitChar n :: done
      | none => done
    .ok (String.ofList done.reverse, rest)
  | '\\' :: 'u' :: a :: b :: c :: d :: rest =>
    match Text.hexDigitsValue? [a, b, c, d], lead with
    | none, _ => .error .malformed
    | some n, some m =>
      if isTrailUnit n then
        readString (Char.ofNat (0x10000 + (m - 0xD800) * 0x400 + (n - 0xDC00)) :: done) none rest
      else if isLeadUnit n then readString (unitChar m :: done) (some n) rest
      else readString (unitChar n :: unitChar m :: done) none rest
    | some n, none =>
      if isLeadUnit n then readString done (some n) rest
      else readString (unitChar n :: done) none rest
  | '\\' :: e :: rest =>
    match letterEscape? e with
    | some c =>
      let done := match lead with
        | some n => unitChar n :: done
        | none => done
      readString (c :: done) none rest
    | none => .error .malformed
  | c :: rest =>
    if c.toNat < 0x20 || c = '\\' then .error .malformed
    else
      let done := match lead with
        | some n => unitChar n :: done
        | none => done
      readString (c :: done) none rest

/-- The whole part of a number: a single zero, or digits that do not start with one. -/
def wholePart? : List Char → Option (List Char × List Char)
  | '0' :: rest => some (['0'], rest)
  | c :: rest =>
    if Binary64.isPlainDigit c then
      some (c :: rest.takeWhile Binary64.isPlainDigit, rest.dropWhile Binary64.isPlainDigit)
    else none
  | [] => none

/-- The fraction of a number with its point, or nothing. -/
def fractionPart (cs : List Char) : List Char × List Char :=
  match cs with
  | '.' :: c :: rest =>
    if Binary64.isPlainDigit c then
      ('.' :: c :: rest.takeWhile Binary64.isPlainDigit, rest.dropWhile Binary64.isPlainDigit)
    else ([], cs)
  | _ => ([], cs)

/-- The exponent of a number with its mark, or nothing. -/
def exponentPart (cs : List Char) : List Char × List Char :=
  match cs with
  | e :: rest =>
    if e = 'e' || e = 'E' then
      let sign := match rest with
        | '+' :: _ => ['+']
        | '-' :: _ => ['-']
        | _ => []
      let more := rest.drop sign.length
      let ds := more.takeWhile Binary64.isPlainDigit
      if ds.isEmpty then ([], cs)
      else (e :: sign ++ ds, more.dropWhile Binary64.isPlainDigit)
    else ([], cs)
  | [] => ([], cs)

/-- Reads a number after its sign. -/
def readNumber (negative : Bool) (cs : List Char) : Except ReadError (Json × List Char) :=
  match wholePart? cs with
  | none => .error .malformed
  | some (whole, rest) =>
    let (fraction, rest) := fractionPart rest
    let (power, rest) := exponentPart rest
    if fraction.isEmpty && power.isEmpty then
      if whole.length > Number.maxDigits then .error .tooManyDigits
      else .ok (.int (Binary64.signed negative (Text.digitsValue whole)), rest)
    else
      let x := (Binary64.unsigned? (whole ++ fraction ++ power)).getD Binary64.nan
      .ok (.float (if negative then -x else x), rest)

/-- The words that are values. -/
def words : List (List Char × Json) :=
  [("null".toList, .null), ("true".toList, .bool true), ("false".toList, .bool false),
   ("NaN".toList, .float Binary64.nan), ("Infinity".toList, .float (Binary64.infinity false)),
   ("-Infinity".toList, .float (Binary64.infinity true))]

/-- Reads a word or a number. -/
def readScalar (cs : List Char) : Except ReadError (Json × List Char) :=
  match words.find? (fun w => w.1.isPrefixOf cs) with
  | some (w, j) => .ok (j, cs.drop w.length)
  | none => match cs with
    | '-' :: rest => readNumber true rest
    | _ => readNumber false cs

mutual

/-- Reads a value that starts right here. `fuel` bounds the depth and length of what is read. -/
def readValue : Nat → List Char → Except ReadError (Json × List Char)
  | 0, _ => .error .malformed
  | fuel + 1, cs =>
    match cs with
    | '"' :: rest => do
      let (s, rest) ← readString [] none rest
      return (.str s, rest)
    | '[' :: rest =>
      match skipSpace rest with
      | ']' :: rest => .ok (.arr [], rest)
      | rest => readItems fuel [] rest
    | '\x7b' :: rest =>
      match skipSpace rest with
      | '\x7d' :: rest => .ok (.obj [], rest)
      | rest => readFields fuel [] rest
    | _ => readScalar cs

/-- Reads the items of an array up to its end. `done` holds those already read, last one first. -/
def readItems : Nat → List Json → List Char → Except ReadError (Json × List Char)
  | 0, _, _ => .error .malformed
  | fuel + 1, done, cs => do
    let (x, rest) ← readValue fuel cs
    match skipSpace rest with
    | ',' :: rest => readItems fuel (x :: done) (skipSpace rest)
    | ']' :: rest => return (.arr (x :: done).reverse, rest)
    | _ => throw .malformed

/-- Reads the fields of an object up to its end. -/
def readFields : Nat → List (String × Json) → List Char → Except ReadError (Json × List Char)
  | 0, _, _ => .error .malformed
  | fuel + 1, done, cs =>
    match cs with
    | '"' :: rest => do
      let (key, rest) ← readString [] none rest
      match skipSpace rest with
      | ':' :: rest =>
        let (x, rest) ← readValue fuel (skipSpace rest)
        match skipSpace rest with
        | ',' :: rest => readFields fuel (Assoc.insert done key x) (skipSpace rest)
        | '\x7d' :: rest => return (.obj (Assoc.insert done key x), rest)
        | _ => throw .malformed
      | _ => throw .malformed
    | _ => .error .malformed

end

/-- Reads a JSON text. Nothing but spaces may follow the value. -/
def read (text : String) : Except ReadError Json := do
  let cs := text.toList
  let (j, rest) ← readValue (cs.length + 1) (skipSpace cs)
  if (skipSpace rest).isEmpty then return j else throw .malformed

end EventLoop.Json
