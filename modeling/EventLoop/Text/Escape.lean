/-
  The text that a quoted script string denotes: its body with the escapes replaced.

  The body is read one character at a time. The reader is either between escapes, just after a
  backslash, or inside an escape of octal or hexadecimal digits.
-/
import EventLoop.Text.Digit

namespace EventLoop.Text.Escape

/-- Where the reader stands. -/
inductive Mode where
  /-- Between escapes. -/
  | plain
  /-- After a backslash. -/
  | started
  /-- After `count` octal digits that denote `value`. -/
  | octal (value count : Nat)
  /-- With `left` hexadecimal digits still to come after those that denote `value`. -/
  | hex (value left : Nat)
  deriving DecidableEq, Repr

/-- A reader: the characters read so far, last one first, and where it stands. -/
structure Reader where
  read : List Char := []
  mode : Mode := .plain

/-- The character with the code `n`; `none` beyond the last code. A code that is no character of
its own is shown as the replacement character. -/
def charOf? (n : Nat) : Option Char :=
  if n > 0x10FFFF then none
  else if n.isValidChar then some (Char.ofNat n)
  else some (Char.ofNat 0xFFFD)

/-- The character that a one-letter escape denotes. -/
def simple? (c : Char) : Option Char :=
  match c with
  | '\\' => some '\\'
  | '\'' => some '\''
  | '"' => some '"'
  | 'a' => some (Char.ofNat 7)
  | 'b' => some (Char.ofNat 8)
  | 't' => some (Char.ofNat 9)
  | 'n' => some (Char.ofNat 10)
  | 'v' => some (Char.ofNat 11)
  | 'f' => some (Char.ofNat 12)
  | 'r' => some (Char.ofNat 13)
  | _ => none

/-- The value of an octal digit. -/
def octalValue? (c : Char) : Option Nat :=
  if '0' ≤ c && c ≤ '7' then some (c.toNat - '0'.toNat) else none

/-- Reads a character between escapes. A bare carriage return ends a line and so the string. -/
def Reader.plain? (r : Reader) (c : Char) : Option Reader :=
  if c = '\\' then some { r with mode := .started }
  else if c = '\r' then none
  else some { read := c :: r.read, mode := .plain }

/-- Reads the character after a backslash. A carriage return there joins two lines, a named
character is refused, and an unknown escape stands for itself. -/
def Reader.started? (r : Reader) (c : Char) : Option Reader :=
  match simple? c, octalValue? c with
  | some d, _ => some { read := d :: r.read, mode := .plain }
  | none, some v => some { r with mode := .octal v 1 }
  | none, none =>
    match c with
    | '\r' => some { r with mode := .plain }
    | 'x' => some { r with mode := .hex 0 2 }
    | 'u' => some { r with mode := .hex 0 4 }
    | 'U' => some { r with mode := .hex 0 8 }
    | 'N' => none
    | _ => some { read := c :: '\\' :: r.read, mode := .plain }

/-- Ends an escape that denotes the code `n`. -/
def Reader.put? (r : Reader) (n : Nat) : Option Reader :=
  (charOf? n).map fun c => { read := c :: r.read, mode := .plain }

/-- Reads one character. A null character is never part of a string. -/
def Reader.feed? (r : Reader) (c : Char) : Option Reader :=
  if c.toNat = 0 then none
  else match r.mode with
    | .plain => r.plain? c
    | .started => r.started? c
    | .octal v count =>
      match octalValue? c with
      | some d =>
        if count < 3 then some { r with mode := .octal (v * 8 + d) (count + 1) }
        else (r.put? v).bind (·.plain? c)
      | none => (r.put? v).bind (·.plain? c)
    | .hex v left =>
      match hexValue? c with
      | some d =>
        if left ≤ 1 then r.put? (v * 16 + d)
        else some { r with mode := .hex (v * 16 + d) (left - 1) }
      | none => none

/-- The text read, once the body has ended; `none` inside an unfinished escape. -/
def Reader.finish? (r : Reader) : Option (List Char) :=
  match r.mode with
  | .plain => some r.read.reverse
  | .octal v _ => (r.put? v).map (·.read.reverse)
  | .started | .hex _ _ => none

/-- The text that the body of a quoted string denotes; `none` if an escape is malformed. -/
def decode? (body : List Char) : Option (List Char) := do
  let r ← body.foldlM Reader.feed? {}
  r.finish?

end EventLoop.Text.Escape
