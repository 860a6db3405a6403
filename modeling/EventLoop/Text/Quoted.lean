/-
  Quoting of texts: the quoted form of data files, with or without characters beyond ASCII, and the
  quoted form that messages use to show a text.
-/
import EventLoop.Text.Digit
import EventLoop.Text.Printable

namespace EventLoop.Text.Quoted

/-- An escape of `width` hexadecimal digits after the letter `mark`. -/
def hexEscape (mark : Char) (width n : Nat) : List Char := '\\' :: mark :: hexDigits width n

/-- The escape of a character by its sixteen-bit units: one unit, or a pair beyond the first plane.
-/
def unitEscape (c : Char) : List Char :=
  let n := c.toNat
  if n < 0x10000 then hexEscape 'u' 4 n
  else
    let m := n - 0x10000
    hexEscape 'u' 4 (0xD800 + m / 0x400) ++ hexEscape 'u' 4 (0xDC00 + m % 0x400)

/-- The short escape of a character, where the data format has one. -/
def shortEscape? (c : Char) : Option Char :=
  match c with
  | '"' => some '"'
  | '\\' => some '\\'
  | '\n' => some 'n'
  | '\r' => some 'r'
  | '\t' => some 't'
  | _ =>
    if c.toNat = 8 then some 'b'
    else if c.toNat = 12 then some 'f'
    else none

/-- A character of a quoted data text. Control characters are escaped, and with `ascii` also every
character beyond ASCII. -/
def dataChar (ascii : Bool) (c : Char) : List Char :=
  match shortEscape? c with
  | some e => ['\\', e]
  | none =>
    if c.toNat < 0x20 then unitEscape c
    else if ascii && c.toNat > 0x7E then unitEscape c
    else [c]

/-- A text quoted as in a data file. -/
def data (ascii : Bool) (s : String) : String :=
  String.ofList ('"' :: (s.toList.flatMap (dataChar ascii) ++ ['"']))

/-- A character of a text shown in a message between `quote` characters. -/
def shownChar (quote c : Char) : List Char :=
  if c = quote || c = '\\' then ['\\', c]
  else if c = '\n' then ['\\', 'n']
  else if c = '\r' then ['\\', 'r']
  else if c = '\t' then ['\\', 't']
  else if isPrintable c then [c]
  else if c.toNat < 0x100 then hexEscape 'x' 2 c.toNat
  else if c.toNat < 0x10000 then hexEscape 'u' 4 c.toNat
  else hexEscape 'U' 8 c.toNat

/-- A text as a message shows it: in single quotes, unless it holds those and no double ones. -/
def shown (s : String) : String :=
  let cs := s.toList
  let quote := if cs.contains '\'' && !cs.contains '"' then '"' else '\''
  String.ofList (quote :: (cs.flatMap (shownChar quote) ++ [quote]))

end EventLoop.Text.Quoted
