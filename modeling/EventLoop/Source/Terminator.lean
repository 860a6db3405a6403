/-
  Statement terminators. A program may leave out the semicolon at the end of a line and before a
  closing brace; `terminate` writes it. A line goes on if it ends in an operator, if the next one
  starts by continuing an expression, or inside parentheses and brackets.
-/
import EventLoop.Text.Alphanumeric
import EventLoop.Source.Comment

namespace EventLoop.Source

/-- Characters after which a newline never ends a statement. -/
def continuationChars : List Char := "=+-*/%<>&|!?:.,;\x7b([".toList

/-- Characters that continue the previous line when they start the next one. -/
def leadingContinuationChars : List Char := ".,)]?:=*/%&|<>".toList

/-- Whether `c` separates words on and between lines. -/
def isLayout (c : Char) : Bool := c = ' ' || c = '\t' || c = '\r' || c = '\n'

/-- Whether a statement may end after what was written so far, given last character first. An
operator at the end asks for more, unless it completes `++` or `--`. -/
def mayEndAfter (done : List Char) : Bool :=
  match done.dropWhile isLayout with
  | [] => false
  | prev :: before =>
    !continuationChars.contains prev ||
      ((prev = '+' || prev = '-') && before.head? = some prev)

/-- Whether the text starts with the word `else`. -/
def startsWithElse : List Char → Bool
  | 'e' :: 'l' :: 's' :: 'e' :: rest =>
    match rest with
    | [] => true
    | c :: _ => !(Text.isAlphanumeric c || c = '_' || c = '$')
  | _ => false

/-- Whether the rest of a source can start a statement of its own. -/
def mayStartWith (rest : List Char) : Bool :=
  match rest.dropWhile isLayout with
  | [] => true
  | '+' :: '+' :: _ => true
  | '-' :: '-' :: _ => true
  | next :: more =>
    !(leadingContinuationChars.contains next || next = '+' || next = '-' || next = '\x7b') &&
      !startsWithElse (next :: more)

/-- Whether a semicolon belongs between what was written and the rest. -/
def needsTerminator (done rest : List Char) : Bool := mayEndAfter done && mayStartWith rest

/-- Whether the statement before a closing brace is still open: something stands there that is
neither a semicolon nor the opening brace. -/
def openBeforeBrace (done : List Char) : Bool :=
  match done.dropWhile isLayout with
  | [] => false
  | prev :: _ => !(prev = ';' || prev = '\x7b')

/-- Whether statements can end at this depth of brackets, given innermost first: outside all of them
or directly in a block. -/
def inBlock (brackets : List Char) : Bool := brackets.isEmpty || brackets.head? = some '\x7b'

/-- Writes the terminators of the rest of a source. `done` is what was written so far, last
character first, `brackets` the open brackets, innermost first, and `quoted` the quote of the text
around the next character and whether that is escaped. -/
def terminateFrom (done brackets : List Char) (quoted : Option (Char × Bool)) :
    List Char → List Char
  | [] =>
    let whole := if quoted.isNone && brackets.isEmpty && needsTerminator done [] then ';' :: done
      else done
    whole.reverse
  | c :: rest =>
    match quoted with
    | some (quote, escaped) =>
      terminateFrom (c :: done) brackets ((quoteStep quote escaped c).map (quote, ·)) rest
    | none =>
      if isQuote c then terminateFrom (c :: done) brackets (some (c, false)) rest
      else if c = '(' || c = '[' || c = '\x7b' then
        terminateFrom (c :: done) (c :: brackets) none rest
      else if c = ')' || c = ']' then terminateFrom (c :: done) brackets.tail none rest
      else if c = '\x7d' then
        let before := if brackets.head? = some '\x7b' && openBeforeBrace done then ';' :: done
          else done
        terminateFrom (c :: before) brackets.tail none rest
      else if c = '\n' then
        let before := if inBlock brackets && needsTerminator done rest then ';' :: done else done
        terminateFrom (c :: before) brackets none rest
      else terminateFrom (c :: done) brackets none rest

/-- The source with its statement terminators written. -/
def terminate (source : List Char) : List Char := terminateFrom [] [] none source

/-- The source as the parser reads it: comments blanked and terminators written. -/
def prepare (source : List Char) : List Char := terminate (blankComments source)

end EventLoop.Source
