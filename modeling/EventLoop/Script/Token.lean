/-
  The words and marks of a program. What a piece of text is depends on the place where it stands:
  words are reserved only where a statement or an expression may use them, `++` is one mark except
  right after an operand that cannot be counted, and a parenthesised text before `=>` is the head of
  a function wherever a function may start. `Place` names these places and `Place.next` reads one
  token.
-/
import EventLoop.Text.Blank
import EventLoop.Text.Digit
import EventLoop.Script.Operator

namespace EventLoop.Script

/-- Words with a meaning of their own. -/
inductive Keyword where
  | asyncWord | awaitWord | elseWord | falseWord | forWord | functionWord | ifWord | nullWord
  | returnWord | trueWord
  | decl (kind : DeclKind)
  deriving DecidableEq, Repr, Inhabited

/-- How a keyword is written. -/
def Keyword.text : Keyword → String
  | .asyncWord => "async"
  | .awaitWord => "await"
  | .elseWord => "else"
  | .falseWord => "false"
  | .forWord => "for"
  | .functionWord => "function"
  | .ifWord => "if"
  | .nullWord => "null"
  | .returnWord => "return"
  | .trueWord => "true"
  | .decl kind => kind.text

/-- Marks. -/
inductive Mark where
  | leftParen | rightParen | leftBracket | rightBracket | leftBrace | rightBrace
  | semicolon | comma | dot | bang | arrow
  | assign (op : AssignOp)
  | update (op : UpdateOp)
  | binary (op : BinaryOp)
  deriving DecidableEq, Repr, Inhabited

/-- How a mark is written. -/
def Mark.text : Mark → String
  | .leftParen => "("
  | .rightParen => ")"
  | .leftBracket => "["
  | .rightBracket => "]"
  | .leftBrace => "\x7b"
  | .rightBrace => "\x7d"
  | .semicolon => ";"
  | .comma => ","
  | .dot => "."
  | .bang => "!"
  | .arrow => "=>"
  | .assign op => op.text
  | .update op => op.text
  | .binary op => op.text

/-- All marks, so that none stands behind one that its text starts with. -/
def Mark.longestFirst : List Mark :=
  [.binary .strictEq, .binary .strictNe,
   .binary .looseEq, .binary .looseNe, .binary .le, .binary .ge, .binary .and, .binary .or, .arrow,
   .assign .add, .assign .sub, .assign .mul, .assign .div, .assign .rem,
   .update .increment, .update .decrement,
   .binary .lt, .binary .gt, .binary .add, .binary .sub, .binary .mul, .binary .div, .binary .rem,
   .assign .set, .leftParen, .rightParen, .leftBracket, .rightBracket, .leftBrace, .rightBrace,
   .semicolon, .comma, .dot, .bang]

/-- A token. -/
inductive Token where
  | name (s : String)
  | keyword (k : Keyword)
  /-- A number as it is written. -/
  | number (text : List Char)
  /-- A string: the text between its quotes, as it is written. -/
  | text (body : List Char)
  /-- A template: the text between its quotes. -/
  | template (body : List Char)
  /-- Parameters in parentheses and the arrow behind them. -/
  | arrowHead (params : List String)
  | mark (m : Mark)
  | finish
  deriving DecidableEq, Repr, Inhabited

/-- Where a token stands. -/
inductive Place where
  /-- A statement may start. -/
  | statement
  /-- Behind a closing brace, which may have ended a statement or a function. -/
  | afterBlock
  /-- The head of a loop starts. -/
  | loopStart
  /-- An expression may start. -/
  | value
  /-- An operand may start, but no function with an arrow. -/
  | operand
  /-- Behind a variable, which may be counted or assigned to. -/
  | afterVariable
  /-- Behind any other operand. -/
  | afterOperand
  /-- Behind the word `async`. -/
  | afterAsync
  /-- Behind the word `else`. -/
  | afterElse
  /-- Only a name or a certain mark may come. -/
  | plain
  deriving DecidableEq, Repr, Inhabited

namespace Place

/-- Words reserved where an expression may start. -/
def valueWords : List Keyword :=
  [.asyncWord, .awaitWord, .falseWord, .functionWord, .nullWord, .trueWord]

/-- Words that declare. -/
def declWords : List Keyword := [.decl .letWord, .decl .constWord, .decl .varWord]

/-- The words reserved at a place; any other word is a name there. -/
def reserved : Place → List Keyword
  | .statement => valueWords ++ declWords ++ [.forWord, .ifWord, .returnWord]
  | .afterBlock => valueWords ++ declWords ++ [.forWord, .ifWord, .returnWord, .elseWord]
  | .loopStart => valueWords ++ declWords
  | .value | .operand => valueWords
  | .afterAsync => [.functionWord]
  | .afterElse => [.ifWord]
  | .afterVariable | .afterOperand | .plain => []

/-- Whether a function with an arrow may start. -/
def startsArrow : Place → Bool
  | .statement | .afterBlock | .loopStart | .value | .afterAsync => true
  | .operand | .afterVariable | .afterOperand | .afterElse | .plain => false

/-- Whether `++` and `--` are marks of their own; elsewhere they are two signs. -/
def joinsSigns : Place → Bool
  | .afterOperand => false
  | _ => true

end Place

/-! ## Pieces of text -/

/-- Whether `c` separates tokens. -/
def isSpace (c : Char) : Bool :=
  c = ' ' || c = '\t' || c = '\n' || c = '\r' || c.toNat = 12

/-- Whether `c` may start a word. -/
def isWordStart (c : Char) : Bool := c.isAlpha || c = '_' || c = '$'

/-- Whether `c` may go on with a word. -/
def isWordChar (c : Char) : Bool := c.isAlphanum || c = '_' || c = '$'

/-- The number of line breaks in a text. -/
def lineBreaks (cs : List Char) : Nat := cs.count '\n'

/-- The end of a number behind its whole part: a point with digits, and nothing else with it. -/
def numberFraction (cs : List Char) : List Char × List Char :=
  match cs with
  | '.' :: d :: rest =>
    if Text.isDigit d then
      ('.' :: d :: rest.takeWhile Text.isDigit, rest.dropWhile Text.isDigit)
    else ([], cs)
  | _ => ([], cs)

/-- The exponent of a number, if there is a whole one. -/
def numberExponent (cs : List Char) : List Char × List Char :=
  match cs with
  | e :: rest =>
    if e = 'e' || e = 'E' then
      let sign := match rest with
        | '+' :: _ => ['+']
        | '-' :: _ => ['-']
        | _ => []
      let more := rest.drop sign.length
      let ds := more.takeWhile Text.isDigit
      if ds.isEmpty then ([], cs)
      else (e :: sign ++ ds, more.dropWhile Text.isDigit)
    else ([], cs)
  | [] => ([], cs)

/-- The number at the start of a text that starts with a digit, and the rest. -/
def splitNumber (cs : List Char) : List Char × List Char :=
  let whole := cs.takeWhile Text.isDigit
  let (fraction, rest) := numberFraction (cs.dropWhile Text.isDigit)
  let (power, rest) := numberExponent rest
  (whole ++ fraction ++ power, rest)

/-- The body of a string up to its closing quote, and the rest; `none` if its line ends before. -/
def splitText? (quote : Char) (done : List Char) : List Char → Option (List Char × List Char)
  | [] => none
  | '\\' :: c :: rest =>
    if c = '\n' then none else splitText? quote (c :: '\\' :: done) rest
  | c :: rest =>
    if c = quote then some (done.reverse, rest)
    else if c = '\n' || c = '\\' then none
    else splitText? quote (c :: done) rest

/-- The body of a template up to its closing quote, and the rest. -/
def splitTemplateBody? (cs : List Char) : Option (List Char × List Char) :=
  match cs.dropWhile (· != '\x60') with
  | [] => none
  | _ :: rest => some (cs.takeWhile (· != '\x60'), rest)

/-- The parts of a text between commas. -/
def splitCommas (cs : List Char) : List (List Char) := cs.splitOn ','

/-- The parameters written between parentheses. -/
def paramNames (cs : List Char) : List String :=
  ((splitCommas cs).map Text.trimBlanks).filterMap fun p =>
    if p.isEmpty then none else some (String.ofList p)

/-- The head of a function behind its opening parenthesis: the text up to the first parenthesis,
which closes it, and the arrow. Gives the parameters, the line breaks inside and the rest. -/
def splitArrowHead? (cs : List Char) : Option (List String × Nat × List Char) :=
  let isParen := fun c => c = '(' || c = ')'
  let inner := cs.takeWhile (!isParen ·)
  match cs.dropWhile (!isParen ·) with
  | ')' :: rest =>
    match rest.dropWhile Text.isBlank with
    | '=' :: '>' :: more =>
      some (paramNames inner, lineBreaks inner + lineBreaks (rest.takeWhile Text.isBlank), more)
    | _ => none
  | _ => none

/-- The mark at the start of a text, and the rest. -/
def splitMark? (joins : Bool) (cs : List Char) : Option (Mark × List Char) :=
  let fits := fun (m : Mark) =>
    (joins || m != .update .increment && m != .update .decrement) && m.text.toList.isPrefixOf cs
  (Mark.longestFirst.find? fits).map fun m => (m, cs.drop m.text.length)

/-! ## Reading tokens -/

/-- A token that was read, the line breaks inside it, and the rest of the text. -/
structure Lexeme where
  token : Token
  breaks : Nat := 0
  rest : List Char

/-- What a word is at a place. -/
def Place.word (p : Place) (s : String) : Token :=
  match p.reserved.find? (·.text == s) with
  | some k => .keyword k
  | none => .name s

/-- Reads the token at the start of a text, which is no space. -/
def Place.lexeme? (p : Place) (cs : List Char) : Option Lexeme :=
  match cs with
  | [] => some { token := .finish, rest := [] }
  | c :: rest =>
    if isWordStart c then
      some { token := p.word (String.ofList (cs.takeWhile isWordChar))
             rest := cs.dropWhile isWordChar }
    else if Text.isDigit c then
      let (text, rest) := splitNumber cs
      some { token := .number text, rest }
    else if c = '"' || c = '\'' then
      (splitText? c [] rest).map fun (body, rest) => { token := .text body, rest }
    else if c = '\x60' then
      (splitTemplateBody? rest).map fun (body, rest) =>
        { token := .template body, breaks := lineBreaks body, rest }
    else
      let head := if c = '(' && p.startsArrow then splitArrowHead? rest else none
      match head with
      | some (params, breaks, rest) => some { token := .arrowHead params, breaks, rest }
      | none => (splitMark? p.joinsSigns cs).map fun (m, rest) => { token := .mark m, rest }

/-- A reader that stands at a token: the token, its line, and the text behind it with the line on
which that starts. -/
structure Cursor where
  token : Token
  line : Nat
  rest : List Char
  restLine : Nat

/-- Reads the next token of a text that starts on `line`. -/
def Place.next (p : Place) (line : Nat) (cs : List Char) : Option Cursor :=
  let start := line + lineBreaks (cs.takeWhile isSpace)
  (p.lexeme? (cs.dropWhile isSpace)).map fun l =>
    { token := l.token, line := start, rest := l.rest, restLine := start + l.breaks }

/-- Moves to the next token, which stands at place `p`. -/
def Cursor.advance (c : Cursor) (p : Place) : Option Cursor := p.next c.restLine c.rest

/-- Moves past the mark `m`, which must be here, to a token at place `p`. -/
def Cursor.expect (c : Cursor) (m : Mark) (p : Place) : Option Cursor :=
  if c.token = .mark m then c.advance p else none

end EventLoop.Script
