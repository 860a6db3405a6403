/-
  Blanking of comments. Every character of a comment becomes a space and newlines stay, so each
  remaining character keeps its line and its place in it. Comment marks inside quotes are text.
-/
namespace EventLoop.Source

/-- Whether `c` opens a quoted text: a string or a template. -/
def isQuote (c : Char) : Bool := c = '\'' || c = '"' || c = '\x60'

/-- What a quoted text makes of its next character: whether the character after it is escaped, or
`none` if it closes the text. -/
def quoteStep (quote : Char) (escaped : Bool) (c : Char) : Option Bool :=
  if escaped then some false
  else if c = '\\' then some true
  else if c = quote then none
  else some false

/-- Where a character of the source stands. -/
inductive Region where
  | code
  | lineComment
  | blockComment
  /-- Inside a text opened by `quote`; `escaped` after a backslash. -/
  | quoted (quote : Char) (escaped : Bool)
  deriving DecidableEq, Repr

/-- Blanks the comments of the rest of a source. `done` is what was written so far, last character
first. -/
def blankFrom (done : List Char) : Region → List Char → List Char
  | _, [] => done.reverse
  | .blockComment, '*' :: '/' :: rest => blankFrom (' ' :: ' ' :: done) .code rest
  | .blockComment, c :: rest =>
    blankFrom ((if c = '\n' then c else ' ') :: done) .blockComment rest
  | .lineComment, c :: rest =>
    if c = '\n' then blankFrom (c :: done) .code rest
    else blankFrom (' ' :: done) .lineComment rest
  | .quoted quote escaped, c :: rest =>
    match quoteStep quote escaped c with
    | some next => blankFrom (c :: done) (.quoted quote next) rest
    | none => blankFrom (c :: done) .code rest
  | .code, '/' :: '/' :: rest => blankFrom (' ' :: ' ' :: done) .lineComment rest
  | .code, '/' :: '*' :: rest => blankFrom (' ' :: ' ' :: done) .blockComment rest
  | .code, c :: rest =>
    if isQuote c then blankFrom (c :: done) (.quoted c false) rest
    else blankFrom (c :: done) .code rest

/-- The source with its comments blanked. -/
def blankComments (source : List Char) : List Char := blankFrom [] .code source

end EventLoop.Source
