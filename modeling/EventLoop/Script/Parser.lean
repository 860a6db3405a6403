/-
  Reading programs and expressions. Each function takes a cursor that stands at the first token of
  what it reads and gives the node with the cursor behind it; `none` means that the text is no
  program. A node starts on the line of its first token, where parentheses around its first part
  count. `fuel` bounds the depth of the calls: five of them at most for each character.
-/
import EventLoop.Source.Template
import EventLoop.Source.Terminator
import EventLoop.Text.Escape
import EventLoop.Script.Basic
import EventLoop.Script.Token

namespace EventLoop.Script

/-- The value of a number as it is written. With a point or an exponent it is read as a double, and
kept as an integer if it is one. -/
def numberValue? (text : List Char) : Option Number :=
  if text.any (fun c => c = '.' || c = 'e' || c = 'E') then
    (Binary64.read? text).map fun x =>
      match Binary64.toInt? x with
      | some n => .int n
      | none => .float x
  else if text.length > Number.maxDigits then none
  else some (.int (Text.digitsValue text))

/-- Reads the names of parameters up to the closing parenthesis. `done` holds those already read,
last one first. -/
def paramsRest : Nat → List String → Cursor → Option (List String × Cursor)
  | 0, _, _ => none
  | fuel + 1, done, c =>
    match c.token with
    | .name x => do
      let c ← c.advance .plain
      match c.token with
      | .mark .comma => paramsRest fuel (x :: done) (← c.advance .plain)
      | .mark .rightParen => return ((x :: done).reverse, ← c.advance .plain)
      | _ => none
    | _ => none

/-- Reads parameters behind their opening parenthesis. -/
def params (fuel : Nat) (c : Cursor) : Option (List String × Cursor) :=
  if c.token = .mark .rightParen then (c.advance .plain).map fun c => ([], c)
  else paramsRest fuel [] c

/-- The statement that an expression with a semicolon is: a named function declares itself. -/
def Stmt.ofExpr (e : Expr) (line : Nat) : Stmt :=
  match e with
  | .function params (.block b) (some name) false isAsync fnLine =>
    .function name params b isAsync fnLine
  | e => .expr e line

mutual

/-- Reads an expression: an assignment, a function with an arrow, or operands with operators. -/
def expression : Nat → Cursor → Option (Expr × Cursor)
  | 0, _ => none
  | fuel + 1, c =>
    match c.token with
    | .name x => do
      let next ← c.advance .afterVariable
      match next.token with
      | .mark (.assign op) =>
        let (e, rest) ← expression fuel (← next.advance .value)
        return (.assign op x e c.line, rest)
      | .mark .arrow => arrowBody fuel [x] false c.line (← next.advance .value)
      | _ =>
        let (e, rest) ← variableRest fuel x c.line next
        binaryRest fuel 1 c.line e rest
    | .arrowHead params => do arrowBody fuel params false c.line (← c.advance .value)
    | .keyword .asyncWord => do
      let next ← c.advance .afterAsync
      match next.token with
      | .arrowHead params => arrowBody fuel params true c.line (← next.advance .value)
      | .name x =>
        let next ← next.advance .plain
        arrowBody fuel [x] true c.line (← next.expect .arrow .value)
      | _ =>
        let (f, rest) ← functionRest fuel true c.line next
        let (e, rest) ← operandRest fuel c.line f rest
        binaryRest fuel 1 c.line e rest
    | _ => binary fuel 1 c

/-- Reads the body of a function behind its arrow. -/
def arrowBody : Nat → List String → Bool → Nat → Cursor → Option (Expr × Cursor)
  | 0, _, _, _, _ => none
  | fuel + 1, params, isAsync, line, c =>
    if c.token = .mark .leftBrace then do
      let (b, rest) ← block fuel c
      return (.function params (.block b) none true isAsync line, rest)
    else do
      let (e, rest) ← expression fuel c
      return (.function params (.value e) none true isAsync line, rest)

/-- Reads operands joined by operators that bind at least as tightly as `level`. -/
def binary : Nat → Nat → Cursor → Option (Expr × Cursor)
  | 0, _, _ => none
  | fuel + 1, level, c => do
    let (e, rest) ← unary fuel c
    binaryRest fuel level c.line e rest

/-- Reads what follows the first operand `left` of such a chain, which started on `line`. -/
def binaryRest : Nat → Nat → Nat → Expr → Cursor → Option (Expr × Cursor)
  | 0, _, _, _, _ => none
  | fuel + 1, level, line, left, c =>
    match c.token with
    | .mark (.binary op) =>
      if level ≤ op.level then do
        let (right, rest) ← binary fuel (op.level + 1) (← c.advance .operand)
        binaryRest fuel level line (.binary op left right line) rest
      else some (left, c)
    | _ => some (left, c)

/-- Reads an operand with the operators in front of it. -/
def unary : Nat → Cursor → Option (Expr × Cursor)
  | 0, _ => none
  | fuel + 1, c =>
    match c.token with
    | .mark .bang => do
      let (e, rest) ← unary fuel (← c.advance .operand)
      return (.unary .not e c.line, rest)
    | .mark (.binary .sub) => do
      let (e, rest) ← unary fuel (← c.advance .operand)
      return (.unary .neg e c.line, rest)
    | .mark (.binary .add) => do
      let (e, rest) ← unary fuel (← c.advance .operand)
      return (.unary .pos e c.line, rest)
    | .keyword .awaitWord => do
      let (e, rest) ← unary fuel (← c.advance .operand)
      return (.await e c.line, rest)
    | .mark (.update op) => do
      let next ← c.advance .plain
      match next.token with
      | .name x => return (.update op x true c.line, ← next.advance .afterOperand)
      | _ => none
    | _ => operand fuel c

/-- Reads an operand with the calls and members behind it. -/
def operand : Nat → Cursor → Option (Expr × Cursor)
  | 0, _ => none
  | fuel + 1, c =>
    match c.token with
    | .name x => do variableRest fuel x c.line (← c.advance .afterVariable)
    | .number text => do
      let n ← numberValue? text
      operandRest fuel c.line (.literal (.number n) c.line) (← c.advance .afterOperand)
    | .text body => do
      let s ← Text.Escape.decode? body
      operandRest fuel c.line (.literal (.text (String.ofList s)) c.line)
        (← c.advance .afterOperand)
    | .template body => do
      let parts ← Source.splitTemplate? body
      let spans ← templateSpans fuel parts.spans
      operandRest fuel c.line (.template spans (String.ofList parts.tail) c.line)
        (← c.advance .afterOperand)
    | .keyword .trueWord => do
      operandRest fuel c.line (.literal (.bool true) c.line) (← c.advance .afterOperand)
    | .keyword .falseWord => do
      operandRest fuel c.line (.literal (.bool false) c.line) (← c.advance .afterOperand)
    | .keyword .nullWord => do
      operandRest fuel c.line (.literal .null c.line) (← c.advance .afterOperand)
    | .keyword .functionWord => do
      let (f, rest) ← functionRest fuel false c.line c
      operandRest fuel c.line f rest
    | .keyword .asyncWord => do
      let (f, rest) ← functionRest fuel true c.line (← c.advance .afterAsync)
      operandRest fuel c.line f rest
    | .mark .leftParen => do
      let (e, rest) ← expression fuel (← c.advance .value)
      operandRest fuel c.line e (← rest.expect .rightParen .afterOperand)
    | .mark .leftBracket => do
      let (items, rest) ← arguments fuel .rightBracket (← c.advance .value)
      operandRest fuel c.line (.array items c.line) rest
    | _ => none

/-- Reads what follows the variable `x`: a count, calls and members. -/
def variableRest : Nat → String → Nat → Cursor → Option (Expr × Cursor)
  | 0, _, _, _ => none
  | fuel + 1, x, line, c =>
    match c.token with
    | .mark (.update op) => do
      operandRest fuel line (.update op x false line) (← c.advance .afterOperand)
    | _ => operandRest fuel line (.ident x line) c

/-- Reads the calls and members behind the operand `e`, which started on `line`. -/
def operandRest : Nat → Nat → Expr → Cursor → Option (Expr × Cursor)
  | 0, _, _, _ => none
  | fuel + 1, line, e, c =>
    match c.token with
    | .mark .leftParen => do
      let (args, rest) ← arguments fuel .rightParen (← c.advance .value)
      operandRest fuel line (.call e args line) rest
    | .mark .dot => do
      let next ← c.advance .plain
      match next.token with
      | .name x => operandRest fuel line (.member e x line) (← next.advance .afterOperand)
      | _ => none
    | _ => some (e, c)

/-- Reads expressions between commas up to the mark `closer`. -/
def arguments : Nat → Mark → Cursor → Option (List Expr × Cursor)
  | 0, _, _ => none
  | fuel + 1, closer, c =>
    if c.token = .mark closer then (c.advance .afterOperand).map fun c => ([], c)
    else argumentsRest fuel closer [] c

/-- Reads one expression or more up to `closer`. `done` holds those already read, last one first. -/
def argumentsRest : Nat → Mark → List Expr → Cursor → Option (List Expr × Cursor)
  | 0, _, _, _ => none
  | fuel + 1, closer, done, c => do
    let (e, rest) ← expression fuel c
    if rest.token = .mark .comma then
      argumentsRest fuel closer (e :: done) (← rest.advance .value)
    else return ((e :: done).reverse, ← rest.expect closer .afterOperand)

/-- Reads a function from the word `function` on. -/
def functionRest : Nat → Bool → Nat → Cursor → Option (Expr × Cursor)
  | 0, _, _, _ => none
  | fuel + 1, isAsync, line, c => do
    if c.token ≠ .keyword .functionWord then none
    let next ← c.advance .plain
    let (name, next) ← match next.token with
      | .name x => do pure (some x, ← next.advance .plain)
      | _ => pure (none, next)
    let (ps, next) ← params fuel (← next.expect .leftParen .plain)
    let (b, rest) ← block fuel next
    return (.function ps (.block b) name false isAsync line, rest)

/-- Reads the expressions embedded in a template. Their lines are counted from one. -/
def templateSpans : Nat → List (List Char × List Char) → Option (List Span)
  | 0, _ => none
  | _ + 1, [] => some []
  | fuel + 1, (text, source) :: spans => do
    let (e, rest) ← expression fuel (← Place.value.next 1 source)
    if rest.token ≠ .finish then none
    return .mk (String.ofList text) e :: (← templateSpans fuel spans)

/-- Reads a block. -/
def block : Nat → Cursor → Option (Block × Cursor)
  | 0, _ => none
  | fuel + 1, c => do
    let (stmts, rest) ← statements fuel [] (← c.expect .leftBrace .statement)
    return (.mk stmts c.line, ← rest.expect .rightBrace .afterBlock)

/-- Reads statements up to a closing brace or the end. `done` holds those already read, last one
first. -/
def statements : Nat → List Stmt → Cursor → Option (List Stmt × Cursor)
  | 0, _, _ => none
  | fuel + 1, done, c =>
    if c.token = .mark .rightBrace || c.token = .finish then some (done.reverse, c)
    else if c.token = .mark .semicolon then do statements fuel done (← c.advance .statement)
    else do
      let (s, rest) ← statement fuel c
      statements fuel (s :: done) rest

/-- Reads a statement other than a lone semicolon. -/
def statement : Nat → Cursor → Option (Stmt × Cursor)
  | 0, _ => none
  | fuel + 1, c =>
    match c.token with
    | .keyword (.decl kind) => do
      let (decls, rest) ← declarators fuel [] (← c.advance .plain)
      return (.declare kind decls c.line, ← rest.expect .semicolon .statement)
    | .keyword .ifWord => branch fuel c
    | .keyword .forWord => loop fuel c
    | .keyword .returnWord => do
      let next ← c.advance .value
      if next.token = .mark .semicolon then
        return (.ret none c.line, ← next.advance .statement)
      let (e, rest) ← expression fuel next
      return (.ret (some e) c.line, ← rest.expect .semicolon .statement)
    | .mark .leftBrace => do
      let (b, rest) ← block fuel c
      return (.block b, rest)
    | _ => do
      let (e, rest) ← expression fuel c
      return (Stmt.ofExpr e c.line, ← rest.expect .semicolon .statement)

/-- Reads the variables of a declaration. `done` holds those already read, last one first. -/
def declarators : Nat → List Declarator → Cursor → Option (List Declarator × Cursor)
  | 0, _, _ => none
  | fuel + 1, done, c =>
    match c.token with
    | .name x => do
      let next ← c.advance .plain
      let (init, rest) ←
        if next.token = .mark (.assign .set) then do
          let (e, rest) ← expression fuel (← next.advance .value)
          pure (some e, rest)
        else pure (none, next)
      if rest.token = .mark .comma then
        declarators fuel (.mk x init :: done) (← rest.advance .plain)
      else return ((Declarator.mk x init :: done).reverse, rest)
    | _ => none

/-- Reads a condition from the word `if` on. -/
def branch : Nat → Cursor → Option (Stmt × Cursor)
  | 0, _ => none
  | fuel + 1, c => do
    let next ← c.advance .plain
    let (condition, rest) ← expression fuel (← next.expect .leftParen .value)
    let (body, rest) ← block fuel (← rest.expect .rightParen .plain)
    if rest.token = .keyword .elseWord then
      let next ← rest.advance .afterElse
      if next.token = .keyword .ifWord then
        let (other, rest) ← branch fuel next
        return (.branch condition body (some other) c.line, rest)
      let (other, rest) ← block fuel next
      return (.branch condition body (some (.block other)) c.line, rest)
    return (.branch condition body none c.line, rest)

/-- Reads a loop from the word `for` on. -/
def loop : Nat → Cursor → Option (Stmt × Cursor)
  | 0, _ => none
  | fuel + 1, c => do
    let next ← c.advance .plain
    let next ← next.expect .leftParen .loopStart
    let (init, next) ← match next.token with
      | .mark .semicolon => pure (LoopInit.nothing, next)
      | .keyword (.decl kind) => do
        let (decls, rest) ← declarators fuel [] (← next.advance .plain)
        pure (.declare kind decls next.line, rest)
      | _ => do
        let (e, rest) ← expression fuel next
        pure (.expr e, rest)
    let (condition, next) ← optionalExpression fuel .semicolon (← next.expect .semicolon .value)
    let (update, next) ← optionalExpression fuel .rightParen (← next.expect .semicolon .value)
    let (body, rest) ← block fuel (← next.expect .rightParen .plain)
    return (.loop init condition update body c.line, rest)

/-- Reads an expression unless the mark `closer` is here already. -/
def optionalExpression : Nat → Mark → Cursor → Option (Option Expr × Cursor)
  | 0, _, _ => none
  | fuel + 1, closer, c =>
    if c.token = .mark closer then some (none, c)
    else do
      let (e, rest) ← expression fuel c
      return (some e, rest)

end

/-- The depth of calls that a text of the given length may need. -/
def parseFuel (length : Nat) : Nat := 8 * length + 32

/-- Reads a text that is one expression, as it stands. -/
def parseExpression? (source : String) : Option Expr := do
  let cs := source.toList
  let (e, rest) ← expression (parseFuel cs.length) (← Place.value.next 1 cs)
  if rest.token = .finish then return e else none

/-- Reads a program that is prepared: without comments and with its terminators. -/
def parsePrepared? (cs : List Char) : Option Program := do
  let (stmts, rest) ← statements (parseFuel cs.length) [] (← Place.statement.next 1 cs)
  if rest.token = .finish then return ⟨stmts⟩ else none

/-- Reads a program. -/
def parse? (source : String) : Option Program := parsePrepared? (Source.prepare source.toList)

end EventLoop.Script
