/-
  Programs of the script language: expressions, statements and blocks. Every node carries the line
  of the source on which it starts.
-/
import EventLoop.Number.Basic
import EventLoop.Script.Operator

namespace EventLoop.Script

/-- A constant written in the source. -/
inductive Literal where
  | null
  | bool (b : Bool)
  | number (n : Number)
  | text (s : String)
  deriving Repr, Inhabited

mutual

/-- An expression. -/
inductive Expr where
  | literal (value : Literal) (line : Nat)
  | ident (name : String) (line : Nat)
  /-- A template: embedded expressions with the text before each, and the text after the last. -/
  | template (spans : List Span) (tail : String) (line : Nat)
  | array (items : List Expr) (line : Nat)
  | binary (op : BinaryOp) (left right : Expr) (line : Nat)
  | unary (op : UnaryOp) (operand : Expr) (line : Nat)
  | assign (op : AssignOp) (name : String) (value : Expr) (line : Nat)
  /-- Counts a variable up or down; its value is the new one if the operator stands `before`. -/
  | update (op : UpdateOp) (name : String) (before : Bool) (line : Nat)
  | member (target : Expr) (name : String) (line : Nat)
  | call (callee : Expr) (args : List Expr) (line : Nat)
  | function (params : List String) (body : Body) (name : Option String) (isArrow isAsync : Bool)
    (line : Nat)
  | await (operand : Expr) (line : Nat)

/-- An expression embedded in a template, with the text before it. -/
inductive Span where
  | mk (text : String) (expr : Expr)

/-- The body of a function: a block, or an expression that is its value. -/
inductive Body where
  | block (b : Block)
  | value (e : Expr)

/-- Statements in braces. -/
inductive Block where
  | mk (stmts : List Stmt) (line : Nat)

/-- A variable of a declaration with its initial value. -/
inductive Declarator where
  | mk (name : String) (init : Option Expr)

/-- What a loop does first. -/
inductive LoopInit where
  | nothing
  | declare (kind : DeclKind) (decls : List Declarator) (line : Nat)
  | expr (e : Expr)

/-- A statement. -/
inductive Stmt where
  | expr (e : Expr) (line : Nat)
  | declare (kind : DeclKind) (decls : List Declarator) (line : Nat)
  | function (name : String) (params : List String) (body : Block) (isAsync : Bool) (line : Nat)
  | block (b : Block)
  /-- A condition with a block, and a block or another condition for the other case. -/
  | branch (condition : Expr) (body : Block) (otherwise : Option Stmt) (line : Nat)
  | loop (init : LoopInit) (condition update : Option Expr) (body : Block) (line : Nat)
  | ret (value : Option Expr) (line : Nat)

end

instance : Inhabited Expr := ⟨.literal .null 0⟩
instance : Inhabited Block := ⟨.mk [] 0⟩
instance : Inhabited Body := ⟨.block default⟩
instance : Inhabited Stmt := ⟨.block default⟩

/-- A program: its statements. -/
structure Program where
  body : List Stmt
  deriving Inhabited

/-- The statements of a block. -/
def Block.stmts : Block → List Stmt
  | .mk stmts _ => stmts

/-- The line of a block. -/
def Block.line : Block → Nat
  | .mk _ line => line

/-- The line of an expression. -/
def Expr.line : Expr → Nat
  | .literal _ line | .ident _ line | .template _ _ line | .array _ line | .binary _ _ _ line
  | .unary _ _ line | .assign _ _ _ line | .update _ _ _ line | .member _ _ line | .call _ _ line
  | .function _ _ _ _ _ line | .await _ line => line

/-- The line of a statement. -/
def Stmt.line : Stmt → Nat
  | .expr _ line | .declare _ _ line | .function _ _ _ _ line | .branch _ _ _ line
  | .loop _ _ _ _ line | .ret _ line => line
  | .block b => b.line

/-- What kind of node an expression is. -/
def Expr.nodeName : Expr → String
  | .literal .. => "Literal"
  | .ident .. => "Ident"
  | .template .. => "TemplateLiteral"
  | .array .. => "ArrayLit"
  | .binary .. => "BinaryOp"
  | .unary .. => "UnaryOp"
  | .assign .. => "Assign"
  | .update .. => "Update"
  | .member .. => "Member"
  | .call .. => "Call"
  | .function .. => "ArrowFunction"
  | .await .. => "Await"

/-- What kind of node a statement is. -/
def Stmt.nodeName : Stmt → String
  | .expr .. => "ExprStmt"
  | .declare .. => "VarDecl"
  | .function .. => "FuncDecl"
  | .block .. => "Block"
  | .branch .. => "IfStmt"
  | .loop .. => "ForStmt"
  | .ret .. => "ReturnStmt"

end EventLoop.Script
