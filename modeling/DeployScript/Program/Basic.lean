import DeployScript.Token.Basic

/-!
# Programs

The structure of a script: statements and the expressions in them, each with its place.

* `Expr` and `Stmt` are the nodes, `Program` is a list of statements.
* `Expr.span` is the place that messages about an expression name.
* `Stmt.declaredName?` is the name that a declaration introduces.
-/

namespace DeployScript

/-! ### Operators -/

/-- Operators that evaluate both operands. -/
inductive BinaryOp
  | add | sub | mul | div | mod
  | eq | ne | lt | le | gt | ge
  deriving Repr, DecidableEq, Inhabited

/-- The spelling of the operator. -/
def BinaryOp.text : BinaryOp → String
  | add => "+"
  | sub => "-"
  | mul => "*"
  | div => "/"
  | mod => "%"
  | eq => "=="
  | ne => "!="
  | lt => "<"
  | le => "<="
  | gt => ">"
  | ge => ">="

/-- Operators that may leave out their right operand. -/
inductive LogicalOp
  | and | or
  deriving Repr, DecidableEq, Inhabited

/-- Operators with one operand. -/
inductive UnaryOp
  | neg | not
  deriving Repr, DecidableEq, Inhabited

/-! ### Nodes -/

/-- An expression. -/
inductive Expr
  | number (value : Float) (span : Span)
  | text (value : String) (span : Span)
  | bool (value : Bool) (span : Span)
  | nil (span : Span)
  | name (name : String) (span : Span)
  | array (elements : List Expr) (span : Span)
  | record (fields : List (String × Expr)) (span : Span)
  | binary (left : Expr) (op : BinaryOp) (right : Expr) (span : Span)
  | logical (left : Expr) (op : LogicalOp) (right : Expr) (span : Span)
  | unary (op : UnaryOp) (operand : Expr) (span : Span)
  | call (callee : Expr) (args : List Expr) (span : Span)
  | group (inner : Expr) (span : Span)
  | assign (name : String) (value : Expr) (span : Span)
  | get (object : Expr) (name : String) (span : Span)
  | set (object : Expr) (name : String) (value : Expr) (span : Span)
  | index (object : Expr) (index : Expr) (span : Span)
  | setIndex (object : Expr) (index : Expr) (value : Expr) (span : Span)
  deriving Inhabited

/-- The place of an expression. -/
def Expr.span : Expr → Span
  | .number _ span | .text _ span | .bool _ span | .nil span | .name _ span
  | .array _ span | .record _ span | .binary _ _ _ span | .logical _ _ _ span
  | .unary _ _ span | .call _ _ span | .group _ span | .assign _ _ span
  | .get _ _ span | .set _ _ _ span | .index _ _ span | .setIndex _ _ _ span => span

/-- A statement. The bodies of conditionals, loops and functions are blocks; what follows `else`
is a block or another conditional. -/
inductive Stmt
  | expr (value : Expr)
  | var (name : String) (value : Option Expr) (span : Span)
  | let_ (name : String) (value : Expr) (span : Span)
  | block (body : List Stmt) (span : Span)
  | if_ (condition : Expr) (body : List Stmt) (orElse : Option Stmt) (span : Span)
  | while_ (condition : Expr) (body : List Stmt) (span : Span)
  | for_ (name : String) (iterable : Expr) (body : List Stmt) (span : Span)
  | function (name : String) (params : List String) (body : List Stmt) (span : Span)
  | return_ (value : Option Expr) (span : Span)
  | break_ (span : Span)
  | continue_ (span : Span)
  deriving Inhabited

/-- The name that a declaration introduces. -/
def Stmt.declaredName? : Stmt → Option String
  | .var name .. | .let_ name .. | .function name .. => some name
  | _ => none

/-- A whole script. -/
structure Program where
  statements : List Stmt
  deriving Inhabited

/-- The names that a script declares at its top level, each once, in the order of their first
declaration. -/
def Program.declarations (p : Program) : List String :=
  (p.statements.filterMap Stmt.declaredName?).eraseDups

end DeployScript
