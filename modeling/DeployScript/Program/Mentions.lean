import DeployScript.Program.Basic
import Std.Data.TreeSet

/-!
# Names that a program mentions

`Program.mentions` collects every identifier that a program reads or assigns, at any depth. Record
keys, property names and the names that declarations introduce are not identifiers in this sense.
The walk over a list is a loop, since scripts can be long.
-/

namespace DeployScript

/-- A set of names, in order. -/
abbrev Names := Std.TreeSet String

mutual

/-- Adds the names that an expression mentions. -/
def Expr.addMentions : Expr → Names → Names
  | .number _ _, names | .text _ _, names | .bool _ _, names | .nil _, names => names
  | .name n _, names => names.insert n
  | .array elements _, names => Expr.addMentionsOfList elements names
  | .record fields _, names => Expr.addMentionsOfFields fields names
  | .binary left _ right _, names => right.addMentions (left.addMentions names)
  | .logical left _ right _, names => right.addMentions (left.addMentions names)
  | .unary _ operand _, names => operand.addMentions names
  | .call callee args _, names => Expr.addMentionsOfList args (callee.addMentions names)
  | .group inner _, names => inner.addMentions names
  | .assign n value _, names => value.addMentions (names.insert n)
  | .get object _ _, names => object.addMentions names
  | .set object _ value _, names => value.addMentions (object.addMentions names)
  | .index object key _, names => key.addMentions (object.addMentions names)
  | .setIndex object key value _, names =>
    value.addMentions (key.addMentions (object.addMentions names))

/-- Adds the names that the expressions of a list mention. -/
def Expr.addMentionsOfList : List Expr → Names → Names
  | [], names => names
  | e :: rest, names => Expr.addMentionsOfList rest (e.addMentions names)

/-- Adds the names that the values of fields mention. -/
def Expr.addMentionsOfFields : List (String × Expr) → Names → Names
  | [], names => names
  | (_, e) :: rest, names => Expr.addMentionsOfFields rest (e.addMentions names)

end

mutual

/-- Adds the names that a statement mentions. -/
def Stmt.addMentions : Stmt → Names → Names
  | .expr value, names => value.addMentions names
  | .var _ (some value) _, names => value.addMentions names
  | .var _ none _, names => names
  | .let_ _ value _, names => value.addMentions names
  | .block body _, names => Stmt.addMentionsOfList body names
  | .if_ condition body (some orElse) _, names =>
    orElse.addMentions (Stmt.addMentionsOfList body (condition.addMentions names))
  | .if_ condition body none _, names =>
    Stmt.addMentionsOfList body (condition.addMentions names)
  | .while_ condition body _, names =>
    Stmt.addMentionsOfList body (condition.addMentions names)
  | .for_ _ iterable body _, names =>
    Stmt.addMentionsOfList body (iterable.addMentions names)
  | .function _ _ body _, names => Stmt.addMentionsOfList body names
  | .return_ (some value) _, names => value.addMentions names
  | .return_ none _, names => names
  | .break_ _, names | .continue_ _, names => names

/-- Adds the names that the statements of a list mention. -/
def Stmt.addMentionsOfList : List Stmt → Names → Names
  | [], names => names
  | s :: rest, names => Stmt.addMentionsOfList rest (s.addMentions names)

end

/-- **The names that a program mentions,** in order. -/
def Program.mentions (p : Program) : Names := Stmt.addMentionsOfList p.statements {}

end DeployScript
