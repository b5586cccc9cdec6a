import Mathlib
import DeployScript.Program.Mentions

/-!
# What it means to mention a name

An expression mentions a name if the name stands in it as a variable that is read or assigned, and a
statement does if an expression in it does, at any depth. The walk over a program finds these names
and no others.

* `Expr.Mentions`, `Stmt.Mentions` — the meaning, node by node, without an order or a set of names.
* `Expr.mem_addMentions`, `Stmt.mem_addMentions` — what a walk adds to the names that it has.
* `Program.mem_mentions` — the names that a program mentions.
-/

namespace DeployScript

variable {n : String} {names : Names}

/-! ### Expressions -/

mutual

/-- **An expression mentions a name.** -/
def Expr.Mentions : Expr → (n : String) → Prop
  | .number _ _, _ | .text _ _, _ | .bool _ _, _ | .nil _, _ => False
  | .name x _, n => x = n
  | .array elements _, n => Expr.AnyMentions elements n
  | .record fields _, n => Expr.AnyFieldMentions fields n
  | .binary left _ right _, n | .logical left _ right _, n => left.Mentions n ∨ right.Mentions n
  | .unary _ operand _, n => operand.Mentions n
  | .call callee args _, n => callee.Mentions n ∨ Expr.AnyMentions args n
  | .group inner _, n => inner.Mentions n
  | .assign x value _, n => x = n ∨ value.Mentions n
  | .get object _ _, n => object.Mentions n
  | .set object _ value _, n => object.Mentions n ∨ value.Mentions n
  | .index object key _, n => object.Mentions n ∨ key.Mentions n
  | .setIndex object key value _, n => object.Mentions n ∨ key.Mentions n ∨ value.Mentions n

/-- One of the expressions mentions a name. -/
def Expr.AnyMentions : List Expr → (n : String) → Prop
  | [], _ => False
  | e :: es, n => e.Mentions n ∨ Expr.AnyMentions es n

/-- The value of one of the fields mentions a name. A key is no name. -/
def Expr.AnyFieldMentions : List (String × Expr) → (n : String) → Prop
  | [], _ => False
  | (_, e) :: es, n => e.Mentions n ∨ Expr.AnyFieldMentions es n

end

theorem Names.mem_insert {x : String} : n ∈ names.insert x ↔ n ∈ names ∨ x = n := by
  rw [Std.TreeSet.mem_insert, compare_eq_iff_eq, or_comm]

mutual

/-- **A walk over an expression** adds the names that the expression mentions. -/
theorem Expr.mem_addMentions : (e : Expr) → {names : Names} →
    (n ∈ e.addMentions names ↔ n ∈ names ∨ e.Mentions n)
  | .number .., _ | .text .., _ | .bool .., _ | .nil _, _ => (or_iff_left id).symm
  | .name .., _ => Names.mem_insert
  | .array elements _, _ => Expr.mem_addMentionsOfList elements
  | .record fields _, _ => Expr.mem_addMentionsOfFields fields
  | .binary left _ right _, _ | .logical left _ right _, _ => by
    rw [addMentions, right.mem_addMentions, left.mem_addMentions, Mentions, or_assoc]
  | .unary _ operand _, _ => operand.mem_addMentions
  | .call callee args _, _ => by
    rw [addMentions, Expr.mem_addMentionsOfList args, callee.mem_addMentions, Mentions, or_assoc]
  | .group inner _, _ => inner.mem_addMentions
  | .assign _ value _, _ => by
    rw [addMentions, value.mem_addMentions, Names.mem_insert, Mentions, or_assoc]
  | .get object _ _, _ => object.mem_addMentions
  | .set object _ value _, _ => by
    rw [addMentions, value.mem_addMentions, object.mem_addMentions, Mentions, or_assoc]
  | .index object key _, _ => by
    rw [addMentions, key.mem_addMentions, object.mem_addMentions, Mentions, or_assoc]
  | .setIndex object key value _, _ => by
    rw [addMentions, value.mem_addMentions, key.mem_addMentions, object.mem_addMentions, Mentions,
      or_assoc, or_assoc]

theorem Expr.mem_addMentionsOfList : (es : List Expr) → {names : Names} →
    (n ∈ Expr.addMentionsOfList es names ↔ n ∈ names ∨ Expr.AnyMentions es n)
  | [], _ => (or_iff_left id).symm
  | e :: es, _ => by
    rw [addMentionsOfList, Expr.mem_addMentionsOfList es, e.mem_addMentions, AnyMentions, or_assoc]

theorem Expr.mem_addMentionsOfFields : (es : List (String × Expr)) → {names : Names} →
    (n ∈ Expr.addMentionsOfFields es names ↔ n ∈ names ∨ Expr.AnyFieldMentions es n)
  | [], _ => (or_iff_left id).symm
  | (_, e) :: es, _ => by
    rw [addMentionsOfFields, Expr.mem_addMentionsOfFields es, e.mem_addMentions, AnyFieldMentions,
      or_assoc]

end

/-! ### Statements -/

mutual

/-- **A statement mentions a name.** The names that it declares are not among these. -/
def Stmt.Mentions : Stmt → (n : String) → Prop
  | .expr value, n | .let_ _ value _, n => value.Mentions n
  | .var _ value _, n | .return_ value _, n => ∃ e ∈ value, e.Mentions n
  | .block body _, n | .function _ _ body _, n => Stmt.AnyMentions body n
  | .if_ condition body (some orElse) _, n =>
    condition.Mentions n ∨ Stmt.AnyMentions body n ∨ orElse.Mentions n
  | .if_ condition body none _, n | .while_ condition body _, n | .for_ _ condition body _, n =>
    condition.Mentions n ∨ Stmt.AnyMentions body n
  | .break_ _, _ | .continue_ _, _ => False

/-- One of the statements mentions a name. -/
def Stmt.AnyMentions : List Stmt → (n : String) → Prop
  | [], _ => False
  | p :: ps, n => p.Mentions n ∨ Stmt.AnyMentions ps n

end

mutual

/-- **A walk over a statement** adds the names that the statement mentions. -/
theorem Stmt.mem_addMentions : (p : Stmt) → {names : Names} →
    (n ∈ p.addMentions names ↔ n ∈ names ∨ p.Mentions n)
  | .expr value, _ | .let_ _ value _, _ => value.mem_addMentions
  | .var _ (some value) _, _ | .return_ (some value) _, _ => by
    rw [addMentions, value.mem_addMentions]
    simp [Mentions]
  | .var _ none _, _ | .return_ none _, _ => by simp [addMentions, Mentions]
  | .block body _, _ | .function _ _ body _, _ => Stmt.mem_addMentionsOfList body
  | .if_ condition body (some orElse) _, _ => by
    rw [addMentions, orElse.mem_addMentions, Stmt.mem_addMentionsOfList body,
      condition.mem_addMentions, Mentions, or_assoc, or_assoc]
  | .if_ condition body none _, _ | .while_ condition body _, _ | .for_ _ condition body _, _ => by
    rw [addMentions, Stmt.mem_addMentionsOfList body, condition.mem_addMentions, Mentions, or_assoc]
  | .break_ _, _ | .continue_ _, _ => (or_iff_left id).symm

theorem Stmt.mem_addMentionsOfList : (ps : List Stmt) → {names : Names} →
    (n ∈ Stmt.addMentionsOfList ps names ↔ n ∈ names ∨ Stmt.AnyMentions ps n)
  | [], _ => (or_iff_left id).symm
  | p :: ps, _ => by
    rw [addMentionsOfList, Stmt.mem_addMentionsOfList ps, p.mem_addMentions, AnyMentions, or_assoc]

end

/-! ### Programs -/

/-- **The names that a program mentions** are those that one of its statements mentions. -/
theorem Program.mem_mentions {p : Program} :
    n ∈ p.mentions ↔ Stmt.AnyMentions p.statements n :=
  (Stmt.mem_addMentionsOfList p.statements).trans (or_iff_right Std.TreeSet.not_mem_emptyc)

end DeployScript
