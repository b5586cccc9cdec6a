import DeployScript.Code.Compile
import Mathlib

/-!
# What programs mention

The grammar has more programs than a source can spell: behind an `else` there is a block or another
conditional (`Stmt.Regular`), no name is empty (`Stmt.Names`), and every node stands on a line of the
source (`Stmt.Placed`).
-/

namespace DeployScript

/-- A block or a conditional. -/
def Stmt.isBranch : Stmt → Bool
  | .block .. | .if_ .. => true
  | _ => false

mutual

/-- Behind each `else` of a statement there is a block or a conditional. -/
def Stmt.Regular : Stmt → Prop
  | .block body _ => Stmt.AllRegular body
  | .if_ _ body none _ => Stmt.AllRegular body
  | .if_ _ body (some orElse) _ =>
    Stmt.AllRegular body ∧ orElse.isBranch = true ∧ orElse.Regular
  | .while_ _ body _ | .for_ _ _ body _ | .function _ _ body _ => Stmt.AllRegular body
  | _ => True

/-- Behind each `else` of statements there is a block or a conditional. -/
def Stmt.AllRegular : List Stmt → Prop
  | [] => True
  | p :: ps => p.Regular ∧ Stmt.AllRegular ps

end

/-! ### Names -/

mutual

/-- Every name that an expression reads or assigns is as it should be. A call that prints reads no
name. -/
def Expr.Names (ok : String → Prop) : Expr → Prop
  | .number _ _ | .text _ _ | .bool _ _ | .nil _ => True
  | .name n _ => ok n
  | .array elements _ => Expr.AllNames ok elements
  | .record fields _ => Expr.FieldNames ok fields
  | .binary left _ right _ => left.Names ok ∧ right.Names ok
  | .logical left _ right _ => left.Names ok ∧ right.Names ok
  | .unary _ operand _ => operand.Names ok
  | .call callee args _ =>
    (Compile.isPrint callee = true ∨ callee.Names ok) ∧ Expr.AllNames ok args
  | .group inner _ => inner.Names ok
  | .assign n value _ => ok n ∧ value.Names ok
  | .get object _ _ => object.Names ok
  | .set object _ value _ => object.Names ok ∧ value.Names ok
  | .index object key _ => object.Names ok ∧ key.Names ok
  | .setIndex object key value _ => object.Names ok ∧ key.Names ok ∧ value.Names ok

@[inherit_doc Expr.Names]
def Expr.AllNames (ok : String → Prop) : List Expr → Prop
  | [] => True
  | e :: es => e.Names ok ∧ Expr.AllNames ok es

@[inherit_doc Expr.Names]
def Expr.FieldNames (ok : String → Prop) : List (String × Expr) → Prop
  | [] => True
  | (_, e) :: es => e.Names ok ∧ Expr.FieldNames ok es

end

mutual

/-- Every name that a statement declares, reads or assigns is as it should be. -/
def Stmt.Names (ok : String → Prop) : Stmt → Prop
  | .expr value => value.Names ok
  | .var name value _ => ok name ∧ ∀ e ∈ value, e.Names ok
  | .let_ name value _ => ok name ∧ value.Names ok
  | .block body _ => Stmt.AllNames ok body
  | .if_ condition body none _ => condition.Names ok ∧ Stmt.AllNames ok body
  | .if_ condition body (some orElse) _ =>
    condition.Names ok ∧ Stmt.AllNames ok body ∧ orElse.Names ok
  | .while_ condition body _ => condition.Names ok ∧ Stmt.AllNames ok body
  | .for_ name iterable body _ => ok name ∧ iterable.Names ok ∧ Stmt.AllNames ok body
  | .function name params body _ =>
    ok name ∧ (∀ p ∈ params, ok p) ∧ Stmt.AllNames ok body
  | .return_ value _ => ∀ e ∈ value, e.Names ok
  | .break_ _ | .continue_ _ => True

@[inherit_doc Stmt.Names]
def Stmt.AllNames (ok : String → Prop) : List Stmt → Prop
  | [] => True
  | p :: ps => p.Names ok ∧ Stmt.AllNames ok ps

end

/-! ### Places -/

mutual

/-- Every node of an expression is on a line that is as it should be. -/
def Expr.Placed (ok : Nat → Prop) : Expr → Prop
  | .number _ span | .text _ span | .bool _ span | .nil span | .name _ span => ok span.line
  | .array elements span => ok span.line ∧ Expr.AllPlaced ok elements
  | .record fields span => ok span.line ∧ Expr.FieldsPlaced ok fields
  | .binary left _ right span | .logical left _ right span =>
    ok span.line ∧ left.Placed ok ∧ right.Placed ok
  | .unary _ operand span => ok span.line ∧ operand.Placed ok
  | .call callee args span => ok span.line ∧ callee.Placed ok ∧ Expr.AllPlaced ok args
  | .group inner span => ok span.line ∧ inner.Placed ok
  | .assign _ value span => ok span.line ∧ value.Placed ok
  | .get object _ span => ok span.line ∧ object.Placed ok
  | .set object _ value span => ok span.line ∧ object.Placed ok ∧ value.Placed ok
  | .index object key span => ok span.line ∧ object.Placed ok ∧ key.Placed ok
  | .setIndex object key value span =>
    ok span.line ∧ object.Placed ok ∧ key.Placed ok ∧ value.Placed ok

@[inherit_doc Expr.Placed]
def Expr.AllPlaced (ok : Nat → Prop) : List Expr → Prop
  | [] => True
  | e :: es => e.Placed ok ∧ Expr.AllPlaced ok es

@[inherit_doc Expr.Placed]
def Expr.FieldsPlaced (ok : Nat → Prop) : List (String × Expr) → Prop
  | [] => True
  | (_, e) :: es => e.Placed ok ∧ Expr.FieldsPlaced ok es

end

theorem Expr.Placed.line {ok : Nat → Prop} {e : Expr} (h : e.Placed ok) : ok e.span.line := by
  cases e with
  | number | text | bool | nil | name => exact h
  | _ => exact h.1

mutual

/-- Every node of a statement is on a line that is as it should be. -/
def Stmt.Placed (ok : Nat → Prop) : Stmt → Prop
  | .expr value => value.Placed ok
  | .var _ value span | .return_ value span => ok span.line ∧ ∀ e ∈ value, e.Placed ok
  | .let_ _ value span => ok span.line ∧ value.Placed ok
  | .block body span | .function _ _ body span => ok span.line ∧ Stmt.AllPlaced ok body
  | .if_ condition body none span | .while_ condition body span | .for_ _ condition body span =>
    ok span.line ∧ condition.Placed ok ∧ Stmt.AllPlaced ok body
  | .if_ condition body (some orElse) span =>
    ok span.line ∧ condition.Placed ok ∧ Stmt.AllPlaced ok body ∧ orElse.Placed ok
  | .break_ span | .continue_ span => ok span.line

@[inherit_doc Stmt.Placed]
def Stmt.AllPlaced (ok : Nat → Prop) : List Stmt → Prop
  | [] => True
  | p :: ps => p.Placed ok ∧ Stmt.AllPlaced ok ps

end

/-! ### Programs that a source spells -/

/-- What holds of every expression that a source spells, whose lines are those of its tokens. -/
structure Expr.Spelled (ok : Nat → Prop) (e : Expr) : Prop where
  names : e.Names (· ≠ "")
  placed : e.Placed ok

@[inherit_doc Expr.Spelled]
structure Stmt.Spelled (ok : Nat → Prop) (p : Stmt) : Prop where
  regular : p.Regular
  names : p.Names (· ≠ "")
  placed : p.Placed ok

@[inherit_doc Expr.Spelled]
structure Stmt.AllSpelled (ok : Nat → Prop) (ps : List Stmt) : Prop where
  regular : Stmt.AllRegular ps
  names : Stmt.AllNames (· ≠ "") ps
  placed : Stmt.AllPlaced ok ps

section Spelled

variable {ok : Nat → Prop}

theorem Expr.all_of_spelled {es : List Expr} (h : ∀ e ∈ es, e.Spelled ok) :
    Expr.AllNames (· ≠ "") es ∧ Expr.AllPlaced ok es := by
  induction es with
  | nil => exact ⟨trivial, trivial⟩
  | cons e es ih =>
    obtain ⟨hn, hp⟩ := h e List.mem_cons_self
    obtain ⟨ihn, ihp⟩ := ih fun a ha => h a (List.mem_cons_of_mem _ ha)
    exact ⟨⟨hn, ihn⟩, hp, ihp⟩

theorem Expr.fields_of_spelled {es : List (String × Expr)} (h : ∀ e ∈ es, e.2.Spelled ok) :
    Expr.FieldNames (· ≠ "") es ∧ Expr.FieldsPlaced ok es := by
  induction es with
  | nil => exact ⟨trivial, trivial⟩
  | cons e es ih =>
    obtain ⟨key, e⟩ := e
    obtain ⟨hn, hp⟩ := h (key, e) List.mem_cons_self
    obtain ⟨ihn, ihp⟩ := ih fun a ha => h a (List.mem_cons_of_mem _ ha)
    exact ⟨⟨hn, ihn⟩, hp, ihp⟩

theorem Stmt.all_of_spelled {ps : List Stmt} (h : ∀ p ∈ ps, p.Spelled ok) : Stmt.AllSpelled ok ps := by
  induction ps with
  | nil => exact ⟨trivial, trivial, trivial⟩
  | cons p ps ih =>
    obtain ⟨hr, hn, hp⟩ := h p List.mem_cons_self
    obtain ⟨ihr, ihn, ihp⟩ := ih fun q hq => h q (List.mem_cons_of_mem _ hq)
    exact ⟨⟨hr, ihr⟩, ⟨hn, ihn⟩, hp, ihp⟩

end Spelled

end DeployScript
