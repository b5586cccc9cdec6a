import DeployScript.Program.Parser
import Mathlib

/-!
# Programs without places

A program that is read from another place of a source is the same one, apart from the places of its
nodes.

* `Expr.bare`, `Stmt.bare` — without places.
* `Expr.Same`, `Stmt.Same` — the same up to places.
-/

namespace DeployScript

mutual

/-- **An expression without its places.** -/
@[simp]
def Expr.bare : Expr → Expr
  | .number value _ => .number value default
  | .text value _ => .text value default
  | .bool value _ => .bool value default
  | .nil _ => .nil default
  | .name n _ => .name n default
  | .array elements _ => .array (Expr.bareAll elements) default
  | .record fields _ => .record (Expr.bareFields fields) default
  | .binary left op right _ => .binary left.bare op right.bare default
  | .logical left op right _ => .logical left.bare op right.bare default
  | .unary op operand _ => .unary op operand.bare default
  | .call callee args _ => .call callee.bare (Expr.bareAll args) default
  | .group inner _ => .group inner.bare default
  | .assign n value _ => .assign n value.bare default
  | .get object n _ => .get object.bare n default
  | .set object n value _ => .set object.bare n value.bare default
  | .index object key _ => .index object.bare key.bare default
  | .setIndex object key value _ => .setIndex object.bare key.bare value.bare default

/-- Expressions without their places. -/
@[simp]
def Expr.bareAll : List Expr → List Expr
  | [] => []
  | e :: es => e.bare :: Expr.bareAll es

/-- Fields without the places of their values. -/
@[simp]
def Expr.bareFields : List (String × Expr) → List (String × Expr)
  | [] => []
  | (key, e) :: es => (key, e.bare) :: Expr.bareFields es

end

mutual

/-- **A statement without its places.** -/
@[simp]
def Stmt.bare : Stmt → Stmt
  | .expr value => .expr value.bare
  | .var name value _ => .var name (value.map Expr.bare) default
  | .let_ name value _ => .let_ name value.bare default
  | .block body _ => .block (Stmt.bareAll body) default
  | .if_ condition body none _ => .if_ condition.bare (Stmt.bareAll body) none default
  | .if_ condition body (some orElse) _ =>
    .if_ condition.bare (Stmt.bareAll body) (some orElse.bare) default
  | .while_ condition body _ => .while_ condition.bare (Stmt.bareAll body) default
  | .for_ name iterable body _ => .for_ name iterable.bare (Stmt.bareAll body) default
  | .function name params body _ => .function name params (Stmt.bareAll body) default
  | .return_ value _ => .return_ (value.map Expr.bare) default
  | .break_ _ => .break_ default
  | .continue_ _ => .continue_ default

/-- Statements without their places. -/
@[simp]
def Stmt.bareAll : List Stmt → List Stmt
  | [] => []
  | p :: ps => p.bare :: Stmt.bareAll ps

end

/-! ### The same up to places -/

/-- Two expressions are the same up to places. -/
abbrev Expr.Same (e e' : Expr) : Prop := e.bare = e'.bare

/-- Two fields are the same up to places. -/
abbrev Expr.SameField (f f' : String × Expr) : Prop := f.1 = f'.1 ∧ f.2.Same f'.2

/-- Two statements are the same up to places. -/
abbrev Stmt.Same (p p' : Stmt) : Prop := p.bare = p'.bare

theorem Expr.bareAll_of_same {es es' : List Expr} (h : List.Forall₂ Expr.Same es es') :
    Expr.bareAll es = Expr.bareAll es' := by
  induction h with
  | nil => rfl
  | cons he _ ih => rw [Expr.bareAll, Expr.bareAll, he, ih]

theorem Expr.bareFields_of_same {fields fields' : List (String × Expr)}
    (h : List.Forall₂ Expr.SameField fields fields') :
    Expr.bareFields fields = Expr.bareFields fields' := by
  induction h with
  | nil => rfl
  | @cons f f' _ _ hf _ ih =>
    obtain ⟨key, e⟩ := f
    obtain ⟨key', e'⟩ := f'
    obtain ⟨rfl, he⟩ := hf
    rw [Expr.bareFields, Expr.bareFields, he, ih]

theorem Stmt.bareAll_of_same {ps ps' : List Stmt} (h : List.Forall₂ Stmt.Same ps ps') :
    Stmt.bareAll ps = Stmt.bareAll ps' := by
  induction h with
  | nil => rfl
  | cons hp _ ih => rw [Stmt.bareAll, Stmt.bareAll, hp, ih]

end DeployScript
