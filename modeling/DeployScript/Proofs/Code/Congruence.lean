import Mathlib
import DeployScript.Code.Compile

/-!
# What holds of a compilation step by step

A property of compilations, or of two compilations side by side that keep their functions in different
stores, holds of all programs if it holds of the few things that steps are put together from. This
module has the induction over the nodes of a program, once for all such properties.

* `Refusal` — what a program may be refused for.
* `Compile.Congruence` — a relation between steps that is closed under what steps are made of.
* `Congruence.expr`, `stmt`, `program` — such a relation holds of the code of every node.
-/

namespace DeployScript

/-- **What a program may be refused for.** -/
inductive Refusal : ScriptError → Prop
  | limit (limit : Limit) (line : Nat) : Refusal (.ofLimit limit line)
  | immutable (name : String) (span : Span) : Refusal (.at_ (.immutableBinding name) span)
  | breakOutside (span : Span) : Refusal (.at_ .breakOutsideLoop span)
  | continueOutside (span : Span) : Refusal (.at_ .continueOutsideLoop span)

/-- A constant that is no function. -/
inductive Literal.Plain : Literal → Prop
  | number (value : Float) : Plain (.number value)
  | text (value : String) : Plain (.text value)

namespace Compile

/-- **A relation between steps** with two stores that is closed under what steps are put together from.
What a step does may depend on all of a scope but its constants, which may be functions, and of
these it may depend on how many there are. -/
structure Congruence (σ τ : Type) [Store σ] [Store τ] where
  Holds : {α : Type} → StepIn σ α → StepIn τ α → Prop
  pure : ∀ {α : Type} (a : α), Holds (Pure.pure a) (Pure.pure a)
  bind : ∀ {α β : Type} {x : StepIn σ α} {y : StepIn τ α} {f : α → StepIn σ β}
    {g : α → StepIn τ β}, Holds x y → (∀ a, Holds (f a) (g a)) → Holds (x >>= f) (y >>= g)
  refuse : ∀ {α : Type} {e : ScriptError}, Refusal e →
    Holds (throw e : StepIn σ α) (throw e : StepIn τ α)
  scope : ∀ {α : Type} {f : Scope → StepIn σ α} {g : Scope → StepIn τ α},
    (∀ c ks, ks.size = c.constants.size → Holds (f c) (g { c with constants := ks })) →
      Holds (scope >>= f) (scope >>= g)
  modifyScope : ∀ {f : Scope → Scope},
    (∀ c ks, f { c with constants := ks } = { f c with constants := ks }) →
      Holds (modifyScope f) (modifyScope f)
  addConstant : ∀ {l : Literal} (line : Nat), l.Plain →
    Holds (addConstant l line) (addConstant l line)
  resolve : ∀ (name : String) (line : Nat), Holds (resolve name line) (resolve name line)
  functionWithin : ∀ (name : String) (params : List String) {body : StepIn σ Block}
    {body' : StepIn τ Block} (line : Nat), params.length ≤ maxParams → Holds body body' →
      Holds (function name params body line) (function name params body' line)

namespace Congruence

variable {σ τ : Type} [Store σ] [Store τ] (C : Congruence σ τ)

/-! ### Single instructions -/

theorem exceed {α : Type} (limit : Limit) (line : Nat) :
    C.Holds (exceed limit line : StepIn σ α) (Compile.exceed limit line) :=
  C.refuse (.limit limit line)

/-- A step behind a check for a limit. -/
theorem within {α : Type} {c : Prop} [Decidable c] (limit : Limit) (line : Nat)
    {f : PUnit → StepIn σ α} {g : PUnit → StepIn τ α} (h : C.Holds (f ⟨⟩) (g ⟨⟩)) :
    C.Holds (if c then Compile.exceed limit line >>= f else f ⟨⟩)
      (if c then Compile.exceed limit line >>= g else g ⟨⟩) := by
  split
  · exact C.bind (C.exceed _ _) fun _ => h
  · exact h

theorem wide (n : Nat) (limit : Limit) (line : Nat) :
    C.Holds (wide n limit line) (Compile.wide n limit line) := by
  unfold Compile.wide
  split
  · exact C.pure _
  · exact C.exceed _ _

theorem reserve (size : Nat) : C.Holds (reserve size) (Compile.reserve size) :=
  C.modifyScope fun _ _ => rfl

theorem emit (i : Instr) (line : Nat) : C.Holds (emit i line) (Compile.emit i line) :=
  C.bind (C.reserve _) fun _ => C.pure _

theorem declareLocal (name : String) (isMutable : Bool) :
    C.Holds (declareLocal name isMutable) (Compile.declareLocal name isMutable) :=
  C.modifyScope fun _ _ => rfl

theorem declareSlot (name : String) (isMutable : Bool) :
    C.Holds (declareSlot name isMutable) (Compile.declareSlot name isMutable) :=
  C.scope fun _ _ _ => C.bind (C.declareLocal _ _) fun _ => C.pure _

theorem emitConstant {l : Literal} (line : Nat) (hl : l.Plain) :
    C.Holds (emitConstant l line) (Compile.emitConstant l line) :=
  C.bind (C.addConstant line hl) fun _ => C.emit _ _

theorem addName (name : String) (line : Nat) :
    C.Holds (addName name line) (Compile.addName name line) := by
  refine C.scope fun c _ _ => ?_
  dsimp only
  split
  · exact C.wide _ _ _
  · exact C.bind (C.wide _ _ _) fun _ => C.bind (C.modifyScope fun _ _ => rfl) fun _ => C.pure _

theorem unwind (depth line : Nat) : C.Holds (unwind depth line) (Compile.unwind depth line) :=
  C.scope fun _ _ _ => C.bind (C.reserve _) fun _ => C.pure _

theorem distance (block : Block) (line : Nat) :
    C.Holds (distance block line) (Compile.distance block line) := C.wide _ _ _

theorem emitLoop (start line : Nat) :
    C.Holds (emitLoop start line) (Compile.emitLoop start line) :=
  C.scope fun _ _ _ => C.bind (C.wide _ _ _) fun _ => C.emit _ _

/-! ### Variables -/

theorem readVariable (name : String) (line : Nat) :
    C.Holds (readVariable name line) (Compile.readVariable name line) := by
  refine C.bind (C.resolve _ _) fun place => ?_
  split
  · exact C.bind (C.wide _ _ _) fun _ => C.emit _ _
  · exact C.bind (C.wide _ _ _) fun _ => C.emit _ _
  · exact C.bind (C.addName _ _) fun _ => C.emit _ _

theorem writeVariable (name : String) (span : Span) :
    C.Holds (writeVariable name span) (Compile.writeVariable name span) := by
  refine C.bind (C.resolve _ _) fun place => ?_
  split
  · split
    · exact C.bind (C.wide _ _ _) fun _ => C.emit _ _
    · exact C.refuse (.immutable name span)
  · split
    · exact C.bind (C.wide _ _ _) fun _ => C.emit _ _
    · exact C.refuse (.immutable name span)
  · exact C.bind (C.addName _ _) fun _ => C.emit _ _

theorem declare (name : String) (isMutable : Bool) (line : Nat) :
    C.Holds (declare name isMutable line) (Compile.declare name isMutable line) := by
  refine C.scope fun c _ _ => ?_
  dsimp only
  split
  · refine C.bind (C.addName _ _) fun _ => ?_
    split <;> exact C.emit _ _
  · exact C.bind (C.declareLocal _ _) fun _ => C.pure _

/-! ### Expressions -/

section Operators

variable {right : StepIn σ Block} {right' : StepIn τ Block}

theorem afterLeft (op : BinaryOp) (line : Nat) (h : C.Holds right right') :
    C.Holds (afterLeft op right line) (Compile.afterLeft op right' line) :=
  C.bind h fun _ => C.bind (C.emit _ _) fun _ => C.pure _

theorem afterDeciding (op : LogicalOp) (line : Nat) (h : C.Holds right right') :
    C.Holds (afterDeciding op right line) (Compile.afterDeciding op right' line) :=
  C.bind (C.reserve _) fun _ => C.bind (C.emit _ _) fun _ => C.bind h fun _ =>
    C.bind (C.distance _ _) fun _ => C.pure _

/-- The number of arguments is checked first, and a call of the printing function does not look at its
callee. -/
theorem call {callee : Expr} {args : List Expr}
    (hcallee : C.Holds (Compile.expr callee) (Compile.expr callee))
    (hargs : ∀ before, C.Holds (Compile.exprs args before) (Compile.exprs args before))
    (span : Span) :
    C.Holds (Compile.expr (.call callee args span)) (Compile.expr (.call callee args span)) := by
  rw [Compile.expr, Compile.expr]
  refine C.within _ _ ?_
  dsimp only
  split
  · exact C.bind (hargs _) fun _ => C.bind (C.emit _ _) fun _ => C.pure _
  · exact C.bind hcallee fun _ => C.bind (hargs _) fun _ => C.bind (C.emit _ _) fun _ => C.pure _

end Operators

mutual

/-- **The code of an expression.** -/
theorem expr : (e : Expr) → C.Holds (Compile.expr e) (Compile.expr e)
  | .number value _ => by
    rw [Compile.expr, Compile.expr]
    exact C.emitConstant _ (.number value)
  | .text value _ => by
    rw [Compile.expr, Compile.expr]
    exact C.emitConstant _ (.text value)
  | .bool true _ | .bool false _ | .nil _ => by
    rw [Compile.expr, Compile.expr]
    exact C.emit _ _
  | .name .. => by
    rw [Compile.expr, Compile.expr]
    exact C.readVariable _ _
  | .array elements _ => by
    rw [Compile.expr, Compile.expr]
    exact C.bind (exprs elements _) fun _ => C.bind (C.wide _ _ _) fun _ =>
      C.bind (C.emit _ _) fun _ => C.pure _
  | .record entries _ => by
    rw [Compile.expr, Compile.expr]
    exact C.bind (fields entries _ _) fun _ => C.bind (C.wide _ _ _) fun _ =>
      C.bind (C.emit _ _) fun _ => C.pure _
  | .binary left _ right _ => by
    rw [Compile.expr, Compile.expr]
    exact C.bind (expr left) fun _ => C.bind (C.afterLeft _ _ (expr right)) fun _ => C.pure _
  | .logical left _ right _ => by
    rw [Compile.expr, Compile.expr]
    exact C.bind (expr left) fun _ => C.bind (C.afterDeciding _ _ (expr right)) fun _ => C.pure _
  | .unary .neg operand _ | .unary .not operand _ => by
    rw [Compile.expr, Compile.expr]
    exact C.bind (expr operand) fun _ => C.bind (C.emit _ _) fun _ => C.pure _
  | .call callee args span => by
    exact C.call (expr callee) (exprs args) span
  | .group inner _ => by
    rw [Compile.expr, Compile.expr]
    exact expr inner
  | .assign _ value _ => by
    rw [Compile.expr, Compile.expr]
    exact C.bind (expr value) fun _ => C.bind (C.writeVariable _ _) fun _ => C.pure _
  | .get object _ _ => by
    rw [Compile.expr, Compile.expr]
    exact C.bind (expr object) fun _ => C.bind (C.addName _ _) fun _ =>
      C.bind (C.emit _ _) fun _ => C.pure _
  | .set object _ value _ => by
    rw [Compile.expr, Compile.expr]
    exact C.bind (expr object) fun _ => C.bind (expr value) fun _ =>
      C.bind (C.addName _ _) fun _ => C.bind (C.emit _ _) fun _ => C.pure _
  | .index object key _ => by
    rw [Compile.expr, Compile.expr]
    exact C.bind (expr object) fun _ => C.bind (expr key) fun _ =>
      C.bind (C.emit _ _) fun _ => C.pure _
  | .setIndex object key value _ => by
    rw [Compile.expr, Compile.expr]
    exact C.bind (expr object) fun _ => C.bind (expr key) fun _ => C.bind (expr value) fun _ =>
      C.bind (C.emit _ _) fun _ => C.pure _

theorem exprs : (es : List Expr) → (before : Block) →
    C.Holds (Compile.exprs es before) (Compile.exprs es before)
  | [], _ => by
    rw [Compile.exprs, Compile.exprs]
    exact C.pure _
  | e :: es, _ => by
    rw [Compile.exprs, Compile.exprs]
    exact C.bind (expr e) fun _ => exprs es _

theorem fields : (es : List (String × Expr)) → (line : Nat) → (before : Block) →
    C.Holds (Compile.fields es line before) (Compile.fields es line before)
  | [], _, _ => by
    rw [Compile.fields, Compile.fields]
    exact C.pure _
  | (key, e) :: es, _, _ => by
    rw [Compile.fields, Compile.fields]
    exact C.bind (C.emitConstant _ (.text key)) fun _ => C.bind (expr e) fun _ => fields es _ _

end

/-! ### Statements -/

section Statements

variable {condition body orElse : StepIn σ Block} {condition' body' orElse' : StepIn τ Block}

theorem withBlock (h : C.Holds body body') :
    C.Holds (withBlock body) (Compile.withBlock body') :=
  C.bind (C.modifyScope fun _ _ => rfl) fun _ => C.bind h fun _ =>
    C.bind (C.modifyScope fun _ _ => rfl) fun _ => C.scope fun _ _ _ =>
      C.bind (C.unwind _ _) fun _ => C.bind (C.modifyScope fun _ _ => rfl) fun _ => C.pure _

theorem withLoop {line : Nat} {round : Nat → StepIn σ Block} {round' : Nat → StepIn τ Block}
    (h : ∀ start, C.Holds (round start) (round' start)) :
    C.Holds (withLoop line round) (Compile.withLoop line round') := by
  refine C.scope fun _ _ _ => C.bind (C.modifyScope fun _ _ => rfl) fun _ =>
    C.bind (h _) fun code => C.bind (C.modifyScope fun _ _ => rfl) fun _ => ?_
  split
  · exact C.pure _
  · exact C.exceed _ _

theorem whileLoop {line : Nat} (hcondition : C.Holds condition condition')
    (hbody : C.Holds body body') :
    C.Holds (whileLoop condition body line) (Compile.whileLoop condition' body' line) :=
  C.withLoop fun _ => C.bind hcondition fun _ => C.bind (C.reserve _) fun _ =>
    C.bind (C.emit _ _) fun _ => C.bind hbody fun _ => C.bind (C.emitLoop _ _) fun _ =>
      C.bind (C.distance _ _) fun _ => C.bind (C.emit _ _) fun _ => C.pure _

theorem readSlot (slot line : Nat) : C.Holds (readSlot slot line) (Compile.readSlot slot line) :=
  C.bind (C.wide _ _ _) fun _ => C.emit _ _

theorem moveToSlot (slot line : Nat) :
    C.Holds (moveToSlot slot line) (Compile.moveToSlot slot line) :=
  C.bind (C.wide _ _ _) fun _ => C.bind (C.emit _ _) fun _ => C.bind (C.emit _ _) fun _ => C.pure _

theorem nextIndex (container index line : Nat) :
    C.Holds (nextIndex container index line) (Compile.nextIndex container index line) :=
  C.bind (C.readSlot _ _) fun _ => C.bind (C.emitConstant _ (.number 1)) fun _ =>
    C.bind (C.emit _ _) fun _ => C.bind (C.moveToSlot _ _) fun _ =>
      C.bind (C.readSlot _ _) fun _ => C.bind (C.emit _ _) fun _ =>
        C.bind (C.readSlot _ _) fun _ => C.bind (C.emit _ _) fun _ => C.pure _

theorem takeElement (container index element line : Nat) :
    C.Holds (takeElement container index element line)
      (Compile.takeElement container index element line) :=
  C.bind (C.readSlot _ _) fun _ => C.bind (C.readSlot _ _) fun _ => C.bind (C.emit _ _) fun _ =>
    C.bind (C.moveToSlot _ _) fun _ => C.pure _

theorem forLoop {name : String} {line : Nat} (hiterable : C.Holds condition condition')
    (hbody : C.Holds body body') :
    C.Holds (forLoop name condition body line) (Compile.forLoop name condition' body' line) :=
  C.withBlock <| C.bind hiterable fun _ => C.bind (C.declareSlot _ _) fun _ =>
    C.bind (C.emitConstant _ (.number (-1))) fun _ => C.bind (C.declareSlot _ _) fun _ =>
      C.bind (C.emit _ _) fun _ => C.bind (C.declareSlot _ _) fun _ =>
        C.bind (C.whileLoop (C.nextIndex _ _ _) (C.bind (C.takeElement _ _ _ _) fun _ =>
          C.bind hbody fun _ => C.pure _)) fun _ => C.pure _

theorem function (name : String) (params : List String) (line : Nat) (hbody : C.Holds body body') :
    C.Holds (Compile.function name params body line) (Compile.function name params body' line) := by
  by_cases hfew : params.length ≤ maxParams
  · exact C.functionWithin name params line hfew hbody
  · unfold Compile.function
    rw [if_pos (Nat.lt_of_not_le hfew), if_pos (Nat.lt_of_not_le hfew)]
    exact C.exceed _ _

theorem conditional {line : Nat} (hcondition : C.Holds condition condition')
    (hbody : C.Holds body body') (horElse : C.Holds orElse orElse') :
    C.Holds (conditional condition body orElse line)
      (Compile.conditional condition' body' orElse' line) :=
  C.bind hcondition fun _ => C.bind (C.reserve _) fun _ => C.bind (C.emit _ _) fun _ =>
    C.bind hbody fun _ => C.bind (C.reserve _) fun _ => C.bind (C.wide _ _ _) fun _ =>
      C.bind (C.emit _ _) fun _ => C.bind horElse fun _ => C.bind (C.distance _ _) fun _ =>
        C.pure _

end Statements

mutual

/-- **The code of a statement.** -/
theorem stmt : (p : Stmt) → C.Holds (Compile.stmt p) (Compile.stmt p)
  | .expr value => by
    rw [Compile.stmt, Compile.stmt]
    exact C.bind (C.expr value) fun _ => C.bind (C.emit _ _) fun _ => C.pure _
  | .var _ (some value) _ => by
    rw [Compile.stmt, Compile.stmt]
    exact C.bind (C.expr value) fun _ => C.bind (C.declare _ _ _) fun _ => C.pure _
  | .var _ none _ => by
    rw [Compile.stmt, Compile.stmt]
    exact C.bind (C.emit _ _) fun _ => C.bind (C.declare _ _ _) fun _ => C.pure _
  | .let_ _ value _ => by
    rw [Compile.stmt, Compile.stmt]
    exact C.bind (C.expr value) fun _ => C.bind (C.declare _ _ _) fun _ => C.pure _
  | .block body _ => by
    rw [Compile.stmt, Compile.stmt]
    exact C.withBlock (stmts body _)
  | .if_ condition body none _ => by
    rw [Compile.stmt, Compile.stmt]
    exact C.conditional (C.expr condition) (C.withBlock (stmts body _)) (C.pure _)
  | .if_ condition body (some orElse) _ => by
    rw [Compile.stmt, Compile.stmt]
    exact C.conditional (C.expr condition) (C.withBlock (stmts body _)) (stmt orElse)
  | .while_ condition body _ => by
    rw [Compile.stmt, Compile.stmt]
    exact C.whileLoop (C.expr condition) (C.withBlock (stmts body _))
  | .for_ _ iterable body _ => by
    rw [Compile.stmt, Compile.stmt]
    exact C.forLoop (C.expr iterable) (C.withBlock (stmts body _))
  | .function _ _ body _ => by
    rw [Compile.stmt, Compile.stmt]
    refine C.scope fun _ _ _ => ?_
    dsimp only
    split
    · exact C.bind (C.function _ _ _ (stmts body _)) fun _ => C.bind (C.addName _ _) fun _ =>
        C.bind (C.emit _ _) fun _ => C.pure _
    · exact C.bind (C.declareLocal _ _) fun _ => C.function _ _ _ (stmts body _)
  | .return_ (some value) _ => by
    rw [Compile.stmt, Compile.stmt]
    exact C.bind (C.expr value) fun _ => C.bind (C.emit _ _) fun _ => C.pure _
  | .return_ none _ => by
    rw [Compile.stmt, Compile.stmt]
    exact C.bind (C.emit _ _) fun _ => C.bind (C.emit _ _) fun _ => C.pure _
  | .break_ span => by
    rw [Compile.stmt, Compile.stmt]
    refine C.scope fun _ _ _ => ?_
    dsimp only
    split
    · exact C.refuse (.breakOutside span)
    · exact C.bind (C.unwind _ _) fun _ => C.bind (C.reserve _) fun _ => C.pure _
  | .continue_ span => by
    rw [Compile.stmt, Compile.stmt]
    refine C.scope fun _ _ _ => ?_
    dsimp only
    split
    · exact C.refuse (.continueOutside span)
    · exact C.bind (C.unwind _ _) fun _ => C.bind (C.emitLoop _ _) fun _ => C.pure _

theorem stmts : (ps : List Stmt) → (before : Block) →
    C.Holds (Compile.stmts ps before) (Compile.stmts ps before)
  | [], _ => by
    rw [Compile.stmts, Compile.stmts]
    exact C.pure _
  | p :: ps, _ => by
    rw [Compile.stmts, Compile.stmts]
    exact C.bind (stmt p) fun _ => stmts ps _

end

theorem script (ps : List Stmt) (before : Block) :
    C.Holds (script ps before) (Compile.script ps before) := by
  induction ps, before using script.induct with
  | case1 before => exact C.bind (C.emit _ _) fun _ => C.pure _
  | case2 value before => exact C.bind (C.expr value) fun _ => C.pure _
  | case3 p ps before hlast ih =>
    rw [Compile.script, Compile.script]
    · exact C.bind (C.stmt p) fun b => ih b
    · exact hlast
    · exact hlast

/-- **The code of a program.** -/
theorem program (p : Program) : C.Holds (program p) (Compile.program p) :=
  C.bind (C.script _ _) fun _ => C.bind (C.emit _ _) fun _ => C.pure _

end Congruence

end Compile

end DeployScript
