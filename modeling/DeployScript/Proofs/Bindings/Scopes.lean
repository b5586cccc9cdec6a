import DeployScript.Proofs.Code.Translation
import DeployScript.Proofs.Program.Regular

/-!
# Which variables are in scope

What a program says about its variables, without its code: at each of the instructions that it becomes,
the variables of the function that are in scope; and which variable a name means at an assignment.

* `Variable` — a name, and whether it may be assigned.
* `Stmt.scopes` — the variables in scope at each instruction of a statement.
* `Stmt.Allowed` — no assignment means an immutable variable.
* `Routine` — a script or a function with all that its variables depend on; `Routine.scopes` — the
  variables in scope at each of its instructions; `Routine.captured?` — what a capture stands for.
* `Routine.Codes` — a compiled function that is the code of a routine.
-/

namespace DeployScript

open Compile

/-- A local variable as a program declares it. -/
structure Variable where
  name : String
  isMutable : Bool
  deriving Repr, DecidableEq, Inhabited

/-- The variable that a name means, among variables the innermost of which comes first. -/
def Variable.find? (name : String) (vars : List Variable) : Option Variable :=
  vars.find? fun v => v.name = name

/-! ### How many instructions an expression has -/

mutual

/-- The number of instructions of an expression. -/
@[simp] def Expr.count : Expr → Nat
  | .number _ _ | .text _ _ | .bool _ _ | .nil _ | .name _ _ => 1
  | .array elements _ => Expr.countAll elements + 1
  | .record fields _ => Expr.countFields fields + 1
  | .binary left _ right _ => left.count + right.count + 1
  | .logical left _ right _ => left.count + 2 + right.count
  | .unary _ operand _ => operand.count + 1
  | .call callee args _ => (if isPrint callee then 0 else callee.count) + Expr.countAll args + 1
  | .group inner _ => inner.count
  | .assign _ value _ => value.count + 1
  | .get object _ _ => object.count + 1
  | .set object _ value _ => object.count + value.count + 1
  | .index object key _ => object.count + key.count + 1
  | .setIndex object key value _ => object.count + key.count + value.count + 1

/-- The number of instructions of expressions one behind another. -/
@[simp] def Expr.countAll : List Expr → Nat
  | [] => 0
  | e :: es => e.count + Expr.countAll es

/-- The number of instructions of the keys and values of fields. -/
@[simp] def Expr.countFields : List (String × Expr) → Nat
  | [] => 0
  | (_, e) :: es => 1 + e.count + Expr.countFields es

end

/-- The number of instructions of a value that may be left out. -/
def Expr.countOrNil (e : Option Expr) : Nat := (e.map Expr.count).getD 1

/-! ### The variables at each instruction -/

/-- The variable that a declaration introduces. -/
def Stmt.declared? : Stmt → Option Variable
  | .var name _ _ => some ⟨name, true⟩
  | .let_ name _ _ | .function name _ _ _ => some ⟨name, false⟩
  | _ => none

/-- The variables behind a statement: one more behind a declaration inside a block. Outside all blocks a
declaration is that of a global. -/
def Stmt.declare (inBlock : Bool) (vars : List Variable) (p : Stmt) : List Variable :=
  if inBlock then p.declared?.toList ++ vars else vars

theorem Stmt.declare_of_none {inBlock : Bool} {vars : List Variable} {p : Stmt}
    (h : p.declared? = none) : p.declare inBlock vars = vars := by
  cases inBlock <;> simp [declare, h]

/-- The variables behind statements. -/
def Stmt.declareAll (inBlock : Bool) (vars : List Variable) (ps : List Stmt) : List Variable :=
  ps.foldl (Stmt.declare inBlock) vars

/-- Outside all blocks statements leave the variables as they are. -/
theorem Stmt.declareAll_global (vars : List Variable) (ps : List Stmt) :
    Stmt.declareAll false vars ps = vars := by
  induction ps with
  | nil => rfl
  | cons p ps ih => exact ih

/-- The variables of a function at its start: its parameters, which may be assigned, and the function
itself, under a name that no script can spell. -/
def Variable.entry (params : List String) : List Variable :=
  params.reverse.map (⟨·, true⟩) ++ [⟨"", false⟩]

/-- The variables of a loop over a container. -/
def Variable.ofLoop (name : String) (vars : List Variable) : List Variable :=
  ⟨name, true⟩ :: ⟨"__idx__", true⟩ :: ⟨"__iter__", false⟩ :: vars

/-- The variables at each of the instructions that take the innermost `count` of them off the stack. -/
def Variable.closing : (count : Nat) → (vars : List Variable) → List (List Variable)
  | 0, _ => []
  | count + 1, vars => vars :: closing count vars.tail

/-- The variables at each of the instructions that take those of a block off the stack. -/
def Stmt.leaving (vars : List Variable) (body : List Stmt) : List (List Variable) :=
  Variable.closing (Stmt.declared body) (Stmt.declareAll true vars body)

mutual

/-- **The variables in scope at each instruction of a statement.** Those `around` are left when the
innermost loop is left. -/
@[simp] def Stmt.scopes (inBlock : Bool) (around vars : List Variable) : Stmt → List (List Variable)
  | .expr value => List.replicate (value.count + 1) vars
  | .var _ value _ => List.replicate (Expr.countOrNil value + if inBlock then 0 else 1) vars
  | .let_ _ value _ => List.replicate (value.count + if inBlock then 0 else 1) vars
  | .block body _ => Stmt.scopesAll true around vars body ++ Stmt.leaving vars body
  | .if_ condition body none _ =>
    List.replicate (condition.count + 2) vars ++
      ((Stmt.scopesAll true around vars body ++ Stmt.leaving vars body) ++ List.replicate 2 vars)
  | .if_ condition body (some orElse) _ =>
    List.replicate (condition.count + 2) vars ++
      ((Stmt.scopesAll true around vars body ++ Stmt.leaving vars body) ++
        (List.replicate 2 vars ++ orElse.scopes inBlock around vars))
  | .while_ condition body _ =>
    List.replicate (condition.count + 2) vars ++
      ((Stmt.scopesAll true vars vars body ++ Stmt.leaving vars body) ++ List.replicate 2 vars)
  | .for_ name iterable body _ =>
    let inside := Variable.ofLoop name vars
    List.replicate iterable.count vars ++ ([inside.tail.tail, inside.tail] ++
      (List.replicate 16 inside ++
        ((Stmt.scopesAll true inside inside body ++ Stmt.leaving inside body) ++
          (List.replicate 2 inside ++ Variable.closing 3 inside))))
  | .function _ _ _ _ => List.replicate (if inBlock then 1 else 2) vars
  | .return_ value _ => List.replicate (Expr.countOrNil value + 1) vars
  | .break_ _ | .continue_ _ =>
    Variable.closing (vars.length - around.length) vars ++ [around]

/-- The variables in scope at each instruction of statements one behind another. -/
@[simp] def Stmt.scopesAll (inBlock : Bool) (around vars : List Variable) :
    List Stmt → List (List Variable)
  | [] => []
  | p :: ps => p.scopes inBlock around vars ++
      Stmt.scopesAll inBlock around (p.declare inBlock vars) ps

end

/-! ### Assignments -/

mutual

/-- **No assignment in an expression means an immutable variable,** where those that are in scope come
from the function and from all functions around it. -/
@[simp] def Expr.Allowed (vars : List Variable) : Expr → Prop
  | .number _ _ | .text _ _ | .bool _ _ | .nil _ | .name _ _ => True
  | .array elements _ => Expr.AllAllowed vars elements
  | .record fields _ => Expr.FieldsAllowed vars fields
  | .binary left _ right _ | .logical left _ right _ => left.Allowed vars ∧ right.Allowed vars
  | .unary _ operand _ => operand.Allowed vars
  | .call callee args _ => callee.Allowed vars ∧ Expr.AllAllowed vars args
  | .group inner _ => inner.Allowed vars
  | .assign x value _ => value.Allowed vars ∧
      ∀ v, Variable.find? x vars = some v → v.isMutable = true
  | .get object _ _ => object.Allowed vars
  | .set object _ value _ => object.Allowed vars ∧ value.Allowed vars
  | .index object key _ => object.Allowed vars ∧ key.Allowed vars
  | .setIndex object key value _ => object.Allowed vars ∧ key.Allowed vars ∧ value.Allowed vars

/-- The same of each of some expressions. -/
@[simp] def Expr.AllAllowed (vars : List Variable) : List Expr → Prop
  | [] => True
  | e :: es => e.Allowed vars ∧ Expr.AllAllowed vars es

/-- The same of the values of fields. -/
@[simp] def Expr.FieldsAllowed (vars : List Variable) : List (String × Expr) → Prop
  | [] => True
  | (_, e) :: es => e.Allowed vars ∧ Expr.FieldsAllowed vars es

end

mutual

/-- **No assignment in a statement means an immutable variable.** -/
@[simp] def Stmt.Allowed (inBlock : Bool) (vars : List Variable) : Stmt → Prop
  | .expr value | .let_ _ value _ => value.Allowed vars
  | .var _ value _ | .return_ value _ => ∀ e ∈ value, e.Allowed vars
  | .block body _ => Stmt.AllAllowed true vars body
  | .if_ condition body none _ => condition.Allowed vars ∧ Stmt.AllAllowed true vars body
  | .if_ condition body (some orElse) _ => condition.Allowed vars ∧
      Stmt.AllAllowed true vars body ∧ orElse.Allowed inBlock vars
  | .while_ condition body _ => condition.Allowed vars ∧ Stmt.AllAllowed true vars body
  | .for_ name iterable body _ => iterable.Allowed vars ∧
      Stmt.AllAllowed true (Variable.ofLoop name vars) body
  | .function name params body _ => Stmt.AllAllowed true (Variable.entry params ++
      if inBlock then ⟨name, false⟩ :: vars else vars) body
  | .break_ _ | .continue_ _ => True

/-- The same of statements one behind another. -/
@[simp] def Stmt.AllAllowed (inBlock : Bool) (vars : List Variable) : List Stmt → Prop
  | [] => True
  | p :: ps => p.Allowed inBlock vars ∧ Stmt.AllAllowed inBlock (p.declare inBlock vars) ps

end

/-! ### Functions in their surroundings -/

mutual

/-- The functions that a statement declares, with their parameters and bodies; not those inside them. -/
@[simp] def Stmt.functions : Stmt → List (List String × List Stmt)
  | .block body _ | .if_ _ body none _ | .while_ _ body _ | .for_ _ _ body _ => Stmt.functionsAll body
  | .if_ _ body (some orElse) _ => Stmt.functionsAll body ++ orElse.functions
  | .function _ params body _ => [(params, body)]
  | _ => []

/-- The functions that statements declare. -/
@[simp] def Stmt.functionsAll : List Stmt → List (List String × List Stmt)
  | [] => []
  | p :: ps => p.functions ++ Stmt.functionsAll ps

end

/-- A function around another one: its variables where the other one is made, and where its captures
come from. -/
structure Environment where
  vars : List Variable
  captures : List CaptureSource

/-- The same with names only. -/
def Environment.names (e : Environment) : NameScope := ⟨e.vars.map Variable.name, e.captures⟩

/-- **The variable that a capture stands for:** one of the next function around, or one that this
function has captured itself. -/
def capturedVariable? : (captures : List CaptureSource) → (outer : List Environment) →
    (index : Nat) → Option Variable
  | _, [], _ => none
  | captures, parent :: outer, index =>
    match captures[index]? with
    | none => none
    | some source =>
      if source.isLocal then parent.vars.reverse[source.index.toNat]?
      else capturedVariable? parent.captures outer source.index.toNat

/-- What code comes from: a whole script, or a function that a script declares. -/
inductive Text
  | script (p : Program)
  | function (params : List String) (body : List Stmt)

/-- **A script or a function** with all that its variables depend on: where its captures come from, and
the functions around it, the innermost first. -/
structure Routine where
  text : Text
  captures : List CaptureSource
  outer : List Environment

namespace Routine

/-- A script, around which there is nothing. -/
def ofProgram (p : Program) : Routine := ⟨.script p, [], []⟩

def params (r : Routine) : List String :=
  match r.text with
  | .script _ => []
  | .function params _ => params

/-- The variables in scope in front of the first instruction. -/
def entry (r : Routine) : List Variable := Variable.entry r.params

/-- **The variables in scope at each instruction.** -/
def scopes (r : Routine) : List (List Variable) :=
  match r.text with
  | .script p => Stmt.scopesAll false [] r.entry (splitLast p.statements).1 ++
      List.replicate (Expr.countOrNil (splitLast p.statements).2 + 1) r.entry
  | .function _ body => Stmt.scopesAll true [] r.entry body ++
      List.replicate 2 (Stmt.declareAll true r.entry body)

/-- The variable that a capture stands for. -/
def captured? (r : Routine) (index : Nat) : Option Variable := capturedVariable? r.captures r.outer index

/-- The variables of the functions around. -/
def visible (r : Routine) : List Variable := r.outer.flatMap Environment.vars

/-- The globals that a script declares. A function declares none. -/
def Declares (r : Routine) (name : String) : Prop :=
  match r.text with
  | .script p => ∃ s ∈ p.statements, s.declaredName? = some name
  | .function _ _ => False

/-- The functions that are declared in it; not those inside them. -/
def functions (r : Routine) : List (List String × List Stmt) :=
  match r.text with
  | .script p => Stmt.functionsAll (splitLast p.statements).1
  | .function _ body => Stmt.functionsAll body

/-- No assignment means an immutable variable. -/
def Allowed (r : Routine) : Prop :=
  match r.text with
  | .script p => Stmt.AllAllowed false (r.entry ++ r.visible) (splitLast p.statements).1 ∧
      ∀ e ∈ (splitLast p.statements).2, e.Allowed (r.entry ++ r.visible)
  | .function _ body => Stmt.AllAllowed true (r.entry ++ r.visible) body

/-- Its statements are as a script can spell them. -/
def Regular (r : Routine) : Prop :=
  match r.text with
  | .script p => Stmt.AllRegular (splitLast p.statements).1
  | .function _ body => Stmt.AllRegular body

/-- What the operands of its code refer to. -/
def tables (r : Routine) (functions : Array (Prototype Literal)) (chunk : Chunk Literal) : Tables :=
  { constants := chunk.constants, names := chunk.names, functions, captures := r.captures
    enclosing := r.outer.map Environment.names }

/-- Its instructions. -/
def Coded (r : Routine) (T : Tables) (code : Written) : Prop :=
  match r.text with
  | .script p => ∃ body value,
      Stmt.CodedAll (splitLast p.statements).1 T
        { inBlock := false, loop := none, locals := [""], offset := 0 } body ∧
      CodedOrNil T [""] 0 (splitLast p.statements).2 value ∧
      code = body ++ (value ++ [(⟨.return_, ()⟩, 0)])
  | .function params body => ∃ inner line, Stmt.CodedAll body T (Spot.entry params) inner ∧
      code = inner ++ Written.of [⟨.nil, ()⟩, ⟨.return_, ()⟩] line

/-- **A compiled function that is the code of a routine.** -/
structure Codes (r : Routine) (functions : Array (Prototype Literal)) (q : Prototype Literal) :
    Prop where
  params : q.params = r.params
  regular : r.Regular
  allowed : r.Allowed
  code : ∃ code, r.Coded (r.tables functions q.chunk) code ∧ q.chunk.Reads 0 code

/-- **The routines of a program:** the script itself, and the functions in its routines. -/
inductive Of (p : Program) : Routine → Prop
  | script : Of p (ofProgram p)
  | function {r : Routine} (h : Of p r) {params : List String} {body : List Stmt}
    (hf : (params, body) ∈ r.functions) (sources : List CaptureSource) (vars : List Variable) :
    Of p ⟨.function params body, sources, ⟨vars, r.captures⟩ :: r.outer⟩

end Routine

end DeployScript
