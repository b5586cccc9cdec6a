import DeployScript.Machine.Step
import DeployScript.Proofs.Code.Steps

/-!
# What programs mean

Evaluation of a program by its structure, without code, stack or frames. A variable in a block is a
cell of its own, made anew whenever its declaration is executed; a function is its body with the cells
that were in scope where it stands. Everything else is as the machine does it: the operators, the
containers in a heap, the functions of the language and the builtins of the host.

* `Memory` — what evaluation changes; `Eval` — an evaluation with a result, a failure, or no end
  within a number of rounds and calls.
* `Eval.read`, `assign`, `define`, `closure` — variables and functions.
* `Eval.repeating` — loops; `Flow` — how a statement is left.
* `Expr.eval`, `Stmt.eval` — expressions and statements, given what a call does.
* `Eval.apply` — calls; `Program.eval` — scripts.
-/

namespace DeployScript

/-- The variables in scope with their cells, the innermost first. -/
abbrev Env := List (String × Handle)

/-- A function: its parameters, its body, and the variables in scope where it was declared. -/
structure Lambda where
  params : List String
  body : List Stmt
  env : Env

/-- What evaluation reads and changes. The heap has an object for each function, which has its name;
`lambdas` has what the function does. -/
structure Memory (ω : Type) where
  globals : Std.TreeMap String Binding
  heap : Heap
  lambdas : Handle → Option Lambda
  assets : Assets
  library : Library ω
  world : ω
  output : String

/-- What an evaluation comes to: a result, a failure, or no end within the rounds and calls that it
was given. -/
inductive Result (ω α : Type)
  | ok (a : α) (μ : Memory ω)
  | error (cause : Cause) (μ : Memory ω)
  | unfinished

/-- An evaluation. -/
def Eval (ω α : Type) := Memory ω → Result ω α

namespace Eval

variable {ω α β : Type}

/-- The result of one evaluation is what the next one starts from. -/
def andThen (x : Eval ω α) (f : α → Eval ω β) : Eval ω β := fun μ =>
  match x μ with
  | .ok a μ => f a μ
  | .error cause μ => .error cause μ
  | .unfinished => .unfinished

instance : Monad (Eval ω) where
  pure a := fun μ => .ok a μ
  bind := andThen

/-- No end. -/
def endless : Eval ω α := fun _ => .unfinished

/-- A failure. -/
def fail (cause : Cause) : Eval ω α := fun μ => .error cause μ

/-- A result, or a failure, that depends on the heap alone. -/
def given (result : Heap → Except Cause α) : Eval ω α := fun μ =>
  match result μ.heap with
  | .ok a => .ok a μ
  | .error cause => .error cause μ

/-- A change of the heap. -/
def change (f : Heap → α × Heap) : Eval ω α := fun μ =>
  .ok (f μ.heap).1 { μ with heap := (f μ.heap).2 }

/-! ### Variables -/

/-- A new cell. -/
def newCell (v : Value) : Eval ω Handle := change (·.insert (.cell (.closed v)))

/-- The value of a cell. -/
def readCell (h : Handle) : Eval ω Value := fun μ =>
  match μ.heap.cell? h with
  | some (.closed v) => .ok v μ
  | _ => .ok .nil μ

/-- Sets a cell. -/
def setCell (h : Handle) (v : Value) : Eval ω Unit :=
  change fun heap => ((), heap.setCell h (.closed v))

/-- Reads a variable: the innermost of its name, or a global. -/
def read (env : Env) (name : String) : Eval ω Value :=
  match env.lookup name with
  | some h => readCell h
  | none => fun μ =>
    match μ.globals[name]? with
    | some b => .ok b.value μ
    | none => .error (.undefinedVariable name) μ

/-- Binds a global, whether it was bound or not. -/
def bindGlobal (name : String) (v : Value) (isMutable : Bool) : Eval ω Unit := fun μ =>
  .ok () { μ with globals := μ.globals.insert name ⟨v, isMutable⟩ }

/-- Assigns to a variable. -/
def assign (env : Env) (name : String) (v : Value) : Eval ω Unit :=
  match env.lookup name with
  | some h => setCell h v
  | none => fun μ =>
    match μ.globals[name]? with
    | some b =>
      if b.isMutable then bindGlobal name v true μ else .error (.immutableBinding name) μ
    | none => .error (.undefinedVariable name) μ

/-- Defines a global. The functions of the language and of the host stay what they are. -/
def define (name : String) (v : Value) (isMutable : Bool) : Eval ω Unit := fun μ =>
  match μ.globals[name]? with
  | some b =>
    if Machine.isFixed b then .error (.immutableBinding name) μ else bindGlobal name v isMutable μ
  | none => bindGlobal name v isMutable μ

/-- Declares a variable: outside all blocks a global, in a block one with a new cell. -/
def declare (inBlock : Bool) (env : Env) (name : String) (v : Value) (isMutable : Bool) :
    Eval ω Env :=
  if inBlock then do
    let h ← newCell v
    return (name, h) :: env
  else do
    define name v isMutable
    return env

/-- Declares the parameters of a function, the first one first. -/
def declareAll : (params : List String) → (args : List Value) → Env → Eval ω Env
  | p :: params, v :: args, env => do
    let h ← newCell v
    declareAll params args ((p, h) :: env)
  | _, _, env => pure env

/-! ### Operations -/

/-- The object of a function, which has its name and no code. -/
def named (name : String) : Object :=
  .function { name, params := [], captures := 0, chunk := Chunk.empty }

/-- A new function. -/
def closure (name : String) (f : Lambda) : Eval ω Value := fun μ =>
  let (function, heap) := μ.heap.insert (named name)
  let (h, heap) := heap.insert (.closure { function, cells := #[] })
  .ok (.closure h) { μ with heap, lambdas := fun k => if k = h then some f else μ.lambdas k }

/-- Writes to a container. -/
def write (target : Heap → Except Cause Heap.Target) (v : Value) : Eval ω Value := do
  let target ← given target
  change fun heap => (v, heap.store target v)

/-- Prints values on one line. -/
def print (values : List Value) : Eval ω Value := fun μ =>
  let text := " ".intercalate (values.map μ.heap.display)
  .ok .nil { μ with output := μ.output ++ text ++ "\n" }

/-- Calls a function of the language. -/
def intrinsic (f : Intrinsic) (args : List Value) : Eval ω Value := do
  match f.arity? with
  | some arity => if args.length ≠ arity then fail (.wrongArity arity args.length)
  | none => pure ()
  let effect ← given fun heap => (f.effect? heap args).mapError Cause.failure
  change (·.perform effect)

/-- Calls a builtin of the host, from a function of a name. -/
def builtin (caller name : String) (args : List Value) : Eval ω Value := fun μ =>
  match μ.library.get? name with
  | none => .error (.failure .deadFunction) μ
  | some b =>
    match μ.heap.unpack b.name b.params args with
    | .error cause => .error cause μ
    | .ok args =>
      match b.run { caller, assets := μ.assets } args μ.world with
      | (.error cause, world) => .error cause { μ with world }
      | (.ok result, world) => change (Heap.ofHost result) { μ with world }

end Eval

/-! ### Expressions -/

/-- Whether the left operand decides. -/
def LogicalOp.decides : LogicalOp → Value → Bool
  | and, v => !v.isTruthy
  | or, v => v.isTruthy

/-- What a call of a value does. -/
abbrev Calling (ω : Type) := Value → List Value → Eval ω Value

mutual

/-- **The value of an expression.** Its parts are evaluated from left to right. -/
def Expr.eval {ω : Type} (call : Calling ω) : Expr → Env → Eval ω Value
  | .number n _, _ => pure (.number n)
  | .text s _, _ => pure (.text s)
  | .bool b _, _ => pure (.bool b)
  | .nil _, _ => pure .nil
  | .name x _, env => Eval.read env x
  | .array elements _, env => do
    let values ← Expr.evalAll call elements env
    Eval.change (·.newArray values.toArray)
  | .record entries _, env => do
    let entries ← Expr.evalFields call entries env
    Eval.change (·.newRecord (entries.foldl (fun fields e => fields.insert e.1 e.2) {}))
  | .binary left op right _, env => do
    let a ← left.eval call env
    let b ← right.eval call env
    Eval.given (·.binary op a b)
  | .logical left op right _, env => do
    let a ← left.eval call env
    if op.decides a then pure a else right.eval call env
  | .unary op operand _, env => do
    let a ← operand.eval call env
    Eval.given fun _ => Heap.unary op a
  | .call callee args _, env =>
    if Compile.isPrint callee then do
      let values ← Expr.evalAll call args env
      Eval.print values
    else do
      let f ← callee.eval call env
      let values ← Expr.evalAll call args env
      call f values
  | .group inner _, env => inner.eval call env
  | .assign x value _, env => do
    let v ← value.eval call env
    Eval.assign env x v
    return v
  | .get object key _, env => do
    let o ← object.eval call env
    Eval.given (·.property key o)
  | .set object key value _, env => do
    let o ← object.eval call env
    let v ← value.eval call env
    Eval.write (fun _ => Heap.propertyTarget key o) v
  | .index object key _, env => do
    let o ← object.eval call env
    let k ← key.eval call env
    Eval.given (·.index o k)
  | .setIndex object key value _, env => do
    let o ← object.eval call env
    let k ← key.eval call env
    let v ← value.eval call env
    Eval.write (·.target o k) v

/-- The values of expressions. -/
def Expr.evalAll {ω : Type} (call : Calling ω) : List Expr → Env → Eval ω (List Value)
  | [], _ => pure []
  | e :: es, env => do
    let v ← e.eval call env
    let values ← Expr.evalAll call es env
    return v :: values

/-- The values of fields with their keys. -/
def Expr.evalFields {ω : Type} (call : Calling ω) :
    List (String × Expr) → Env → Eval ω (List (String × Value))
  | [], _ => pure []
  | (key, e) :: es, env => do
    let v ← e.eval call env
    let entries ← Expr.evalFields call es env
    return (key, v) :: entries

end

/-! ### Statements -/

/-- How a statement is left: at its end, with what is in scope behind it, or by a jump out of the
innermost loop, to its next round, or out of the function. -/
inductive Flow
  | next (env : Env)
  | break_
  | continue_
  | return_ (v : Value)

/-- The end of a block, where the variables of the block go out of scope. -/
def Flow.leave (env : Env) : Flow → Flow
  | next _ => next env
  | flow => flow

namespace Eval

variable {ω : Type}

/-- **A loop.** In each round the body is executed if the test comes to a true value. There is no end
within fewer rounds than there are. -/
def repeating (env : Env) (test : Eval ω Value) (body : Eval ω Flow) : (rounds : Nat) → Eval ω Flow
  | 0 => endless
  | rounds + 1 => do
    let v ← test
    if v.isTruthy then
      match ← body with
      | .break_ => pure (.next env)
      | .return_ v => pure (.return_ v)
      | .next _ | .continue_ => repeating env test body rounds
    else pure (.next env)

/-- The length of a container. -/
def length (container : Value) : Eval ω Nat := given fun heap =>
  match heap.length? container with
  | some n => .ok n
  | none => .error (wrongType "array, string or record" container)

/-- The cells of a loop over a container: the container, the index of the last round, and the element. -/
structure Cursor where
  container : Handle
  index : Handle
  element : Handle

/-- What a loop over a container has in scope. The names of the container and the index are not meant to
be used, but the body can read and assign them as any others. -/
def Cursor.scope (c : Cursor) (name : String) (env : Env) : Env :=
  (name, c.element) :: ("__idx__", c.index) :: ("__iter__", c.container) :: env

/-- A new loop over a container, in front of its first round. -/
def iterate (container : Value) : Eval ω Cursor := do
  let container ← newCell container
  let index ← newCell (.number (-1))
  let element ← newCell .nil
  return { container, index, element }

/-- The index gets one more, and is compared with the length, which is read in every round. -/
def nextIndex (c : Cursor) : Eval ω Value := do
  let i ← readCell c.index
  let next ← given (·.binary .add i (.number 1))
  setCell c.index next
  let container ← readCell c.container
  let n ← length container
  let i ← readCell c.index
  given (·.binary .gt (.number (Float.ofNat n)) i)

/-- The element at the index becomes the value of the variable of the loop. -/
def take (c : Cursor) : Eval ω Unit := do
  let container ← readCell c.container
  let i ← readCell c.index
  let v ← given (·.index container i)
  setCell c.element v

end Eval

/-- The value of an expression, or nil. -/
def Expr.evalOrNil {ω : Type} (call : Calling ω) : Option Expr → Env → Eval ω Value
  | some e, env => e.eval call env
  | none, _ => pure .nil

mutual

/-- **What a statement does,** with at most `rounds` rounds of a loop. -/
def Stmt.eval {ω : Type} (call : Calling ω) (rounds : Nat) :
    Stmt → (inBlock : Bool) → Env → Eval ω Flow
  | .expr value, _, env => do
    let _ ← value.eval call env
    return .next env
  | .var name value _, inBlock, env => do
    let v ← Expr.evalOrNil call value env
    let env ← Eval.declare inBlock env name v true
    return .next env
  | .let_ name value _, inBlock, env => do
    let v ← value.eval call env
    let env ← Eval.declare inBlock env name v false
    return .next env
  | .block body _, _, env => do
    let flow ← Stmt.evalAll call rounds body true env
    return flow.leave env
  | .if_ condition body none _, _, env => do
    let c ← condition.eval call env
    if c.isTruthy then do
      let flow ← Stmt.evalAll call rounds body true env
      return flow.leave env
    else return .next env
  | .if_ condition body (some orElse) _, inBlock, env => do
    let c ← condition.eval call env
    if c.isTruthy then do
      let flow ← Stmt.evalAll call rounds body true env
      return flow.leave env
    else do
      let flow ← orElse.eval call rounds inBlock env
      return flow.leave env
  | .while_ condition body _, _, env =>
    Eval.repeating env (condition.eval call env) (Stmt.evalAll call rounds body true env) rounds
  | .for_ name iterable body _, _, env => do
    let container ← iterable.eval call env
    let cursor ← Eval.iterate container
    Eval.repeating env (Eval.nextIndex cursor)
      (do
        Eval.take cursor
        Stmt.evalAll call rounds body true (cursor.scope name env))
      rounds
  | .function name params body _, inBlock, env =>
    if inBlock then do
      -- The variable comes first, so that the function can call itself.
      let h ← Eval.newCell .nil
      let f ← Eval.closure name { params, body, env := (name, h) :: env }
      Eval.setCell h f
      return .next ((name, h) :: env)
    else do
      let f ← Eval.closure name { params, body, env }
      Eval.define name f false
      return .next env
  | .return_ value _, _, env => do
    let v ← Expr.evalOrNil call value env
    return .return_ v
  | .break_ _, _, _ => pure .break_
  | .continue_ _, _, _ => pure .continue_

/-- What statements do one after another. -/
def Stmt.evalAll {ω : Type} (call : Calling ω) (rounds : Nat) :
    List Stmt → (inBlock : Bool) → Env → Eval ω Flow
  | [], _, env => pure (.next env)
  | p :: ps, inBlock, env => do
    match ← p.eval call rounds inBlock env with
    | .next env => Stmt.evalAll call rounds ps inBlock env
    | flow => return flow

end

/-! ### Calls and scripts -/

namespace Eval

variable {ω : Type}

/-- The result of a function whose body was left. -/
def result : Flow → Value
  | .return_ v => v
  | _ => .nil

/-- **What a call does** in a function of the name `caller`, which is the innermost of `depth` calls
that are under way. There is no end within fewer calls than there are. -/
def apply : (fuel depth : Nat) → (caller : String) → Calling ω
  | 0, _, _, _, _ => endless
  | fuel + 1, depth, caller, callee, args =>
    match callee with
    | .closure h => fun μ =>
      match μ.lambdas h with
      | none => .error (.failure .deadFunction) μ
      | some f =>
        if args.length ≠ f.params.length then .error (.wrongArity f.params.length args.length) μ
        else if maxFrames ≤ depth then .error .stackOverflow μ
        else
          let name := (μ.heap.functionName? h).getD scriptName
          let body : Eval ω Value := do
            let env ← declareAll f.params args f.env
            let flow ← Stmt.evalAll (apply fuel (depth + 1) name) fuel f.body true env
            return result flow
          body μ
    | .intrinsic f => intrinsic f args
    | .builtin name => builtin caller name args
    | callee => fail (wrongType "function" callee)

end Eval

/-- **What a script does:** its statements one after another. The value of an expression at its end is
the value of the script, which is nil otherwise. -/
def Program.eval {ω : Type} (p : Program) (fuel : Nat) : Eval ω Value := do
  let call := Eval.apply fuel 1 scriptName
  match ← Stmt.evalAll call fuel (Compile.splitLast p.statements).1 false [] with
  | .return_ v => return v
  | _ => Expr.evalOrNil call (Compile.splitLast p.statements).2 []

end DeployScript
