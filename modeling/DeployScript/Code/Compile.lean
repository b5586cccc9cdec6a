import DeployScript.Code.Scope
import DeployScript.Program.Parser

/-!
# Compiled programs

`Compiled.ofProgram` turns a program into code for a machine with a stack. An expression leaves its
value on the stack and a statement leaves nothing; local variables are the slots of the stack that
their initial values were computed in.

* `Compile.expr` and `Compile.stmt` give the block of a node. The state they pass on holds the
  scopes, the constants and names of the functions being compiled, how much code there is already,
  and a store of the functions that are finished.
* `Compile.chain` is a second way to compile a chain of operators, by a loop over the operands
  on its left side instead of a recursion.
-/

namespace DeployScript

namespace Compile

/-- What keeps functions that are finished: each gets a number, by which constants refer to it. -/
class Store (σ : Type) where
  add : (prototype : Prototype Literal) → (functions : σ) → Nat × σ

/-- Functions one after another. -/
instance : Store (Array (Prototype Literal)) where
  add prototype functions := (functions.size, functions.push prototype)

/-- The function being compiled, those around it with the nearest first, and those that are
finished. -/
structure State (σ : Type := Array (Prototype Literal)) where
  current : Scope
  enclosing : List Scope
  functions : σ
  deriving Inhabited

/-- A step of the compilation, with a store of some kind. -/
abbrev StepIn (σ : Type) := StateT (State σ) (Except ScriptError)

/-- A step of the compilation. -/
abbrev Step := StepIn (Array (Prototype Literal))

variable {σ : Type}

/-! ### Scopes -/

/-- Changes the current scope. -/
def modifyScope (f : Scope → Scope) : StepIn σ Unit :=
  modify fun s => { s with current := f s.current }

/-- The current scope. -/
def scope : StepIn σ Scope := do
  return (← get).current

/-- Fails because of a limit. -/
def exceed {α : Type} (limit : Limit) (line : Nat) : StepIn σ α := throw (.ofLimit limit line)

/-- A number in two bytes, within a limit. -/
def wide (n : Nat) (limit : Limit) (line : Nat) : StepIn σ UInt16 :=
  match wide? n with
  | some w => pure w
  | none => exceed limit line

/-- Declares a local variable. -/
def declareLocal (name : String) (isMutable : Bool) : StepIn σ Unit :=
  modifyScope (·.declare name isMutable)

/-- Declares a local variable and gives its slot. -/
def declareSlot (name : String) (isMutable : Bool) : StepIn σ Nat := do
  let slot := (← scope).locals.length
  declareLocal name isMutable
  return slot

/-! ### Single instructions -/

/-- Counts code that is about to be added. -/
def reserve (size : Nat) : StepIn σ Unit :=
  modifyScope fun s => { s with offset := s.offset + size }

/-- One instruction. -/
def emit (i : Instr) (line : Nat) : StepIn σ Block := do
  reserve i.size
  return #[.instr i line]

/-- The index of a constant, which is added. -/
def addConstant (literal : Literal) (line : Nat) : StepIn σ UInt16 := do
  let index ← wide (← scope).constants.size .constantPool line
  modifyScope fun s => { s with constants := s.constants.push literal }
  return index

/-- The index of a name, which is added unless it is there. -/
def addName (name : String) (line : Nat) : StepIn σ UInt16 := do
  let names := (← scope).names
  match names.idxOf? name with
  | some index => wide index .nameTable line
  | none =>
    let index ← wide names.size .nameTable line
    modifyScope fun s => { s with names := s.names.push name }
    return index

/-- A constant. -/
def emitConstant (literal : Literal) (line : Nat) : StepIn σ Block := do
  emit ⟨.constant, ← addConstant literal line⟩ line

/-- The instructions that take variables deeper than `depth` off the stack. -/
def unwind (depth line : Nat) : StepIn σ Block := do
  let instrs := (← scope).unwinding depth
  reserve (instrs.foldl (fun n i => n + i.size) 0)
  return (instrs.map (Item.instr · line)).toArray

/-- How many bytes a jump has. -/
def jumpSize : Nat := 3

/-- A distance, within a limit. -/
def distance (block : Block) (line : Nat) : StepIn σ UInt16 := wide block.size .jumpDistance line

/-- A jump back to a place, behind the code so far. -/
def emitLoop (start line : Nat) : StepIn σ Block := do
  let back ← wide ((← scope).offset + jumpSize - start) .loopBody line
  emit ⟨.loop, back⟩ line

/-! ### Variables -/

/-- Where a variable is. -/
inductive Place
  | slot (slot : Nat) (isMutable : Bool)
  | capture (index : Nat) (isMutable : Bool)
  | global
  deriving Repr, DecidableEq

/-- Finds a variable: in this function, in those around it, or among the globals. -/
def resolve (name : String) (line : Nat) : StepIn σ Place := do
  let s ← get
  match s.current.lookup? name with
  | some (slot, l) => return .slot slot l.isMutable
  | none =>
    match ← Scope.resolveCapture name line s.current s.enclosing with
    | none => return .global
    | some (index, current, enclosing) =>
      set { s with current, enclosing }
      let isMutable := (current.captures[index]?.map (·.isMutable)).getD false
      return .capture index isMutable

/-- Reads a variable. -/
def readVariable (name : String) (line : Nat) : StepIn σ Block := do
  match ← resolve name line with
  | .slot slot _ => emit ⟨.getLocal, ← wide slot .localSlot line⟩ line
  | .capture index _ => emit ⟨.getCapture, ← wide index .localSlot line⟩ line
  | .global => emit ⟨.getGlobal, ← addName name line⟩ line

/-- Writes a variable, which has to be mutable unless it is a global. -/
def writeVariable (name : String) (span : Span) : StepIn σ Block := do
  let immutable := ScriptError.at_ (.immutableBinding name) span
  match ← resolve name span.line with
  | .slot slot isMutable =>
    if isMutable then emit ⟨.setLocal, ← wide slot .localSlot span.line⟩ span.line
    else throw immutable
  | .capture index isMutable =>
    if isMutable then emit ⟨.setCapture, ← wide index .localSlot span.line⟩ span.line
    else throw immutable
  | .global => emit ⟨.setGlobal, ← addName name span.line⟩ span.line

/-- Binds the value on top of the stack: to a global outside all blocks, to its slot inside. -/
def declare (name : String) (isMutable : Bool) (line : Nat) : StepIn σ Block := do
  if (← scope).depth = 0 then
    let index ← addName name line
    if isMutable then emit ⟨.defineVar, index⟩ line else emit ⟨.defineLet, index⟩ line
  else
    declareLocal name isMutable
    return #[]

/-! ### Expressions -/

/-- The instruction of an operator. -/
def binaryInstr : BinaryOp → Instr
  | .add => ⟨.add, ()⟩
  | .sub => ⟨.sub, ()⟩
  | .mul => ⟨.mul, ()⟩
  | .div => ⟨.div, ()⟩
  | .mod => ⟨.mod, ()⟩
  | .eq => ⟨.eq, ()⟩
  | .ne => ⟨.ne, ()⟩
  | .lt => ⟨.lt, ()⟩
  | .le => ⟨.le, ()⟩
  | .gt => ⟨.gt, ()⟩
  | .ge => ⟨.ge, ()⟩

/-- The jump of a logical operator over its right operand. -/
def logicalJump (op : LogicalOp) (distance : UInt16) : Instr :=
  match op with
  | .and => ⟨.jumpIfFalse, distance⟩
  | .or => ⟨.jumpIfTrue, distance⟩

/-- What follows the left operand of an operator. -/
def afterLeft (op : BinaryOp) (right : StepIn σ Block) (line : Nat) : StepIn σ Block := do
  return (← right) ++ (← emit (binaryInstr op) line)

/-- What follows the left operand of a logical operator: if that decides, it is the value. -/
def afterDeciding (op : LogicalOp) (right : StepIn σ Block) (line : Nat) : StepIn σ Block := do
  reserve jumpSize
  let skipped := (← emit ⟨.pop, ()⟩ line) ++ (← right)
  return #[.instr (logicalJump op (← distance skipped line)) line] ++ skipped

/-- Whether a callee is the name of the printing function, which has an instruction of its own. -/
def isPrint : Expr → Bool
  | .name name _ => name = "print"
  | _ => false

/-- Most arguments of a call. -/
def maxArgs : Nat := 255

mutual

/-- The code that leaves the value of an expression on the stack. -/
def expr : Expr → StepIn σ Block
  | .number value span => emitConstant (.number value) span.line
  | .text value span => emitConstant (.text value) span.line
  | .bool true span => emit ⟨.true_, ()⟩ span.line
  | .bool false span => emit ⟨.false_, ()⟩ span.line
  | .nil span => emit ⟨.nil, ()⟩ span.line
  | .name name span => readVariable name span.line
  | .array elements span => do
    let values ← exprs elements #[]
    let count ← wide elements.length .literalSize span.line
    return values ++ (← emit ⟨.array, count⟩ span.line)
  | .record entries span => do
    let values ← fields entries span.line #[]
    let count ← wide entries.length .literalSize span.line
    return values ++ (← emit ⟨.record, count⟩ span.line)
  | .binary left op right span => do
    return (← expr left) ++ (← afterLeft op (expr right) span.line)
  | .logical left op right span => do
    return (← expr left) ++ (← afterDeciding op (expr right) span.line)
  | .unary .neg operand span => do
    return (← expr operand) ++ (← emit ⟨.neg, ()⟩ span.line)
  | .unary .not operand span => do
    return (← expr operand) ++ (← emit ⟨.not, ()⟩ span.line)
  | .call callee args span => do
    if maxArgs < args.length then exceed .argumentList span.line
    let count := UInt8.ofNat args.length
    if isPrint callee then
      return (← exprs args #[]) ++ (← emit ⟨.print, count⟩ span.line)
    else
      return (← exprs args (← expr callee)) ++ (← emit ⟨.call, count⟩ span.line)
  | .group inner _ => expr inner
  | .assign name value span => do
    return (← expr value) ++ (← writeVariable name span)
  | .get object name span => do
    return (← expr object) ++ (← emit ⟨.getProperty, ← addName name span.line⟩ span.line)
  | .set object name value span => do
    let operands := (← expr object) ++ (← expr value)
    return operands ++ (← emit ⟨.setProperty, ← addName name span.line⟩ span.line)
  | .index object key span => do
    let operands := (← expr object) ++ (← expr key)
    return operands ++ (← emit ⟨.index, ()⟩ span.line)
  | .setIndex object key value span => do
    let operands := (← expr object) ++ (← expr key) ++ (← expr value)
    return operands ++ (← emit ⟨.setIndex, ()⟩ span.line)

/-- The code of expressions one after another, behind other code. -/
def exprs : List Expr → (before : Block) → StepIn σ Block
  | [], before => return before
  | e :: rest, before => do exprs rest (before ++ (← expr e))

/-- The code of the keys and values of fields, behind other code. -/
def fields : List (String × Expr) → (line : Nat) → (before : Block) → StepIn σ Block
  | [], _, before => return before
  | (key, value) :: rest, line, before => do
    let entry := (← emitConstant (.text key) line) ++ (← expr value)
    fields rest line (before ++ entry)

end

/-! ### Statements -/

/-- Code with one more block around its variables. -/
def withBlock (body : StepIn σ Block) : StepIn σ Block := do
  modifyScope fun s => { s with depth := s.depth + 1 }
  let code ← body
  modifyScope fun s => { s with depth := s.depth - 1 }
  let depth := (← scope).depth
  let unwinding ← unwind depth 0
  modifyScope (·.dropDeeper depth)
  return code ++ unwinding

/-- Code with one more loop around it, which starts here. The jumps out of the loop lead behind
it. -/
def withLoop (line : Nat) (body : (start : Nat) → StepIn σ Block) : StepIn σ Block := do
  let s ← scope
  let loop := { start := s.offset, depth := s.depth }
  modifyScope fun s => { s with loops := loop :: s.loops }
  let code ← body loop.start
  modifyScope fun s => { s with loops := s.loops.tail }
  match code.closeLoop? with
  | some closed => return closed
  | none => exceed .jumpDistance line

/-- A loop as long as a condition holds. -/
def whileLoop (condition body : StepIn σ Block) (line : Nat) : StepIn σ Block :=
  withLoop line fun start => do
    let condition ← condition
    reserve jumpSize
    let pop ← emit ⟨.pop, ()⟩ line
    let body ← body
    let skipped := pop ++ body ++ (← emitLoop start line)
    let exit := #[.instr ⟨.jumpIfFalse, ← distance skipped line⟩ line]
    return condition ++ exit ++ skipped ++ (← emit ⟨.pop, ()⟩ line)

/-- Reads a slot. -/
def readSlot (slot line : Nat) : StepIn σ Block := do
  emit ⟨.getLocal, ← wide slot .localSlot line⟩ line

/-- Moves the value on top of the stack to a slot. -/
def moveToSlot (slot line : Nat) : StepIn σ Block := do
  let set ← emit ⟨.setLocal, ← wide slot .localSlot line⟩ line
  return set ++ (← emit ⟨.pop, ()⟩ line)

/-- The start of a round of a loop over a container: adds one to the index, and asks whether the
container is longer. -/
def nextIndex (container index line : Nat) : StepIn σ Block := do
  let count := (← readSlot index line) ++ (← emitConstant (.number 1) line)
  let count := count ++ (← emit ⟨.add, ()⟩ line) ++ (← moveToSlot index line)
  let length := (← readSlot container line) ++ (← emit ⟨.len, ()⟩ line)
  return count ++ length ++ (← readSlot index line) ++ (← emit ⟨.gt, ()⟩ line)

/-- Moves the element at the index to the variable of the loop. -/
def takeElement (container index element line : Nat) : StepIn σ Block := do
  let operands := (← readSlot container line) ++ (← readSlot index line)
  return operands ++ (← emit ⟨.index, ()⟩ line) ++ (← moveToSlot element line)

/-- A loop over a container, by index: a slot holds the container, one the index, which starts
at -1, and one the variable. Each round starts with the next index, and so `continue`, which leads
to the start of a round, goes on with the next element. -/
def forLoop (name : String) (iterable body : StepIn σ Block) (line : Nat) : StepIn σ Block :=
  withBlock do
    let iterable ← iterable
    let container ← declareSlot "__iter__" false
    let first ← emitConstant (.number (-1)) line
    let index ← declareSlot "__idx__" true
    let nothing ← emit ⟨.nil, ()⟩ line
    let element ← declareSlot name true
    let round : StepIn σ Block := do
      return (← takeElement container index element line) ++ (← body)
    return iterable ++ first ++ nothing ++
      (← whileLoop (nextIndex container index line) round line)

/-- A conditional. -/
def conditional (condition body orElse : StepIn σ Block) (line : Nat) : StepIn σ Block := do
  let condition ← condition
  reserve jumpSize
  let pop ← emit ⟨.pop, ()⟩ line
  let body ← body
  reserve jumpSize
  -- The jump over the alternative belongs to the part that a false condition jumps over.
  let skipped := pop ++ body
  let toElse ← wide (skipped.size + jumpSize) .jumpDistance line
  let otherwise := (← emit ⟨.pop, ()⟩ line) ++ (← orElse)
  let toEnd ← distance otherwise line
  return condition ++ #[.instr ⟨.jumpIfFalse, toElse⟩ line] ++ skipped ++
    #[.instr ⟨.jump, toEnd⟩ line] ++ otherwise

/-- Most parameters of a function. -/
def maxParams : Nat := 255

section

variable [Store σ]

/-- The code that leaves a function on the stack. The body is compiled in a scope of its own. -/
def function (name : String) (params : List String) (body : StepIn σ Block) (line : Nat) :
    StepIn σ Block := do
  if maxParams < params.length then exceed .parameterList line
  modify fun s =>
    let fresh := params.foldl (fun f p => f.declare p true) { Scope.start with depth := 1 }
    { s with current := fresh, enclosing := s.current :: s.enclosing }
  let code := (← body) ++ (← emit ⟨.nil, ()⟩ line) ++ (← emit ⟨.return_, ()⟩ line)
  let s ← get
  let finished := s.current
  let chunk := code.toChunk finished.constants finished.names
  let prototype := { name, params, captures := finished.captures.size, chunk }
  let (number, functions) := Store.add prototype s.functions
  set { s with
    current := s.enclosing.headD finished
    enclosing := s.enclosing.tail
    functions }
  let index ← addConstant (.function number) line
  emit ⟨.closure, (index, (finished.captures.map (·.source)).toList)⟩ line

mutual

/-- The code of a statement. -/
def stmt : Stmt → StepIn σ Block
  | .expr value => do
    return (← expr value) ++ (← emit ⟨.pop, ()⟩ value.span.line)
  | .var name value span => do
    let code ← match value with
      | some value => expr value
      | none => emit ⟨.nil, ()⟩ span.line
    return code ++ (← declare name true span.line)
  | .let_ name value span => do
    return (← expr value) ++ (← declare name false span.line)
  | .block body _ => withBlock (stmts body #[])
  | .if_ condition body none span =>
    conditional (expr condition) (withBlock (stmts body #[])) (pure #[]) span.line
  | .if_ condition body (some orElse) span =>
    conditional (expr condition) (withBlock (stmts body #[])) (stmt orElse) span.line
  | .while_ condition body span =>
    whileLoop (expr condition) (withBlock (stmts body #[])) span.line
  | .for_ name iterable body span =>
    forLoop name (expr iterable) (withBlock (stmts body #[])) span.line
  | .function name params body span => do
    if (← scope).depth = 0 then
      let code ← function name params (stmts body #[]) span.line
      return code ++ (← emit ⟨.defineLet, ← addName name span.line⟩ span.line)
    else
      -- Declared before the body, so that the function can call itself.
      declareLocal name false
      function name params (stmts body #[]) span.line
  | .return_ value span => do
    let code ← match value with
      | some value => expr value
      | none => emit ⟨.nil, ()⟩ span.line
    return code ++ (← emit ⟨.return_, ()⟩ span.line)
  | .break_ span => do
    match (← scope).loops with
    | [] => throw (.at_ .breakOutsideLoop span)
    | loop :: _ =>
      let unwinding ← unwind loop.depth span.line
      reserve jumpSize
      return unwinding.push (.exit span.line)
  | .continue_ span => do
    match (← scope).loops with
    | [] => throw (.at_ .continueOutsideLoop span)
    | loop :: _ =>
      let unwinding ← unwind loop.depth span.line
      return unwinding ++ (← emitLoop loop.start span.line)

/-- The code of statements one after another, behind other code. -/
def stmts : List Stmt → (before : Block) → StepIn σ Block
  | [], before => return before
  | s :: rest, before => do stmts rest (before ++ (← stmt s))

end

/-- The code of a script, behind other code. The value of a last statement that is an expression
is the value of the script, which is nil otherwise. -/
def script : List Stmt → (before : Block) → StepIn σ Block
  | [], before => do return before ++ (← emit ⟨.nil, ()⟩ 0)
  | [.expr value], before => do return before ++ (← expr value)
  | s :: rest, before => do script rest (before ++ (← stmt s))

/-- The code of a program: that of its script, and the return from it. -/
def program (p : Program) : StepIn σ Block := do
  return (← script p.statements #[]) ++ (← emit ⟨.return_, ()⟩ 0)

end

/-- The beginning of a compilation: a script without code yet. -/
def State.start (functions : σ) : State σ :=
  { current := Scope.start, enclosing := [], functions }

/-! ### Chains of operators -/

/-- An operator with its right operand. -/
inductive Link
  | binary (op : BinaryOp) (right : Expr) (span : Span)
  | logical (op : LogicalOp) (right : Expr) (span : Span)

/-- The leftmost operand of a chain, and the links behind it in front of `links`. -/
def spine : Expr → (links : List Link) → Expr × List Link
  | .binary left op right span, links => spine left (.binary op right span :: links)
  | .logical left op right span, links => spine left (.logical op right span :: links)
  | e, links => (e, links)

/-- The code of a link. -/
def Link.code : Link → StepIn σ Block
  | binary op right span => afterLeft op (expr right) span.line
  | logical op right span => afterDeciding op (expr right) span.line

/-- The code of a chain, by a loop over its links. -/
def chain (e : Expr) : StepIn σ Block := do
  let (first, links) := spine e []
  links.foldlM (fun before link => do return before ++ (← link.code)) (← expr first)

end Compile

/-- **The code of a program.** -/
def Compiled.ofProgram (p : Program) : Except ScriptError Compiled := do
  let (code, s) ← (Compile.program p).run (.start #[])
  return { main := code.toChunk s.current.constants s.current.names, functions := s.functions }

/-- The code of a source. -/
def Compiled.ofSource (source : String) : Except ScriptError Compiled := do
  Compiled.ofProgram (← Program.ofSource source)

end DeployScript
