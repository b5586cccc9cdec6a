import DeployScript.Code.Compile

/-!
# Code that is written at once

A second way to compile programs: in one pass over their nodes that appends bytes to a chunk. A jump is
written before the code that it leads over, and its distance is filled in when that code is there. The jumps
out of a loop wait for its end: their places are kept for each loop that is open.

* `Writing` — a compilation with the code so far. `writeJump` writes a jump, `patch` fills in its distance.
* `writeExpr` and `writeStmt` write the code of a node. `writeChain` writes a chain of operators by a loop
  over its links.
* `Compiled.inOnePass` is the code of a program.
-/

namespace DeployScript

/-- The instruction of an operator with one operand. -/
def unaryInstr : UnaryOp → Instr
  | .neg => ⟨.neg, ()⟩
  | .not => ⟨.not, ()⟩

namespace Compile

variable {σ : Type}

/-- A compilation with the code so far. The chunk has bytes and lines; constants and names are in the scope. -/
abbrev Writing (σ : Type) := StateT (State σ × Chunk Literal) (Except ScriptError)

/-- Writes a block. -/
def write (block : StepIn σ Block) : Writing σ Unit := fun (s, c) =>
  (block s).map fun (b, s) => ((), (s, c.extend b))

/-- Writes a jump whose distance is not known, and gives the place of the distance. -/
def writeJump (jump : UInt16 → Instr) (line : Nat) : Writing σ Nat := do
  write (emit (jump 0xFFFF) line)
  return (← get).2.code.size - 2

/-- Fills in the distance of a jump that leads behind the code so far. -/
def patch (place line : Nat) : Writing σ Unit := fun (s, c) =>
  match c.patchJump? place with
  | some (true, c) => .ok ((), (s, c))
  | _ => .error (.ofLimit .jumpDistance line)

/-! ### Expressions -/

/-- Writes an instruction with the index of a name. -/
def writeNamed (instr : UInt16 → Instr) (name : String) (line : Nat) : Writing σ Unit :=
  write do emit (instr (← addName name line)) line

/-- Writes an instruction with a number of elements. -/
def writeCount (instr : UInt16 → Instr) (count line : Nat) : Writing σ Unit :=
  write do emit (instr (← wide count .literalSize line)) line

mutual

/-- Writes the code that leaves the value of an expression on the stack. -/
def writeExpr : Expr → Writing σ Unit
  | .number value span => write (emitConstant (.number value) span.line)
  | .text value span => write (emitConstant (.text value) span.line)
  | .bool true span => write (emit ⟨.true_, ()⟩ span.line)
  | .bool false span => write (emit ⟨.false_, ()⟩ span.line)
  | .nil span => write (emit ⟨.nil, ()⟩ span.line)
  | .name name span => write (readVariable name span.line)
  | .array elements span => do
    writeExprs elements
    writeCount (⟨.array, ·⟩) elements.length span.line
  | .record entries span => do
    writeFields entries span.line
    writeCount (⟨.record, ·⟩) entries.length span.line
  | .binary left op right span => do
    writeExpr left
    writeExpr right
    write (emit (binaryInstr op) span.line)
  | .logical left op right span => do
    writeExpr left
    let place ← writeJump (logicalJump op) span.line
    write (emit ⟨.pop, ()⟩ span.line)
    writeExpr right
    patch place span.line
  | .unary op operand span => do
    writeExpr operand
    write (emit (unaryInstr op) span.line)
  | .call callee args span => do
    if maxArgs < args.length then throw (.ofLimit .argumentList span.line)
    if isPrint callee then
      writeExprs args
      write (emit ⟨.print, UInt8.ofNat args.length⟩ span.line)
    else
      writeExpr callee
      writeExprs args
      write (emit ⟨.call, UInt8.ofNat args.length⟩ span.line)
  | .group inner _ => writeExpr inner
  | .assign name value span => do
    writeExpr value
    write (writeVariable name span)
  | .get object name span => do
    writeExpr object
    writeNamed (⟨.getProperty, ·⟩) name span.line
  | .set object name value span => do
    writeExpr object
    writeExpr value
    writeNamed (⟨.setProperty, ·⟩) name span.line
  | .index object key span => do
    writeExpr object
    writeExpr key
    write (emit ⟨.index, ()⟩ span.line)
  | .setIndex object key value span => do
    writeExpr object
    writeExpr key
    writeExpr value
    write (emit ⟨.setIndex, ()⟩ span.line)

/-- Writes expressions one after another. -/
def writeExprs : List Expr → Writing σ Unit
  | [] => return
  | e :: rest => do
    writeExpr e
    writeExprs rest

/-- Writes the keys and values of fields. -/
def writeFields : List (String × Expr) → (line : Nat) → Writing σ Unit
  | [], _ => return
  | (key, value) :: rest, line => do
    write (emitConstant (.text key) line)
    writeExpr value
    writeFields rest line

end

/-! ### Chains of operators -/

/-- Writes a link of a chain. -/
def Link.write (operand : Expr → Writing σ Unit) : Link → Writing σ Unit
  | binary op right span => do
    operand right
    Compile.write (emit (binaryInstr op) span.line)
  | logical op right span => do
    let place ← writeJump (logicalJump op) span.line
    Compile.write (emit ⟨.pop, ()⟩ span.line)
    operand right
    patch place span.line

/-- Writes a chain, by a loop over its links. -/
def writeChain (operand : Expr → Writing σ Unit) (e : Expr) : Writing σ Unit := do
  let (first, links) := spine e []
  operand first
  forM links (Link.write operand)

/-- Writes a chain, its left operand first. -/
def writeNested (operand : Expr → Writing σ Unit) : Expr → Writing σ Unit
  | .binary left op right span => do
    writeNested operand left
    Link.write operand (.binary op right span)
  | .logical left op right span => do
    writeNested operand left
    Link.write operand (.logical op right span)
  | e => operand e

/-! ### Loops -/

/-- A compilation of statements. For each loop that is open, the innermost first, it keeps the places of the
jumps out of it, in the order in which they were written. -/
abbrev Breaking (σ : Type) := StateT (List (List Nat)) (Writing σ)

/-- Writes code that leaves no loop. -/
def plainly {α : Type} (w : Writing σ α) : Breaking σ α := liftM w

/-- Takes a step that writes nothing. -/
def silently {α : Type} (x : StepIn σ α) : Breaking σ α :=
  plainly fun (s, c) => (x s).map fun (a, s) => (a, (s, c))

/-- Writes a block. -/
def put (block : StepIn σ Block) : Breaking σ Unit := plainly (write block)

/-- Writes a jump over what comes next, and gives the place of the distance. -/
def jumpOver (jump : UInt16 → Instr) (line : Nat) : Breaking σ Nat := plainly (writeJump jump line)

/-- Fills in the distance of a jump that leads here. -/
def land (place line : Nat) : Breaking σ Unit := plainly (patch place line)

/-- The place of the next byte. -/
def here : Breaking σ Nat := plainly do return (← get).2.code.size

/-- Goes on with another chunk, and gives the one so far. -/
def exchange (c : Chunk Literal) : Breaking σ (Chunk Literal) :=
  plainly fun (s, before) => .ok (before, (s, c))

/-- Writes a jump back to a place. The distance is counted from behind it. -/
def jumpBack (start line : Nat) : Breaking σ Unit := do
  let distance := (← here) + 1 + 2 - start
  put do emit ⟨.loop, ← wide distance .loopBody line⟩ line

/-- Writes a jump out of the innermost loop. -/
def jumpOut (line : Nat) : Breaking σ Unit := do
  let place ← jumpOver (⟨.jump, ·⟩) line
  modify fun exits => exits.modifyHead (· ++ [place])

/-- Writes code with one more block around its variables. -/
def writeInBlock (body : Breaking σ Unit) : Breaking σ Unit := do
  silently (modifyScope fun s => { s with depth := s.depth + 1 })
  body
  silently (modifyScope fun s => { s with depth := s.depth - 1 })
  let depth := (← silently scope).depth
  put (unwind depth 0)
  silently (modifyScope (·.dropDeeper depth))

/-- Writes code with one more loop around it. At its end the jumps out of it get their distances. -/
def writeInLoop (line : Nat) (body : (start : Nat) → Breaking σ Unit) : Breaking σ Unit := do
  let start ← here
  silently (modifyScope fun s => { s with loops := { start, depth := s.depth } :: s.loops })
  modify ([] :: ·)
  body start
  silently (modifyScope fun s => { s with loops := s.loops.tail })
  let exits ← get
  set exits.tail
  forM (exits.headD []) fun place => (land place line : Breaking σ Unit)

/-- Writes a loop as long as a condition holds. -/
def writeWhile (condition body : Breaking σ Unit) (line : Nat) : Breaking σ Unit :=
  writeInLoop line fun start => do
    condition
    let exit ← jumpOver (⟨.jumpIfFalse, ·⟩) line
    put (emit ⟨.pop, ()⟩ line)
    body
    jumpBack start line
    land exit line
    put (emit ⟨.pop, ()⟩ line)

/-- Writes the start of a round of a loop over a container. -/
def writeNextIndex (container index line : Nat) : Breaking σ Unit := do
  put (readSlot index line)
  put (emitConstant (.number 1) line)
  put (emit ⟨.add, ()⟩ line)
  put (moveToSlot index line)
  put (readSlot container line)
  put (emit ⟨.len, ()⟩ line)
  put (readSlot index line)
  put (emit ⟨.gt, ()⟩ line)

/-- Writes the move of the element at the index to the variable of the loop. -/
def writeElement (container index element line : Nat) : Breaking σ Unit := do
  put (readSlot container line)
  put (readSlot index line)
  put (emit ⟨.index, ()⟩ line)
  put (moveToSlot element line)

/-- Writes a loop over a container. -/
def writeFor (name : String) (iterable body : Breaking σ Unit) (line : Nat) : Breaking σ Unit :=
  writeInBlock do
    iterable
    let container ← silently (declareSlot "__iter__" false)
    put (emitConstant (.number (-1)) line)
    let index ← silently (declareSlot "__idx__" true)
    put (emit ⟨.nil, ()⟩ line)
    let element ← silently (declareSlot name true)
    let round : Breaking σ Unit := do
      writeElement container index element line
      body
    writeWhile (writeNextIndex container index line) round line

/-! ### Statements -/

/-- Writes a conditional. The jump over the alternative is there before the first jump gets its distance. -/
def writeConditional (condition body orElse : Breaking σ Unit) (line : Nat) : Breaking σ Unit := do
  condition
  let toElse ← jumpOver (⟨.jumpIfFalse, ·⟩) line
  put (emit ⟨.pop, ()⟩ line)
  body
  let toEnd ← jumpOver (⟨.jump, ·⟩) line
  land toElse line
  put (emit ⟨.pop, ()⟩ line)
  orElse
  land toEnd line

/-- Writes the value of a declaration or a return, which is nil if there is none. -/
def writeValue (value : Option Expr) (line : Nat) : Writing σ Unit :=
  match value with
  | some value => writeExpr value
  | none => write (emit ⟨.nil, ()⟩ line)

section

variable [Store σ]

/-- Writes the code that leaves a function on the stack. The body has a chunk and loops of its own. -/
def writeFunction (name : String) (params : List String) (body : Breaking σ Unit) (line : Nat) :
    Breaking σ Unit := do
  if maxParams < params.length then throw (.ofLimit .parameterList line)
  let exits ← get
  let outside ← exchange .empty
  set ([] : List (List Nat))
  silently (modify fun s =>
    let fresh := params.foldl (fun f p => f.declare p true) { Scope.start with depth := 1 }
    { s with current := fresh, enclosing := s.current :: s.enclosing })
  body
  put (emit ⟨.nil, ()⟩ line)
  put (emit ⟨.return_, ()⟩ line)
  let written ← exchange outside
  set exits
  let s ← silently get
  let finished := s.current
  let chunk := { written with constants := finished.constants, names := finished.names }
  let prototype := { name, params, captures := finished.captures.size, chunk }
  let (number, functions) := Store.add prototype s.functions
  silently (set { s with
    current := s.enclosing.headD finished
    enclosing := s.enclosing.tail
    functions })
  put do
    let index ← addConstant (.function number) line
    emit ⟨.closure, (index, (finished.captures.map (·.source)).toList)⟩ line

mutual

/-- Writes the code of a statement. -/
def writeStmt : Stmt → Breaking σ Unit
  | .expr value => do
    plainly (writeExpr value)
    put (emit ⟨.pop, ()⟩ value.span.line)
  | .var name value span => do
    plainly (writeValue value span.line)
    put (declare name true span.line)
  | .let_ name value span => do
    plainly (writeExpr value)
    put (declare name false span.line)
  | .block body _ => writeInBlock (writeStmts body)
  | .if_ condition body none span =>
    writeConditional (plainly (writeExpr condition)) (writeInBlock (writeStmts body)) (pure ()) span.line
  | .if_ condition body (some orElse) span =>
    writeConditional (plainly (writeExpr condition)) (writeInBlock (writeStmts body)) (writeStmt orElse)
      span.line
  | .while_ condition body span =>
    writeWhile (plainly (writeExpr condition)) (writeInBlock (writeStmts body)) span.line
  | .for_ name iterable body span =>
    writeFor name (plainly (writeExpr iterable)) (writeInBlock (writeStmts body)) span.line
  | .function name params body span => do
    if (← silently scope).depth = 0 then
      writeFunction name params (writeStmts body) span.line
      plainly (writeNamed (⟨.defineLet, ·⟩) name span.line)
    else
      silently (declareLocal name false)
      writeFunction name params (writeStmts body) span.line
  | .return_ value span => do
    plainly (writeValue value span.line)
    put (emit ⟨.return_, ()⟩ span.line)
  | .break_ span => do
    match (← silently scope).loops with
    | [] => throw (.at_ .breakOutsideLoop span)
    | loop :: _ =>
      put (unwind loop.depth span.line)
      jumpOut span.line
  | .continue_ span => do
    match (← silently scope).loops with
    | [] => throw (.at_ .continueOutsideLoop span)
    | loop :: _ =>
      put (unwind loop.depth span.line)
      jumpBack loop.start span.line

/-- Writes statements one after another. -/
def writeStmts : List Stmt → Breaking σ Unit
  | [] => return
  | s :: rest => do
    writeStmt s
    writeStmts rest

end

/-- Writes the code of a script, whose value is that of a last statement that is an expression. -/
def writeScript : List Stmt → Breaking σ Unit
  | [] => put (emit ⟨.nil, ()⟩ 0)
  | [.expr value] => plainly (writeExpr value)
  | s :: rest => do
    writeStmt s
    writeScript rest

/-- Writes the code of a program. -/
def writeProgram (p : Program) : Breaking σ Unit := do
  writeScript p.statements
  put (emit ⟨.return_, ()⟩ 0)

end

end Compile

/-- **The code of a program** that is written at once. -/
def Compiled.inOnePass (p : Program) : Except ScriptError Compiled := do
  let (_, s, c) ← Compile.writeProgram p [] (.start #[], .empty)
  return {
    main := { c with constants := s.current.constants, names := s.current.names }
    functions := s.functions }

end DeployScript
