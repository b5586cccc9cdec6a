import DeployScript.Heap.Intrinsic
import DeployScript.Heap.Operator
import DeployScript.Machine.Basic

/-!
# One instruction

`Machine.step` carries out the next instruction. It is total: where an instruction refers to what
does not exist, the outcome is `stuck`, which no compiled script reaches as long as nothing has
failed on the machine.

* `Machine.call` starts a call, or completes it if the function is not a script's.
* `Machine.exec` carries out one instruction behind which the machine already stands.
-/

namespace DeployScript

/-- What one instruction leads to: the next one, the value of the outermost call, a failure, or
nothing at all. -/
inductive Outcome (ω : Type)
  | next (m : Machine ω)
  | done (value : Value) (m : Machine ω)
  | raise (cause : Cause) (m : Machine ω)
  | stuck (m : Machine ω)

namespace Machine

variable {ω : Type}

/-! ### The current frame -/

/-- Changes the place of the next instruction. -/
def moveTo (m : Machine ω) (ip : Nat) : Machine ω :=
  match m with
  | { stack, frames := f :: frames, globals, heap, opened, assets, library, world, output } =>
    { stack, frames := { f with ip } :: frames, globals, heap, opened, assets, library, world
      output }
  | m => m

/-- The place of the next instruction. -/
def ip (m : Machine ω) : Nat := (m.frames.head?.map (·.ip)).getD 0

/-- The slot of the stack where the variables of the call start. -/
def base (m : Machine ω) : Nat := (m.frames.head?.map (·.base)).getD 0

/-- A constant of the code. -/
def constant? (m : Machine ω) (index : UInt16) : Option Value :=
  m.frames.head?.bind fun f => f.chunk.constants[index.toNat]?

/-- A name in the code. -/
def name? (m : Machine ω) (index : UInt16) : Option String :=
  m.frames.head?.bind fun f => f.chunk.names[index.toNat]?

/-- A cell that the function captured. -/
def captured? (m : Machine ω) (index : Nat) : Option Handle := do
  let f ← m.frames.head?
  let c ← m.heap.closure? f.closure
  c.cells[index]?

/-! ### Stack operations with one result -/

/-- Goes on with a result on the stack, or fails. -/
def give (m : Machine ω) : Except Cause Value → Outcome ω
  | .ok value => .next (m.push value)
  | .error cause => .raise cause m

/-- Replaces two operands by the value of an operator. -/
def binary (m : Machine ω) (op : BinaryOp) : Outcome ω :=
  let (b, m) := m.pop
  let (a, m) := m.pop
  m.give (m.heap.binary op a b)

/-- Replaces an operand by the value of an operator. -/
def unary (m : Machine ω) (op : UnaryOp) : Outcome ω :=
  let (a, m) := m.pop
  m.give (Heap.unary op a)

/-- Writes to a container and leaves the written value on the stack. -/
def write (m : Machine ω) (target : Except Cause Heap.Target) (value : Value) : Outcome ω :=
  match target with
  | .error cause => .raise cause m
  | .ok target => .next ({ m with heap := m.heap.store target value }.push value)

/-- Puts a new container on the stack. -/
def pushNew (m : Machine ω) (new : Heap → Value × Heap) : Outcome ω :=
  let heap := m.heap
  let m := { m with heap := Heap.empty }
  let (value, heap) := new heap
  .next ({ m with heap }.push value)

/-- The fields that keys and values spell in turns. A later value of a key replaces an earlier
one. -/
def fieldsOf : List Value → Fields → Fields
  | .text key :: value :: rest, fields => fieldsOf rest (fields.insert key value)
  | _ :: _ :: rest, fields => fieldsOf rest fields
  | _, fields => fields

/-! ### Globals -/

/-- Whether a global may be bound again: all but the functions of the language and of the host,
as long as they are immutable. -/
def isFixed (b : Binding) : Bool :=
  match b.value with
  | .intrinsic _ | .builtin _ => !b.isMutable
  | _ => false

/-- Binds a global to the value on top of the stack. -/
def defineGlobal (m : Machine ω) (name : String) (isMutable : Bool) : Outcome ω :=
  let (value, m) := m.pop
  match m.globals[name]? with
  | some b =>
    if isFixed b then .raise (.immutableBinding name) m
    else .next (m.define name value isMutable)
  | none => .next (m.define name value isMutable)

/-- Assigns the value on top of the stack to a global. -/
def assignGlobal (m : Machine ω) (name : String) : Outcome ω :=
  match m.globals[name]? with
  | some b =>
    if b.isMutable then .next (m.define name (m.peek 0) true)
    else .raise (.immutableBinding name) m
  | none => .raise (.undefinedVariable name) m

/-! ### Captured variables -/

/-- The cells of a new closure, up to the first that the function which makes it does not have;
the index of that one; and the machine, in which cells may be new. -/
def gather : (sources : List CaptureSource) → (cells : Array Handle) → Machine ω →
    Array Handle × Option Nat × Machine ω
  | [], cells, m => (cells, none, m)
  | source :: sources, cells, m =>
    if source.isLocal then
      let (h, m) := m.capture (m.base + source.index.toNat)
      gather sources (cells.push h) m
    else
      match m.captured? source.index.toNat with
      | some h => gather sources (cells.push h) m
      | none => (cells, some source.index.toNat, m)

/-- Makes a closure. A failure is found where its operand has been read so far. -/
def makeClosure (m : Machine ω) (start : Nat) (index : UInt16) (sources : List CaptureSource) :
    Outcome ω :=
  match m.constant? index with
  | none => .stuck m
  | some (.function function) =>
    let (cells, missing, m) := gather sources #[] m
    match missing with
    | some index =>
      .raise (.failure (.missingCapture index)) (m.moveTo (start + 4 + 2 * (cells.size + 1)))
    | none =>
      m.pushNew fun heap =>
        let (h, heap) := heap.insert (.closure { function, cells })
        (.closure h, heap)
  | some _ => .raise (.failure .closureOperand) (m.moveTo (start + 4))

/-- Reads a captured variable. -/
def readCapture (m : Machine ω) (index : Nat) : Outcome ω :=
  match m.captured? index with
  | none => .raise (.failure (.missingCapture index)) m
  | some h =>
    match m.heap.cell? h with
    | some (.opened slot) =>
      match m.stack[slot]? with
      | some value => .next (m.push value)
      | none => .stuck m
    | some (.closed value) => .next (m.push value)
    | none => .next (m.push .nil)

/-- Sets a slot of the stack. -/
def setSlot (m : Machine ω) (slot : Nat) (value : Value) : Outcome ω :=
  if slot < m.stack.size then .next { m with stack := m.stack.setIfInBounds slot value }
  else .stuck m

/-- Assigns the value on top of the stack to a captured variable. -/
def writeCapture (m : Machine ω) (index : Nat) : Outcome ω :=
  match m.captured? index with
  | none => .raise (.failure (.missingCapture index)) m
  | some h =>
    let value := m.peek 0
    match m.heap.cell? h with
    | some (.opened slot) => m.setSlot slot value
    | some (.closed _) => .next { m with heap := m.heap.setCell h (.closed value) }
    | none => .next m

/-! ### Calls -/

/-- Starts a call of a script's function. -/
def enter (m : Machine ω) (closure : Handle) (count : Nat) : Outcome ω :=
  match (m.heap.closure? closure).bind fun c => m.heap.function? c.function with
  | none => .raise (.failure .deadFunction) m
  | some p =>
    if count ≠ p.params.length then .raise (.wrongArity p.params.length count) m
    else if maxFrames ≤ m.frames.length then .raise .stackOverflow m
    else
      let frame := { closure, chunk := p.chunk, ip := 0, base := m.stack.size - count - 1 }
      .next { m with frames := frame :: m.frames }

/-- Replaces a callee and its arguments by the result. -/
def leave (m : Machine ω) (count : Nat) (value : Value) : Machine ω :=
  { m with stack := (m.stack.shrink (m.stack.size - count - 1)).push value }

/-- The topmost `count` values. -/
def arguments (m : Machine ω) (count : Nat) : List Value :=
  (m.stack.extract (m.stack.size - count) m.stack.size).toList

/-- Calls a function of the language. -/
def callIntrinsic (m : Machine ω) (f : Intrinsic) (count : Nat) : Outcome ω :=
  let fits := match f.arity? with
    | some arity => if count = arity then none else some arity
    | none => none
  match fits with
  | some arity => .raise (.wrongArity arity count) m
  | none =>
    match f.effect? m.heap (m.arguments count) with
    | .error failure => .raise (.failure failure) m
    | .ok effect =>
      let heap := m.heap
      let m := { m with heap := Heap.empty }
      let (value, heap) := heap.perform effect
      .next ({ m with heap }.leave count value)

/-- The name of the function that is running. -/
def callerName (m : Machine ω) : String :=
  (m.frames.head?.bind fun f => m.heap.functionName? f.closure).getD scriptName

/-- Calls a function of the host. -/
def callBuiltin (m : Machine ω) (name : String) (count : Nat) : Outcome ω :=
  match m.library.get? name with
  | none => .stuck m
  | some b =>
    match m.heap.unpack b.name b.params (m.arguments count) with
    | .error cause => .raise cause m
    | .ok args =>
      let context := { caller := m.callerName, assets := m.assets }
      match b.run context args m.world with
      | (.error cause, world) => .raise cause { m with world }
      | (.ok result, world) =>
        let (value, heap) := Heap.ofHost result m.heap
        .next ({ m with world, heap }.leave count value)

/-- Calls a value with the topmost `count` values, under which it stands. -/
def call (m : Machine ω) (callee : Value) (count : Nat) : Outcome ω :=
  match callee with
  | .closure h => m.enter h count
  | .function function =>
    let (h, heap) := m.heap.insert (.closure { function, cells := #[] })
    { m with heap }.enter h count
  | .intrinsic f => m.callIntrinsic f count
  | .builtin name => m.callBuiltin name count
  | _ => .raise (wrongType "function" callee) m

/-- Returns from a call with the value on top of the stack. -/
def return_ (m : Machine ω) : Outcome ω :=
  let (value, m) := m.pop
  match m.frames with
  | [] => .done value m
  | f :: frames =>
    let m := { m with frames }.closeFrom f.base
    let m := { m with stack := m.stack.shrink f.base }
    match frames with
    | [] => .done value m
    | _ :: _ => .next (m.push value)

/-! ### Instructions -/

/-- Jumps ahead if a condition on the value on top of the stack holds. -/
def jumpIf (m : Machine ω) (condition : Value → Bool) (distance : UInt16) : Outcome ω :=
  if condition (m.peek 0) then .next (m.moveTo (m.ip + distance.toNat)) else .next m

/-- Goes on with the name at an index, which has to exist. -/
def withName (m : Machine ω) (index : UInt16) (f : String → Outcome ω) : Outcome ω :=
  match m.name? index with
  | some name => f name
  | none => .stuck m

/-- Carries out an instruction that stood at `start`. The machine already stands behind it. -/
def exec (m : Machine ω) (start : Nat) : Instr → Outcome ω
  | ⟨.constant, index⟩ =>
    match m.constant? index with
    | some value => .next (m.push value)
    | none => .stuck m
  | ⟨.nil, _⟩ => .next (m.push .nil)
  | ⟨.true_, _⟩ => .next (m.push (.bool true))
  | ⟨.false_, _⟩ => .next (m.push (.bool false))
  | ⟨.pop, _⟩ => .next m.pop.2
  | ⟨.defineLet, index⟩ => m.withName index fun name => m.defineGlobal name false
  | ⟨.defineVar, index⟩ => m.withName index fun name => m.defineGlobal name true
  | ⟨.getGlobal, index⟩ => m.withName index fun name =>
    match m.global? name with
    | some value => .next (m.push value)
    | none => .raise (.undefinedVariable name) m
  | ⟨.setGlobal, index⟩ => m.withName index fun name => m.assignGlobal name
  | ⟨.getLocal, slot⟩ =>
    match m.stack[m.base + slot.toNat]? with
    | some value => .next (m.push value)
    | none => .stuck m
  | ⟨.setLocal, slot⟩ => m.setSlot (m.base + slot.toNat) (m.peek 0)
  | ⟨.add, _⟩ => m.binary .add
  | ⟨.sub, _⟩ => m.binary .sub
  | ⟨.mul, _⟩ => m.binary .mul
  | ⟨.div, _⟩ => m.binary .div
  | ⟨.mod, _⟩ => m.binary .mod
  | ⟨.neg, _⟩ => m.unary .neg
  | ⟨.eq, _⟩ => m.binary .eq
  | ⟨.ne, _⟩ => m.binary .ne
  | ⟨.lt, _⟩ => m.binary .lt
  | ⟨.le, _⟩ => m.binary .le
  | ⟨.gt, _⟩ => m.binary .gt
  | ⟨.ge, _⟩ => m.binary .ge
  | ⟨.not, _⟩ => m.unary .not
  | ⟨.jump, distance⟩ => .next (m.moveTo (m.ip + distance.toNat))
  | ⟨.jumpIfFalse, distance⟩ => m.jumpIf (fun v => !v.isTruthy) distance
  | ⟨.jumpIfTrue, distance⟩ => m.jumpIf Value.isTruthy distance
  | ⟨.loop, distance⟩ =>
    if distance.toNat ≤ m.ip then .next (m.moveTo (m.ip - distance.toNat)) else .stuck m
  | ⟨.call, count⟩ => m.call (m.peek count.toNat) count.toNat
  | ⟨.return_, _⟩ => m.return_
  | ⟨.closure, (index, sources)⟩ => m.makeClosure start index sources
  | ⟨.getCapture, index⟩ => m.readCapture index.toNat
  | ⟨.setCapture, index⟩ => m.writeCapture index.toNat
  | ⟨.closeCapture, _⟩ => .next (m.closeFrom (m.stack.size - 1)).pop.2
  | ⟨.print, count⟩ =>
    match m.take? count.toNat with
    | none => .stuck m
    | some (values, m) =>
      let text := " ".intercalate (values.toList.map m.heap.display)
      .next ({ m with output := m.output ++ text ++ "\n" }.push .nil)
  | ⟨.len, _⟩ =>
    let (value, m) := m.pop
    match m.heap.length? value with
    | some n => .next (m.push (.number (Float.ofNat n)))
    | none => .raise (wrongType "array, string or record" value) m
  | ⟨.array, count⟩ =>
    match m.take? count.toNat with
    | none => .stuck m
    | some (values, m) => m.pushNew (·.newArray values)
  | ⟨.record, count⟩ =>
    match m.take? (2 * count.toNat) with
    | none => .stuck m
    | some (values, m) => m.pushNew (·.newRecord (fieldsOf values.toList {}))
  | ⟨.index, _⟩ =>
    let (key, m) := m.pop
    let (container, m) := m.pop
    m.give (m.heap.index container key)
  | ⟨.setIndex, _⟩ =>
    let (value, m) := m.pop
    let (key, m) := m.pop
    let (container, m) := m.pop
    m.write (m.heap.target container key) value
  | ⟨.getProperty, index⟩ => m.withName index fun name =>
    let (receiver, m) := m.pop
    m.give (m.heap.property name receiver)
  | ⟨.setProperty, index⟩ => m.withName index fun name =>
    let (value, m) := m.pop
    let (receiver, m) := m.pop
    m.write (Heap.propertyTarget name receiver) value

/-- **Carries out the next instruction.** -/
def step (m : Machine ω) : Outcome ω :=
  match m.frames with
  | [] => .stuck m
  | f :: _ =>
    match Instr.decode f.chunk.code f.ip with
    | .cut => .stuck m
    | .invalid byte => .raise (.failure (.invalidOpcode byte)) (m.moveTo (f.ip + 1))
    | .instr i => (m.moveTo (f.ip + i.size)).exec f.ip i

end Machine

end DeployScript
