/-!
# Opcodes

What an instruction does, and the shape of the operand that follows it.

* `Opcode.all` lists the opcodes in the order of their bytes; `Opcode.toByte` and `Opcode.ofByte?`
  are the two directions.
* `Opcode.layout` says which operand an opcode takes, and `Layout.Operand` is its type.
-/

namespace DeployScript

/-- What an instruction does. -/
inductive Opcode
  | constant | nil | true_ | false_
  | pop
  | defineLet | defineVar | getGlobal | setGlobal | getLocal | setLocal
  | add | sub | mul | div | mod | neg
  | eq | ne | lt | le | gt | ge
  | not
  | jump | jumpIfFalse | jumpIfTrue | loop
  | call | return_ | closure
  | getCapture | setCapture | closeCapture
  | print | len
  | array | record | index | setIndex | getProperty | setProperty
  deriving Repr, DecidableEq, Inhabited

namespace Opcode

/-- The opcodes in the order of their bytes. -/
def all : Array Opcode :=
  #[constant, nil, true_, false_, pop,
    defineLet, defineVar, getGlobal, setGlobal, getLocal, setLocal,
    add, sub, mul, div, mod, neg, eq, ne, lt, le, gt, ge, not,
    jump, jumpIfFalse, jumpIfTrue, loop, call, return_, closure,
    getCapture, setCapture, closeCapture, print, len,
    array, record, index, setIndex, getProperty, setProperty]

/-- The byte of an opcode. -/
def toByte (op : Opcode) : UInt8 := UInt8.ofNat op.ctorIdx

/-- The opcode of a byte. -/
def ofByte? (byte : UInt8) : Option Opcode := all[byte.toNat]?

/-- Every opcode is read back from its byte. -/
@[simp] theorem ofByte?_toByte (op : Opcode) : ofByte? op.toByte = some op := by
  cases op <;> rfl

/-- The name of the opcode in listings. -/
def name : Opcode → String
  | constant => "Constant"
  | nil => "Nil"
  | true_ => "True"
  | false_ => "False"
  | pop => "Pop"
  | defineLet => "DefineGlobal"
  | defineVar => "DefineVar"
  | getGlobal => "GetGlobal"
  | setGlobal => "SetGlobal"
  | getLocal => "GetLocal"
  | setLocal => "SetLocal"
  | add => "Add"
  | sub => "Subtract"
  | mul => "Multiply"
  | div => "Divide"
  | mod => "Modulo"
  | neg => "Negate"
  | eq => "Equal"
  | ne => "NotEqual"
  | lt => "Less"
  | le => "LessEqual"
  | gt => "Greater"
  | ge => "GreaterEqual"
  | not => "Not"
  | jump => "Jump"
  | jumpIfFalse => "JumpIfFalse"
  | jumpIfTrue => "JumpIfTrue"
  | loop => "Loop"
  | call => "Call"
  | return_ => "Return"
  | closure => "Closure"
  | getCapture => "GetUpvalue"
  | setCapture => "SetUpvalue"
  | closeCapture => "CloseUpvalue"
  | print => "Print"
  | len => "Len"
  | array => "Array"
  | record => "Record"
  | index => "Index"
  | setIndex => "SetIndex"
  | getProperty => "GetProperty"
  | setProperty => "SetProperty"

end Opcode

/-! ### Operands -/

/-- Where a new closure takes one of its captured variables from: a slot of the function that
creates it, or one of that function's own captures. -/
structure CaptureSource where
  isLocal : Bool
  index : UInt8
  deriving Repr, DecidableEq, Inhabited

/-- The shape of an operand. -/
inductive Layout
  | plain | byte | wide | closure
  deriving Repr, DecidableEq, Inhabited

/-- The operands of a shape. -/
abbrev Layout.Operand : Layout → Type
  | plain => Unit
  | byte => UInt8
  | wide => UInt16
  | closure => UInt16 × List CaptureSource

/-- The shape of an opcode's operand. -/
@[reducible] def Opcode.layout : Opcode → Layout
  | .constant | .defineLet | .defineVar | .getGlobal | .setGlobal | .getLocal | .setLocal
  | .jump | .jumpIfFalse | .jumpIfTrue | .loop | .getCapture | .setCapture
  | .array | .record | .getProperty | .setProperty => .wide
  | .call | .print => .byte
  | .closure => .closure
  | _ => .plain

end DeployScript
