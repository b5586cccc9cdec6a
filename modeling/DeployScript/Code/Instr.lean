import DeployScript.Code.Opcode

/-!
# Instructions and their bytes

An instruction is an opcode with its operand. Numbers of two bytes have the higher byte first.

* `Instr.bytes` is the written form and `Instr.decode` reads it, at any place in a code.
* `Instr.size` is the length of the written form.
-/

namespace DeployScript

/-- An opcode and its operand. -/
structure Instr where
  op : Opcode
  operand : op.layout.Operand

/-- The bytes of a number below 65536. -/
def wideBytes (n : UInt16) : List UInt8 := [(n >>> 8).toUInt8, n.toUInt8]

/-- The number that two bytes of a code hold. -/
def readWide? (code : Array UInt8) (offset : Nat) : Option UInt16 := do
  let high ← code[offset]?
  let low ← code[offset + 1]?
  return (high.toUInt16 <<< 8) ||| low.toUInt16

/-- The bytes of a capture's source. -/
def CaptureSource.bytes (c : CaptureSource) : List UInt8 := [if c.isLocal then 1 else 0, c.index]

/-- The sources of `count` captures. -/
def readCaptures? (code : Array UInt8) : (count offset : Nat) → Option (List CaptureSource)
  | 0, _ => some []
  | count + 1, offset => do
    let kind ← code[offset]?
    let index ← code[offset + 1]?
    let rest ← readCaptures? code count (offset + 2)
    return { isLocal := kind != 0, index } :: rest

namespace Layout

/-- The bytes of an operand. -/
def bytes : (layout : Layout) → layout.Operand → List UInt8
  | plain, () => []
  | byte, n => [n]
  | wide, n => wideBytes n
  | closure, (function, captures) =>
    wideBytes function ++ UInt8.ofNat captures.length :: captures.flatMap CaptureSource.bytes

/-- How many bytes an operand has. -/
def size : (layout : Layout) → layout.Operand → Nat
  | plain, () => 0
  | byte, _ => 1
  | wide, _ => 2
  | closure, (_, captures) => 3 + 2 * captures.length

/-- The operand at a place in a code. -/
def read? (code : Array UInt8) (offset : Nat) : (layout : Layout) → Option layout.Operand
  | plain => some ()
  | byte => code[offset]?
  | wide => readWide? code offset
  | closure => do
    let function ← readWide? code offset
    let count ← code[offset + 2]?
    let captures ← readCaptures? code count.toNat (offset + 3)
    return (function, captures)

end Layout

namespace Instr

/-- The bytes of an instruction. -/
def bytes (i : Instr) : List UInt8 := i.op.toByte :: i.op.layout.bytes i.operand

/-- How many bytes an instruction has. -/
def size (i : Instr) : Nat := 1 + i.op.layout.size i.operand

/-- The size is the number of bytes. -/
theorem length_bytes (i : Instr) : i.bytes.length = i.size := by
  obtain ⟨op, operand⟩ := i
  cases op <;> simp +arith [bytes, size, Layout.bytes, Layout.size, wideBytes,
    CaptureSource.bytes, List.length_flatMap, List.map_const', Nat.mul_comm]

/-- What stands at a place in a code: an instruction, a byte that is no opcode, or an instruction
that the end of the code cuts off. -/
inductive Decoded
  | instr (i : Instr)
  | invalid (byte : UInt8)
  | cut

/-- Reads what stands at a place in a code. -/
def decode (code : Array UInt8) (offset : Nat) : Decoded :=
  match code[offset]? with
  | none => .cut
  | some byte =>
    match Opcode.ofByte? byte with
    | none => .invalid byte
    | some op =>
      match op.layout.read? code (offset + 1) with
      | none => .cut
      | some operand => .instr ⟨op, operand⟩

end Instr

end DeployScript
