import DeployScript.Code.Chunk

/-!
# Blocks

Code under construction: instructions with their lines, in which the jumps out of the innermost
loop are not measured yet. Blocks are put together by appending, and every distance is a size of
a block.

* `Block.size` counts bytes.
* `Block.closeLoop?` measures the jumps to the end of a block.
* `Block.toChunk` is the code as bytes, and `Chunk.extend` appends it to other code.
-/

namespace DeployScript

/-- An instruction with its line, or a jump to the end of the innermost loop. -/
inductive Item
  | instr (instr : Instr) (line : Nat)
  | exit (line : Nat)

namespace Item

/-- How many bytes the item has. -/
def size : Item → Nat
  | instr i _ => i.size
  | exit _ => 3

/-- The instruction. A jump that is not measured leads as far as can be. -/
def toInstr : Item → Instr
  | instr i _ => i
  | exit _ => ⟨.jump, 0xFFFF⟩

/-- The line. -/
def line : Item → Nat
  | instr _ line => line
  | exit line => line

end Item

/-- Code under construction. -/
abbrev Block := Array Item

namespace Block

/-- How many bytes the block has. -/
def size (b : Block) : Nat := b.foldl (fun n item => n + item.size) 0

/-- Measures the jumps out of a loop whose code is the block: each leads to the end. There is no
answer if a distance takes more than two bytes. -/
def closeLoop? (b : Block) : Option Block :=
  let close (state : Block × Nat) (item : Item) : Option (Block × Nat) :=
    let left := state.2 - item.size
    match item with
    | .instr .. => some (state.1.push item, left)
    | .exit line => (wide? left).map fun distance =>
      (state.1.push (.instr ⟨.jump, distance⟩ line), left)
  (b.foldlM close (#[], b.size)).map (·.1)

/-- The block as bytes, with what its instructions refer to. -/
def toChunk {κ : Type} (b : Block) (constants : Array κ) (names : Array String) : Chunk κ :=
  b.foldl (fun c item => c.append item.toInstr.bytes item.line)
    { code := #[], lines := #[], constants, names }

end Block

/-- Appends the code of a block. -/
def Chunk.extend {κ : Type} (c : Chunk κ) (b : Block) : Chunk κ :=
  b.foldl (fun c item => c.append item.toInstr.bytes item.line) c

end DeployScript
