import DeployScript.Code.Compile
import DeployScript.Heap.Basic

/-!
# Compilation into a heap

A program that is going to run is compiled with its functions on the heap of the machine. The number
of a function is the slot of its object there.

* `Heap.constantValue` is the value of a constant in such code.
* `Heap.compile` is the compilation.
-/

namespace DeployScript

namespace Heap

/-- The value of a constant, when functions are known by their slots. -/
def constantValue : Literal → Value
  | .number value => .number value
  | .text value => .text value
  | .function index => .function ⟨index⟩

/-- Functions are objects. -/
instance : Compile.Store Heap where
  add prototype heap :=
    let chunk := prototype.chunk.mapConstants constantValue
    let (h, heap) := heap.insert (.function { prototype with chunk })
    (h.index, heap)

/-- **Compiles a program,** with its functions stored as they are finished. -/
def compile (heap : Heap) (p : Program) : Except ScriptError (Chunk Value × Heap) := do
  let (code, s) ← (Compile.program p).run (.start heap)
  let chunk := code.toChunk s.current.constants s.current.names
  return (chunk.mapConstants constantValue, s.functions)

end Heap

end DeployScript
