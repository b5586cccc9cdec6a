import DeployScript.Code.Chunk
import DeployScript.Heap.Value
import Std.Data.HashSet
import Std.Data.TreeMap

/-!
# Heaps

The objects that values refer to. A heap is a row of slots, some of them free; a new object takes
the slot that became free last, or a slot behind all others.

* `Heap.insert` stores a new object.
* `Heap.get?` reads an object, and `array?`, `record?`, `closure?`, `cell?`, `function?` read one
  of a kind.
* `Heap.update` changes an object in its slot.
-/

namespace DeployScript

/-- The fields of a record, in the order of their keys. -/
abbrev Fields := Std.TreeMap String Value

/-- A variable that closures share: still a slot of the stack, or a value of its own. -/
inductive Cell
  | opened (slot : Nat)
  | closed (value : Value)
  deriving Inhabited

/-- A function with the cells that it captured. -/
structure Closure where
  function : Handle
  cells : Array Handle
  deriving Inhabited

/-- A heap object. -/
inductive Object
  | function (prototype : Prototype Value)
  | array (items : Array Value)
  | record (fields : Fields)
  | closure (closure : Closure)
  | cell (cell : Cell)

/-- The objects that an object refers to. -/
def Object.handles : Object → List Handle
  | function p => p.chunk.constants.toList.flatMap Value.handles
  | array items => items.toList.flatMap Value.handles
  | record fields => fields.values.flatMap Value.handles
  | closure c => c.function :: c.cells.toList
  | cell (.closed value) => value.handles
  | cell (.opened _) => []

/-- A heap. `marked` and `pending` belong to a collection that is under way: the slots that are
known to be in use, and those of them whose references have not been followed yet. -/
structure Heap where
  slots : Array (Option Object)
  free : List Nat
  marked : Std.HashSet Nat
  pending : List Handle
  deriving Inhabited

namespace Heap

/-- A heap without objects. -/
def empty : Heap := { slots := #[], free := [], marked := {}, pending := [] }

/-! ### Objects -/

/-- Stores an object in a free slot. -/
def insert (heap : Heap) (object : Object) : Handle × Heap :=
  match heap.free with
  | index :: free =>
    (⟨index⟩, { heap with slots := heap.slots.setIfInBounds index (some object), free })
  | [] => (⟨heap.slots.size⟩, { heap with slots := heap.slots.push (some object) })

/-- The object of a handle. -/
def get? (heap : Heap) (h : Handle) : Option Object := heap.slots[h.index]?.join

/-- Changes the object of a handle. -/
def update (heap : Heap) (h : Handle) (f : Object → Object) : Heap :=
  { heap with slots := heap.slots.modify h.index (·.map f) }

/-- How many objects there are. -/
def live (heap : Heap) : Nat := heap.slots.foldl (fun n slot => if slot.isSome then n + 1 else n) 0

/-! ### Objects of a kind -/

/-- The elements of an array. -/
def array? (heap : Heap) (h : Handle) : Option (Array Value) :=
  match heap.get? h with
  | some (.array items) => some items
  | _ => none

/-- The fields of a record. -/
def record? (heap : Heap) (h : Handle) : Option Fields :=
  match heap.get? h with
  | some (.record fields) => some fields
  | _ => none

/-- The code of a function. -/
def function? (heap : Heap) (h : Handle) : Option (Prototype Value) :=
  match heap.get? h with
  | some (.function p) => some p
  | _ => none

/-- A function with its cells. -/
def closure? (heap : Heap) (h : Handle) : Option Closure :=
  match heap.get? h with
  | some (.closure c) => some c
  | _ => none

/-- A shared variable. -/
def cell? (heap : Heap) (h : Handle) : Option Cell :=
  match heap.get? h with
  | some (.cell c) => some c
  | _ => none

/-- The code of the function that a handle stands for, with cells or without. -/
def code? (heap : Heap) (h : Handle) : Option (Prototype Value) :=
  match heap.closure? h with
  | some c => heap.function? c.function
  | none => heap.function? h

/-- The name of the function that a handle stands for. -/
def functionName? (heap : Heap) (h : Handle) : Option String := (heap.code? h).map (·.name)

/-- A new array. -/
def newArray (heap : Heap) (items : Array Value) : Value × Heap :=
  let (h, heap) := heap.insert (.array items)
  (.array h, heap)

/-- A new record. -/
def newRecord (heap : Heap) (fields : Fields) : Value × Heap :=
  let (h, heap) := heap.insert (.record fields)
  (.record h, heap)

/-- Appends to an array. -/
def push (heap : Heap) (h : Handle) (value : Value) : Heap :=
  heap.update h fun
    | .array items => .array (items.push value)
    | object => object

/-- Replaces an element of an array. -/
def setItem (heap : Heap) (h : Handle) (index : Nat) (value : Value) : Heap :=
  heap.update h fun
    | .array items => .array (items.setIfInBounds index value)
    | object => object

/-- Sets a field of a record. -/
def setField (heap : Heap) (h : Handle) (key : String) (value : Value) : Heap :=
  heap.update h fun
    | .record fields => .record (fields.insert key value)
    | object => object

/-- Sets a shared variable. -/
def setCell (heap : Heap) (h : Handle) (cell : Cell) : Heap :=
  heap.update h fun
    | .cell _ => .cell cell
    | object => object

/-! ### Compiled scripts -/

/-- The value of a constant, when functions are known by the handles they were given. -/
def literalValue (handles : Array Handle) : Literal → Value
  | .number value => .number value
  | .text value => .text value
  | .function index => ((handles[index]?).map Value.function).getD .nil

/-- Stores the functions of a script and gives its code. -/
def install (heap : Heap) (compiled : Compiled) : Chunk Value × Heap :=
  let (handles, heap) := compiled.functions.foldl
    (fun (handles, heap) p =>
      let (h, heap) := heap.insert
        (.function { p with chunk := p.chunk.mapConstants (literalValue handles) })
      (handles.push h, heap))
    (#[], heap)
  (compiled.main.mapConstants (literalValue handles), heap)

end Heap

end DeployScript
