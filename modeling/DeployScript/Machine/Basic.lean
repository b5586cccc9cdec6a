import DeployScript.Heap.Collect
import DeployScript.Heap.Display
import DeployScript.Heap.Index
import DeployScript.Host.Builtin

/-!
# Machines

The state in which scripts run: a stack of values, a frame for each call that is under way, global
variables, a heap, and the host with its builtins.

* `Machine.push`, `pop` and `peek` are the operations of the stack. Taking from an empty stack
  gives nil.
* `Machine.capture` shares a slot of the stack with closures, and `closeFrom` gives the shared
  slots from one on a value of their own.
* `Machine.collect` frees what nothing in the machine refers to.
-/

namespace DeployScript

/-- A call that is under way: the function, its code, the place of the next instruction, and the
slot of the stack where its variables start. -/
structure Frame where
  closure : Handle
  chunk : Chunk Value
  ip : Nat
  base : Nat
  deriving Inhabited

/-- A global variable. -/
structure Binding where
  value : Value
  isMutable : Bool
  deriving Inhabited

/-- A machine on a host whose state has type `ω`. The frame of the innermost call comes first;
`opened` are the cells that are still slots of the stack; `output` is what was printed. -/
structure Machine (ω : Type) where
  stack : Array Value
  frames : List Frame
  globals : Std.TreeMap String Binding
  heap : Heap
  opened : List Handle
  assets : Assets
  library : Library ω
  world : ω
  output : String

/-- Most calls that are under way at one time. -/
def maxFrames : Nat := 64

namespace Machine

variable {ω : Type}

/-! ### Globals -/

/-- Binds a global variable, whether it was bound or not. -/
def define (m : Machine ω) (name : String) (value : Value) (isMutable : Bool) : Machine ω :=
  { m with globals := m.globals.insert name { value, isMutable } }

/-- The value of a global variable. -/
def global? (m : Machine ω) (name : String) : Option Value := m.globals[name]?.map (·.value)

/-- A machine with the intrinsic functions and nothing else. -/
def new (assets : Assets) (world : ω) : Machine ω :=
  let bare : Machine ω :=
    { stack := #[], frames := [], globals := {}, heap := Heap.empty, opened := [], assets
      library := Library.empty, world, output := "" }
  Intrinsic.all.foldl (fun m f => m.define f.name (.intrinsic f) false) bare

/-! ### The stack -/

/-- Puts a value on the stack. -/
def push (m : Machine ω) (value : Value) : Machine ω := { m with stack := m.stack.push value }

/-- Takes a value off the stack. -/
def pop (m : Machine ω) : Value × Machine ω :=
  (m.stack.back?.getD .nil, { m with stack := m.stack.pop })

/-- The value under `depth` others. -/
def peek (m : Machine ω) (depth : Nat) : Value :=
  if depth < m.stack.size then (m.stack[m.stack.size - 1 - depth]?).getD .nil else .nil

/-- The topmost `count` values, if there are so many, and the machine without them. -/
def take? (m : Machine ω) (count : Nat) : Option (Array Value × Machine ω) :=
  if count ≤ m.stack.size then
    let start := m.stack.size - count
    let values := m.stack.extract start m.stack.size
    some (values, { m with stack := m.stack.shrink start })
  else none

/-- Leaves a call without a result: nothing runs, nothing is on the stack, and no cell is a slot of
it. Cells that closures still hold stay as they are. -/
def reset (m : Machine ω) : Machine ω := { m with stack := #[], frames := [], opened := [] }

/-! ### Cells -/

/-- The slot that a cell still is. -/
def openSlot? (m : Machine ω) (h : Handle) : Option Nat :=
  match m.heap.cell? h with
  | some (.opened slot) => some slot
  | _ => none

/-- The cell of a slot of the stack, which is made unless there is one. -/
def capture (m : Machine ω) (slot : Nat) : Handle × Machine ω :=
  match m.opened.find? fun h => m.openSlot? h = some slot with
  | some h => (h, m)
  | none =>
    let (h, heap) := m.heap.insert (.cell (.opened slot))
    (h, { m with heap, opened := m.opened ++ [h] })

/-- Gives each cell that is a slot from `first` on the value there. -/
def closeFrom (m : Machine ω) (first : Nat) : Machine ω :=
  let slots := m.opened.filterMap fun h => (m.openSlot? h).map (h, ·)
  let closing := (slots.filter fun s => first ≤ s.2).map fun s =>
    (s.1, (m.stack[s.2]?).getD .nil)
  { m with
    heap := closing.foldl (fun heap c => heap.setCell c.1 (.closed c.2)) m.heap
    opened := (slots.filter fun s => s.2 < first).map (·.1) }

/-! ### Collection -/

/-- The objects that the machine refers to. -/
def roots (m : Machine ω) : List Handle :=
  m.stack.toList.flatMap Value.handles ++
    m.globals.values.flatMap (fun b => b.value.handles) ++
    m.frames.map (·.closure) ++ m.opened

/-- Frees what nothing in the machine refers to. -/
def collect (m : Machine ω) : Machine ω :=
  { m with heap := (m.heap.markAll m.roots).trace.sweep }

end Machine

end DeployScript
