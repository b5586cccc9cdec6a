import DeployScript.Error
import DeployScript.Heap.Basic

/-!
# Elements and fields

How many entries a container has, and reading and writing one of them by index, key or name.

* `Heap.length?` counts, and `Heap.index` reads what `Heap.target` would write.
* A write first finds its `Target`, which needs no change of the heap, and then `Heap.store`
  carries it out, which cannot fail.
-/

namespace DeployScript

/-- The character at a position of a text, counted from a place in it. -/
def charFrom? {s : String} : (index : Nat) → (p : s.Pos) → Option Char
  | 0, p => if h : p = s.endPos then none else some (p.get h)
  | index + 1, p => if h : p = s.endPos then none else charFrom? index (p.next h)

/-- The character at a position of a text. -/
def charAt? (s : String) (index : Nat) : Option Char := charFrom? index s.startPos

/-- The failure to find a type. -/
def wrongType (expected : String) (got : Value) : Cause := .typeMismatch expected got.typeName

namespace Heap

/-- The number of entries of an array or a record, or of characters of a text. -/
def length? (heap : Heap) : Value → Option Nat
  | .text s => some s.length
  | .array h => (heap.array? h).map (·.size)
  | .record h => (heap.record? h).map (·.size)
  | _ => none

/-! ### Reading -/

/-- The entry of a container. What is not there reads as nil. -/
def index (heap : Heap) : (container key : Value) → Except Cause Value
  | .array h, .number n =>
    .ok (((Number.toNat? n).bind fun i => (heap.array? h).bind (·[i]?)).getD .nil)
  | .text s, .number n =>
    .ok (((Number.toNat? n).bind fun i => (charAt? s i).map fun c =>
      .text (String.singleton c)).getD .nil)
  | .record h, .text key => .ok (((heap.record? h).bind (·[key]?)).getD .nil)
  | .array _, key | .text _, key => .error (wrongType "number index" key)
  | .record _, key => .error (wrongType "string key" key)
  | container, _ => .error (wrongType "array, string or record" container)

/-- The property of a value: a field of a record, or the length of an array or a text. -/
def property (heap : Heap) (name : String) : Value → Except Cause Value
  | .record h => .ok (((heap.record? h).bind (·[name]?)).getD .nil)
  | .array h =>
    if name = "length" then .ok (.number (Float.ofNat ((heap.length? (.array h)).getD 0)))
    else .error (.undefinedProperty name)
  | .text s =>
    if name = "length" then .ok (.number (Float.ofNat s.length))
    else .error (.undefinedProperty name)
  | v => .error (wrongType "record" v)

/-! ### Writing -/

/-- Where a write goes. -/
inductive Target
  | item (array : Handle) (index : Nat)
  | append (array : Handle)
  | field (record : Handle) (key : String)

/-- Where a write to an entry of a container goes: an element, the place right behind the last
one, or a field. -/
def target (heap : Heap) : (container key : Value) → Except Cause Target
  | .array h, .number n =>
    match heap.array? h with
    | none => .error (.failure .deadArray)
    | some items =>
      match Number.toNat? n with
      | some i =>
        if i < items.size then .ok (.item h i)
        else if i = items.size then .ok (.append h)
        else .error (.indexOutOfBounds (Number.toInt64 n))
      | none => .error (.indexOutOfBounds (Number.toInt64 n))
  | .record h, .text key => .ok (.field h key)
  | .array _, key => .error (wrongType "number index" key)
  | .record _, key => .error (wrongType "string key" key)
  | container, _ => .error (wrongType "array or record" container)

/-- Where a write to a property of a value goes. -/
def propertyTarget (name : String) : Value → Except Cause Target
  | .record h => .ok (.field h name)
  | v => .error (wrongType "record" v)

/-- Writes. -/
def store (heap : Heap) : Target → Value → Heap
  | .item h index, value => heap.setItem h index value
  | .append h, value => heap.push h value
  | .field h key, value => heap.setField h key value

end Heap

end DeployScript
