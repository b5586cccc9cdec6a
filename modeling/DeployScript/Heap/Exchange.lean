import DeployScript.Error
import DeployScript.Heap.Basic
import DeployScript.Host.Value
import DeployScript.Text.Utf8

/-!
# Values in and out of a heap

* `Heap.toHost` copies a value out of a heap. Containers deeper than `maxExportDepth` become nil,
  so that a container which holds itself has a copy, too.
* `Heap.ofHost` stores a value of the host. Bytes become an array of numbers, and a function of
  the host becomes nil.
* `Heap.unpack` reads the arguments of a builtin as the shapes that it asks for.
-/

namespace DeployScript

namespace Heap

/-! ### Out of a heap -/

/-- Deepest container that is copied out. -/
def maxExportDepth : Nat := 32

/-- A copy of a value with `levels` levels of nesting. -/
def toHostWithin (heap : Heap) : (levels : Nat) → Value → HostValue
  | 0, _ => .nil
  | levels + 1, value =>
    match value with
    | .nil => .nil
    | .bool b => .bool b
    | .number n => .number n
    | .text s => .text s
    | .array h =>
      match heap.array? h with
      | some items => .list (items.toList.map (heap.toHostWithin levels))
      | none => .nil
    | .record h =>
      match heap.record? h with
      | some fields =>
        .record (fields.toList.map fun field => (field.1, heap.toHostWithin levels field.2))
      | none => .nil
    | .function h | .closure h => .function ((heap.functionName? h).getD "<fn>")
    | .intrinsic f => .function f.name
    | .builtin name => .function name

/-- **A copy of a value** that needs no heap. -/
def toHost (heap : Heap) (value : Value) : HostValue :=
  heap.toHostWithin (maxExportDepth + 1) value

/-! ### Into a heap -/

mutual

/-- **Stores a value,** its parts before the container that holds them. -/
def ofHost : HostValue → Heap → Value × Heap
  | .nil, heap => (.nil, heap)
  | .function _, heap => (.nil, heap)
  | .bool b, heap => (.bool b, heap)
  | .number n, heap => (.number n, heap)
  | .text s, heap => (.text s, heap)
  | .bytes bs, heap =>
    heap.newArray (bs.map fun b => Value.number (Float.ofNat b.toNat)).toArray
  | .list items, heap =>
    let (items, heap) := ofHostItems items #[] heap
    heap.newArray items
  | .record fields, heap =>
    let (fields, heap) := ofHostFields fields {} heap
    heap.newRecord fields

/-- Stores items one after another, behind others. -/
def ofHostItems : List HostValue → Array Value → Heap → Array Value × Heap
  | [], stored, heap => (stored, heap)
  | item :: items, stored, heap =>
    let (value, heap) := ofHost item heap
    ofHostItems items (stored.push value) heap

/-- Stores fields one after another, beside others. -/
def ofHostFields : List (String × HostValue) → Fields → Heap → Fields × Heap
  | [], stored, heap => (stored, heap)
  | (key, item) :: fields, stored, heap =>
    let (value, heap) := ofHost item heap
    ofHostFields fields (stored.insert key value) heap

end

end Heap

/-! ### Arguments of builtins -/

/-- What a parameter of a builtin accepts. -/
inductive Shape
  | text | number | bytes | texts
  deriving Repr, DecidableEq, Inhabited

/-- The shape in words. -/
def Shape.name : Shape → String
  | text => "string"
  | number => "number"
  | bytes => "bytes"
  | texts => "array of strings"

/-- An argument that fits its shape. -/
inductive Arg
  | text (value : String)
  | number (value : Float)
  | bytes (bytes : List UInt8)
  | texts (texts : List String)
  deriving Inhabited

namespace Heap

/-- An element as a byte, or what is wrong with it. -/
def itemByte : Value → Except String UInt8
  | .number n =>
    match byteOf? n with
    | some b => .ok b
    | none => .error ("array containing " ++ Number.text n)
  | v => .error ("array containing " ++ v.typeName)

/-- An element as text, or what is wrong with it. -/
def itemText : Value → Except String String
  | .text s => .ok s
  | .number n => .ok (Number.text n)
  | v => .error ("array containing " ++ v.typeName)

/-- The elements of an array. A collected array has none. -/
def itemsOf (heap : Heap) (h : Handle) : List Value := ((heap.array? h).getD #[]).toList

/-- **Reads one argument,** or says what it was instead. Text counts as bytes by its encoding, and
numbers count as text in an array of texts. -/
def convert (heap : Heap) : Shape → Value → Except String Arg
  | .text, .text s => .ok (.text s)
  | .number, .number n => .ok (.number n)
  | .bytes, .text s => .ok (.bytes (Text.encode s))
  | .bytes, .array h => .bytes <$> (heap.itemsOf h).mapM itemByte
  | .texts, .array h => .texts <$> (heap.itemsOf h).mapM itemText
  | _, v => .error v.typeName

/-- Reads the arguments from one position on. -/
def convertFrom (heap : Heap) (builtin : String) :
    (position : Nat) → List Shape → List Value → Except Cause (List Arg)
  | position, shape :: shapes, value :: values =>
    match heap.convert shape value with
    | .error got => .error (.argumentType builtin position shape.name got)
    | .ok arg => do return arg :: (← heap.convertFrom builtin (position + 1) shapes values)
  | _, _, _ => .ok []

/-- **Reads the arguments of a builtin:** one for each shape, each of its shape. Positions count
from 1. -/
def unpack (heap : Heap) (builtin : String) (shapes : List Shape) (values : List Value) :
    Except Cause (List Arg) :=
  if values.length = shapes.length then heap.convertFrom builtin 1 shapes values
  else .error (.argumentCount builtin shapes.length values.length)

end Heap

end DeployScript
