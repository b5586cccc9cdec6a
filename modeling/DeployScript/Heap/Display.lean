import DeployScript.Heap.Basic

/-!
# Values as text

`Heap.display` is a value as scripts print it: the elements of an array with commas between them,
the fields of a record in braces. Containers deeper than `maxDisplayDepth` are cut short, so that
a container which holds itself has a text, too.
-/

namespace DeployScript.Heap

/-- Deepest container that is displayed. -/
def maxDisplayDepth : Nat := 16

/-- A function as text. -/
def displayFunction (heap : Heap) (h : Handle) : String :=
  match heap.functionName? h with
  | some name => "<fn " ++ name ++ ">"
  | none => "<fn (collected)>"

/-- A value as text, with `levels` levels of nesting. -/
def displayWithin (heap : Heap) : (levels : Nat) → Value → String
  | 0, _ => "..."
  | levels + 1, value =>
    match value with
    | .number n => Number.text n
    | .text s => s
    | .bool b => toString b
    | .nil => "nil"
    | .function h | .closure h => heap.displayFunction h
    | .intrinsic f => "<native fn " ++ f.name ++ ">"
    | .builtin name => "<builtin " ++ name ++ ">"
    | .array h =>
      match heap.array? h with
      | some items => ",".intercalate (items.toList.map (heap.displayWithin levels))
      | none => "<array (collected)>"
    | .record h =>
      match heap.record? h with
      | some fields =>
        "\x7b" ++ ", ".intercalate (fields.toList.map fun field =>
          field.1 ++ ": " ++ heap.displayWithin levels field.2) ++ "\x7d"
      | none => "<record (collected)>"

/-- **A value as text.** -/
def display (heap : Heap) (value : Value) : String :=
  heap.displayWithin (maxDisplayDepth + 1) value

end DeployScript.Heap
