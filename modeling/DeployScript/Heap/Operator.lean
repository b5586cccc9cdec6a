import DeployScript.Heap.Display
import DeployScript.Heap.Index
import DeployScript.Program.Basic

/-!
# Operators on values

`Heap.binary` is the value of an operator with two operands, or why there is none. A heap is only
needed to show operands as text.
-/

namespace DeployScript

/-- The failure of an operator to find its types. -/
def wrongTypes (expected : String) (a b : Value) : Cause :=
  .typeMismatch expected (a.typeName ++ " and " ++ b.typeName)

/-- A text, then `times` copies of another. -/
def withCopies (s : String) : (times : Nat) → (before : String) → String
  | 0, before => before
  | times + 1, before => withCopies s times (before ++ s)

/-- A text repeated. The number of copies and the length of the result are bounded. -/
def repeatText (s : String) (times : Float) : Except Cause Value :=
  match Number.toNat? times with
  | none => .error (.failure (.repeatFraction times))
  | some n =>
    if n ≤ maxSequence ∧ s.utf8ByteSize * n ≤ maxSequence then .ok (.text (withCopies s n ""))
    else .error (.failure .repeatTooLarge)

namespace Heap

/-- Order of two numbers or two texts. What is not a number is neither less nor greater. -/
def ordered (byNumber : Float → Float → Bool) (byText : Ordering → Bool) :
    (a b : Value) → Except Cause Value
  | .number x, .number y => .ok (.bool (byNumber x y))
  | .text x, .text y => .ok (.bool (byText (compare x y)))
  | a, b => .error (wrongTypes "numbers or strings" a b)

/-- **The value of an operator.** -/
def binary (heap : Heap) : BinaryOp → (a b : Value) → Except Cause Value
  | .add, .number x, .number y => .ok (.number (x + y))
  | .add, .text x, b => .ok (.text (x ++ heap.display b))
  | .add, a, .text y => .ok (.text (heap.display a ++ y))
  | .add, a, b => .error (wrongTypes "numbers or strings" a b)
  | .sub, .number x, .number y => .ok (.number (x - y))
  | .mul, .number x, .number y => .ok (.number (x * y))
  | .mul, .text s, .number n =>
    if 0 ≤ n then repeatText s n else .error (wrongTypes "numbers" (.text s) (.number n))
  | .div, .number x, .number y =>
    if y == 0 then .error .divisionByZero else .ok (.number (x / y))
  | .mod, .number x, .number y => .ok (.number (Number.remainder x y))
  | .sub, a, b | .mul, a, b | .div, a, b | .mod, a, b => .error (wrongTypes "numbers" a b)
  | .eq, a, b => .ok (.bool (a.equals b))
  | .ne, a, b => .ok (.bool (!a.equals b))
  | .lt, a, b => ordered (fun x y => x < y) Ordering.isLT a b
  | .le, a, b => ordered (fun x y => x ≤ y) Ordering.isLE a b
  | .gt, a, b => ordered (fun x y => x > y) Ordering.isGT a b
  | .ge, a, b => ordered (fun x y => x ≥ y) Ordering.isGE a b

/-- The value of an operator with one operand. -/
def unary : UnaryOp → Value → Except Cause Value
  | .neg, .number x => .ok (.number (-x))
  | .neg, v => .error (wrongType "number" v)
  | .not, v => .ok (.bool (!v.isTruthy))

end Heap

end DeployScript
