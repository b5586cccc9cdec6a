import DeployScript.Heap.Display
import DeployScript.Heap.Index
import DeployScript.Text.Blank

/-!
# Intrinsic functions

What the functions of the language do: `Intrinsic.effect?` checks the arguments and decides, and
`Heap.perform` carries the decision out and cannot fail.
-/

namespace DeployScript

/-- What an intrinsic function does: it gives a value, or makes an array, or appends to one. -/
inductive Effect
  | give (value : Value)
  | make (items : Array Value)
  | append (array : Handle) (value : Value)

/-- The whole numbers from one to before another. -/
def wholeNumbers (start stop : Int) : Array Value :=
  (Array.range (stop - start).toNat).map fun i : Nat => .number (Number.ofInt (start + i))

namespace Intrinsic

/-- Whole numbers, if they are not too many. -/
def rangeEffect (start stop : Float) : Except Failure Effect :=
  let start := Number.toInt64 start
  let stop := Number.toInt64 stop
  if maxSequence < stop - start then .error .rangeTooLong
  else .ok (.make (wholeNumbers start stop))

/-- **What a call does.** Where the number of arguments is fixed it has been checked. -/
def effect? (heap : Heap) : Intrinsic → (args : List Value) → Except Failure Effect
  | len, args =>
    let v := args.headD .nil
    match heap.length? v with
    | some n => .ok (.give (.number (Float.ofNat n)))
    | none => .error (.lenArgument v.typeName)
  | str, args => .ok (.give (.text (heap.display (args.headD .nil))))
  | num, args =>
    match args.headD .nil with
    | .number n => .ok (.give (.number n))
    | .text s =>
      match Number.read? (Text.trim s) with
      | some n => .ok (.give (.number n))
      | none => .error (.numText s)
    | .bool b => .ok (.give (.number (if b then 1 else 0)))
    | v => .error (.numArgument v.typeName)
  | type_, args => .ok (.give (.text (args.headD .nil).typeName))
  | range, [.number stop] => rangeEffect 0 stop
  | range, [.number start, .number stop] => rangeEffect start stop
  | range, [_] | range, [_, _] => .error .rangeArguments
  | range, _ => .error .rangeCount
  | push, args =>
    match args.headD .nil with
    | .array h =>
      match heap.array? h with
      | some _ => .ok (.append h (args.getD 1 .nil))
      | none => .error .deadPushTarget
    | v => .error (.pushTarget v.typeName)
  | keys, args =>
    match args.headD .nil with
    | .record h =>
      .ok (.make ((((heap.record? h).map (·.keys)).getD []).map Value.text).toArray)
    | v => .error (.keysArgument v.typeName)
  | assert, [] => .error .assertNothing
  | assert, condition :: rest =>
    if condition.isTruthy then .ok (.give .nil)
    else
      match rest with
      | [] => .error .assertion
      | message :: _ => .error (.assertionMessage (heap.display message))

end Intrinsic

/-- Carries out what an intrinsic function does, and gives its result. -/
def Heap.perform (heap : Heap) : Effect → Value × Heap
  | .give value => (value, heap)
  | .make items => heap.newArray items
  | .append h value =>
    let heap := heap.push h value
    (.number (Float.ofNat ((heap.length? (.array h)).getD 0)), heap)

end DeployScript
