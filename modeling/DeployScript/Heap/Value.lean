import DeployScript.Number.Decimal

/-!
# Values

What a script computes with. Containers and functions live in a heap and are values through a
handle, so that a value is small and two names can share a container.

* `Value.equals` is the equality that scripts see: containers and functions by identity.
* `Value.handles` lists what a value keeps alive.
-/

namespace DeployScript

/-- A place in a heap. -/
structure Handle where
  index : Nat
  deriving Repr, DecidableEq, Inhabited, Hashable

/-- Functions of the language itself. -/
inductive Intrinsic
  | len | str | num | type_ | range | push | keys | assert
  deriving Repr, DecidableEq, Inhabited

namespace Intrinsic

/-- All of them. -/
def all : List Intrinsic := [len, str, num, type_, range, push, keys, assert]

/-- The name of the function. -/
def name : Intrinsic → String
  | len => "len"
  | str => "str"
  | num => "num"
  | type_ => "type"
  | range => "range"
  | push => "push"
  | keys => "keys"
  | assert => "assert"

/-- How many arguments the function takes, unless it decides that itself. -/
def arity? : Intrinsic → Option Nat
  | len | str | num | type_ | keys => some 1
  | push => some 2
  | range | assert => none

end Intrinsic

/-- A value. A builtin is a function that the host offers under a name. -/
inductive Value
  | number (value : Float)
  | text (value : String)
  | bool (value : Bool)
  | nil
  | function (handle : Handle)
  | closure (handle : Handle)
  | intrinsic (function : Intrinsic)
  | builtin (name : String)
  | array (handle : Handle)
  | record (handle : Handle)
  deriving Inhabited

namespace Value

/-- The type of the value in words. -/
def typeName : Value → String
  | number _ => "number"
  | text _ => "string"
  | bool _ => "bool"
  | nil => "nil"
  | function _ | closure _ | intrinsic _ | builtin _ => "function"
  | array _ => "array"
  | record _ => "record"

/-- Whether the value counts as true: not nil, false, zero or the empty text. -/
def isTruthy : Value → Bool
  | nil => false
  | bool b => b
  | number n => n != 0
  | text s => !s.isEmpty
  | _ => true

/-- Whether the value is a function. -/
def isCallable : Value → Bool
  | function _ | closure _ | intrinsic _ | builtin _ => true
  | _ => false

/-- The heap objects that the value refers to. -/
def handles : Value → List Handle
  | function h | closure h | array h | record h => [h]
  | _ => []

/-- Equality. Undefined numbers differ from themselves, and heap values are equal if they are the
same object. -/
def equals : Value → Value → Bool
  | number a, number b => a == b
  | text a, text b => a == b
  | bool a, bool b => a == b
  | nil, nil => true
  | function a, function b | closure a, closure b | array a, array b | record a, record b => a == b
  | intrinsic a, intrinsic b => a == b
  | builtin a, builtin b => a == b
  | _, _ => false

/-- The value as text where there is no heap to look into. -/
def shown : Value → String
  | number n => Number.text n
  | text s => s
  | bool b => toString b
  | nil => "nil"
  | function _ | closure _ => "<fn>"
  | intrinsic f => "<native fn " ++ f.name ++ ">"
  | builtin name => "<builtin " ++ name ++ ">"
  | array _ => "<array>"
  | record _ => "<record>"

end Value

end DeployScript
