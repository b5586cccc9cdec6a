import DeployScript.Number.Decimal
import DeployScript.Text.Blank
import Std.Data.TreeMap

/-!
# Values of the host

What a script and its host exchange: values without a heap, complete in themselves. A record lists
its fields in the order of their keys, each once.

* `HostValue.display` is the value as text.
* `toNumber?`, `toInteger?`, `toBytes?` and the like read a value as what it stands for.
-/

namespace DeployScript

/-- A value of the host. A function is known by its name alone. -/
inductive HostValue
  | nil
  | bool (value : Bool)
  | number (value : Float)
  | text (value : String)
  | bytes (bytes : List UInt8)
  | list (items : List HostValue)
  | record (fields : List (String × HostValue))
  | function (name : String)
  deriving Inhabited

/-- The number that has no fraction and fits in a byte, as a byte. -/
def byteOf? (n : Float) : Option UInt8 :=
  match Number.toNat? n with
  | some value => if value < UInt8.size then some (UInt8.ofNat value) else none
  | none => none

namespace HostValue

/-- A record of fields in any order. Of several with one key the last counts. -/
def ofFields (fields : List (String × HostValue)) : HostValue :=
  record (Std.TreeMap.ofList fields).toList

/-- The type of the value in words. -/
def typeName : HostValue → String
  | nil => "nil"
  | bool _ => "bool"
  | number _ => "number"
  | text _ => "string"
  | bytes _ => "bytes"
  | list _ => "array"
  | record _ => "record"
  | function _ => "function"

/-! ### The value as text -/

/-- Parts of a text with separators between them, reversed, and joined. -/
def joined (separator : String) (reversed : List String) : String :=
  separator.intercalate reversed.reverse

mutual

/-- **The value as text.** -/
def display : HostValue → String
  | nil => "nil"
  | bool b => toString b
  | number n => Number.text n
  | text s => s
  | bytes bs => ",".intercalate (bs.map fun b => toString b.toNat)
  | list items => joined "," (displayItems items [])
  | record fields => "\x7b" ++ joined ", " (displayFields fields []) ++ "\x7d"
  | function name => "<fn " ++ name ++ ">"

/-- The texts of items, the last one first, in front of other texts. -/
def displayItems : List HostValue → List String → List String
  | [], shown => shown
  | item :: items, shown => displayItems items (display item :: shown)

/-- The texts of fields, the last one first, in front of other texts. -/
def displayFields : List (String × HostValue) → List String → List String
  | [], shown => shown
  | (key, value) :: fields, shown => displayFields fields ((key ++ ": " ++ display value) :: shown)

end

/-! ### Readings -/

/-- The value as a number: numbers, booleans as 0 and 1, and text that spells a number. -/
def toNumber? : HostValue → Option Float
  | number n => some n
  | bool b => some (if b then 1 else 0)
  | text s => Number.read? (Text.trim s)
  | _ => none

/-- The value as a number without its fraction, within 64 bits. -/
def toInteger? (v : HostValue) : Option Int := do
  let n ← v.toNumber?
  if n.isFinite then some (Number.toInt64 n) else none

/-- The text that the value is. -/
def asText? : HostValue → Option String
  | text s => some s
  | _ => none

/-- The truth value that the value is. -/
def asBool? : HostValue → Option Bool
  | bool b => some b
  | _ => none

/-- The value as bytes: bytes, or a list of what reads as numbers from 0 to 255. -/
def toBytes? : HostValue → Option (List UInt8)
  | bytes bs => some bs
  | list items => items.mapM fun item => item.toNumber?.bind byteOf?
  | _ => none

/-- The field of a record. -/
def get? : HostValue → (key : String) → Option HostValue
  | record fields, key => fields.lookup key
  | _, _ => none

/-- Whether the value is a function. -/
def isFunction : HostValue → Bool
  | function _ => true
  | _ => false

end HostValue

end DeployScript
