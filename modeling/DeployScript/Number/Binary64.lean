/-!
# Binary64 numbers as exact integers

A script has one kind of number, a binary64. Every rule below that asks whether a number is
integral, cuts off its fraction or divides with a remainder works on the integers that the number
is made of, so that no step rounds.

* `Number.parts` splits a number into sign, significand and exponent; `Number.ofParts` goes back.
* `Number.toInt?` is the integer that a number equals, if there is one.
* `Number.truncate?`, `Number.toInt64` cut off the fraction, the latter within 64 bits.
* `Number.remainder` is the exact remainder with the sign of the dividend.
-/

namespace DeployScript

namespace Number

/-- **The parts of a number.** A finite one is `significand * 2 ^ exponent` with its sign. -/
inductive Parts
  | finite (negative : Bool) (significand : Nat) (exponent : Int)
  | infinite (negative : Bool)
  | undefined
  deriving Repr, DecidableEq, Inhabited

/-- The number that is not a number. -/
def undefined : Float := 0.0 / 0.0

/-- The infinite number of a sign. -/
def infinite (negative : Bool) : Float := if negative then -1.0 / 0.0 else 1.0 / 0.0

/-- Reads sign, significand and exponent off the bits: a biased exponent of 0 marks the
numbers below `2 ^ (-1022)`, which have no leading one, and 2047 the values that are not finite. -/
def parts (x : Float) : Parts :=
  let bits := x.toBits
  let fraction := (bits &&& 0xFFFFFFFFFFFFF).toNat
  let biased := ((bits >>> 52) &&& 0x7FF).toNat
  let negative := bits >>> 63 == 1
  if biased == 2047 then
    if fraction == 0 then .infinite negative else .undefined
  else if biased == 0 then .finite negative fraction (-1074)
  else .finite negative (Nat.pow 2 52 + fraction) ((biased : Int) - 1075)

/-- The number `significand * 2 ^ exponent`. It is exact whenever some number has that value;
digits that do not fit are cut off. -/
def ofParts (negative : Bool) (significand : Nat) (exponent : Int) : Float :=
  let length : Int := if significand = 0 then 0 else significand.log2 + 1
  let target := max (exponent + (length - 53)) (-1074)
  let scaled :=
    if exponent ≤ target then significand >>> (target - exponent).toNat
    else significand <<< (exponent - target).toNat
  let signBit : UInt64 := if negative then (1 : UInt64) <<< 63 else 0
  if scaled < Nat.pow 2 52 then Float.ofBits (signBit ||| scaled.toUInt64)
  else if 971 < target then infinite negative
  else
    let biased := (target + 1075).toNat.toUInt64
    Float.ofBits (signBit ||| (biased <<< 52) ||| (scaled - Nat.pow 2 52).toUInt64)

/-- A natural number with a sign. -/
def signed (negative : Bool) (n : Nat) : Int := if negative then -(n : Int) else n

/-- The integer that the number equals, if it is finite and has no fraction. -/
def toInt? (x : Float) : Option Int :=
  match parts x with
  | .finite negative significand exponent =>
    if significand = 0 then some 0
    else if 0 ≤ exponent then some (signed negative (significand <<< exponent.toNat))
    else
      let unit := Nat.pow 2 (-exponent).toNat
      if significand % unit = 0 then some (signed negative (significand / unit)) else none
  | _ => none

/-- Whether the number is finite and has no fraction. -/
def isIntegral (x : Float) : Bool := (toInt? x).isSome

/-- The number as a count or a position, if it is an integer from 0 on. -/
def toNat? (x : Float) : Option Nat :=
  match toInt? x with
  | some (.ofNat n) => some n
  | _ => none

/-- The integer part of a finite number, toward zero. -/
def truncate? (x : Float) : Option Int :=
  match parts x with
  | .finite negative significand exponent =>
    if 0 ≤ exponent then some (signed negative (significand <<< exponent.toNat))
    else some (signed negative (significand >>> (-exponent).toNat))
  | _ => none

/-- Least 64-bit integer. -/
def minInt64 : Int := -9223372036854775808

/-- Greatest 64-bit integer. -/
def maxInt64 : Int := 9223372036854775807

/-- The nearest 64-bit integer toward zero: what is too large stops at the end of the range, and
what is not a number counts as 0. -/
def toInt64 (x : Float) : Int :=
  match parts x with
  | .infinite negative => if negative then minInt64 else maxInt64
  | .undefined => 0
  | .finite .. => max minInt64 (min maxInt64 ((truncate? x).getD 0))

/-- The nearest number to an integer. -/
def ofInt (i : Int) : Float := Float.ofInt i

/-- **Exact remainder.** `x - n * y` for the quotient `n` cut off toward zero; its sign is that
of `x`, also when it is zero. Without such a remainder the result is not a number. -/
def remainder (x y : Float) : Float :=
  match parts x, parts y with
  | .finite _ _ _, .infinite _ => x
  | .finite negative m e, .finite _ n f =>
    if n = 0 then undefined
    else
      let unit := min e f
      let rest := (m <<< (e - unit).toNat) % (n <<< (f - unit).toNat)
      ofParts negative rest unit
  | _, _ => undefined

end Number

end DeployScript
