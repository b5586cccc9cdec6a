import DeployScript.Number.Binary64

/-!
# Numbers as decimal text

A number is written with the fewest digits that read back as the same number, and always
positionally: no exponent, no fraction on an integer.

* `Number.shortest` selects the digits by exact integer arithmetic.
* `Number.text` lays them out.
* `Number.read?` accepts what scripts may turn into a number.
-/

namespace DeployScript

namespace Number

/-! ### Which digits -/

/-- A decimal `digits * 10 ^ exponent`. -/
structure Decimal where
  digits : Nat
  exponent : Int
  deriving Repr, DecidableEq, Inhabited

/-- The reals that round to one number, in quarters of its unit in the last place: from `low`
over `value` to `high`, ends included when `closed`. -/
structure Interval where
  low : Nat
  value : Nat
  high : Nat
  closed : Bool
  deriving Repr, DecidableEq

/-- Half a unit lies on either side. Below a power of two the numbers stand twice as dense, so only
a quarter lies there. An end belongs to the neighbour with the even significand. -/
def Interval.ofSignificand (significand : Nat) (exponent : Int) : Interval :=
  let value := 4 * significand
  let below := if significand = Nat.pow 2 52 ∧ -1074 < exponent then 1 else 2
  { low := value - below, value, high := value + 2, closed := significand % 2 = 0 }

/-- Whether `candidate / scale`, in quarters of a unit, lies in the interval. -/
def Interval.contains (i : Interval) (candidate scale : Nat) : Bool :=
  if i.closed then i.low * scale ≤ candidate && candidate ≤ i.high * scale
  else i.low * scale < candidate && candidate < i.high * scale

/-- The neighbours of the value on the grid of multiples of `10 ^ grid`, tried against the
interval; of two hits the nearer, and of two equally near the upper. -/
def Interval.onGrid? (i : Interval) (exponent grid : Int) : Option Nat :=
  -- `value * 2 ^ (exponent - 2) / 10 ^ grid` is `value * up / down`.
  let up := Nat.pow 2 (exponent - 2).toNat * Nat.pow 10 (-grid).toNat
  let down := Nat.pow 2 (2 - exponent).toNat * Nat.pow 10 grid.toNat
  let lower := i.value * up / down
  let upper := lower + 1
  match i.contains (lower * down) up, i.contains (upper * down) up with
  | true, true =>
    if i.value * up - lower * down < upper * down - i.value * up then some lower else some upper
  | true, false => some lower
  | false, true => some upper
  | false, false => none

/-- Tries ever finer grids, `fuel` of them. -/
def Interval.search (i : Interval) (exponent : Int) : (fuel : Nat) → (grid : Int) → Decimal
  | 0, grid => { digits := 0, exponent := grid }
  | fuel + 1, grid =>
    match i.onGrid? exponent grid with
    | some digits => { digits, exponent := grid }
    | none => i.search exponent fuel (grid - 1)

/-- **The fewest digits that read back** as `significand * 2 ^ exponent`. The first grid is coarser
than the value itself, and on the twentieth the points lie closer than two numbers can. -/
def shortest (significand : Nat) (exponent : Int) : Decimal :=
  let magnitude := ((significand.log2 : Int) + exponent) * 30103 / 100000
  (Interval.ofSignificand significand exponent).search exponent 21 (magnitude + 2)

/-! ### How they are laid out -/

/-- Zeros in a row. -/
def zeros (n : Nat) : String := String.ofList (List.replicate n '0')

/-- Digits with the point where the exponent puts it. -/
def Decimal.text (d : Decimal) : String :=
  let digits := toString d.digits
  if 0 ≤ d.exponent then digits ++ zeros d.exponent.toNat
  else
    let places := (-d.exponent).toNat
    let padded := (zeros (places + 1 - digits.length) ++ digits).toList
    let whole := padded.take (padded.length - places)
    let fraction := padded.drop (padded.length - places)
    String.ofList whole ++ "." ++ String.ofList fraction

/-- **The text of a number.** Integers that are exact are written as they are. The sign of zero is
kept, and what is not a number has none. -/
def text (x : Float) : String :=
  match parts x with
  | .undefined => "NaN"
  | .infinite negative => if negative then "-inf" else "inf"
  | .finite negative significand exponent =>
    let sign := if negative then "-" else ""
    if significand = 0 then sign ++ "0"
    else match toInt? x with
      | some n =>
        if n.natAbs < Nat.pow 2 53 then sign ++ toString n.natAbs
        else sign ++ (shortest significand exponent).text
      | none => sign ++ (shortest significand exponent).text

/-! ### Reading -/

/-- The number nearest to a decimal. Far outside the range the answer is known without computing
the power of ten. -/
def Decimal.nearest (d : Decimal) : Float :=
  if d.digits = 0 then 0.0
  else
    let magnitude := ((toString d.digits).length : Int) + d.exponent
    if 310 < magnitude then 1.0 / 0.0
    else if magnitude < -330 then 0.0
    else if 0 ≤ d.exponent then Float.ofScientific d.digits false d.exponent.toNat
    else Float.ofScientific d.digits true (-d.exponent).toNat

/-- The value of a row of decimal digits. -/
def digitsValue (digits : List Char) : Nat :=
  digits.foldl (fun n c => 10 * n + (c.toNat - '0'.toNat)) 0

/-- An exponent after its mark: an optional sign and at least one digit. -/
def exponent? (cs : List Char) : Option Int :=
  let (negative, digits) :=
    match cs with
    | '-' :: rest => (true, rest)
    | '+' :: rest => (false, rest)
    | rest => (false, rest)
  if digits.isEmpty || digits.any (fun c => !c.isDigit) then none
  else some (signed negative (digitsValue digits))

/-- A decimal without a sign: digits with at most one point among or around them, at least one
digit in all, and perhaps an exponent. -/
def decimal? (cs : List Char) : Option Decimal :=
  let whole := cs.takeWhile Char.isDigit
  let rest := cs.dropWhile Char.isDigit
  let (fraction, rest) :=
    match rest with
    | '.' :: rest => (rest.takeWhile Char.isDigit, rest.dropWhile Char.isDigit)
    | rest => ([], rest)
  let digits := whole ++ fraction
  if digits.isEmpty then none
  else
    let exponent :=
      match rest with
      | [] => some 0
      | c :: rest => if c = 'e' ∨ c = 'E' then exponent? rest else none
    exponent.map fun e =>
      { digits := digitsValue digits, exponent := e - (fraction.length : Int) }

/-- A number without a sign: a decimal, or one of three words in any case. -/
def magnitude? (cs : List Char) : Option Float :=
  let word := String.ofList (cs.map Char.toLower)
  if word = "inf" ∨ word = "infinity" then some (1.0 / 0.0)
  else if word = "nan" then some undefined
  else (decimal? cs).map Decimal.nearest

/-- **Reads a number.** The whole text has to be one, with at most one sign in front. -/
def read? (s : String) : Option Float :=
  match s.toList with
  | '-' :: cs => (magnitude? cs).map fun x => -x
  | '+' :: cs => magnitude? cs
  | cs => magnitude? cs

end Number

end DeployScript
