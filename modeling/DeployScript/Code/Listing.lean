import DeployScript.Code.Chunk
import DeployScript.Number.Decimal

/-!
# Listings

A chunk as text: one line for each instruction, with its place, its line in the source, its name
and its operand; what an index or a distance refers to is shown instead of it.

* `Chunk.listing?` lists one chunk. It has no answer where an instruction is cut off, refers to
  nothing, or jumps to before the code.
* `Compiled.listings?` lists a script and all functions in it.
-/

namespace DeployScript

/-- A number with at least `width` digits. -/
def zeroPadded (width n : Nat) : String :=
  let digits := toString n
  "".pushn '0' (width - digits.length) ++ digits

/-- A number with blanks before it, `width` characters at least. -/
def blankPadded (width n : Nat) : String :=
  let digits := toString n
  "".pushn ' ' (width - digits.length) ++ digits

/-- The end of an instruction `size` bytes long at `offset`, moved back. -/
def backTarget? (offset distance : Nat) : Option Nat :=
  if distance ≤ offset + 3 then some (offset + 3 - distance) else none

variable {κ : Type}

/-- The source of a capture in words, read where it is in the code. -/
def Chunk.captureText? (c : Chunk κ) (offset : Nat) : Option String := do
  let kind ← c.code[offset]?
  let index ← c.code[offset + 1]?
  return (if kind ≠ 0 then "local " else "upvalue ") ++ toString index.toNat

/-- **An instruction as text,** without its place, and the place behind it. What is read behind the opcode,
and how far the next instruction is, is said here once more. -/
def Chunk.opText? (c : Chunk κ) (shown : κ → String) (offset : Nat) (op : Opcode) :
    Option (String × Nat) :=
  match op with
  | .constant => do
    let index ← readWide? c.code (offset + 1)
    let constant ← c.constants[index.toNat]?
    return ("CONSTANT " ++ zeroPadded 4 index.toNat ++ " '" ++ shown constant ++ "'", offset + 3)
  | .defineLet | .defineVar | .getGlobal | .setGlobal | .getProperty | .setProperty => do
    let index ← readWide? c.code (offset + 1)
    let name ← c.names[index.toNat]?
    return (op.name ++ " " ++ zeroPadded 4 index.toNat ++ " '" ++ name ++ "'", offset + 3)
  | .getLocal | .setLocal | .getCapture | .setCapture => do
    let slot ← readWide? c.code (offset + 1)
    return (op.name ++ " " ++ zeroPadded 4 slot.toNat, offset + 3)
  | .jump | .jumpIfFalse | .jumpIfTrue => do
    let distance ← readWide? c.code (offset + 1)
    return (op.name ++ " -> " ++ zeroPadded 4 (offset + 3 + distance.toNat), offset + 3)
  | .loop => do
    let distance ← readWide? c.code (offset + 1)
    let target ← backTarget? offset distance.toNat
    return (op.name ++ " -> " ++ zeroPadded 4 target, offset + 3)
  | .call | .print => do
    let count ← c.code[offset + 1]?
    return (op.name ++ " (" ++ toString count.toNat ++ ")", offset + 2)
  | .array | .record => do
    let count ← readWide? c.code (offset + 1)
    return (op.name ++ " (" ++ toString count.toNat ++ ")", offset + 3)
  | .closure => do
    let index ← readWide? c.code (offset + 1)
    let count ← c.code[offset + 3]?
    let captures ← (List.range count.toNat).mapM fun i => c.captureText? (offset + 4 + i * 2)
    return ("CLOSURE " ++ zeroPadded 4 index.toNat ++ " [" ++ ", ".intercalate captures ++ "]",
      offset + 4 + count.toNat * 2)
  | _ => some (op.name, offset + 1)

/-- One line of a listing and the place behind what it shows. -/
def Chunk.listingLine? (c : Chunk κ) (shown : κ → String) (offset : Nat) :
    Option (String × Nat) := do
  let place := zeroPadded 4 offset ++ " " ++ blankPadded 4 ((c.lineAt? offset).getD 0) ++ " "
  let byte ← c.code[offset]?
  match Opcode.ofByte? byte with
  | none => return (place ++ "<bad opcode " ++ toString byte.toNat ++ ">", offset + 1)
  | some op =>
    let (text, next) ← c.opText? shown offset op
    return (place ++ text, next)

/-- The lines from a place to the end, each with a line feed. -/
def Chunk.listingFrom? (c : Chunk κ) (shown : κ → String) :
    (fuel offset : Nat) → (text : String) → Option String
  | 0, _, text => some text
  | fuel + 1, offset, text =>
    if offset < c.code.size then
      match c.listingLine? shown offset with
      | none => none
      | some (line, next) => c.listingFrom? shown fuel next (text ++ line ++ "\n")
    else some text

/-- **A chunk as text,** under a heading. -/
def Chunk.listing? (c : Chunk κ) (shown : κ → String) (name : String) : Option String :=
  c.listingFrom? shown c.code.size 0 ("== " ++ name ++ " ==\n")

/-- A constant of a compiled script as listings show it. -/
def Literal.shown : Literal → String
  | number value => Number.text value
  | text value => value
  | function _ => "<fn>"

/-- A listed function. -/
structure FunctionListing where
  name : String
  params : Nat
  captures : Nat
  text : String

/-- The functions that the constants refer to, each followed by those that its own constants refer
to. `depth` bounds how often one leads to another. -/
def Compiled.listConstants? (p : Compiled) :
    (depth : Nat) → List Literal → Option (List FunctionListing)
  | 0, _ => some []
  | depth + 1, constants =>
    constants.foldlM (fun listed literal => do
      match literal with
      | .function index =>
        let f ← p.functions[index]?
        let text ← f.chunk.listing? Literal.shown f.name
        let inner ← p.listConstants? depth f.chunk.constants.toList
        return listed ++
          ({ name := f.name, params := f.params.length, captures := f.captures, text } :: inner)
      | _ => return listed) []

/-- **A script as text:** the script itself, then its functions. -/
def Compiled.listings? (p : Compiled) : Option (List FunctionListing) := do
  let text ← p.main.listing? Literal.shown scriptName
  let inner ← p.listConstants? (p.functions.size + 1) p.main.constants.toList
  return { name := scriptName, params := 0, captures := 0, text } :: inner

end DeployScript
