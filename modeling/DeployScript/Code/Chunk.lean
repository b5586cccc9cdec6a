import DeployScript.Code.Instr

/-!
# Chunks

The code of one function: its bytes, the line of each byte, and what its instructions refer to by
index. A chunk is generic in its constants, since a compiled function that is not yet in memory
refers to other functions by number.

* `Chunk.addConstant?` and `Chunk.addName?` refuse an index of more than two bytes.
* `Chunk.patchJump?` fills in the distance of a forward jump.
* `Prototype` is a function, `Compiled` a script with all its functions.
-/

namespace DeployScript

/-- The code of one function. -/
structure Chunk (κ : Type) where
  code : Array UInt8
  lines : Array Nat
  constants : Array κ
  names : Array String
  deriving Inhabited

/-- A number that fits in two bytes. -/
def wide? (n : Nat) : Option UInt16 :=
  if h : n < UInt16.size then some (UInt16.ofNatLT n h) else none

/-- The number does not change. -/
theorem toNat_of_wide? {n : Nat} {w : UInt16} (h : wide? n = some w) : w.toNat = n := by
  unfold wide? at h
  split at h
  · simp only [Option.some.injEq] at h
    subst h
    simp
  · simp at h

namespace Chunk

variable {κ ι : Type}

/-- No code. -/
def empty : Chunk κ := { code := #[], lines := #[], constants := #[], names := #[] }

/-- Appends a byte. -/
def push (c : Chunk κ) (byte : UInt8) (line : Nat) : Chunk κ :=
  { c with code := c.code.push byte, lines := c.lines.push line }

/-- Appends bytes of one line. -/
def append (c : Chunk κ) (bytes : List UInt8) (line : Nat) : Chunk κ :=
  bytes.foldl (fun c byte => c.push byte line) c

/-- The line of the byte at a place. -/
def lineAt? (c : Chunk κ) (offset : Nat) : Option Nat := c.lines[offset]?

/-- Appends a constant and gives its index, if there is room. -/
def addConstant? (c : Chunk κ) (constant : κ) : Option (UInt16 × Chunk κ) :=
  (wide? c.constants.size).map fun index =>
    (index, { c with constants := c.constants.push constant })

/-- The index of a name, which is appended unless the chunk has it, if there is room. -/
def addName? (c : Chunk κ) (name : String) : Option (UInt16 × Chunk κ) :=
  match c.names.idxOf? name with
  | some index => (wide? index).map (·, c)
  | none => (wide? c.names.size).map fun index => (index, { c with names := c.names.push name })

/-- Fills in the distance from behind the two bytes at `offset` to the end of the code: the chunk,
or the chunk as it was if the distance takes more than two bytes. There is no answer if the code
has no two bytes there. -/
def patchJump? (c : Chunk κ) (offset : Nat) : Option (Bool × Chunk κ) :=
  if c.code.size < offset + 2 then none
  else
    match wide? (c.code.size - (offset + 2)) with
    | none => some (false, c)
    | some distance =>
      let code := (c.code.setIfInBounds offset (distance >>> 8).toUInt8).setIfInBounds
        (offset + 1) distance.toUInt8
      some (true, { c with code })

/-- The same code with other constants. -/
def mapConstants (c : Chunk κ) (f : κ → ι) : Chunk ι :=
  { c with constants := c.constants.map f }

end Chunk

/-! ### Functions -/

/-- A function: its name, its parameters, how many variables it captures, and its code. -/
structure Prototype (κ : Type) where
  name : String
  params : List String
  captures : Nat
  chunk : Chunk κ
  deriving Inhabited

/-- A constant of a compiled script. A function is given by its number in the script. -/
inductive Literal
  | number (value : Float)
  | text (value : String)
  | function (index : Nat)
  deriving Inhabited

/-- A compiled script: the code that runs first, and all functions in it. A function refers only
to functions with a smaller number. -/
structure Compiled where
  main : Chunk Literal
  functions : Array (Prototype Literal)
  deriving Inhabited

/-- The name of the function that a script as a whole is. -/
def scriptName : String := "<script>"

end DeployScript
