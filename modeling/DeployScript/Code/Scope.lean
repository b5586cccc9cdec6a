import DeployScript.Code.Block
import DeployScript.Error

/-!
# Scopes

What is known about a function while its body is compiled: its local variables with their slots,
the variables it captures from the functions around it, and the loops that are open.

* `Scope.lookup?` finds a local variable by name, the innermost first.
* `Scope.resolveCapture` finds a variable of a function around this one and makes every function
  between the two capture it.
* `Scope.unwinding` says how the variables of the innermost blocks leave the stack.
-/

namespace DeployScript

/-- A local variable. The depth counts the blocks around it within its function. -/
structure Local where
  name : String
  depth : Nat
  isMutable : Bool
  isCaptured : Bool
  deriving Repr, DecidableEq, Inhabited

/-- A captured variable. -/
structure Capture where
  source : CaptureSource
  isMutable : Bool
  deriving Repr, DecidableEq, Inhabited

/-- An open loop: the place of its first instruction and the depth of the block around it. -/
structure Loop where
  start : Nat
  depth : Nat
  deriving Repr, DecidableEq, Inhabited

/-- A function while its body is compiled. The innermost local variable comes first. -/
structure Scope where
  locals : List Local
  captures : Array Capture
  depth : Nat
  loops : List Loop
  constants : Array Literal
  names : Array String
  offset : Nat
  deriving Inhabited

namespace Scope

/-- A function with no parameters and no code yet. Its first slot holds the function itself,
under a name that no script can spell. -/
def start : Scope :=
  { locals := [{ name := "", depth := 0, isMutable := false, isCaptured := false }]
    captures := #[]
    depth := 0
    loops := []
    constants := #[]
    names := #[]
    offset := 0 }

/-- Declares a local variable. -/
def declare (s : Scope) (name : String) (isMutable : Bool) : Scope :=
  { s with locals := { name, depth := s.depth, isMutable, isCaptured := false } :: s.locals }

/-- The innermost variable of a name, with its slot: the number of variables outside it. -/
def find? (name : String) : List Local → Option (Nat × Local)
  | [] => none
  | l :: outer => if l.name = name then some (outer.length, l) else find? name outer

/-- Finds a local variable. -/
def lookup? (s : Scope) (name : String) : Option (Nat × Local) := find? name s.locals

/-- Notes that the innermost variable of a name is captured. -/
def markCaptured (s : Scope) (name : String) : Scope :=
  let rec mark : List Local → List Local
    | [] => []
    | l :: outer =>
      if l.name = name then { l with isCaptured := true } :: outer else l :: mark outer
  { s with locals := mark s.locals }

/-- The local variables deeper than `depth`, innermost first. -/
def deeper (s : Scope) (depth : Nat) : List Local :=
  s.locals.takeWhile fun l => depth < l.depth

/-- The instructions that take the variables deeper than `depth` off the stack. -/
def unwinding (s : Scope) (depth : Nat) : List Instr :=
  (s.deeper depth).map fun l => if l.isCaptured then ⟨.closeCapture, ()⟩ else ⟨.pop, ()⟩

/-- Forgets the variables deeper than `depth`. -/
def dropDeeper (s : Scope) (depth : Nat) : Scope :=
  { s with locals := s.locals.dropWhile fun l => depth < l.depth }

/-! ### Captures -/

/-- Most variables that a function can capture. -/
def maxCaptures : Nat := 255

/-- The index of a capture, which is added unless the function has it. -/
def addCapture (s : Scope) (capture : Capture) (line : Nat) :
    Except ScriptError (Nat × Scope) :=
  match s.captures.findIdx? fun c => c.source = capture.source with
  | some index => .ok (index, s)
  | none =>
    if s.captures.size < maxCaptures then
      .ok (s.captures.size, { s with captures := s.captures.push capture })
    else .error (.ofLimit .captureList line)

/-- Finds a variable in the functions around this one, and captures it in every function from
there inwards. The answer has the index of the capture in this function. -/
def resolveCapture (name : String) (line : Nat) :
    (s : Scope) → (enclosing : List Scope) →
      Except ScriptError (Option (Nat × Scope × List Scope))
  | _, [] => .ok none
  | s, parent :: outer =>
    match parent.lookup? name with
    | some (slot, l) => do
      if slot < UInt8.size then
        let source := { isLocal := true, index := UInt8.ofNat slot }
        let (index, s) ← s.addCapture { source, isMutable := l.isMutable } line
        return some (index, s, parent.markCaptured name :: outer)
      else throw (.ofLimit .capturedSlot line)
    | none => do
      match ← resolveCapture name line parent outer with
      | none => return none
      | some (inner, parent, outer) =>
        let isMutable := (parent.captures[inner]?.map (·.isMutable)).getD false
        let source := { isLocal := false, index := UInt8.ofNat inner }
        let (index, s) ← s.addCapture { source, isMutable } line
        return some (index, s, parent :: outer)

end Scope

end DeployScript
