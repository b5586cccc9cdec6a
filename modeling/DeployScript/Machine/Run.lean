import DeployScript.Machine.Step

/-!
# Runs

Scripts and calls from beginning to end.

* `Machine.resume` carries out instructions until there is an outcome.
* `Machine.run` runs the code of a script, `Machine.callGlobal` calls a function from outside.
* An error leaves the machine with nothing running and nothing on its stack.
-/

namespace DeployScript

/-- How a run ends: with a value, with an error, without a next instruction, or not within the
number of instructions that it was given. -/
inductive Finish
  | value (value : Value)
  | error (error : ScriptError)
  | stuck
  | unfinished

namespace Machine

variable {ω : Type}

/-- The line of the instruction that is under way, if it is known. -/
def line? (m : Machine ω) : Option Nat := do
  let f ← m.frames.head?
  let line ← f.chunk.lineAt? (f.ip - 1)
  if 0 < line then some line else none

/-- An error of the instruction that is under way. -/
def errorHere (m : Machine ω) (cause : Cause) : ScriptError :=
  { cause, span := m.line?.map Span.ofLine, excerpt := none }

/-- Carries out instructions, at most `fuel` of them. -/
def resume : (fuel : Nat) → Machine ω → Finish × Machine ω
  | 0, m => (.unfinished, m)
  | fuel + 1, m =>
    match m.step with
    | .next m => resume fuel m
    | .done value m => (.value value, m)
    | .raise cause m => (.error (m.errorHere cause), m.reset)
    | .stuck m => (.stuck, m)

/-- More instructions than any run carries out. -/
def plenty : Nat := Nat.pow 2 62

/-- The machine at the start of a script. -/
def start (m : Machine ω) (chunk : Chunk Value) : Machine ω :=
  let prototype := { name := scriptName, params := [], captures := 0, chunk }
  let (function, heap) := m.heap.insert (.function prototype)
  let (closure, heap) := heap.insert (.closure { function, cells := #[] })
  let m := { m with heap }.push (.closure closure)
  { m with frames := { closure, chunk, ip := 0, base := m.stack.size - 1 } :: m.frames }

/-- **Runs the code of a script.** -/
def run (m : Machine ω) (chunk : Chunk Value) (fuel : Nat) : Finish × Machine ω :=
  (m.start chunk).resume fuel

/-- **Calls the function that a global is bound to.** An error before the function has started has
no place in a script. -/
def callGlobal (m : Machine ω) (name : String) (args : List Value) (fuel : Nat) :
    Finish × Machine ω :=
  match m.global? name with
  | none => (.error (.ofCause (.undefinedVariable name)), m)
  | some callee =>
    let depth := m.frames.length
    let m := args.foldl push (m.push callee)
    match m.call callee args.length with
    | .next m =>
      if depth < m.frames.length then m.resume fuel
      else
        let (value, m) := m.pop
        (.value value, m)
    | .done value m => (.value value, m)
    | .raise cause m => (.error (.ofCause cause), m.reset)
    | .stuck m => (.stuck, m)

/-- Compiles a script into the machine and runs it. -/
def runCompiled (m : Machine ω) (compiled : Compiled) (fuel : Nat) : Finish × Machine ω :=
  let (chunk, heap) := m.heap.install compiled
  { m with heap }.run chunk fuel

end Machine

end DeployScript
