import DeployScript.Heap.Compile
import DeployScript.Machine.Run
import DeployScript.Program.Script

/-!
# Sessions

A session runs scripts one after another on one machine. It goes through phases: builtins are
registered once, then scripts are loaded and run in turns, and functions can be called while the
last script has run to its end.

* `Phase` lists the phases; a script waits to be run in the phase `loaded`.
* `Session.register`, `load`, `run`, `eval`, `call`, `get` and `exports` are the operations.
* An operation in a wrong phase is refused, and so is a script that does not pass its checks;
  neither changes the session.
-/

namespace DeployScript

/-- Where a session is in its life. -/
inductive Phase
  | created
  | registered
  | loaded
  | executed
  deriving Repr, DecidableEq, Inhabited

/-- The phase in words. -/
def Phase.name : Phase → String
  | created => "created"
  | registered => "builtins-registered"
  | loaded => "loaded"
  | executed => "executed"

/-- Why an operation of a session has no result. `stuck` and `unfinished` are runs that did not
end as runs should. -/
inductive SessionError
  | invalidScript (error : ScriptError)
  | failedScript (error : ScriptError)
  | notFound (binding : String)
  | invalidPhase (operation : String) (phase : String)
  | duplicateBuiltin (name : String)
  | failedHook (hook reason : String)
  | stuck
  | unfinished
  deriving Inhabited

/-- The reason in words. -/
def SessionError.message : SessionError → String
  | invalidScript e => "syntax error: " ++ e.message
  | failedScript e => "runtime error: " ++ e.message
  | notFound binding => "binding not found: " ++ binding
  | invalidPhase operation phase => "cannot " ++ operation ++ " while runtime is " ++ phase
  | duplicateBuiltin name => "duplicate builtin '" ++ name ++ "'"
  | failedHook hook reason => "hook " ++ hook ++ " failed: " ++ reason
  | stuck => "stuck"
  | unfinished => "unfinished"

/-- A machine that scripts run on, the phase, the code that waits to be run, the last source that was
loaded, and the names of the builtins. -/
structure Session (ω : Type) where
  machine : Machine ω
  phase : Phase
  pending : Option (Chunk Value)
  source : String
  builtins : List String

namespace Session

variable {ω : Type}

/-- A session at its beginning. -/
def new (assets : Assets) (world : ω) : Session ω :=
  { machine := Machine.new assets world, phase := .created, pending := none, source := ""
    builtins := [] }

/-- The refusal of an operation. -/
def refusal (s : Session ω) (operation : String) : SessionError :=
  .invalidPhase operation s.phase.name

/-- Binds every builtin of a library to its name, immutably. -/
def register (s : Session ω) (library : Library ω) : Except SessionError (Session ω) :=
  match s.phase with
  | .created =>
    let machine := library.names.foldl (fun m name => m.define name (.builtin name) false)
      { s.machine with library }
    .ok { s with machine, phase := .registered, builtins := library.names }
  | _ => .error (s.refusal "register builtins")

/-- Checks a source and keeps its code for the next run. The check has a compilation of its own; the
code that is kept has its functions on the heap. -/
def load (s : Session ω) (source : String) : Except SessionError (Session ω) :=
  match s.phase with
  | .registered | .executed => do
    let script ← (Script.ofSource source).mapError .invalidScript
    let (code, heap) ← (s.machine.heap.compile script.program).mapError fun e =>
      .invalidScript (e.withSource source)
    return { s with
      machine := { s.machine with heap }, phase := .loaded, pending := some code, source }
  | _ => .error (s.refusal "load a script")

/-- The result of a run or a call, for the host. -/
def result (s : Session ω) : Finish → Except SessionError HostValue
  | .value value => .ok (s.machine.heap.toHost value)
  | .error e => .error (.failedScript (e.withSource s.source))
  | .stuck => .error .stuck
  | .unfinished => .error .unfinished

/-- Runs the script that is loaded. -/
def run (s : Session ω) (fuel : Nat) : Except SessionError HostValue × Session ω :=
  match s.phase, s.pending with
  | .loaded, some code =>
    let (finish, machine) := s.machine.run code fuel
    let phase := match finish with
      | .value _ => Phase.executed
      | _ => Phase.registered
    let s := { s with machine, phase, pending := none }
    (s.result finish, s)
  | .loaded, none => (.error (.invalidPhase "run" "loaded without a script"), s)
  | _, _ => (.error (s.refusal "run"), s)

/-- Loads a script and runs it. -/
def eval (s : Session ω) (source : String) (fuel : Nat) :
    Except SessionError HostValue × Session ω :=
  match s.load source with
  | .error e => (.error e, s)
  | .ok s => s.run fuel

/-- The value of a global. -/
def get (s : Session ω) (name : String) : Except SessionError HostValue :=
  match s.machine.global? name with
  | none => .error (.notFound name)
  | some value => .ok (s.machine.heap.toHost value)

/-- Whether a global belongs to the language or the host and not to a script. -/
def isProvided (s : Session ω) (name : String) (value : Value) : Bool :=
  match value with
  | .intrinsic _ => true
  | _ => s.builtins.contains name

/-- The globals of scripts, in the order of their names. -/
def exports (s : Session ω) : List (String × HostValue) :=
  (s.machine.globals.toList.filter fun g => !s.isProvided g.1 g.2.value).map fun g =>
    (g.1, s.machine.heap.toHost g.2.value)

/-- Stores the arguments of a call. -/
def storeArgs (args : List HostValue) (heap : Heap) : Array Value × Heap :=
  Heap.ofHostItems args #[] heap

/-- Calls the function that a global is bound to. -/
def call (s : Session ω) (name : String) (args : List HostValue) (fuel : Nat) :
    Except SessionError HostValue × Session ω :=
  match s.phase with
  | .executed =>
    match s.machine.global? name with
    | none => (.error (.notFound name), s)
    | some value =>
      if value.isCallable then
        let (values, heap) := storeArgs args s.machine.heap
        let machine := { s.machine with heap }
        let (finish, machine) := machine.callGlobal name values.toList fuel
        let s := { s with machine }
        (s.result finish, s)
      else
        let bound := name ++ " (bound to a " ++ value.typeName ++ ", not a function)"
        (.error (.notFound bound), s)
  | _ => (.error (s.refusal "call a function"), s)

end Session

end DeployScript
