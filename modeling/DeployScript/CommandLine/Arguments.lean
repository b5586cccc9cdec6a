import DeployScript.CommandLine.Help

/-!
# Arguments

`Invocation.ofArgs` reads the arguments of the program by its grammar. Options can stand anywhere
behind their command, `--` ends them, and those of all commands can stand before the command, too.

* `Command` is what the program is asked to do.
* `Answer` is what it says instead: help, its version, or nothing but a refusal.
-/

namespace DeployScript.CommandLine

/-- How much the program tells of what it does. -/
inductive Verbosity
  | quiet | normal | debug
  deriving Repr, DecidableEq, Inhabited

/-- Debugging wins. -/
def Verbosity.ofFlags (debug quiet : Bool) : Verbosity :=
  if debug then .debug else if quiet then .quiet else .normal

/-- What is said about a package on the command line. -/
structure CompileOptions where
  name : Option String
  output : Option String
  assets : List String
  manifest : Option String
  runtimePath : Option String
  build : Bool
  deriving Repr, DecidableEq, Inhabited

/-- What the program is asked to do. -/
inductive Command
  | test (file : String) (linter : Option String)
  | shell
  | compile (file : String) (options : CompileOptions)
  | run (file : String)
  deriving Repr, DecidableEq, Inhabited

/-- A command with the options that all commands have. -/
structure Invocation where
  verbosity : Verbosity
  command : Command
  deriving Repr, DecidableEq, Inhabited

/-- What the program answers without doing anything. -/
inductive Answer
  | help (text : String)
  | version
  | refusal
  deriving Repr, DecidableEq, Inhabited

/-! ### Options -/

/-- The options that have been given, by their long names, with their values. -/
abbrev Given := List (String × String)

/-- Whether an option has been given. -/
def Given.has (given : Given) (long : String) : Bool := given.any (·.1 = long)

/-- The value of an option. -/
def Given.value? (given : Given) (long : String) : Option String := given.lookup long

/-- The values of an option that can be given more than once. -/
def Given.values (given : Given) (long : String) : List String :=
  given.filterMap fun g => if g.1 = long then some g.2 else none

/-- Adds an option that may be given once. -/
def Given.addOnce (given : Given) (long value : String) : Except Answer Given :=
  if given.has long then .error .refusal else .ok (given ++ [(long, value)])

/-- Adds an option with a value. -/
def Given.addValue (given : Given) (long : String) (kind : ValueKind) (value : String) :
    Except Answer Given :=
  match kind with
  | .text => given.addOnce long value
  | .path => if value = "" then .error .refusal else given.addOnce long value
  | .paths => if value = "" then .error .refusal else .ok (given ++ [(long, value)])

/-- An option that still needs its value. -/
structure Pending where
  long : String
  kind : ValueKind
  deriving Repr, DecidableEq, Inhabited

/-- What follows an equals sign at the beginning, or everything. -/
def afterEquals : List Char → List Char
  | '=' :: rest => rest
  | rest => rest

/-- Reads options in their short form, which can stand together behind one hyphen. What follows the
first that takes a value is its value. -/
def readShort (c : CommandForm) (help : String) :
    List Char → Given → Except Answer (Given × Option Pending)
  | [], given => .ok (given, none)
  | letter :: rest, given =>
    match c.switches.find? fun s => s.short = some letter with
    | none => .error .refusal
    | some s =>
      match s.effect with
      | .flag => do readShort c help rest (← given.addOnce s.long "")
      | .help => .error (.help help)
      | .version => .error .version
      | .value _ kind =>
        if rest = [] then .ok (given, some { long := s.long, kind })
        else do
          let given ← given.addValue s.long kind (String.ofList (afterEquals rest))
          return (given, none)

/-- Reads an option in its long form, with its value behind an equals sign if there is one. -/
def readLong (c : CommandForm) (help : String) (text : List Char) (given : Given) :
    Except Answer (Given × Option Pending) :=
  let long := String.ofList (text.takeWhile (· ≠ '='))
  match c.switches.find? fun s => s.long = long with
  | none => .error .refusal
  | some s =>
    match s.effect, text.dropWhile (· ≠ '=') with
    | .flag, [] => do return (← given.addOnce long "", none)
    | .help, [] => .error (.help help)
    | .version, [] => .error .version
    | .value _ kind, [] => .ok (given, some { long, kind })
    | .value _ kind, _ :: value => do
      return (← given.addValue long kind (String.ofList value), none)
    | _, _ => .error .refusal

/-- Reads an argument as options, if it is one: a hyphen alone is not. -/
def readSwitch? (c : CommandForm) (help : String) (arg : String) (given : Given) :
    Option (Except Answer (Given × Option Pending)) :=
  match arg.toList with
  | '-' :: '-' :: text => some (readLong c help text given)
  | '-' :: letter :: letters => some (readShort c help (letter :: letters) given)
  | _ => none

/-! ### Commands -/

/-- What has been read of the arguments of a command. -/
structure Reading where
  given : Given
  operand : Option String
  pending : Option Pending
  operandsOnly : Bool
  deriving Inhabited

/-- Reads an argument that is no option. -/
def Reading.addOperand (r : Reading) (c : CommandForm) (arg : String) : Except Answer Reading :=
  if c.operand.isNone ∨ r.operand.isSome ∨ r.pending.isSome ∨ arg = "" then .error .refusal
  else .ok { r with operand := some arg }

/-- Reads one argument of a command. An option that needs a value takes what follows, unless that
looks like an option itself. -/
def Reading.add (c : CommandForm) (r : Reading) (arg : String) : Except Answer Reading :=
  if r.operandsOnly then r.addOperand c arg
  else if arg = "--" then .ok { r with operandsOnly := true }
  else
    match r.pending, readSwitch? c (commandHelp c) arg r.given with
    | some _, some _ => .error .refusal
    | none, some read => do
      let (given, pending) ← read
      return { r with given, pending }
    | some p, none => do
      return { r with given := ← r.given.addValue p.long p.kind arg, pending := none }
    | none, none => r.addOperand c arg

/-- Reads the arguments of a command. It needs its operand, and every option its value. -/
def readCommand (c : CommandForm) (args : List String) : Except Answer (String × Given) := do
  let start : Reading := { given := [], operand := none, pending := none, operandsOnly := false }
  let r ← args.foldlM (Reading.add c) start
  if r.pending.isSome ∨ r.operand.isSome ≠ c.operand.isSome then throw .refusal
  return (r.operand.getD "", r.given)

/-- The command of a name, with an operand and options. -/
def Command.ofGiven (name operand : String) (given : Given) : Except Answer Command :=
  if name = testForm.name then .ok (.test operand (given.value? "linter"))
  else if name = shellForm.name then .ok .shell
  else if name = compileForm.name then
    .ok (.compile operand {
      name := given.value? "name"
      output := given.value? "output"
      assets := given.values "asset"
      manifest := given.value? "manifest"
      runtimePath := given.value? "runtime-path"
      build := given.has "build" })
  else if name = runForm.name then .ok (.run operand)
  else .error .refusal

/-- The answer to a request for help: on the program, or on one command. -/
def answerHelp : List String → Answer
  | [] => .help programHelp
  | [name] =>
    match findCommand? name with
    | some c => .help (commandHelp c)
    | none => .refusal
  | _ => .refusal

namespace Invocation

/-- Reads arguments behind options that all commands have, up to the command and on. -/
def ofArgsWith : (given : Given) → (args : List String) → Except Answer Invocation
  | _, [] => .error .refusal
  | given, arg :: args =>
    match findCommand? arg with
    | some c =>
      if c.name = helpForm.name then .error (answerHelp args)
      else do
        let (operand, more) ← readCommand c args
        let command ← Command.ofGiven c.name operand more
        let flag (s : Switch) := given.has s.long || more.has s.long
        return { verbosity := Verbosity.ofFlags (flag debugSwitch) (flag quietSwitch), command }
    | none =>
      match readSwitch? programForm programHelp arg given with
      | some read => do
        let (given, _) ← read
        ofArgsWith given args
      | none => .error .refusal

/-- **Reads the arguments of the program.** -/
def ofArgs (args : List String) : Except Answer Invocation := ofArgsWith [] args

end Invocation

end DeployScript.CommandLine
