import DeployScript.Host.Standard
import DeployScript.Package.Job
import DeployScript.Session.Basic

/-!
# The interactive shell

The shell prompts for a line, runs it in a session that lasts as long as the shell, and shows its
result. Some words are commands to the shell itself.

* `Prompt.interact` goes through the lines of the input.
-/

namespace DeployScript.CommandLine

/-- How a command ends: its code, what it has printed, and the state of the host. -/
structure Ending where
  code : Nat
  stdout : List UInt8
  world : World
  deriving Inhabited

namespace Ending

/-- Success. -/
def success : Nat := 0

/-- An error that the program reports. -/
def failure : Nat := 1

/-- A wrong use of the program. -/
def misuse : Nat := 2

/-- A run that did not end as runs should. -/
def crash : Nat := 101

end Ending

/-- A session with the standard library. -/
def freshSession (world : World) : Except SessionError (Session World) :=
  (Session.new {} world).register Library.standard

namespace Prompt

/-- What stands before each line of the input. -/
def prompt : String := "gs> "

/-- What the shell starts with. -/
def greeting : String :=
  "gscript " ++ version ++ " - capability-bounded scripting\n" ++
    "Type exit to exit, help for help\n\n"

/-- What the shell ends with. -/
def farewell : String := "Goodbye!\n"

/-- What the shell says of itself. -/
def help : String :=
  "Shell Commands:\n" ++
    "  exit, quit   Exit the shell\n" ++
    "  clear        Start over with a fresh runtime\n" ++
    "  builtins     List the available builtins\n" ++
    "  help         Show this help\n\n" ++
    "Language Examples:\n" ++
    "  let name = \"agent\"\n" ++
    "  var count = 0\n" ++
    "  count = count + 1\n" ++
    "  MD5(\"helloworld\")\n" ++
    "  fn Deploy() \x7b return Exec(\"uname\", [\"-a\"]).success \x7d\n"

/-- The builtins with the shapes of their parameters. -/
def signatures : String :=
  String.join (Library.standard.builtins.map fun b => "  " ++ b.signature ++ "\n")

/-- The lines of an input. What follows the last line feed is a line unless it is empty. -/
def lines (input : List UInt8) : List (List UInt8) :=
  let (done, last) := input.foldl (fun (done, line) byte =>
    if byte = 10 then (line.reverse :: done, []) else (done, byte :: line)) ([], [])
  (if last = [] then done else last.reverse :: done).reverse

/-- What goes on after a line. -/
inductive Next
  | go (session : Session World)
  | leave (code : Nat) (session : Session World)

/-- Runs a line as a script. Its result is shown unless it is nil. -/
def runLine (line : String) (s : Session World) : String × Next :=
  let (result, s) := s.eval line Machine.plenty
  let printed := s.machine.output
  let s := { s with machine := { s.machine with output := "" } }
  match result with
  | .ok .nil => (printed, .go s)
  | .ok value => (printed ++ "=> " ++ value.display ++ "\n", .go s)
  | .error .stuck | .error .unfinished => (printed, .leave Ending.crash s)
  | .error _ => (printed, .go s)

/-- Starts over on the same host. -/
def clear (s : Session World) : String × Next :=
  match freshSession s.machine.world with
  | .ok fresh => ("State cleared.\n", .go fresh)
  | .error _ => ("", .leave Ending.failure s)

/-- Answers a line without white space around it. -/
def answer (line : String) (s : Session World) : String × Next :=
  if line = "" then ("", .go s)
  else if line = "exit" ∨ line = "quit" then (farewell, .leave Ending.success s)
  else if line = "help" then (help, .go s)
  else if line = "builtins" then (signatures, .go s)
  else if line = "clear" then clear s
  else runLine line s

/-- **Goes through the lines of an input** behind what has been printed. A line that is no text ends
the shell without a farewell. -/
def interact : (input : List (List UInt8)) → (out : String) → Session World → Ending
  | [], out, s => {
      code := Ending.success
      stdout := Text.encode (out ++ prompt ++ farewell)
      world := s.machine.world }
  | line :: rest, out, s =>
    match Text.decode? ⟨line.toArray⟩ with
    | none => {
        code := Ending.success
        stdout := Text.encode (out ++ prompt)
        world := s.machine.world }
    | some text =>
      let (said, next) := answer (Text.trim text) s
      let out := out ++ prompt ++ said
      match next with
      | .go s => interact rest out s
      | .leave code s => { code, stdout := Text.encode out, world := s.machine.world }

/-- The shell, from its greeting on. -/
def run (stdin : List UInt8) (world : World) : Ending :=
  match freshSession world with
  | .ok s => interact (lines stdin) greeting s
  | .error _ => { code := Ending.failure, stdout := Text.encode greeting, world }

end Prompt

end DeployScript.CommandLine
