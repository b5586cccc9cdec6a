/-!
# The grammar of the command line

The commands with their options, as data. `Arguments` reads command lines by this table and `Help`
prints it, so that both agree.

* `Switch` is an option, `CommandForm` a command.
* `programForm` is the program itself, `commandForms` lists its commands.
-/

namespace DeployScript.CommandLine

/-- What the value of an option is. A path is not empty, and of several paths each option gives
one. -/
inductive ValueKind
  | text | path | paths
  deriving Repr, DecidableEq, Inhabited

/-- What an option does. -/
inductive Effect
  | flag
  | value (name : String) (kind : ValueKind)
  | help
  | version
  deriving Repr, DecidableEq, Inhabited

/-- An option. -/
structure Switch where
  long : String
  short : Option Char
  effect : Effect
  about : String
  deriving Repr, DecidableEq, Inhabited

/-- A command. The options are in the order in which they are shown. -/
structure CommandForm where
  name : String
  otherName : Option String
  about : String
  operand : Option String
  switches : List Switch
  deriving Repr, DecidableEq, Inhabited

/-! ### Options of all commands -/

/-- Shows more of what goes on. -/
def debugSwitch : Switch :=
  { long := "debug", short := some 'd', effect := .flag, about := "Log debug output" }

/-- Shows less of what goes on. -/
def quietSwitch : Switch :=
  { long := "quiet", short := some 'q', effect := .flag, about := "Log errors only" }

/-- Shows how a command is used. -/
def helpSwitch : Switch :=
  { long := "help", short := some 'h', effect := .help, about := "Print help" }

/-- Shows which version of the program this is. -/
def versionSwitch : Switch :=
  { long := "version", short := some 'V', effect := .version, about := "Print version" }

/-! ### Commands -/

/-- Checks a script. -/
def testForm : CommandForm :=
  { name := "test"
    otherName := some "t"
    about := "Check a script for syntax errors without running it"
    operand := some "FILE"
    switches := [
      debugSwitch,
      { long := "linter", short := none, effect := .value "LINTER" .text
        about := "External linter run on the file first" },
      quietSwitch,
      helpSwitch] }

/-- Runs what is typed in, line by line. -/
def shellForm : CommandForm :=
  { name := "shell"
    otherName := some "s"
    about := "Start an interactive shell"
    operand := none
    switches := [debugSwitch, quietSwitch, helpSwitch] }

/-- Makes a package of a script. -/
def compileForm : CommandForm :=
  { name := "compile"
    otherName := some "c"
    about := "Package a script and its resources into a Cargo project"
    operand := some "FILE"
    switches := [
      debugSwitch,
      { long := "name", short := none, effect := .value "NAME" .text
        about := "Artifact name (defaults to the script's file stem)" },
      { long := "output", short := some 'o', effect := .value "OUTPUT" .path
        about := "Output directory; must not exist yet" },
      quietSwitch,
      { long := "asset", short := none, effect := .value "ASSETS" .paths
        about := "Resource file to embed; repeatable" },
      { long := "manifest", short := none, effect := .value "MANIFEST" .path
        about := "TOML manifest with packaging options" },
      { long := "runtime-path", short := none, effect := .value "RUNTIME_PATH" .path
        about := "Depend on a local gscript checkout instead of the registry" },
      { long := "build", short := none, effect := .flag
        about := "Run `cargo build --release` in the generated project" },
      helpSwitch] }

/-- Runs a script and its hooks. -/
def runForm : CommandForm :=
  { name := "run"
    otherName := some "r"
    about := "Execute a script and its deploy hooks"
    operand := some "FILE"
    switches := [debugSwitch, quietSwitch, helpSwitch] }

/-- Shows how the program or a command is used. -/
def helpForm : CommandForm :=
  { name := "help"
    otherName := none
    about := "Print this message or the help of the given subcommand(s)"
    operand := some "COMMAND"
    switches := [] }

/-- The commands in the order in which they are shown. -/
def commandForms : List CommandForm := [testForm, shellForm, compileForm, runForm, helpForm]

/-- The program, whose operand is a command. -/
def programForm : CommandForm :=
  { name := "gscript"
    otherName := none
    about := "A capability-bounded scripting engine"
    operand := some "COMMAND"
    switches := [debugSwitch, quietSwitch, helpSwitch, versionSwitch] }

/-- The command of a name. Most commands have two. -/
def findCommand? (name : String) : Option CommandForm :=
  commandForms.find? fun c => c.name = name ∨ c.otherName = some name

end DeployScript.CommandLine
