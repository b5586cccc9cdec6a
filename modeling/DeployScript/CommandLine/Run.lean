import DeployScript.CommandLine.Arguments
import DeployScript.CommandLine.Prompt
import DeployScript.Package.Build
import DeployScript.Package.Manifest
import DeployScript.Session.Plan

/-!
# Commands

What each command of the program does on a host. What the program reports beside its output is not
part of this.

* `Command.perform` carries out a command.
* `respond` is the program: how it ends on its arguments and its input.
-/

namespace DeployScript.CommandLine

/-- An ending without output. -/
def silent (code : Nat) (world : World) : Ending := { code, stdout := [], world }

/-- The code of a result. -/
def codeOf {α : Type} : Except SessionError α → Nat
  | .ok _ => Ending.success
  | .error .stuck | .error .unfinished => Ending.crash
  | .error _ => Ending.failure

/-! ### Checking -/

/-- Checks a source. -/
def check (source : String) : Nat :=
  match Script.ofSource source with
  | .ok _ => Ending.success
  | .error _ => Ending.failure

/-- Checks a script, after a linter has accepted it. The linter's output is shown. -/
def runTest (file : String) (linter : Option String) (stdin : List UInt8) (world : World) :
    Ending :=
  match world.files.readText file with
  | .error _ => silent Ending.failure world
  | .ok source =>
    match linter with
    | none => silent (check source) world
    | some program =>
      match Executable.launch program [file] stdin world.files with
      | .error _ => silent Ending.failure world
      | .ok (ran, files) => {
          code := if ran.status.isSuccess then check source else Ending.failure
          stdout := ran.stdout
          world := { world with files } }

/-! ### Running -/

/-- Runs a source in a session, and then the hooks that it declares. -/
def deploy (source : String) (s : Session World) : Nat × Session World :=
  match s.eval source Machine.plenty with
  | (.error e, s) => (codeOf (.error e : Except SessionError Unit), s)
  | (.ok _, s) =>
    match Plan.discover s with
    | .error e => (codeOf (.error e : Except SessionError Unit), s)
    | .ok plan =>
      let (result, s) := plan.execute s Machine.plenty
      (codeOf result, s)

/-- Runs a script and its hooks. -/
def runScript (file : String) (world : World) : Ending :=
  match world.files.readText file, freshSession world with
  | .ok source, .ok s =>
    let (code, s) := deploy source s
    { code, stdout := Text.encode s.machine.output, world := s.machine.world }
  | _, _ => silent Ending.failure world

/-! ### Packaging -/

/-- The job for a script: what its manifest says, which the options override. -/
def CompileOptions.job (options : CompileOptions) (file : String) (files : Files) :
    Except ManifestError Job := do
  let job := Job.ofScript file
  let job ← match options.manifest with
    | none => pure job
    | some path =>
      let base := (Path.parent? path).getD ""
      pure ((← Manifest.load files path).apply job base)
  return { job with
    name := options.name.getD job.name
    output := options.output.getD job.output
    resources := job.resources ++ options.assets
    runtime := (options.runtimePath.map RuntimeSource.path).getD job.runtime }

/-- Builds the program of a package, and says where it is. -/
def buildProgram (job : Job) (name : String) (files : Files) : Nat × String × Files :=
  match job.runToolchain "cargo" ["build", "--release"] files with
  | (.ok (), files) =>
    let path := ["target", "release", name].foldl Path.join job.output
    (Ending.success, "built " ++ path ++ "\n", files)
  | (.error _, files) => (Ending.failure, "", files)

/-- Makes a package of a script. -/
def runCompile (file : String) (options : CompileOptions) (world : World) : Ending :=
  match options.job file world.files with
  | .error _ => silent Ending.failure world
  | .ok job =>
    match job.build world.files with
    | (.error _, files) => silent Ending.failure { world with files }
    | (.ok p, files) =>
      let generated := "generated " ++ job.output ++ "\n"
      if options.build then
        let (code, said, files) := buildProgram job p.name files
        { code, stdout := Text.encode (generated ++ said), world := { world with files } }
      else
        { code := Ending.success, stdout := Text.encode generated, world := { world with files } }

/-! ### The program -/

/-- **Carries out a command.** -/
def Command.perform (command : Command) (stdin : List UInt8) (world : World) : Ending :=
  match command with
  | .test file linter => runTest file linter stdin world
  | .shell => Prompt.run stdin world
  | .compile file options => runCompile file options world
  | .run file => runScript file world

/-- What the program says instead of doing anything. -/
def Answer.ending (answer : Answer) (world : World) : Ending :=
  match answer with
  | .help text => { code := Ending.success, stdout := Text.encode text, world }
  | .version =>
    { code := Ending.success
      stdout := Text.encode (programForm.name ++ " " ++ DeployScript.version ++ "\n")
      world }
  | .refusal => silent Ending.misuse world

/-- **The program:** how it ends on its arguments and its input. -/
def respond (args : List String) (stdin : List UInt8) (world : World) : Ending :=
  match Invocation.ofArgs args with
  | .error answer => answer.ending world
  | .ok invocation => invocation.command.perform stdin world

end DeployScript.CommandLine
