import DeployScript.Files.Directory
import DeployScript.Host.Standard
import DeployScript.Package.Basic
import DeployScript.Package.CrateName
import DeployScript.Package.Staging
import DeployScript.Program.Script
import DeployScript.Toml.Text

/-!
# Building packages

`Job.build` reads everything that a job names, puts the package together in a staging directory next
to its place, and moves it there once it is complete. `Job.runToolchain` runs a program in a package
that has been built.

* `PackageError` says why a job fails.
* `Tools` are what a package is built with: a system, which may refuse any operation, a provider of staging
  directories, and a way to write strings.
* `Job.package` reads; it changes no files.
* `Package.install` writes. The staging directory is dropped in the end.
-/

namespace DeployScript

/-- A step of writing a package. -/
inductive BuildStep
  | makeDirectory (path : String)
  | stageIn (directory : String)
  | write (path : String)
  | moveTo (path : String)
  deriving Repr, DecidableEq, Inhabited

/-- What cannot be done if the step fails. -/
def BuildStep.text : BuildStep → String
  | makeDirectory path => "create " ++ path
  | stageIn directory => "create a staging directory in " ++ directory
  | write path => "write " ++ path
  | moveTo path => "move the package to " ++ path

/-- Why a job fails. -/
inductive PackageError
  | unreadableScript (path : String) (error : FileError)
  | invalidScript (path : String) (error : ScriptError)
  | unreadableResource (path : String) (error : FileError)
  | duplicateAsset (name : String)
  | outputExists (path : String)
  | failedStep (step : BuildStep) (error : FileError)
  | failedToolchain (command detail : String)
  deriving Inhabited

/-- The reason in words. -/
def PackageError.message : PackageError → String
  | unreadableScript path e => "cannot read script " ++ path ++ ": " ++ e.message
  | invalidScript path e => "script " ++ path ++ " is invalid: " ++ e.message
  | unreadableResource path e => "cannot read resource " ++ path ++ ": " ++ e.message
  | duplicateAsset name => "resource name '" ++ name ++ "' is embedded more than once"
  | outputExists path => "output directory " ++ path ++ " already exists"
  | failedStep step e => "cannot " ++ step.text ++ ": " ++ e.message
  | failedToolchain command detail => "toolchain `" ++ command ++ "` failed: " ++ detail

/-- **What packages are built with:** the system, the provider of staging directories, and the way strings
are written in a manifest. -/
structure Tools where
  system : System := .willing
  staging : Staging := .numbered
  quote : String → String := Toml.quote

/-! ### Reading -/

/-- The name of the asset that a resource becomes. -/
def assetName (path : String) : String := (Path.fileName? path).getD path

/-- Reads resources behind those that have been read. Two assets have different names. -/
def readAssets (system : System) (files : Files) : (assets : List Asset) → (paths : List String) →
    Except PackageError (List Asset)
  | assets, [] => .ok assets
  | assets, path :: paths =>
    let name := assetName path
    if assets.any (·.name = name) then .error (.duplicateAsset name)
    else
      match system.read files path with
      | .error e => .error (.unreadableResource path e)
      | .ok bytes => readAssets system files (assets ++ [{ name, bytes }]) paths

/-- **Reads what a job names** and puts it together. -/
def Job.package (job : Job) (system : System) (files : Files) : Except PackageError Package := do
  let source ← (system.readText files job.script).mapError (.unreadableScript job.script)
  let script ← (Script.ofSource source).mapError (.invalidScript job.script)
  let assets ← readAssets system files [] job.resources
  return {
    name := CrateName.ofText job.name
    source
    builtins := Library.standard.mentioned script.program
    assets
    runtime := job.runtime }

/-! ### Writing -/

/-- An operation on the files as a step. -/
def BuildStep.run (step : BuildStep) (operation : Except FileError Unit × Files) :
    Except PackageError Unit × Files :=
  (operation.1.mapError (.failedStep step), operation.2)

/-- Two steps, of which the second needs the first. -/
def andThen (first : Except PackageError Unit × Files)
    (second : Files → Except PackageError Unit × Files) : Except PackageError Unit × Files :=
  match first with
  | (.ok (), files) => second files
  | failed => failed

/-- Makes a directory with those above it. -/
def provideDirectory (system : System) (path : String) (files : Files) :
    Except PackageError Unit × Files :=
  (BuildStep.makeDirectory path).run (system.makeDirectories files path)

/-- Writes a file in a directory that is made if it is missing. -/
def writeFile (system : System) (path : String) (bytes : List UInt8) (files : Files) :
    Except PackageError Unit × Files :=
  andThen (provideDirectory system ((Path.parent? path).getD "") files) fun files =>
    (BuildStep.write path).run (system.write files path bytes)

/-- Writes files below a directory. -/
def writeFiles (system : System) (root : String) : List (String × List UInt8) → Files →
    Except PackageError Unit × Files
  | [], files => (.ok (), files)
  | (path, bytes) :: rest, files =>
    andThen (writeFile system (Path.join root path) bytes files) (writeFiles system root rest)

/-- The directory that holds a path. -/
def directoryOf (path : String) : String :=
  match Path.parent? path with
  | none | some "" => "."
  | some parent => parent

/-- What the name of a staging directory starts with. -/
def stageBeginning : String := ".gscript-stage-"

namespace Package

/-- Fills a directory and moves it. -/
def stage (p : Package) (staging target : String) (tools : Tools) (files : Files) :
    Except PackageError Unit × Files :=
  andThen (writeFiles tools.system staging (p.files tools.quote) files) fun files =>
    (BuildStep.moveTo target).run (tools.system.rename files staging target)

/-- **Writes a package** to a place where there is nothing. The staging directory is dropped in any case:
after the move it is gone, and then that does nothing. -/
def install (p : Package) (target : String) (tools : Tools) (files : Files) :
    Except PackageError Unit × Files :=
  let directory := directoryOf target
  andThen (provideDirectory tools.system directory files) fun files =>
    match tools.staging.make stageBeginning directory files with
    | (.error e, files) => (.error (.failedStep (.stageIn directory) e), files)
    | (.ok staging, files) =>
      let (result, files) := p.stage staging target tools files
      (result, tools.staging.drop staging files)

end Package

namespace Job

/-- **Builds the package of a job.** -/
def build (job : Job) (files : Files) (tools : Tools := {}) : Except PackageError Package × Files :=
  match job.package tools.system files with
  | .error e => (.error e, files)
  | .ok p =>
    if tools.system.exists? files job.output then (.error (.outputExists job.output), files)
    else
      let (result, files) := p.install job.output tools files
      (result.map fun _ => p, files)

/-- The path of the manifest of the package that is built. -/
def manifestPath (job : Job) : String := Path.join job.output Package.manifestFile

/-- The path of the program of the package that is built. -/
def programPath (job : Job) : String := Path.join job.output Package.programFile

/-- What a program says of its failure. -/
def complaint (ran : Ran) : String :=
  let text := Text.trim (Text.decode ⟨ran.stderr.toArray⟩)
  if text = "" then ran.status.text else text

/-- **Runs a program in the package** that has been built. -/
def runToolchain (job : Job) (program : String) (args : List String) (files : Files)
    (launch : Launch := Executable.launch) : Except PackageError Unit × Files :=
  let failed (detail : String) : Except PackageError Unit :=
    .error (.failedToolchain (" ".intercalate (program :: args)) detail)
  match files.locate job.output with
  | .ok { place, entry := some .directory } =>
    match launch program args [] { files with current := place } with
    | .error e => (failed e.message, files)
    | .ok (ran, changed) =>
      (if ran.status.isSuccess then .ok () else failed (complaint ran),
        { changed with current := files.current })
  | .ok { entry := some (.file _), .. } => (failed FileError.notDirectory.message, files)
  | .ok { entry := none, .. } => (failed FileError.noEntry.message, files)
  | .error e => (failed e.message, files)

end Job

end DeployScript
