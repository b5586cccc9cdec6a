import DeployScript.Files.Tree
import DeployScript.Package.Job
import DeployScript.Toml.Reader

/-!
# Manifests

A manifest is a TOML document that says how a script is packaged, so that packaging it can be
repeated.

* `Manifest.ofText?` reads a manifest, `Manifest.load` reads it from a file.
* `Manifest.apply` changes a job as the manifest says.
-/

namespace DeployScript

/-- What a manifest says of a job. -/
structure Manifest where
  name : Option String
  output : Option String
  assets : List String
  runtimePath : Option String
  deriving Repr, DecidableEq, Inhabited

/-- Why a manifest cannot be used. -/
inductive ManifestError
  | unreadable (path : String) (error : FileError)
  | invalid
  deriving Repr, DecidableEq, Inhabited

/-- The reason in words. -/
def ManifestError.message : ManifestError → String
  | unreadable path e => "cannot read manifest " ++ path ++ ": " ++ e.message
  | invalid => "invalid manifest"

namespace Manifest

/-- A manifest that says nothing. -/
def empty : Manifest := { name := none, output := none, assets := [], runtimePath := none }

/-- Adds what one entry says. There are four keys. -/
def withEntry? (m : Manifest) : String × Toml.Value → Option Manifest
  | ("name", .text name) => some { m with name }
  | ("output", .text output) => some { m with output }
  | ("assets", .texts assets) => some { m with assets }
  | ("runtime_path", .text runtimePath) => some { m with runtimePath }
  | _ => none

/-- **Reads a manifest.** -/
def ofText? (text : String) : Option Manifest := do
  (← Toml.read? text).foldlM withEntry? empty

/-- Reads a manifest from a file. -/
def load (files : Files) (path : String) : Except ManifestError Manifest :=
  match files.readText path with
  | .error e => .error (.unreadable path e)
  | .ok text =>
    match ofText? text with
    | none => .error .invalid
    | some m => .ok m

/-- **Changes a job.** Relative paths start from the directory `base`, and the assets come behind
the resources that the job has. -/
def apply (m : Manifest) (job : Job) (base : String) : Job :=
  { job with
    name := m.name.getD job.name
    output := (m.output.map (Path.join base)).getD job.output
    resources := job.resources ++ m.assets.map (Path.join base)
    runtime := (m.runtimePath.map fun path => .path (Path.join base path)).getD job.runtime }

end Manifest

end DeployScript
