import DeployScript.Files.Path

/-!
# Packaging jobs

A job says which script becomes a package, under which name, with which resources, where the package
goes, and where it gets the runtime from.

* `Job.ofScript` is the job for a script where nothing else is said.
-/

namespace DeployScript

/-- The version of the engine. -/
def version : String := "0.2.0"

/-- Where a package gets the runtime from: a version in the registry, or a directory. -/
inductive RuntimeSource
  | registry (version : String)
  | path (path : String)
  deriving Repr, DecidableEq, Inhabited

/-- What is to be packaged. -/
structure Job where
  script : String
  name : String
  output : String
  resources : List String
  runtime : RuntimeSource
  deriving Repr, DecidableEq, Inhabited

namespace Job

/-- **The job for a script:** a package with the name of the script, next to it, without
resources. -/
def ofScript (script : String) : Job :=
  let name := (Path.fileStem? script).getD "artifact"
  { script
    name
    output := Path.withFileName script (name ++ "-build")
    resources := []
    runtime := .registry version }

end Job

end DeployScript
