import DeployScript.Code.Compile
import DeployScript.Program.Mentions

/-!
# Scripts

A script is a source that has passed every check that needs no run: it has a program, and the
program has code.
-/

namespace DeployScript

/-- A checked source with its program and its code. -/
structure Script where
  source : String
  program : Program
  compiled : Compiled
  deriving Inhabited

namespace Script

/-- **Checks a source.** Errors show the line of the source that they are about. -/
def ofSource (source : String) : Except ScriptError Script :=
  let checked : Except ScriptError Script := do
    let program ← Program.ofSource source
    let compiled ← Compiled.ofProgram program
    return { source, program, compiled }
  checked.mapError (·.withSource source)

end Script

end DeployScript
