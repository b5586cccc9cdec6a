import DeployScript.Files.Path
import DeployScript.Files.System

/-!
# Making directories

`System.makeDirectories` makes a directory with all that are missing above it. What it has made
before it fails stays, so the answer has the tree in either case.
-/

namespace DeployScript

namespace System

/-- What comes of making a directory where one may be already. -/
def settled (system : System) (path : String) : Except FileError Unit × Files → Except FileError Unit × Files
  | (.ok (), files) => (.ok (), files)
  | (.error e, files) => (if system.isDirectory files path then .ok () else .error e, files)

/-- Makes a directory with those above it, at most `fuel` of them. -/
def makeDirectoriesWithin (system : System) : (fuel : Nat) → Files → (path : String) →
    Except FileError Unit × Files
  | 0, files, _ => (.error .noWholeTree, files)
  | fuel + 1, files, path =>
    if path = "" then (.ok (), files)
    else
      match system.makeDirectory files path with
      | (.error .noEntry, files) =>
        match Path.parent? path with
        | none => (.error .noWholeTree, files)
        | some parent =>
          match makeDirectoriesWithin system fuel files parent with
          | (.ok (), files) => system.settled path (system.makeDirectory files path)
          | (.error e, files) => (.error e, files)
      | result => system.settled path result

/-- **Makes a directory with those above it.** A path has fewer names than bytes. -/
def makeDirectories (system : System) (files : Files) (path : String) : Except FileError Unit × Files :=
  system.makeDirectoriesWithin (path.utf8ByteSize + 1) files path

end System

/-- **Makes a directory with those above it,** where nothing is refused. -/
def Files.makeDirectories (files : Files) (path : String) : Except FileError Unit × Files :=
  System.willing.makeDirectories files path

end DeployScript
