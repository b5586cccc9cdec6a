import DeployScript.Files.Path
import DeployScript.Files.Tree

/-!
# Staging directories

A directory that something is put together in, and that is gone when it is done with. How its name is
drawn, and how the directory is removed, is left to whoever provides it.

* `Staging` makes such directories and drops them.
* `Staging.numbered` draws numbers.
-/

namespace DeployScript

/-- **A provider of staging directories.** `make` makes a directory in another one, with a name that starts
as it is told, and gives its path; `drop` is called when the directory is done with, whether it is still
there or not. -/
structure Staging where
  make : (beginning directory : String) → Files → Except FileError String × Files
  drop : (path : String) → Files → Files

namespace Staging

/-- The path of a directory with a number of six or more digits in its name. -/
def numberedPath (beginning directory : String) (n : Nat) : String :=
  Path.join directory (beginning ++ toString (100000 + n))

/-- **Names with numbers:** the first that leads nowhere. Each name that is taken is that of an entry, so
there are enough candidates. -/
def numbered : Staging where
  make beginning directory files :=
    let free := (List.range (files.entries.size + 1)).find? fun n =>
      !files.exists? (numberedPath beginning directory n)
    let path := numberedPath beginning directory (free.getD 0)
    match files.makeDirectory path with
    | .ok files => (.ok path, files)
    | .error e => (.error e, files)
  drop path files :=
    match files.locate path with
    | .ok { place, entry := some _ } => files.removeAll place
    | _ => files

end Staging

end DeployScript
