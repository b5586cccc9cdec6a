/-!
# Paths

Paths as text: names with slashes between them. Repeated slashes and a name `.` count for nothing,
except for one at the very beginning. None of the operations looks at files.

* `Path.parent?` and `Path.fileName?` take a path apart, `Path.join` puts two together.
* `Path.fileStem?` is the name without its extension.
-/

namespace DeployScript.Path

/-- Whether the path starts at the root. -/
def isAbsolute (path : String) : Bool := path.toList.head? == some '/'

/-- Whether the path ends in a slash. -/
def endsInSlash (path : String) : Bool := path.toList.getLast? == some '/'

/-- What stands before, between and behind slashes. -/
def parts (cs : List Char) : List String := (cs.splitOn '/').map String.ofList

/-- A path with and without the slash of the root: that slash, and the names behind it, as they
are written. -/
def names (path : String) : String × List String :=
  match path.toList with
  | '/' :: cs => ("/", parts cs)
  | cs => ("", parts cs)

/-- Drops names at the end that count for nothing, from names in reverse order. -/
def trimReversed (root : String) : List String → List String
  | [] => []
  | name :: before =>
    if name = "" then trimReversed root before
    else if name = "." ∧ ¬(root = "" ∧ before = []) then trimReversed root before
    else name :: before

/-- The names of a path up to the last one that counts, in reverse order. -/
def namesReversed (path : String) : String × List String :=
  let (root, names) := names path
  (root, trimReversed root names.reverse)

/-- The path without its last name. -/
def parent? (path : String) : Option String :=
  match namesReversed path with
  | (_, []) => none
  | (root, _ :: before) => some (root ++ "/".intercalate (trimReversed root before).reverse)

/-- The last name, if it is a name of its own. -/
def fileName? (path : String) : Option String :=
  match (namesReversed path).2 with
  | [] | "." :: _ | ".." :: _ => none
  | name :: _ => some name

/-- The last name up to its last dot. A dot at its beginning does not count. -/
def fileStem? (path : String) : Option String :=
  (fileName? path).map fun name =>
    let parts := name.splitOn "."
    let stem := ".".intercalate parts.dropLast
    if stem = "" then name else stem

/-- One path behind another. An absolute path stands for itself. -/
def join (path other : String) : String :=
  if isAbsolute other then other
  else if path = "" || endsInSlash path then path ++ other
  else path ++ "/" ++ other

/-- The path with another last name. -/
def withFileName (path name : String) : String :=
  match fileName? path with
  | some _ => join ((parent? path).getD "") name
  | none => join path name

end DeployScript.Path
