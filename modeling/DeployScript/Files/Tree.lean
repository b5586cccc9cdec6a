import DeployScript.Files.Path
import Std.Data.TreeMap

/-!
# File trees

Files and directories below a root, and a directory that relative paths start from. There are no links: each
place has one name in one directory, and `..` leads back to it.

* `Files.locate` follows a path: to an entry, or to a place where one could be made.
* `Files.read`, `write`, `append`, `delete`, `makeDirectory` and `rename` say what an operation does
  where the system lets it pass; `FileError` says why one fails.
* `Files.listing` lists everything below the directory that relative paths start from.
-/

namespace DeployScript

/-- Why an operation on files fails: for a reason that its path shows, or for another one. -/
inductive FileError
  | noEntry | accessDenied | busy | exists_ | notDirectory | isDirectory | nameTooLong | notEmpty
  | nulInName | notText | noWholeTree | noSpace
  | other (text : String)
  deriving Repr, DecidableEq, Inhabited

/-- The reason in words. -/
def FileError.message : FileError → String
  | noEntry => "No such file or directory (os error 2)"
  | accessDenied => "Permission denied (os error 13)"
  | busy => "Device or resource busy (os error 16)"
  | exists_ => "File exists (os error 17)"
  | notDirectory => "Not a directory (os error 20)"
  | isDirectory => "Is a directory (os error 21)"
  | nameTooLong => "File name too long (os error 36)"
  | notEmpty => "Directory not empty (os error 39)"
  | nulInName => "file name contained an unexpected NUL byte"
  | notText => "stream did not contain valid UTF-8"
  | noWholeTree => "failed to create whole tree"
  | noSpace => "No space left on device (os error 28)"
  | other text => text

/-- What is at a place of a tree. -/
inductive Entry
  | file (bytes : List UInt8)
  | directory
  deriving DecidableEq, Inhabited

/-- A place in a tree: the names from the root on. -/
abbrev Location := List String

/-- A tree, and the place that relative paths start from. The root is a directory without being
an entry. -/
structure Files where
  entries : Std.TreeMap Location Entry
  current : Location
  deriving Inhabited

namespace Files

/-- A tree with nothing but the directory that relative paths start from and those above it. -/
def empty : Files :=
  { entries := ({} : Std.TreeMap Location Entry).insert ["tmp"] .directory
      |>.insert ["tmp", "work"] .directory
    current := ["tmp", "work"] }

/-- The entry at a place. -/
def at? (files : Files) (place : Location) : Option Entry :=
  if place = [] then some .directory else files.entries[place]?

/-! ### Following paths -/

/-- Most bytes of one name and of a path. -/
def maxName : Nat := 255

@[inherit_doc maxName]
def maxPath : Nat := 4095

/-- What a path leads to: a place with its entry, or a place in an existing directory where there
is none. -/
structure Spot where
  place : Location
  entry : Option Entry

/-- The place of a name in a directory. -/
def placeIn (directory : Location) (name : String) : Except FileError Location :=
  if name = "." then .ok directory
  else if name = ".." then .ok directory.dropLast
  else if maxName < name.utf8ByteSize then .error .nameTooLong
  else .ok (directory ++ [name])

/-- Follows names from a directory. All but the last have to lead to directories. -/
def follow (files : Files) : (directory : Location) → (names : List String) →
    Except FileError Spot
  | directory, [] => .ok { place := directory, entry := files.at? directory }
  | directory, [name] => do
    let place ← placeIn directory name
    return { place, entry := files.at? place }
  | directory, name :: names => do
    let place ← placeIn directory name
    match files.at? place with
    | some .directory => files.follow place names
    | some (.file _) => throw .notDirectory
    | none => throw .noEntry

/-- The names of a path. -/
def namesOf (path : String) : List String := (Path.parts path.toList).filter (· ≠ "")

/-- **Follows a path.** A path that ends in a slash does not lead to a file. -/
def locate (files : Files) (path : String) : Except FileError Spot := do
  if path = "" then throw .noEntry
  if path.toList.contains '\x00' then throw .nulInName
  if maxPath < path.utf8ByteSize then throw .nameTooLong
  let start := if Path.isAbsolute path then [] else files.current
  let spot ← files.follow start (namesOf path)
  match spot.entry with
  | some (.file _) => if Path.endsInSlash path then throw .notDirectory else return spot
  | _ => return spot

/-- Whether a path leads to an entry. -/
def exists? (files : Files) (path : String) : Bool :=
  match files.locate path with
  | .ok spot => spot.entry.isSome
  | .error _ => false

/-- Whether a path leads to a directory. -/
def isDirectory (files : Files) (path : String) : Bool :=
  match files.locate path with
  | .ok { entry := some .directory, .. } => true
  | _ => false

/-- Whether a path leads to a file. -/
def isFile (files : Files) (path : String) : Bool :=
  match files.locate path with
  | .ok { entry := some (.file _), .. } => true
  | _ => false

/-! ### Files -/

/-- The bytes of a file. -/
def read (files : Files) (path : String) : Except FileError (List UInt8) := do
  match (← files.locate path).entry with
  | some (.file bytes) => return bytes
  | some .directory => throw .isDirectory
  | none => throw .noEntry

/-- The text of a file. -/
def readText (files : Files) (path : String) : Except FileError String := do
  match String.fromUTF8? ⟨(← files.read path).toArray⟩ with
  | some text => return text
  | none => throw .notText

/-- Sets an entry. -/
def put (files : Files) (place : Location) (entry : Entry) : Files :=
  { files with entries := files.entries.insert place entry }

/-- Changes the bytes of a file, which is made if there is none. -/
def change (files : Files) (path : String) (f : List UInt8 → List UInt8) :
    Except FileError Files := do
  let spot ← files.locate path
  match spot.entry with
  | some (.file bytes) => return files.put spot.place (.file (f bytes))
  | some .directory => throw .isDirectory
  | none =>
    if Path.endsInSlash path then throw .isDirectory else return files.put spot.place (.file (f []))

/-- Writes a file. -/
def write (files : Files) (path : String) (bytes : List UInt8) : Except FileError Files :=
  files.change path fun _ => bytes

/-- Appends to a file. -/
def append (files : Files) (path : String) (bytes : List UInt8) : Except FileError Files :=
  files.change path (· ++ bytes)

/-- Removes a file. -/
def delete (files : Files) (path : String) : Except FileError Files := do
  let spot ← files.locate path
  match spot.entry with
  | some (.file _) => return { files with entries := files.entries.erase spot.place }
  | some .directory => throw .isDirectory
  | none => throw .noEntry

/-! ### Directories -/

/-- Makes a directory in an existing one. -/
def makeDirectory (files : Files) (path : String) : Except FileError Files := do
  let spot ← files.locate path
  match spot.entry with
  | some _ => throw .exists_
  | none => return files.put spot.place .directory

/-- The places below a place, and what is there. -/
def below (files : Files) (place : Location) : List (Location × Entry) :=
  files.entries.toList.filter fun e => place.length < e.1.length && place.isPrefixOf e.1

/-- Removes an entry with everything below it. -/
def removeAll (files : Files) (place : Location) : Files :=
  { files with entries := files.entries.filter fun p _ => !place.isPrefixOf p }

/-- Moves a directory. The new place may be an empty directory, and nothing happens if it is the old
one. -/
def rename (files : Files) (source target : String) : Except FileError Files := do
  let old ← files.locate source
  let new ← files.locate target
  match (namesOf target).getLast? with
  | some "." | some ".." => throw .busy
  | _ =>
    match old.entry, new.entry with
    | none, _ => throw .noEntry
    | some _, some (.file _) => throw .notDirectory
    | some entry, found =>
      if old.place = new.place then return files
      if found.isSome ∧ files.below new.place ≠ [] then throw .notEmpty
      let moved := (files.below old.place).map fun e =>
        (new.place ++ e.1.drop old.place.length, e.2)
      let rest := (files.removeAll old.place).put new.place entry
      return moved.foldl (fun files e => files.put e.1 e.2) rest

/-! ### Listings -/

/-- What is at a place below `current`, with its path from there. A directory's path ends in a
slash. -/
def listed (files : Files) (e : Location × Entry) : String × Option (List UInt8) :=
  let path := "/".intercalate (e.1.drop files.current.length)
  match e.2 with
  | .file bytes => (path, some bytes)
  | .directory => (path ++ "/", none)

/-- Everything below the directory that relative paths start from, in the order of the paths: the
bytes of each file, and no bytes for a directory. -/
def listing (files : Files) : List (String × Option (List UInt8)) :=
  (Std.TreeMap.ofList ((files.below files.current).map files.listed)).toList

end Files

end DeployScript
