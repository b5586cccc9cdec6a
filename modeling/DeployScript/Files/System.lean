import DeployScript.Files.Tree

/-!
# What a system lets pass

A tree says what an operation does to it. Whether the operation comes to that is up to the system: it may
refuse a request for reasons that the path does not show, such as permissions, quotas, or a disk that is
full or broken, and it may stop a write when a part of it is done.

* `FileRequest` is what a system is asked for, `Verdict` what it makes of it.
* `System.exists?`, `read`, `write`, `makeDirectory`, `rename` and the like are the operations under a
  system. The tree that they leave is given in either case.
-/

namespace DeployScript

/-- What a program asks of the system. -/
inductive FileRequest
  | look (path : String)
  | read (path : String)
  | write (path : String) (bytes : List UInt8)
  | append (path : String) (bytes : List UInt8)
  | delete (path : String)
  | makeDirectory (path : String)
  | rename (source target : String)
  deriving Repr, DecidableEq, Inhabited

/-- What the system makes of a request. A write that is cut short has put some bytes in the file. -/
inductive Verdict
  | granted
  | refused (error : FileError)
  | cutShort (length : Nat) (error : FileError)
  deriving Repr, DecidableEq, Inhabited

/-- **A system:** what it makes of each request, on the tree as it is then. -/
abbrev System := FileRequest → Files → Verdict

/-- An operation that changes nothing if it fails. -/
def atomic (files : Files) (result : Except FileError Files) : Except FileError Unit × Files :=
  match result with
  | .ok files => (.ok (), files)
  | .error e => (.error e, files)

namespace System

/-- A system that refuses nothing. -/
def willing : System := fun _ _ => .granted

/-- The answer to a request, if the system lets it pass. -/
def answer {α : Type} (system : System) (request : FileRequest) (files : Files) (result : Except FileError α) :
    Except FileError α :=
  match system request files with
  | .granted => result
  | .refused e | .cutShort _ e => .error e

/-- A change of the bytes of a file. Where it is cut short, part of what was to be written is there. -/
def change (system : System) (request : FileRequest) (files : Files) (bytes : List UInt8)
    (result : List UInt8 → Except FileError Files) : Except FileError Unit × Files :=
  match system request files with
  | .granted => atomic files (result bytes)
  | .refused e => (.error e, files)
  | .cutShort length e =>
    match result (bytes.take length) with
    | .ok files => (.error e, files)
    | .error e => (.error e, files)

/-- Whether a path leads to an entry. Where the system does not say, it does not seem so. -/
def exists? (system : System) (files : Files) (path : String) : Bool :=
  system (.look path) files = .granted && files.exists? path

/-- Whether a path leads to a directory, so far as the system says. -/
def isDirectory (system : System) (files : Files) (path : String) : Bool :=
  system (.look path) files = .granted && files.isDirectory path

/-- The bytes of a file. -/
def read (system : System) (files : Files) (path : String) : Except FileError (List UInt8) :=
  system.answer (.read path) files (files.read path)

/-- The text of a file. -/
def readText (system : System) (files : Files) (path : String) : Except FileError String :=
  system.answer (.read path) files (files.readText path)

/-- Writes a file. -/
def write (system : System) (files : Files) (path : String) (bytes : List UInt8) :
    Except FileError Unit × Files :=
  system.change (.write path bytes) files bytes (files.write path)

/-- Hands the bytes of a file on to an operation. -/
def readThen (system : System) (files : Files) (path : String)
    (operation : List UInt8 → Except FileError Unit × Files) : Except FileError Unit × Files :=
  match system.read files path with
  | .ok bytes => operation bytes
  | .error e => (.error e, files)

/-- Appends to a file. -/
def append (system : System) (files : Files) (path : String) (bytes : List UInt8) :
    Except FileError Unit × Files :=
  system.change (.append path bytes) files bytes (files.append path)

/-- Removes a file. -/
def delete (system : System) (files : Files) (path : String) : Except FileError Unit × Files :=
  atomic files (system.answer (.delete path) files (files.delete path))

/-- Makes a directory in an existing one. -/
def makeDirectory (system : System) (files : Files) (path : String) : Except FileError Unit × Files :=
  atomic files (system.answer (.makeDirectory path) files (files.makeDirectory path))

/-- Moves a directory. -/
def rename (system : System) (files : Files) (source target : String) : Except FileError Unit × Files :=
  atomic files (system.answer (.rename source target) files (files.rename source target))

end System

end DeployScript
