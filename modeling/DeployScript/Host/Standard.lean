import DeployScript.Files.System
import DeployScript.Host.Builtin
import DeployScript.Host.Digest
import DeployScript.Host.Replace
import DeployScript.Host.Shell

/-!
# The standard host

A host with files, executables and a clock, and the library that it offers to scripts.

* `Executable.launch` starts an executable by name.
* `ExecResponse` is what a script learns of a run.
* `Surroundings` are the system, the programs and the code of others that the builtins turn to. Nothing is
  said of what they do.
* `Library.standard` lists the builtins. What goes wrong on the host is a value for the script:
  false, no bytes, or a response without success.
-/

namespace DeployScript

/-- The state of the host: its files, and the seconds on its clock. -/
structure World where
  files : Files
  clock : Nat
  deriving Inhabited

/-! ### Executables -/

/-- Why an executable cannot be started. -/
inductive LaunchError
  | file (error : FileError)
  | nulInArgument
  deriving Repr, DecidableEq, Inhabited

/-- The reason in words. -/
def LaunchError.message : LaunchError → String
  | file e => e.message
  | nulInArgument => "nul byte found in provided data"

namespace Executable

/-- The executables by name. Shells start shells only so deep. -/
def find? : (depth : Nat) → Shell.Find
  | 0, name => simple? name
  | depth + 1, name =>
    if name = "sh" then some (Shell.run (find? depth)) else simple? name

/-- Deepest nesting of shells. -/
def maxShells : Nat := 16

/-- Where executables are. -/
def directories : List String := ["/bin", "/usr/bin"]

/-- The executable of a name or a path. No file of a script is one. -/
def resolve (files : Files) (name : String) : Except FileError Executable := do
  if name.toList.contains '/' then
    let known := directories.contains ((Path.parent? name).getD "")
    match known, find? maxShells ((Path.fileName? name).getD "") with
    | true, some executable => return executable
    | _, _ =>
      match (← files.locate name).entry with
      | some _ => throw .accessDenied
      | none => throw .noEntry
  else
    match find? maxShells name with
    | some executable => return executable
    | none => throw .noEntry

/-- **Runs an executable** to its end. -/
def launch (name : String) (args : List String) (stdin : List UInt8) (files : Files) :
    Except LaunchError (Ran × Files) :=
  if (name :: args).any (·.toList.contains '\x00') then .error .nulInArgument
  else
    match resolve files name with
    | .error e => .error (.file e)
    | .ok executable => .ok (executable args stdin files)

end Executable

/-- A way to start a program with arguments and an input, and to let it run to its end. -/
abbrev Launch := (name : String) → (args : List String) → (stdin : List UInt8) → Files →
  Except LaunchError (Ran × Files)

/-! ### Responses -/

/-- What a script learns of the run of an executable. -/
structure ExecResponse where
  stdout : String
  stderr : String
  success : Bool
  code : Int
  deriving Repr, DecidableEq, Inhabited

namespace ExecResponse

/-- The response as a record. -/
def toHost (r : ExecResponse) : HostValue :=
  .ofFields [("stdout", .text r.stdout), ("stderr", .text r.stderr), ("success", .bool r.success),
    ("code", .number (Number.ofInt r.code))]

/-- An integer in 32 bits. -/
def inRange? (code : Int) : Option Int :=
  if -2147483648 ≤ code ∧ code ≤ 2147483647 then some code else none

/-- The response that a record holds. -/
def ofHost? (v : HostValue) : Option ExecResponse := do
  let stdout ← (← v.get? "stdout").asText?
  let stderr ← (← v.get? "stderr").asText?
  let success ← (← v.get? "success").asBool?
  let code ← inRange? (← (← v.get? "code").toInteger?)
  return { stdout, stderr, success, code }

/-- The text that bytes of output are. -/
def textOf (bytes : List UInt8) : String := Text.decode ⟨bytes.toArray⟩

/-- The response to a run that has ended. -/
def ofRan (ran : Ran) : ExecResponse :=
  { stdout := textOf ran.stdout
    stderr := textOf ran.stderr
    success := ran.status.isSuccess
    code := (ran.status.code?.map Int.ofNat).getD (-1) }

/-- The response where there was no run. -/
def ofError (e : LaunchError) : ExecResponse :=
  { stdout := "", stderr := e.message, success := false, code := -1 }

end ExecResponse

/-! ### Builtins -/

/-- **What the builtins turn to:** the system, the digest of bytes, what is fetched from an address or the
reason why nothing is, and the way programs are started. -/
structure Surroundings where
  system : System := .willing
  digest : Array UInt8 → String := Digest.md5
  fetch : (url : String) → World → Except String (List UInt8) := fun _ _ => .error "no network"
  launch : Launch := Executable.launch

namespace Builtin

/-- What a builtin does with the arguments of its shapes; there are no others. -/
abbrev Act := CallContext → List Arg → World → Option (HostValue × World)

/-- A builtin. -/
def of (name : String) (params : List Shape) (act : Act) : Builtin World :=
  { name
    params
    run := fun context args world =>
      match act context args world with
      | some (value, world) => (.ok value, world)
      | none => (.error (.failure (.undeclaredArguments name)), world) }

/-- Whether an operation on the files has succeeded, and the files that it leaves. -/
def report (world : World) (operation : Except FileError Unit × Files) : HostValue × World :=
  (.bool operation.1.isOk, { world with files := operation.2 })

/-- The digest of a text. -/
def md5 (s : Surroundings := {}) : Builtin World := of "MD5" [.text] fun _ args world =>
  match args with
  | [.text data] => some (.text (s.digest data.toUTF8.data), world)
  | _ => none

/-- Copies a file. All of it is read before anything is written, so that a copy onto itself keeps
it. -/
def copyFile (s : Surroundings := {}) : Builtin World :=
  of "CopyFile" [.text, .text] fun _ args world =>
    match args with
    | [.text source, .text target] =>
      some (report world (s.system.readThen world.files source (s.system.write world.files target)))
    | _ => none

/-- Appends bytes to a file. -/
def appendFile (s : Surroundings := {}) : Builtin World :=
  of "AppendFile" [.text, .bytes] fun _ args world =>
    match args with
    | [.text path, .bytes data] => some (report world (s.system.append world.files path data))
    | _ => none

/-- Writes a file. -/
def writeFile (s : Surroundings := {}) : Builtin World :=
  of "WriteFile" [.text, .bytes] fun _ args world =>
    match args with
    | [.text path, .bytes data] => some (report world (s.system.write world.files path data))
    | _ => none

/-- The bytes of a file. -/
def readFile (s : Surroundings := {}) : Builtin World := of "ReadFile" [.text] fun _ args world =>
  match args with
  | [.text path] => some (.bytes ((s.system.read world.files path).toOption.getD []), world)
  | _ => none

/-- Replaces every occurrence of a text in a file. -/
def replaceInFile (s : Surroundings := {}) : Builtin World :=
  of "ReplaceInFile" [.text, .text, .text] fun _ args world =>
    match args with
    | [.text path, .text old, .text new] =>
      some (report world (s.system.readThen world.files path fun bytes =>
        s.system.write world.files path (replaceAll (Text.encode old) (Text.encode new) bytes)))
    | _ => none

/-- Removes a file. -/
def deleteFile (s : Surroundings := {}) : Builtin World :=
  of "DeleteFile" [.text] fun _ args world =>
    match args with
    | [.text path] => some (report world (s.system.delete world.files path))
    | _ => none

/-- The bytes at an address. -/
def retrieveFileFromURL (s : Surroundings := {}) : Builtin World :=
  of "RetrieveFileFromURL" [.text] fun _ args world =>
    match args with
    | [.text url] => some (.bytes ((s.fetch url world).toOption.getD []), world)
    | _ => none

/-- The seconds on the clock. -/
def timestamp : Builtin World := of "Timestamp" [] fun _ _ world =>
  some (.number (Float.ofNat world.clock), world)

/-- Runs an executable without input. -/
def exec (s : Surroundings := {}) : Builtin World := of "Exec" [.text, .texts] fun _ args world =>
  match args with
  | [.text name, .texts args] =>
    match s.launch name args [] world.files with
    | .ok (ran, files) => some ((ExecResponse.ofRan ran).toHost, { world with files })
    | .error e => some ((ExecResponse.ofError e).toHost, world)
  | _ => none

/-- Whether there is a processor. -/
def cpuStats : Builtin World := of "CPUStats" [] fun _ _ world => some (.bool true, world)

/-- The name of the function that makes the call. -/
def calledBy : Builtin World := of "CalledBy" [] fun context _ world =>
  some (.text context.caller, world)

/-- The bytes of a resource. -/
def asset : Builtin World := of "Asset" [.text] fun context args world =>
  match args with
  | [.text name] => some (.bytes (context.assets[name]?.getD []), world)
  | _ => none

/-- Notes a message. -/
def logInfo : Builtin World := of "LogInfo" [.text] fun _ args world =>
  match args with
  | [.text _] => some (.bool true, world)
  | _ => none

/-- Notes a message about an error. -/
def logError : Builtin World := of "LogError" [.text] fun _ args world =>
  match args with
  | [.text _] => some (.bool true, world)
  | _ => none

end Builtin

/-- **The library that every script is offered.** -/
def Library.standard (s : Surroundings := {}) : Library World :=
  { builtins :=
    [.md5 s, .copyFile s, .appendFile s, .writeFile s, .readFile s, .replaceInFile s, .deleteFile s,
      .retrieveFileFromURL s, .timestamp, .exec s, .cpuStats, .calledBy, .asset, .logInfo,
      .logError] }

end DeployScript
