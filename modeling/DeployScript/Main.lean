import DeployScript.CommandLine.Run

/-!
# The program

The command line on real files. What is below the working directory is read, the command is carried
out on it, and what it has changed is written back; other files do not exist for it. The interactive
shell answers line by line.
-/

namespace DeployScript.CommandLine

/-- Reads a file or a directory of the disk. -/
partial def readEntry (entry : IO.FS.DirEntry) (path : String) (files : Files) : IO Files := do
  if ← entry.path.isDir then
    let files := (files.makeDirectories path).2
    let below ← entry.path.readDir
    below.foldlM (fun files e => readEntry e (Path.join path e.fileName) files) files
  else
    let bytes ← IO.FS.readBinFile entry.path
    return ((files.write path bytes.toList).toOption).getD files

/-- Reads what is below the working directory. -/
def readWorld : IO World := do
  let below ← (← IO.currentDir).readDir
  let files ← below.foldlM (fun files e => readEntry e e.fileName files) Files.empty
  return { files, clock := (← IO.monoMsNow) / 1000 }

/-- Writes what differs between two states of the files to the disk. -/
def writeChanges (old new : Files) : IO Unit := do
  for (path, content) in old.listing do
    if content.isSome && !new.isFile path then IO.FS.removeFile path
  for (path, content) in old.listing.reverse do
    if content.isNone && !new.isDirectory path then IO.FS.removeDir path
  for (path, content) in new.listing do
    match content with
    | none => IO.FS.createDirAll path
    | some bytes =>
      if (old.read path).toOption ≠ some bytes then IO.FS.writeBinFile path ⟨bytes.toArray⟩

/-- Prompts for lines and answers them. -/
partial def converse (s : Session World) : IO (Nat × World) := do
  let stdout ← IO.getStdout
  stdout.putStr Prompt.prompt
  stdout.flush
  let line ← (← IO.getStdin).getLine
  if line = "" then
    stdout.putStr Prompt.farewell
    return (Ending.success, s.machine.world)
  let (said, next) := Prompt.answer (Text.trim line) s
  stdout.putStr said
  match next with
  | .go s => converse s
  | .leave code s => return (code, s.machine.world)

/-- Carries out what the arguments ask for. -/
def perform (args : List String) (world : World) : IO (Nat × World) := do
  let stdout ← IO.getStdout
  match Invocation.ofArgs args, freshSession world with
  | .ok { command := .shell, .. }, .ok s =>
    stdout.putStr Prompt.greeting
    converse s
  | _, _ =>
    let ending := respond args [] world
    stdout.write ⟨ending.stdout.toArray⟩
    return (ending.code, ending.world)

/-- The whole program: reads the disk, carries out the command, and writes the disk. -/
def runProgram (args : List String) : IO UInt32 := do
  let world ← readWorld
  let (code, changed) ← perform args world
  writeChanges world.files changed.files
  return UInt32.ofNat code

end DeployScript.CommandLine

/-- The program. -/
def main (args : List String) : IO UInt32 := DeployScript.CommandLine.runProgram args
