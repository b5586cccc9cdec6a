import DeployScript.Files.Directory
import DeployScript.Text.Utf8

/-!
# Executables

What the small programs that deployment scripts use do: they print, look at files and change them.
A program is a function of its arguments, its input and the files.
-/

namespace DeployScript

/-- How a program ends. -/
inductive Status
  | exited (code : Nat)
  | killed (signal : Nat)
  deriving Repr, DecidableEq, Inhabited

namespace Status

/-- Whether the program succeeded. -/
def isSuccess : Status → Bool
  | exited code => code = 0
  | killed _ => false

/-- The code that the program ended with, if it ended by itself. -/
def code? : Status → Option Nat
  | exited code => some code
  | killed _ => none

/-- The names of signals that end a program. -/
def signalName : Nat → String
  | 1 => " (SIGHUP)"
  | 2 => " (SIGINT)"
  | 3 => " (SIGQUIT)"
  | 6 => " (SIGABRT)"
  | 9 => " (SIGKILL)"
  | 13 => " (SIGPIPE)"
  | 14 => " (SIGALRM)"
  | 15 => " (SIGTERM)"
  | _ => ""

/-- The end of a program in words. -/
def text : Status → String
  | exited code => "exit status: " ++ toString code
  | killed signal => "signal: " ++ toString signal ++ signalName signal

end Status

/-- What a program leaves behind, the files apart. -/
structure Ran where
  stdout : List UInt8
  stderr : List UInt8
  status : Status
  deriving Repr, DecidableEq, Inhabited

/-- A program: its arguments, its input, and the files before and after. -/
abbrev Executable := List String → List UInt8 → Files → Ran × Files

namespace Executable

/-- A program that ends with a code and prints nothing. -/
def ended (code : Nat) : Ran := { stdout := [], stderr := [], status := .exited code }

/-- A program that succeeds and prints. -/
def printed (stdout : List UInt8) : Ran := { stdout, stderr := [], status := .exited 0 }

/-- A program that complains. -/
def complained (text : String) (code : Nat) : Ran :=
  { stdout := [], stderr := Text.encode (text ++ "\n"), status := .exited code }

/-- The reason for a failure as programs show it. -/
def reason (e : FileError) : String :=
  ((e.message.splitOn " (os error").head?).getD e.message

/-! ### Printing -/

/-- The value of up to `count` digits to a base, and what follows them. -/
def takeDigits (base : Nat) : (count : Nat) → (value : Nat) → List Char → Nat × List Char
  | 0, value, rest => (value, rest)
  | _ + 1, value, [] => (value, [])
  | count + 1, value, c :: rest =>
    let digit :=
      if '0' ≤ c ∧ c ≤ '9' then c.toNat - '0'.toNat
      else if 'a' ≤ c ∧ c ≤ 'f' then c.toNat - 'a'.toNat + 10
      else if 'A' ≤ c ∧ c ≤ 'F' then c.toNat - 'A'.toNat + 10
      else base
    if digit < base then takeDigits base count (value * base + digit) rest
    else (value, c :: rest)

/-- What a backslash and the characters behind it stand for, and what follows. There are no bytes
where the output ends. -/
def unescape : List Char → Option (List UInt8) × List Char
  | 'a' :: rest => (some [7], rest)
  | 'b' :: rest => (some [8], rest)
  | 'c' :: rest => (none, rest)
  | 'f' :: rest => (some [12], rest)
  | 'n' :: rest => (some [10], rest)
  | 'r' :: rest => (some [13], rest)
  | 't' :: rest => (some [9], rest)
  | 'v' :: rest => (some [11], rest)
  | '\\' :: rest => (some [92], rest)
  | '"' :: rest => (some [34], rest)
  | c :: rest =>
    if '0' ≤ c ∧ c ≤ '7' then
      let (value, rest) := takeDigits 8 3 0 (c :: rest)
      (some [UInt8.ofNat value], rest)
    else (some (92 :: Text.encode (String.singleton c)), rest)
  | [] => (some [92], [])

/-- A text with its backslashes replaced, at most `fuel` of its parts, and whether the output
goes on behind it. -/
def unescapeText : (fuel : Nat) → List Char → List UInt8 × Bool
  | 0, _ => ([], true)
  | _ + 1, [] => ([], true)
  | fuel + 1, '\\' :: rest =>
    match unescape rest with
    | (none, _) => ([], false)
    | (some bytes, rest) =>
      let (more, goesOn) := unescapeText fuel rest
      (bytes ++ more, goesOn)
  | fuel + 1, c :: rest =>
    let (more, goesOn) := unescapeText fuel rest
    (Text.encode (String.singleton c) ++ more, goesOn)

/-- Whether an argument of `echo` is one of its options. -/
def isEchoOption (arg : String) : Bool :=
  match arg.toList with
  | '-' :: c :: rest => (c :: rest).all fun c => c = 'n' || c = 'e' || c = 'E'
  | _ => false

/-- Prints its arguments with blanks between them. -/
def echo : Executable := fun args _ files =>
  let options := args.takeWhile isEchoOption
  let words := " ".intercalate (args.dropWhile isEchoOption)
  let letters := options.flatMap String.toList
  let interprets := (letters.filter (· ≠ 'n')).getLast? = some 'e'
  let newline : List UInt8 := if letters.contains 'n' then [] else [10]
  if interprets then
    let (bytes, goesOn) := unescapeText (words.length + 1) words.toList
    (printed (bytes ++ if goesOn then newline else []), files)
  else (printed (Text.encode words ++ newline), files)

/-- Prints its arguments as the shell's own command does, which replaces backslashes. -/
def shellEcho : Executable := fun args _ files =>
  let (newline, args) : List UInt8 × List String := match args with
    | "-n" :: args => ([], args)
    | args => ([10], args)
  let words := " ".intercalate args
  let (bytes, goesOn) := unescapeText (words.length + 1) words.toList
  (printed (bytes ++ if goesOn then newline else []), files)

/-- What a conversion makes of an argument, and whether the output goes on behind it. -/
def convertArg (conversion : Char) (arg : String) : List UInt8 × Bool :=
  match conversion with
  | 's' => (Text.encode arg, true)
  | 'b' => unescapeText (arg.length + 1) arg.toList
  | 'c' => ((Text.encode arg).take 1, true)
  | 'd' | 'i' => (Text.encode (toString (arg.toInt?.getD 0)), true)
  | _ => (Text.encode arg, true)

/-- A format applied to arguments once: the output, the arguments that are left, and whether the
output goes on. -/
def applyFormat : (fuel : Nat) → List Char → List String → List UInt8 × List String × Bool
  | 0, _, args => ([], args, true)
  | _ + 1, [], args => ([], args, true)
  | fuel + 1, '\\' :: rest, args =>
    match unescape rest with
    | (none, _) => ([], args, false)
    | (some bytes, rest) =>
      let (more, args, goesOn) := applyFormat fuel rest args
      (bytes ++ more, args, goesOn)
  | fuel + 1, '%' :: '%' :: rest, args =>
    let (more, args, goesOn) := applyFormat fuel rest args
    (37 :: more, args, goesOn)
  | fuel + 1, '%' :: conversion :: rest, args =>
    let (bytes, goesOn) := convertArg conversion (args.headD "")
    if goesOn then
      let (more, args, goesOn) := applyFormat fuel rest args.tail
      (bytes ++ more, args, goesOn)
    else (bytes, args.tail, false)
  | fuel + 1, c :: rest, args =>
    let (more, args, goesOn) := applyFormat fuel rest args
    (Text.encode (String.singleton c) ++ more, args, goesOn)

/-- A format applied as often as there are arguments. -/
def applyFormats (format : List Char) : (fuel : Nat) → List String → List UInt8
  | 0, _ => []
  | fuel + 1, args =>
    let (bytes, rest, goesOn) := applyFormat (format.length + 1) format args
    if goesOn ∧ rest ≠ [] ∧ rest.length < args.length then
      bytes ++ applyFormats format fuel rest
    else bytes

/-- Prints its arguments as a format says. -/
def printf : Executable := fun args _ files =>
  match args with
  | [] => (complained "printf: missing operand" 1, files)
  | format :: args => (printed (applyFormats format.toList (args.length + 1) args), files)

/-! ### Files -/

/-- Prints files, or its input. -/
def cat : Executable := fun args stdin files =>
  let names := if args = [] then ["-"] else args
  let ran := names.foldl (fun ran name =>
    if name = "-" then { ran with stdout := ran.stdout ++ stdin }
    else
      match files.read name with
      | .ok bytes => { ran with stdout := ran.stdout ++ bytes }
      | .error e =>
        { ran with
          stderr := ran.stderr ++ Text.encode ("cat: " ++ name ++ ": " ++ reason e ++ "\n")
          status := .exited 1 }) (ended 0)
  (ran, files)

/-- The names in a directory. -/
def namesIn (files : Files) (place : Location) : List String :=
  (files.below place).filterMap fun e =>
    match e.1.drop place.length with
    | [name] => some name
    | _ => none

/-- The names in a directory that options ask for: without any those that do not start with a
dot. -/
def listedNames (options : List Char) (files : Files) (place : Location) : List String :=
  let names := namesIn files place
  if options.contains 'a' then "." :: ".." :: names
  else if options.contains 'A' then names
  else names.filter (!·.startsWith ".")

/-- Lists directories and files. It shows their names, whatever else is asked for. -/
def ls : Executable := fun args _ files =>
  let options := (args.filter (·.startsWith "-")).flatMap String.toList
  let operands := args.filter fun arg => !arg.startsWith "-"
  let names := if operands = [] then ["."] else operands
  let ran := names.foldl (fun ran name =>
    match files.locate name with
    | .ok { place, entry := some .directory } =>
      let gap := if ran.stdout = [] then "" else "\n"
      let heading := if names.length = 1 then "" else gap ++ name ++ ":\n"
      let lines := (listedNames options files place).map (· ++ "\n")
      { ran with stdout := ran.stdout ++ Text.encode (heading ++ String.join lines) }
    | .ok { entry := some (.file _), .. } =>
      { ran with stdout := ran.stdout ++ Text.encode (name ++ "\n") }
    | _ =>
      let text := "ls: cannot access '" ++ name ++ "': No such file or directory\n"
      { ran with stderr := ran.stderr ++ Text.encode text, status := .exited 2 }) (ended 0)
  (ran, files)

/-- Changes the files once for each name, and complains where it cannot. -/
def eachName (complaint : String → FileError → String)
    (change : Files → String → Except FileError Files) (names : List String) (files : Files) :
    Ran × Files :=
  names.foldl (fun (ran, files) name =>
    match change files name with
    | .ok files => (ran, files)
    | .error e =>
      ({ ran with
          stderr := ran.stderr ++ Text.encode (complaint name e ++ "\n")
          status := .exited 1 }, files)) (ended 0, files)

/-- Makes files that are missing. -/
def touch : Executable := fun args _ files =>
  eachName (fun name e => "touch: cannot touch '" ++ name ++ "': " ++ reason e)
    (fun files name => if files.exists? name then .ok files else files.write name []) args files

/-- Makes directories. -/
def mkdir : Executable := fun args _ files =>
  let complaint (name : String) (e : FileError) :=
    "mkdir: cannot create directory '" ++ name ++ "': " ++ reason e
  match args with
  | "-p" :: names =>
    eachName complaint (fun files name =>
      let (result, files) := files.makeDirectories name
      result.map fun _ => files) names files
  | names => eachName complaint Files.makeDirectory names files

/-- Removes files, and directories if asked to. -/
def rm : Executable := fun args _ files =>
  let options := (args.filter (·.startsWith "-")).flatMap String.toList
  let names := args.filter fun arg => !arg.startsWith "-"
  let complaint (name : String) (e : FileError) :=
    "rm: cannot remove '" ++ name ++ "': " ++ reason e
  eachName complaint (fun files name =>
    match files.locate name with
    | .ok { place, entry := some .directory } =>
      if options.contains 'r' || options.contains 'R' then .ok (files.removeAll place)
      else .error .isDirectory
    | .ok { entry := none, .. } | .error .noEntry =>
      if options.contains 'f' then .ok files else .error .noEntry
    | _ => files.delete name) names files

/-- Where a copy of a file goes: into a directory under its own name, or to the name itself. -/
def copyTarget (files : Files) (source target : String) : String :=
  if files.isDirectory target then Path.join target ((Path.fileName? source).getD source)
  else target

/-- Copies a file. -/
def cp : Executable := fun args _ files =>
  match args with
  | [source, target] =>
    match files.read source with
    | .error e => (complained ("cp: cannot stat '" ++ source ++ "': " ++ reason e) 1, files)
    | .ok bytes =>
      let target := copyTarget files source target
      match files.write target bytes with
      | .ok files => (ended 0, files)
      | .error e =>
        (complained ("cp: cannot create regular file '" ++ target ++ "': " ++ reason e) 1, files)
  | _ => (complained "cp: missing file operand" 1, files)

/-- Moves a file or a directory. -/
def mv : Executable := fun args _ files =>
  match args with
  | [source, target] =>
    let target := copyTarget files source target
    let moved : Except FileError Files := do
      match (← files.locate source).entry with
      | none => throw .noEntry
      | some .directory => files.rename source target
      | some (.file bytes) => (← files.delete source).write target bytes
    match moved with
    | .ok files => (ended 0, files)
    | .error e => (complained ("mv: cannot stat '" ++ source ++ "': " ++ reason e) 1, files)
  | _ => (complained "mv: missing file operand" 1, files)

/-! ### Conditions -/

/-- Whether a condition of one or two words holds. -/
def unaryCondition (files : Files) (operator operand : String) : Bool :=
  match operator with
  | "-e" => files.exists? operand
  | "-f" => files.isFile operand
  | "-d" => files.isDirectory operand
  | "-r" | "-w" => files.exists? operand
  | "-s" => match files.read operand with
    | .ok bytes => !bytes.isEmpty
    | .error e => e = .isDirectory
  | "-n" => operand ≠ ""
  | "-z" => operand = ""
  | _ => false

/-- Whether a condition on two operands holds. -/
def binaryCondition (left operator right : String) : Bool :=
  let numbers (f : Int → Int → Bool) :=
    match left.toInt?, right.toInt? with
    | some a, some b => f a b
    | _, _ => false
  match operator with
  | "=" | "==" => left = right
  | "!=" => left ≠ right
  | "-eq" => numbers (· == ·)
  | "-ne" => numbers (· != ·)
  | "-lt" => numbers (· < ·)
  | "-le" => numbers (· ≤ ·)
  | "-gt" => numbers (· > ·)
  | "-ge" => numbers (· ≥ ·)
  | _ => false

/-- Whether a condition holds. -/
def condition (files : Files) : List String → Bool
  | [] => false
  | [word] => word ≠ ""
  | ["!", word] => word = ""
  | [operator, operand] => unaryCondition files operator operand
  | ["!", operator, operand] => !unaryCondition files operator operand
  | [left, operator, right] => binaryCondition left operator right
  | ["!", left, operator, right] => !binaryCondition left operator right
  | _ => false

/-- Says by its code whether a condition holds. -/
def test : Executable := fun args _ files =>
  (ended (if condition files args then 0 else 1), files)

/-- Says by its code whether a condition in brackets holds. -/
def bracket : Executable := fun args stdin files =>
  if args.getLast? = some "]" then test args.dropLast stdin files
  else (complained "[: missing ']'" 2, files)

/-- Prints the name of the system. -/
def uname : Executable := fun _ _ files => (printed (Text.encode "Linux\n"), files)

/-- Prints the directory that relative paths start from. -/
def pwd : Executable := fun _ _ files =>
  (printed (Text.encode ("/" ++ "/".intercalate files.current ++ "\n")), files)

/-- A program that does nothing. -/
def idle (code : Nat) : Executable := fun _ _ files => (ended code, files)

/-- The programs by name. -/
def simple? : String → Option Executable
  | "true" => some (idle 0)
  | "false" => some (idle 1)
  | "sleep" => some (idle 0)
  | "echo" => some echo
  | "printf" => some printf
  | "cat" => some cat
  | "ls" => some ls
  | "touch" => some touch
  | "mkdir" => some mkdir
  | "rm" => some rm
  | "cp" => some cp
  | "mv" => some mv
  | "test" => some test
  | "uname" => some uname
  | "pwd" => some pwd
  | "[" => some bracket
  | _ => none

end Executable

end DeployScript
