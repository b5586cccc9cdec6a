import DeployScript.Host.Executable

/-!
# The shell

Command lines: words with quotes, redirections, pipes, and commands that depend on the success of
the one before. There are no loops, conditionals or variables besides the status of the last
command, the number of the shell, and its arguments.

* `Shell.tokens` reads a text as words and operators.
* `Shell.run` carries it out.
-/

namespace DeployScript.Shell

open Executable (complained ended)

/-! ### Words -/

/-- A part of a word: text as it stands, or a parameter. -/
inductive Piece
  | text (text : String)
  | parameter (name : String)
  deriving Repr, DecidableEq, Inhabited

/-- A token: a word, or an operator. -/
inductive Token
  | word (pieces : List Piece)
  | operator (text : String)
  deriving Repr, DecidableEq, Inhabited

/-- A word that is being read, in reverse order, if one has begun. -/
abbrev Reading := Option (List Piece)

/-- Adds a piece to the word that is being read. -/
def extend (word : Reading) (piece : Piece) : Reading := some (piece :: word.getD [])

/-- The tokens with the word that has been read behind them, all in reverse order. -/
def finish (word : Reading) (tokens : List Token) : List Token :=
  match word with
  | none => tokens
  | some pieces => .word pieces.reverse :: tokens

/-- The name of a parameter of one character. -/
def isParameter (c : Char) : Bool := c = '$' || c = '?' || c = '#' || ('0' ≤ c && c ≤ '9')

/-- Inside which quotes the reader is. -/
inductive Quotes
  | none | single | double
  deriving Repr, DecidableEq

/-- The operators, a longer one before each that begins it. -/
def operators : List (List Char) :=
  ["2>&1", "1>&2", ">&2", ">&1", "2>>", "2>", "1>", ">>", ">", "<", "&&", "||", "|", ";",
    "\n"].map String.toList

/-- The operator at the beginning of a text. One that starts with a digit does not continue a
word. -/
def operatorAt? (word : Reading) (cs : List Char) : Option (List Char) :=
  operators.find? fun o =>
    o.isPrefixOf cs && (word.isNone || !(o.headD ' ').isDigit)

/-- Reads tokens, in reverse order, from a text, at most `fuel` characters of it. -/
def tokensFrom : (fuel : Nat) → Quotes → Reading → List Char → List Token → List Token
  | 0, _, word, _, tokens => finish word tokens
  | _ + 1, _, word, [], tokens => finish word tokens
  | fuel + 1, .single, word, c :: rest, tokens =>
    if c = '\'' then tokensFrom fuel .none word rest tokens
    else tokensFrom fuel .single (extend word (.text (String.singleton c))) rest tokens
  | fuel + 1, quotes, word, '\\' :: c :: rest, tokens =>
    let kept := quotes = .double && !(c = '$' || c = '"' || c = '\\' || c = '\n')
    let text := (if kept then "\\" else "") ++ String.singleton c
    tokensFrom fuel quotes (extend word (.text text)) rest tokens
  | fuel + 1, quotes, word, '$' :: c :: rest, tokens =>
    if isParameter c then
      tokensFrom fuel quotes (extend word (.parameter (String.singleton c))) rest tokens
    else tokensFrom fuel quotes (extend word (.text "$")) (c :: rest) tokens
  | fuel + 1, .double, word, c :: rest, tokens =>
    if c = '"' then tokensFrom fuel .none word rest tokens
    else tokensFrom fuel .double (extend word (.text (String.singleton c))) rest tokens
  | fuel + 1, .none, word, c :: rest, tokens =>
    if c = '\'' then tokensFrom fuel .single (extend word (.text "")) rest tokens
    else if c = '"' then tokensFrom fuel .double (extend word (.text "")) rest tokens
    else if c = ' ' || c = '\t' then tokensFrom fuel .none none rest (finish word tokens)
    else if c = '#' && word.isNone then
      tokensFrom fuel .none none (rest.dropWhile (· ≠ '\n')) tokens
    else
      match operatorAt? word (c :: rest) with
      | some o =>
        tokensFrom fuel .none none ((c :: rest).drop o.length)
          (.operator (String.ofList o) :: finish word tokens)
      | none => tokensFrom fuel .none (extend word (.text (String.singleton c))) rest tokens

/-- The tokens of a text. -/
def tokens (text : String) : List Token :=
  (tokensFrom (text.length + 1) .none none text.toList []).reverse

/-- The parts of a list of tokens between operators, each with the operator before it. -/
def split (separators : List String) (tokens : List Token) : List (String × List Token) :=
  let step (token : Token) (parts : String × List Token × List (String × List Token)) :=
    match token with
    | .operator o =>
      if separators.contains o then ("", [], (o, parts.2.1) :: parts.2.2)
      else (parts.1, token :: parts.2.1, parts.2.2)
    | _ => (parts.1, token :: parts.2.1, parts.2.2)
  let (before, first, rest) := tokens.foldr step ("", [], [])
  (before, first) :: rest

/-! ### Commands -/

/-- Where output goes. -/
inductive Sink
  | stdout | stderr | nowhere | file (path : String)
  deriving Repr, DecidableEq, Inhabited

/-- The path that takes all output and has no input. -/
def nullDevice : String := "/dev/null"

/-- The output to a path, which is first changed by `prepare` unless it takes output anyway. -/
def Sink.ofPath (path : String) (files : Files) (prepare : Except FileError Files) :
    Except FileError (Sink × Files) :=
  if path = nullDevice then .ok (.nowhere, files) else prepare.map fun files => (.file path, files)

/-- What has come of the commands so far. -/
structure State where
  files : Files
  stdout : List UInt8
  stderr : List UInt8
  last : Nat
  ended : Option Status

/-- A command: its words, its input if that is a file, and where its outputs go. -/
structure Command where
  words : List String
  input : Option String
  out : Sink
  err : Sink

/-- The number of the shell. -/
def shellNumber : String := "2"

/-- A word with its parameters replaced. -/
def expand (args : List String) (last : Nat) (pieces : List Piece) : String :=
  String.join (pieces.map fun
    | .text s => s
    | .parameter "$" => shellNumber
    | .parameter "?" => toString last
    | .parameter "#" => toString (args.length - 1)
    | .parameter name => ((name.toNat?.bind (args[·]?))).getD "")

/-- Reads a command. Output to a file first empties the file. -/
def command (args : List String) (last : Nat) : List Token → Command → Files →
    Except FileError (Command × Files)
  | [], c, files => .ok (c, files)
  | .word pieces :: rest, c, files =>
    command args last rest { c with words := c.words ++ [expand args last pieces] } files
  | .operator ">&2" :: rest, c, files | .operator "1>&2" :: rest, c, files =>
    command args last rest { c with out := c.err } files
  | .operator "2>&1" :: rest, c, files => command args last rest { c with err := c.out } files
  | .operator o :: .word pieces :: rest, c, files => do
    let path := expand args last pieces
    let emptied := Sink.ofPath path files (files.write path [])
    let kept := Sink.ofPath path files (files.append path [])
    match o with
    | ">" | "1>" => let (out, files) ← emptied; command args last rest { c with out } files
    | ">>" => let (out, files) ← kept; command args last rest { c with out } files
    | "2>" => let (err, files) ← emptied; command args last rest { c with err } files
    | "2>>" => let (err, files) ← kept; command args last rest { c with err } files
    | "<" => command args last rest { c with input := some path } files
    | _ => command args last rest c files
  | .operator _ :: rest, c, files => command args last rest c files

/-- Sends output where it goes. -/
def send (s : State) (sink : Sink) (bytes : List UInt8) : State :=
  match sink with
  | .stdout => { s with stdout := s.stdout ++ bytes }
  | .stderr => { s with stderr := s.stderr ++ bytes }
  | .nowhere => s
  | .file path => { s with files := (s.files.append path bytes).toOption.getD s.files }

/-- The number of a signal. -/
def signalNumber (option : String) : Nat :=
  match String.ofList (option.toList.drop 1) with
  | "KILL" | "SIGKILL" => 9
  | "TERM" | "SIGTERM" => 15
  | "INT" | "SIGINT" => 2
  | "HUP" | "SIGHUP" => 1
  | other => other.toNat?.getD 15

/-- Programs that a shell can start. -/
abbrev Find := String → Option Executable

/-- The shell's own commands before all others. -/
def find? (find : Find) (name : String) : Option Executable :=
  match name with
  | "echo" => some Executable.shellEcho
  | ":" => some (Executable.idle 0)
  | _ => find name

/-- Carries out a command with its input. -/
def runWords (find : Find) (s : State) (words : List String) (stdin : List UInt8) :
    Ran × State :=
  match words with
  | [] => (ended 0, s)
  | ["exit"] => (ended s.last, { s with ended := some (.exited s.last) })
  | "exit" :: word :: _ =>
    match word.toNat? with
    | some code => (ended (code % 256), { s with ended := some (.exited (code % 256)) })
    | none =>
      (complained ("sh: 1: exit: Illegal number: " ++ word) 2, { s with ended := some (.exited 2) })
  | "kill" :: rest =>
    let signal := match rest with
      | option :: _ :: _ => signalNumber option
      | _ => 15
    if rest.getLast? = some shellNumber then
      (ended 0, { s with ended := some (.killed signal) })
    else (complained "sh: 1: kill: No such process" 1, s)
  | name :: args =>
    match find? find name with
    | none => (complained ("sh: 1: " ++ name ++ ": not found") 127, s)
    | some program =>
      let (ran, files) := program args stdin s.files
      (ran, { s with files })

/-- The bytes of an input. -/
def readInput (files : Files) (path : String) : Except FileError (List UInt8) :=
  if path = nullDevice then .ok [] else files.read path

/-- Carries out the commands of a pipe, each with the output of the one before as input. -/
def runPipe (find : Find) (args : List String) : List (List Token) → (stdin : List UInt8) →
    State → State
  | [], _, s => s
  | part :: rest, stdin, s =>
    let start := { words := [], input := none, out := .stdout, err := .stderr }
    match command args s.last part start s.files with
    | .error e =>
      let text := "sh: 1: cannot open file: " ++ Executable.reason e ++ "\n"
      { s with stderr := s.stderr ++ Text.encode text, last := 2 }
    | .ok (c, files) =>
      let s := { s with files }
      match c.input.elim (.ok stdin) (readInput s.files) with
      | .error e =>
        let text := "sh: 1: cannot open file: " ++ Executable.reason e ++ "\n"
        { s with stderr := s.stderr ++ Text.encode text, last := 2 }
      | .ok input =>
        let (ran, s) := runWords find s c.words input
        let code := match ran.status with
          | .exited code => code
          | .killed signal => 128 + signal
        let s := { send s c.err ran.stderr with last := code }
        match rest with
        | [] => send s c.out ran.stdout
        | _ :: _ =>
          if c.out = .stdout then runPipe find args rest ran.stdout s
          else runPipe find args rest [] (send s c.out ran.stdout)

/-- Carries out a pipe. An exclamation mark in front turns success into failure, and back. -/
def runPart (find : Find) (args : List String) (part : List Token) (stdin : List UInt8)
    (s : State) : State :=
  let pipe (part : List Token) := runPipe find args ((split ["|"] part).map (·.2)) stdin s
  match part with
  | .word [.text "!"] :: part =>
    let s := pipe part
    { s with last := if s.last = 0 then 1 else 0 }
  | part => pipe part

/-- Carries out commands that depend on the success of those before. -/
def runChain (find : Find) (args : List String) (parts : List (String × List Token))
    (stdin : List UInt8) (s : State) : State :=
  parts.foldl (fun s (connector, part) =>
    let skipped := match connector with
      | "&&" => s.last ≠ 0
      | "||" => s.last = 0
      | _ => false
    if s.ended.isSome || skipped || part.isEmpty then s
    else runPart find args part stdin s) s

/-- Carries out a text. -/
def runText (find : Find) (text : String) (args : List String) (stdin : List UInt8)
    (files : Files) : Ran × Files :=
  let start := { files, stdout := [], stderr := [], last := 0, ended := none }
  let s := (split [";", "\n"] (tokens text)).foldl (fun s part =>
    if s.ended.isSome then s else runChain find args (split ["&&", "||"] part.2) stdin s) start
  let status := s.ended.getD (.exited s.last)
  ({ stdout := s.stdout, stderr := s.stderr, status }, s.files)

/-- **The shell as a program:** the text is an argument, a file, or the input. -/
def run (find : Find) : Executable := fun args stdin files =>
  match args with
  | ["-c"] => (complained "sh: 0: -c requires an argument" 2, files)
  | "-c" :: text :: rest =>
    runText find text (if rest = [] then ["sh"] else rest) stdin files
  | [] => runText find (Text.decode ⟨stdin.toArray⟩) ["sh"] [] files
  | path :: rest =>
    match files.read path with
    | .ok bytes => runText find (Text.decode ⟨bytes.toArray⟩) (path :: rest) stdin files
    | .error _ => (complained ("sh: 0: cannot open " ++ path ++ ": No such file") 2, files)

end DeployScript.Shell
