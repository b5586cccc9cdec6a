/-!
# Reading TOML

`Toml.read?` reads documents whose values are strings and arrays of strings, which is all that a
manifest can hold. Everything else that TOML has (other values, dotted keys, tables) is refused
together with what is not TOML.

Readers take the characters that are left and give back the rest.
-/

namespace DeployScript.Toml

/-- A value of a document. -/
inductive Value
  | text (text : String)
  | texts (texts : List String)
  deriving Repr, DecidableEq, Inhabited

/-- Whether a comment can hold a character. -/
def isPlain (c : Char) : Bool := c = '\t' || (0x20 ≤ c.toNat && c.toNat ≠ 0x7F)

/-- Whether a character is a blank. -/
def isBlank (c : Char) : Bool := c = ' ' || c = '\t'

/-- What follows the blanks. -/
def skipBlanks (s : List Char) : List Char := s.dropWhile isBlank

/-- What follows the end of a line. -/
def newline? : List Char → Option (List Char)
  | '\n' :: rest | '\r' :: '\n' :: rest => some rest
  | _ => none

/-- What follows the end of a line or of the document. -/
def lineEnd? : List Char → Option (List Char)
  | [] => some []
  | s => newline? s

/-- What follows blanks and ends of lines. -/
def skipLines : List Char → List Char
  | [] => []
  | '\r' :: '\n' :: rest => skipLines rest
  | c :: rest => if isBlank c || c = '\n' then skipLines rest else c :: rest

/-- What follows a comment, if there is one. -/
def skipComment : List Char → List Char
  | '#' :: rest => rest.dropWhile isPlain
  | s => s

/-- What follows blanks, ends of lines and comments. A comment goes up to the end of a line. -/
def skipGaps? : (fuel : Nat) → List Char → Option (List Char)
  | 0, _ => none
  | fuel + 1, s =>
    match skipBlanks s with
    | '#' :: rest => (newline? (rest.dropWhile isPlain)).bind (skipGaps? fuel)
    | '\n' :: rest | '\r' :: '\n' :: rest => skipGaps? fuel rest
    | rest => some rest

/-! ### Strings -/

/-- The character of an escape with a letter. -/
def shortEscape? : Char → Option Char
  | 'b' => some '\x08'
  | 't' => some '\t'
  | 'n' => some '\n'
  | 'f' => some '\x0c'
  | 'r' => some '\r'
  | '"' => some '"'
  | '\\' => some '\\'
  | _ => none

/-- The value of a digit to base 16. -/
def digit? (c : Char) : Option Nat :=
  if '0' ≤ c && c ≤ '9' then some (c.toNat - '0'.toNat)
  else if 'a' ≤ c && c ≤ 'f' then some (c.toNat - 'a'.toNat + 10)
  else if 'A' ≤ c && c ≤ 'F' then some (c.toNat - 'A'.toNat + 10)
  else none

/-- The character of a number to base 16. -/
def codePoint? (digits : List Char) : Option Char := do
  let n ← digits.foldlM (fun n c => (digit? c).map (16 * n + ·)) 0
  if n.isValidChar then some (Char.ofNat n) else none

/-- What an escape stands for, and what follows. -/
def escaped? : List Char → Option (Char × List Char)
  | 'u' :: a :: b :: c :: d :: rest => (codePoint? [a, b, c, d]).map (·, rest)
  | 'U' :: a :: b :: c :: d :: e :: f :: g :: h :: rest =>
    (codePoint? [a, b, c, d, e, f, g, h]).map (·, rest)
  | c :: rest => (shortEscape? c).map (·, rest)
  | [] => none

/-- The rest of a string on one line, with escapes. -/
def basic? : (fuel : Nat) → (out : String) → List Char → Option (String × List Char)
  | 0, _, _ | _, _, [] => none
  | fuel + 1, out, c :: rest =>
    if c = '"' then some (out, rest)
    else if c = '\\' then do
      let (c, rest) ← escaped? rest
      basic? fuel (out.push c) rest
    else if isPlain c then basic? fuel (out.push c) rest
    else none

/-- The rest of a string on one line, without escapes. -/
def literal? : (out : String) → List Char → Option (String × List Char)
  | _, [] => none
  | out, c :: rest =>
    if c = '\'' then some (out, rest)
    else if isPlain c then literal? (out.push c) rest
    else none

/-- The end of a long string, behind its three quotes: up to two quotes before them belong to the
string. -/
def closeLong (quote : Char) (out : String) (rest : List Char) : String × List Char :=
  let extra := (rest.take 2).takeWhile (· = quote)
  (extra.foldl String.push out, rest.drop extra.length)

/-- The rest of a string on several lines, with escapes if it is between double quotes. A backslash
at the end of a line takes back the end of the line and the white space around it. -/
def long? (quote : Char) : (fuel : Nat) → (out : String) → List Char →
    Option (String × List Char)
  | 0, _, _ | _, _, [] => none
  | fuel + 1, out, c :: rest =>
    if c = quote then
      match rest with
      | d :: e :: more =>
        if d = quote ∧ e = quote then some (closeLong quote out more)
        else long? quote fuel (out.push c) rest
      | _ => none
    else if c = '\\' ∧ quote = '"' then
      match newline? (skipBlanks rest) with
      | some more => long? quote fuel out (skipLines more)
      | none => do
        let (c, rest) ← escaped? rest
        long? quote fuel (out.push c) rest
    else if isPlain c then long? quote fuel (out.push c) rest
    else do
      let rest ← newline? (c :: rest)
      long? quote fuel (out.push '\n') rest

/-- A string on one line. -/
def short? (s : List Char) : Option (String × List Char) :=
  match s with
  | '"' :: rest => basic? (rest.length + 1) "" rest
  | '\'' :: rest => literal? "" rest
  | _ => none

/-- What follows a line feed at the beginning of a long string. -/
def skipFirst (s : List Char) : List Char := (newline? s).getD s

/-- **A string.** -/
def text? (s : List Char) : Option (String × List Char) :=
  match s with
  | '"' :: '"' :: '"' :: rest => long? '"' (rest.length + 1) "" (skipFirst rest)
  | '\'' :: '\'' :: '\'' :: rest => long? '\'' (rest.length + 1) "" (skipFirst rest)
  | s => short? s

/-! ### Documents -/

/-- The rest of an array. -/
def texts? : (fuel : Nat) → (out : List String) → List Char →
    Option (List String × List Char)
  | 0, _, _ => none
  | fuel + 1, out, s => do
    match ← skipGaps? (s.length + 1) s with
    | ']' :: rest => some (out.reverse, rest)
    | s =>
      let (text, rest) ← text? s
      match ← skipGaps? (rest.length + 1) rest with
      | ',' :: rest => texts? fuel (text :: out) rest
      | ']' :: rest => some ((text :: out).reverse, rest)
      | _ => none

/-- A value. -/
def value? (s : List Char) : Option (Value × List Char) :=
  match s with
  | '[' :: rest => (texts? (rest.length + 1) [] rest).map fun (texts, rest) => (.texts texts, rest)
  | s => (text? s).map fun (text, rest) => (.text text, rest)

/-- Whether a key can hold a character without quotes. -/
def isBare (c : Char) : Bool := c.isAlphanum || c = '_' || c = '-'

/-- A key. -/
def key? (s : List Char) : Option (String × List Char) :=
  match s with
  | '"' :: _ | '\'' :: _ => short? s
  | s =>
    let name := s.takeWhile isBare
    if name = [] then none else some (String.ofList name, s.dropWhile isBare)

/-- A key with its value, up to the end of the line. -/
def entry? (s : List Char) : Option ((String × Value) × List Char) := do
  let (key, s) ← key? s
  match skipBlanks s with
  | '=' :: s =>
    let (value, s) ← value? (skipBlanks s)
    return ((key, value), ← lineEnd? (skipComment (skipBlanks s)))
  | _ => none

/-- The lines of a document. A key has one value. -/
def entries? : (fuel : Nat) → (out : List (String × Value)) → List Char →
    Option (List (String × Value))
  | 0, _, _ => none
  | fuel + 1, out, s =>
    match skipBlanks s with
    | [] => some out.reverse
    | '#' :: rest => (lineEnd? (rest.dropWhile isPlain)).bind (entries? fuel out)
    | '\n' :: rest | '\r' :: '\n' :: rest => entries? fuel out rest
    | s => do
      let (entry, rest) ← entry? s
      if out.any (·.1 = entry.1) then none else entries? fuel (entry :: out) rest

/-- **Reads a document.** There may be a byte order mark before it. -/
def read? (text : String) : Option (List (String × Value)) :=
  let s := match text.toList with
    | '\uFEFF' :: rest => rest
    | s => s
  entries? (s.length + 1) [] s

end DeployScript.Toml
