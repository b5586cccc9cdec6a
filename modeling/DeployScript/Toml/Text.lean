/-!
# Strings in TOML

TOML has four ways to write a string: on one line or on several, with escapes or literally.
`Toml.quote` takes the first in a fixed order of preference that shows the text without escapes, and
falls back to escapes where there is none.

* `Form` lists the ways, `Form.suits` says which texts one shows as they are.
* `quote` writes a text.
-/

namespace DeployScript.Toml

/-- What decides how a text can be written: the longest runs of single and double quotes, and
whether there are backslashes, line feeds and other control characters. A tab counts for
nothing. -/
structure Traits where
  singleQuotes : Nat
  doubleQuotes : Nat
  hasBackslash : Bool
  hasLineFeed : Bool
  hasControl : Bool
  deriving Repr, DecidableEq, Inhabited

/-- One more character: the length of the run that it ends, and of the longest one so far. -/
def countRun (c : Char) (state : Nat × Nat) (d : Char) : Nat × Nat :=
  if d = c then (state.1 + 1, max state.2 (state.1 + 1)) else (0, state.2)

/-- The length of the longest run of a character. -/
def longestRun (c : Char) (s : List Char) : Nat := (s.foldl (countRun c) (0, 0)).2

/-- Whether a character can only be written with an escape. -/
def isControl (c : Char) : Bool :=
  (c.toNat ≤ 0x1F && c ≠ '\t' && c ≠ '\n') || c.toNat = 0x7F

/-- The traits of a text. -/
def traits (s : List Char) : Traits :=
  { singleQuotes := longestRun '\'' s
    doubleQuotes := longestRun '"' s
    hasBackslash := s.contains '\\'
    hasLineFeed := s.contains '\n'
    hasControl := s.any isControl }

/-- A way to write a string. -/
inductive Form
  | basic | literal | longBasic | longLiteral
  deriving Repr, DecidableEq, Inhabited

namespace Form

/-- What stands at both ends. -/
def delimiter : Form → String
  | basic => "\""
  | literal => "'"
  | longBasic => "\"\"\""
  | longLiteral => "'''"

/-- Whether the string can go over several lines. -/
def isLong : Form → Bool
  | basic | literal => false
  | longBasic | longLiteral => true

/-- Whether there are escapes. -/
def hasEscapes : Form → Bool
  | basic | longBasic => true
  | literal | longLiteral => false

/-- Whether a form shows a text with these traits as it is. -/
def suits (t : Traits) : Form → Bool
  | basic => !t.hasControl && !t.hasBackslash && t.doubleQuotes = 0 && !t.hasLineFeed
  | literal => !t.hasControl && t.singleQuotes = 0 && !t.hasLineFeed
  | longBasic => !t.hasControl && !t.hasBackslash && t.doubleQuotes ≤ 2
  | longLiteral => !t.hasControl && t.singleQuotes ≤ 2

/-- The forms in order of preference. -/
def preferred : List Form := [basic, literal, longBasic, longLiteral]

/-- The form for a text with these traits. -/
def ofTraits (t : Traits) : Form :=
  match preferred.find? (suits t) with
  | some form => form
  | none => if t.hasLineFeed then longBasic else basic

end Form

/-- A number in four digits to base 16. -/
def fourDigits (n : Nat) : String :=
  let digits := (Nat.toDigits 16 n).map Char.toUpper
  String.ofList (List.replicate (4 - digits.length) '0' ++ digits)

/-- The escape of a character, if it has to be escaped whatever comes before it. -/
def escape? (isLong : Bool) (c : Char) : Option String :=
  if c = '\x08' then some "\\b"
  else if c = '\t' then some "\\t"
  else if c = '\n' then if isLong then none else some "\\n"
  else if c = '\x0c' then some "\\f"
  else if c = '\r' then some "\\r"
  else if c = '\\' then some "\\\\"
  else if isControl c then some ("\\u" ++ fourDigits c.toNat)
  else none

/-- Writes characters with escapes behind a number of double quotes that stand for themselves. On
several lines there can be up to two of those in a row. -/
def escaped (isLong : Bool) : (quotes : Nat) → List Char → (out : String) → String
  | _, [], out => out
  | quotes, c :: rest, out =>
    if c = '"' then
      if quotes < (if isLong then 2 else 0) then escaped isLong (quotes + 1) rest (out.push c)
      else escaped isLong 0 rest (out ++ "\\\"")
    else
      match escape? isLong c with
      | some e => escaped isLong 0 rest (out ++ e)
      | none => escaped isLong 0 rest (out.push c)

/-- A text in a form. A long form drops a line feed at its beginning, and so one is put there
before a text that goes over several lines. -/
def write (form : Form) (text : String) : String :=
  let first := if form.isLong && text.toList.contains '\n' then "\n" else ""
  let body := if form.hasEscapes then escaped form.isLong 0 text.toList "" else text
  form.delimiter ++ first ++ body ++ form.delimiter

/-- **Writes a text as a string.** -/
def quote (text : String) : String := write (Form.ofTraits (traits text.toList)) text

end DeployScript.Toml
