/-!
# Names of packages

`CrateName.ofText` makes a well-formed package name of any text: words of lower-case ASCII letters,
digits and underscores with single hyphens between them, of which the first does not start with a
digit.
-/

namespace DeployScript.CrateName

/-- Whether a character belongs to a word. -/
def isWordChar (c : Char) : Bool := c.isAlphanum || c = '_'

/-- One more character behind what has been written: in lower case if it belongs to a word, and otherwise a
hyphen, unless there is one at the end. -/
def add (out : String) (c : Char) : String :=
  if isWordChar c then out.push c.toLower
  else if out.toList.getLast? = some '-' then out
  else out.push '-'

/-- Takes the hyphens off both ends. -/
def trim (cs : List Char) : List Char :=
  ((cs.dropWhile (· = '-')).reverse.dropWhile (· = '-')).reverse

/-- The words of a text in lower case, with a hyphen between two of them. -/
def words (text : String) : List Char := trim (text.toList.foldl add "").toList

/-- The name where a text has no words. -/
def fallback : String := "gscript-artifact"

/-- Puts a letter before a digit at the beginning. -/
def startWithLetter : List Char → String
  | [] => fallback
  | c :: rest =>
    if c.isDigit then "gs-" ++ String.ofList (c :: rest) else String.ofList (c :: rest)

/-- **A well-formed name** for a text. -/
def ofText (text : String) : String := startWithLetter (words text)

end DeployScript.CrateName
