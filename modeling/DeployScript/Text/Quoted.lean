import DeployScript.Text.Extending
import DeployScript.Text.Invisible

/-!
# Text between double quotes

A quoted text shows every character of a text on one line: what has a shape stands for itself,
everything else is escaped. The packager writes names into programs this way.
-/

namespace DeployScript

namespace Text

/-- The lower-case digits of a number to base 16. -/
def hexadecimal (n : Nat) : String := String.ofList (Nat.toDigits 16 n)

/-- A character inside double quotes. -/
def quotedChar (c : Char) : String :=
  if c = '\x00' then "\\0"
  else if c = '\t' then "\\t"
  else if c = '\r' then "\\r"
  else if c = '\n' then "\\n"
  else if c = '\\' then "\\\\"
  else if c = '"' then "\\\""
  else if isExtending c || isInvisible c then "\\u\x7b" ++ hexadecimal c.toNat ++ "\x7d"
  else String.singleton c

/-- **A quoted text.** -/
def quoted (s : String) : String :=
  "\"" ++ s.foldl (fun out c => out ++ quotedChar c) "" ++ "\""

end Text

end DeployScript
