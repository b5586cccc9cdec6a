/-!
# White space at the ends of a text

`Text.trim` cuts off characters with the Unicode property White_Space, of which core's
`Char.isWhitespace` knows four.
-/

namespace DeployScript

namespace Text

/-- Whether a character has the property White_Space. -/
def isBlank (c : Char) : Bool :=
  let n := c.toNat
  (9 ≤ n && n ≤ 13) || n == 32 || n == 0x85 || n == 0xA0 || n == 0x1680 ||
    (0x2000 ≤ n && n ≤ 0x200A) || n == 0x2028 || n == 0x2029 || n == 0x202F || n == 0x205F ||
    n == 0x3000

/-- The text without the white space around it. -/
def trim (s : String) : String :=
  let tail := s.toList.dropWhile isBlank
  String.ofList (tail.reverse.dropWhile isBlank).reverse

end Text

end DeployScript
