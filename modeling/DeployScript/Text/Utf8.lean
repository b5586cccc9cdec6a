/-!
# Bytes read as UTF-8

Files and the output of programs are bytes. `Text.decode?` reads them as text if they are well
formed. `Text.decode` reads any bytes: what is ill formed becomes the replacement character, one
for each longest run of bytes that starts a well-formed character without finishing it.
-/

namespace DeployScript

namespace Text

/-- The bytes of a text. -/
def encode (s : String) : List UInt8 := s.toUTF8.toList

/-- The text that the bytes encode, if they are well formed. -/
def decode? (bytes : ByteArray) : Option String := String.fromUTF8? bytes

/-- The character that stands for ill-formed bytes. -/
def replacement : Char := '\uFFFD'

/-- How many bytes follow a first byte, and between which two the next one has to lie: the bounds
leave out spellings that are too long, surrogates, and what lies beyond the last code point. -/
def continuation? (first : UInt8) : Option (Nat × UInt8 × UInt8) :=
  if 0xC2 ≤ first && first ≤ 0xDF then some (1, 0x80, 0xBF)
  else if first == 0xE0 then some (2, 0xA0, 0xBF)
  else if first == 0xED then some (2, 0x80, 0x9F)
  else if 0xE1 ≤ first && first ≤ 0xEF then some (2, 0x80, 0xBF)
  else if first == 0xF0 then some (3, 0x90, 0xBF)
  else if 0xF1 ≤ first && first ≤ 0xF3 then some (3, 0x80, 0xBF)
  else if first == 0xF4 then some (3, 0x80, 0x8F)
  else none

/-- A character that has begun: the bits so far, how many bytes it still needs, and the bounds of
the next one. -/
structure Begun where
  code : Nat
  missing : Nat
  low : UInt8
  high : UInt8

/-- What a byte at the start of a character means. -/
def startChar (byte : UInt8) : Sum Char Begun :=
  if byte < 0x80 then .inl (Char.ofNat byte.toNat)
  else match continuation? byte with
    | none => .inl replacement
    | some (missing, low, high) =>
      .inr { code := byte.toNat % Nat.pow 2 (6 - missing), missing, low, high }

/-- Adds one byte to the text read so far and the character that has begun. -/
def decodeByte : String × Option Begun → UInt8 → String × Option Begun
  | (out, none), byte =>
    match startChar byte with
    | .inl c => (out.push c, none)
    | .inr p => (out, some p)
  | (out, some p), byte =>
    if p.low ≤ byte && byte ≤ p.high then
      let code := p.code * 64 + byte.toNat % 64
      if p.missing ≤ 1 then (out.push (Char.ofNat code), none)
      else (out, some { code, missing := p.missing - 1, low := 0x80, high := 0xBF })
    else
      match startChar byte with
      | .inl c => ((out.push replacement).push c, none)
      | .inr q => (out.push replacement, some q)

/-- **Reads any bytes as text.** -/
def decode (bytes : ByteArray) : String :=
  match bytes.foldl decodeByte ("", none) with
  | (out, none) => out
  | (out, some _) => out.push replacement

end Text

end DeployScript
