/-!
# MD5

The MD5 digest of a message: it is padded to blocks of 64 bytes, and each block is mixed into
four words in 64 rounds.
-/

namespace DeployScript.Digest

/-- The four words of a digest. -/
structure Words where
  a : UInt32
  b : UInt32
  c : UInt32
  d : UInt32
  deriving Repr, DecidableEq, Inhabited

/-- The words before the first block. -/
def start : Words := { a := 0x67452301, b := 0xefcdab89, c := 0x98badcfe, d := 0x10325476 }

/-- How far each round rotates: four amounts in turns for each sixteen rounds. -/
def rotations : Array UInt32 :=
  #[7, 12, 17, 22, 5, 9, 14, 20, 4, 11, 16, 23, 6, 10, 15, 21]

/-- What each round adds: the leading bits of the sines of 1 to 64. -/
def sines : Array UInt32 :=
  #[0xd76aa478, 0xe8c7b756, 0x242070db, 0xc1bdceee, 0xf57c0faf, 0x4787c62a, 0xa8304613, 0xfd469501,
    0x698098d8, 0x8b44f7af, 0xffff5bb1, 0x895cd7be, 0x6b901122, 0xfd987193, 0xa679438e, 0x49b40821,
    0xf61e2562, 0xc040b340, 0x265e5a51, 0xe9b6c7aa, 0xd62f105d, 0x02441453, 0xd8a1e681, 0xe7d3fbc8,
    0x21e1cde6, 0xc33707d6, 0xf4d50d87, 0x455a14ed, 0xa9e3e905, 0xfcefa3f8, 0x676f02d9, 0x8d2a4c8a,
    0xfffa3942, 0x8771f681, 0x6d9d6122, 0xfde5380c, 0xa4beea44, 0x4bdecfa9, 0xf6bb4b60, 0xbebfbc70,
    0x289b7ec6, 0xeaa127fa, 0xd4ef3085, 0x04881d05, 0xd9d4d039, 0xe6db99e5, 0x1fa27cf8, 0xc4ac5665,
    0xf4292244, 0x432aff97, 0xab9423a7, 0xfc93a039, 0x655b59c3, 0x8f0ccc92, 0xffeff47d, 0x85845dd1,
    0x6fa87e4f, 0xfe2ce6e0, 0xa3014314, 0x4e0811a1, 0xf7537e82, 0xbd3af235, 0x2ad7d2bb, 0xeb86d391]

/-- The word turned left by an amount between 1 and 31. -/
def rotate (word amount : UInt32) : UInt32 := (word <<< amount) ||| (word >>> (32 - amount))

/-- The function of the words in a round, and which word of the block goes with it. -/
def mix (w : Words) (round : Nat) : UInt32 × Nat :=
  if round < 16 then ((w.b &&& w.c) ||| (~~~w.b &&& w.d), round)
  else if round < 32 then ((w.d &&& w.b) ||| (~~~w.d &&& w.c), (5 * round + 1) % 16)
  else if round < 48 then (w.b ^^^ w.c ^^^ w.d, (3 * round + 5) % 16)
  else (w.c ^^^ (w.b ||| ~~~w.d), (7 * round) % 16)

/-- One round. -/
def round (block : Array UInt32) (w : Words) (round : Nat) : Words :=
  let (f, index) := mix w round
  let sum := w.a + f + sines[round]?.getD 0 + block[index]?.getD 0
  let amount := rotations[4 * (round / 16) + round % 4]?.getD 1
  { a := w.d, b := w.b + rotate sum amount, c := w.b, d := w.c }

/-- Mixes a block of sixteen words. -/
def addBlock (w : Words) (block : Array UInt32) : Words :=
  let mixed := Nat.fold 64 (fun i _ w => round block w i) w
  { a := w.a + mixed.a, b := w.b + mixed.b, c := w.c + mixed.c, d := w.d + mixed.d }

/-- A number as bytes, the lowest first. -/
def lowFirst (n : Nat) : (count : Nat) → List UInt8
  | 0 => []
  | count + 1 => UInt8.ofNat n :: lowFirst (n / 256) count

/-- The message with a mark behind it, zeros up to a multiple of 64 bytes less eight, and its
length in bits. -/
def padded (message : Array UInt8) : Array UInt8 :=
  let zeros := (119 - message.size % 64) % 64
  (message.push 0x80 ++ Array.replicate zeros 0) ++ (lowFirst (8 * message.size) 8).toArray

/-- The word of four bytes at an offset, the lowest first. -/
def wordAt (bytes : Array UInt8) (offset : Nat) : UInt32 :=
  let byte (i : Nat) : UInt32 := (bytes[offset + i]?.getD 0).toUInt32
  byte 0 ||| (byte 1 <<< 8) ||| (byte 2 <<< 16) ||| (byte 3 <<< 24)

/-- The digest of a message. -/
def words (message : Array UInt8) : Words :=
  let bytes := padded message
  Nat.fold (bytes.size / 64) (fun block _ w =>
    addBlock w ((Array.range 16).map fun i => wordAt bytes (64 * block + 4 * i))) start

/-- The digits of a byte to base 16. -/
def byteDigits (byte : UInt8) : List Char :=
  [Nat.digitChar (byte.toNat / 16), Nat.digitChar (byte.toNat % 16)]

/-- **The digest of a message** in digits to base 16. -/
def md5 (message : Array UInt8) : String :=
  let w := words message
  String.ofList ([w.a, w.b, w.c, w.d].flatMap fun word =>
    (lowFirst word.toNat 4).flatMap byteDigits)

end DeployScript.Digest
