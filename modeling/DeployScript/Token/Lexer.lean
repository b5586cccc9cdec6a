import DeployScript.Error
import DeployScript.Text.Alphabetic
import DeployScript.Text.Numeric

/-!
# Tokens of a source

`TokenStream.ofSource` cuts a source into tokens. Between tokens lie gaps: spaces, tabs, carriage
returns and comments. A line feed outside a string or a comment is a token of its own, because it
can end a statement.

* `skipGap` goes over a gap.
* `scanToken` reads the token that starts at a character.
* Each of them leaves a rest that is no longer than its input, and `scanToken` a shorter one
  (`length_scanToken_lt`), so that cutting ends.
-/

namespace DeployScript

/-! ### Gaps -/

/-- Where a gap is read: between comments, in a line comment, or in a block comment that was
opened at a position. -/
inductive GapMode
  | blank
  | line
  | block (opened : Position)

/-- **Goes over a gap.** The only thing that can be wrong is a block comment without an end. -/
def skipGap : GapMode → Position → List Char → Except ScriptError (Position × List Char)
  | .blank, p, '/' :: '/' :: rest => skipGap .line ((p.step '/').step '/') rest
  | .blank, p, '/' :: '*' :: rest => skipGap (.block p) ((p.step '/').step '*') rest
  | .blank, p, c :: rest =>
    if c = ' ' ∨ c = '\t' ∨ c = '\r' then skipGap .blank (p.step c) rest
    else .ok (p, c :: rest)
  | .blank, p, [] => .ok (p, [])
  | .line, p, c :: rest =>
    if c = '\n' then .ok (p, c :: rest) else skipGap .line (p.step c) rest
  | .line, p, [] => .ok (p, [])
  | .block _, p, '*' :: '/' :: rest => skipGap .blank ((p.step '*').step '/') rest
  | .block opened, p, c :: rest =>
    if c = '\n' then skipGap (.block opened) p.newline rest
    else skipGap (.block opened) (p.step c) rest
  | .block opened, _, [] =>
    .error (.at_ .unterminatedComment (opened.through { opened with offset := opened.offset + 2 }))

theorem length_skipGap_le {mode : GapMode} {p q : Position} {cs rest : List Char}
    (h : skipGap mode p cs = .ok (q, rest)) : rest.length ≤ cs.length := by
  fun_induction skipGap mode p cs <;> grind

/-! ### Tokens -/

/-- A token that has been read: its kind, its text, and where reading goes on. -/
structure Scanned where
  kind : TokenKind
  lexeme : String
  position : Position
  rest : List Char

/-- The character that a backslash and a character stand for. -/
def unescape : Char → Char
  | 'n' => '\n'
  | 't' => '\t'
  | 'r' => '\r'
  | '0' => '\x00'
  | c => c

/-- The rest of a string after its opening quote, with the value and the text read so far. A
backslash takes the next character with it, whatever it is. The position is where an unfinished
string ends. -/
def scanString (quote : Char) :
    Position → (value lexeme : String) → List Char → Except Position Scanned
  | p, value, lexeme, '\\' :: c :: rest =>
    scanString quote ((p.step '\\').step c) (value.push (unescape c)) ((lexeme.push '\\').push c)
      rest
  | p, _, _, ['\\'] => .error (p.step '\\')
  | p, value, lexeme, c :: rest =>
    if c = quote then
      .ok { kind := .text value, lexeme := lexeme.push c, position := p.step c, rest }
    else if c = '\n' then scanString quote p.newline (value.push c) (lexeme.push c) rest
    else scanString quote (p.step c) (value.push c) (lexeme.push c) rest
  | p, _, _, [] => .error p

/-- The characters of a number: digits, and a point with digits if a digit follows the point. -/
def takeNumber (cs : List Char) : List Char × List Char :=
  let whole := cs.takeWhile Char.isDigit
  match cs.dropWhile Char.isDigit with
  | '.' :: d :: rest =>
    if d.isDigit then
      (whole ++ '.' :: (d :: rest).takeWhile Char.isDigit, (d :: rest).dropWhile Char.isDigit)
    else (whole, '.' :: d :: rest)
  | rest => (whole, rest)

/-- Whether a character can begin a word. -/
def startsWord (c : Char) : Bool := Text.isAlphabetic c || c == '_'

/-- Whether a character can go on with a word. -/
def continuesWord (c : Char) : Bool := Text.isAlphabetic c || Text.isNumeric c || c == '_'

/-- The operator or bracket that the characters begin with, the longest there is, with what
follows it. -/
def takeSymbol? (cs : List Char) : Option (List Char × Symbol × List Char) :=
  Symbol.spellings.findSome? fun (spelling, s) =>
    if spelling.isPrefixOf cs then some (spelling, s, cs.drop spelling.length) else none

/-- **Reads the token that starts with `c`.** -/
def scanToken (p : Position) (c : Char) (cs : List Char) : Except ScriptError Scanned :=
  if c = '\n' then
    .ok { kind := .newline, lexeme := "\n", position := p.newline, rest := cs }
  else if c = '"' ∨ c = '\'' then
    match scanString c (p.step c) "" (String.singleton c) cs with
    | .ok scanned => .ok scanned
    | .error stop => .error (.at_ .unterminatedString (p.through stop))
  else if c.isDigit then
    let (taken, rest) := takeNumber cs
    let lexeme := String.ofList (c :: taken)
    let stop := p.steps (c :: taken)
    match Number.read? lexeme with
    | some value => .ok { kind := .number value, lexeme, position := stop, rest }
    | none => .error (.at_ (.invalidNumber lexeme) (p.through stop))
  else if startsWord c then
    let taken := cs.takeWhile continuesWord
    let lexeme := String.ofList (c :: taken)
    let kind := match Symbol.ofWord? lexeme with
      | some s => .symbol s
      | none => .word lexeme
    .ok { kind, lexeme, position := p.steps (c :: taken), rest := cs.dropWhile continuesWord }
  else
    match takeSymbol? (c :: cs) with
    | some (taken, s, rest) =>
      .ok { kind := .symbol s, lexeme := String.ofList taken, position := p.steps taken, rest }
    | none => .error (.at_ (.unexpectedCharacter c) (p.through (p.step c)))

theorem length_scanString_le {quote : Char} {p : Position} {value lexeme : String}
    {cs : List Char} {scanned : Scanned}
    (h : scanString quote p value lexeme cs = .ok scanned) :
    scanned.rest.length ≤ cs.length := by
  fun_induction scanString quote p value lexeme cs <;> grind

theorem length_dropWhile_le (f : Char → Bool) (cs : List Char) :
    (cs.dropWhile f).length ≤ cs.length :=
  (List.dropWhile_sublist f).length_le

theorem length_takeNumber_le (cs : List Char) : (takeNumber cs).2.length ≤ cs.length := by
  have h := length_dropWhile_le Char.isDigit cs
  unfold takeNumber
  split
  · rename_i d rest hd
    rw [hd] at h
    have := length_dropWhile_le Char.isDigit (d :: rest)
    split <;> grind
  · exact h

theorem length_takeSymbol?_lt {cs taken rest : List Char} {s : Symbol}
    (h : takeSymbol? cs = some (taken, s, rest)) : rest.length < cs.length := by
  obtain ⟨⟨spelling, t⟩, hmem, hsome⟩ := List.exists_of_findSome?_eq_some h
  by_cases hp : spelling.isPrefixOf cs
  · simp only [hp, if_true, Option.some.injEq, Prod.mk.injEq] at hsome
    obtain ⟨rfl, rfl, rfl⟩ := hsome
    have hle := (List.isPrefixOf_iff_prefix.1 hp).length_le
    have hne : ∀ x ∈ Symbol.spellings, x.1 ≠ [] := by decide
    have hpos := List.length_pos_iff.2 (hne _ hmem)
    grind
  · simp [hp] at hsome

/-- Reading a token consumes its first character at least. -/
theorem length_scanToken_lt {p : Position} {c : Char} {cs : List Char} {scanned : Scanned}
    (h : scanToken p c cs = .ok scanned) : scanned.rest.length < (c :: cs).length := by
  unfold scanToken at h
  split at h
  · cases h; simp
  split at h
  · split at h
    · rename_i s hs
      cases h
      exact Nat.lt_succ_of_le (length_scanString_le hs)
    · cases h
  split at h
  · have hn := length_takeNumber_le cs
    simp only at h
    split at h
    · cases h
      exact Nat.lt_succ_of_le hn
    · cases h
  split at h
  · cases h
    exact Nat.lt_succ_of_le (length_dropWhile_le _ _)
  · split at h
    · rename_i hs
      cases h
      exact length_takeSymbol?_lt hs
    · cases h

/-! ### The whole source -/

/-- The tokens from a position on, after those already read, and the end. -/
def scanFrom (p : Position) (cs : List Char) (tokens : Array Token) :
    Except ScriptError TokenStream :=
  match _hg : skipGap .blank p cs with
  | .error e => .error e
  | .ok (q, []) => .ok { tokens := tokens.toList, stop := q.here }
  | .ok (q, c :: rest) =>
    match _hs : scanToken q c rest with
    | .error e => .error e
    | .ok scanned =>
      scanFrom scanned.position scanned.rest
        (tokens.push
          { kind := scanned.kind, span := q.through scanned.position, lexeme := scanned.lexeme })
termination_by cs.length
decreasing_by
  exact Nat.lt_of_lt_of_le (length_scanToken_lt ‹_›) (length_skipGap_le ‹_›)

/-- **The tokens of a source.** -/
def TokenStream.ofSource (source : String) : Except ScriptError TokenStream :=
  scanFrom .start source.toList #[]

end DeployScript
