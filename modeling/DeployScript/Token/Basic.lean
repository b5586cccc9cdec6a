import DeployScript.Number.Decimal

/-!
# Tokens

What a script is made of before it has structure: a kind, the place in the source and the text
there.

* `Span` is a place in a source, `Position` one end of it.
* `Symbol` lists the tokens that are always spelled alike, `TokenKind` all tokens.
* `TokenStream` is a list of tokens with the place where the source ends. The end is no token of
  the list, so a reader of the stream always has something to look at.
-/

namespace DeployScript

/-! ### Places in a source -/

/-- A place in a source: byte offsets, and the line and column where it starts. Lines count from
1, columns count characters from 1. Column 0 marks a place of which only the line is known. -/
structure Span where
  start : Nat
  stop : Nat
  line : Nat
  column : Nat
  deriving Repr, DecidableEq, Inhabited

namespace Span

/-- From the start of one place to the end of another. -/
def through (first last : Span) : Span := { first with stop := last.stop }

/-- A place of which only the line is known. -/
def ofLine (line : Nat) : Span := { start := 0, stop := 0, line, column := 0 }

end Span

/-- A point between two characters of a source. -/
structure Position where
  offset : Nat
  line : Nat
  column : Nat
  deriving Repr, DecidableEq, Inhabited

namespace Position

/-- Where a source begins. -/
def start : Position := { offset := 0, line := 1, column := 1 }

/-- Past a character that stays on its line. -/
def step (p : Position) (c : Char) : Position :=
  { p with offset := p.offset + c.utf8Size, column := p.column + 1 }

/-- Past a line feed. -/
def newline (p : Position) : Position :=
  { offset := p.offset + 1, line := p.line + 1, column := 1 }

/-- Past characters that stay on their line. -/
def steps (p : Position) (cs : List Char) : Position := cs.foldl step p

/-- The place between two points. -/
def through (first last : Position) : Span :=
  { start := first.offset, stop := last.offset, line := first.line, column := first.column }

/-- The empty place at a point. -/
def here (p : Position) : Span := p.through p

end Position

/-! ### Kinds of tokens -/

/-- Tokens with a fixed spelling: keywords, operators and brackets. -/
inductive Symbol
  | true_ | false_ | nil
  | var | let_ | fn | return_ | if_ | else_ | while_ | for_ | in_ | break_ | continue_
  | plus | minus | star | slash | percent
  | equal | equalEqual | bangEqual | less | lessEqual | greater | greaterEqual
  | and | or | bang
  | leftParen | rightParen | leftBrace | rightBrace | leftBracket | rightBracket
  | comma | semicolon | colon | dot
  deriving Repr, DecidableEq, Inhabited

namespace Symbol

/-- The usual spelling. -/
def text : Symbol → String
  | true_ => "true"
  | false_ => "false"
  | nil => "nil"
  | var => "var"
  | let_ => "let"
  | fn => "fn"
  | return_ => "return"
  | if_ => "if"
  | else_ => "else"
  | while_ => "while"
  | for_ => "for"
  | in_ => "in"
  | break_ => "break"
  | continue_ => "continue"
  | plus => "+"
  | minus => "-"
  | star => "*"
  | slash => "/"
  | percent => "%"
  | equal => "="
  | equalEqual => "=="
  | bangEqual => "!="
  | less => "<"
  | lessEqual => "<="
  | greater => ">"
  | greaterEqual => ">="
  | and => "and"
  | or => "or"
  | bang => "!"
  | leftParen => "("
  | rightParen => ")"
  | leftBrace => "\x7b"
  | rightBrace => "\x7d"
  | leftBracket => "["
  | rightBracket => "]"
  | comma => ","
  | semicolon => ";"
  | colon => ":"
  | dot => "."

/-- The keyword that a word is, if it is one. Two of them have a second spelling. -/
def ofWord? : String → Option Symbol
  | "var" => some var
  | "let" => some let_
  | "fn" => some fn
  | "function" => some fn
  | "return" => some return_
  | "if" => some if_
  | "else" => some else_
  | "while" => some while_
  | "for" => some for_
  | "in" => some in_
  | "break" => some break_
  | "continue" => some continue_
  | "true" => some true_
  | "false" => some false_
  | "nil" => some nil
  | "null" => some nil
  | "and" => some and
  | "or" => some or
  | _ => none

/-- All spellings of operators and brackets, a longer one before each shorter one that begins
it. -/
def spellings : List (List Char × Symbol) :=
  [(['=', '=', '='], equalEqual), (['!', '=', '='], bangEqual),
   (['=', '='], equalEqual), (['!', '='], bangEqual), (['<', '='], lessEqual),
   (['>', '='], greaterEqual), (['&', '&'], and), (['|', '|'], or),
   (['('], leftParen), ([')'], rightParen), (['\x7b'], leftBrace), (['\x7d'], rightBrace),
   (['['], leftBracket), ([']'], rightBracket), ([','], comma), ([';'], semicolon),
   ([':'], colon), (['.'], dot), (['+'], plus), (['-'], minus), (['*'], star), (['/'], slash),
   (['%'], percent), (['='], equal), (['!'], bang), (['<'], less), (['>'], greater)]

end Symbol

/-- What a token is. -/
inductive TokenKind
  | number (value : Float)
  | text (value : String)
  | word (name : String)
  | symbol (symbol : Symbol)
  | newline
  deriving Inhabited

namespace TokenKind

/-- How messages show a token. -/
def shown : TokenKind → String
  | number value => Number.text value
  | text value => "\"" ++ value ++ "\""
  | word name => name
  | symbol s => s.text
  | newline => "\\n"

end TokenKind

/-- A token: its kind, its place, and the text of the source there. -/
structure Token where
  kind : TokenKind
  span : Span
  lexeme : String
  deriving Inhabited

/-- The tokens of a source and the place of its end. -/
structure TokenStream where
  tokens : List Token
  stop : Span
  deriving Inhabited

end DeployScript
