import DeployScript.Error
import DeployScript.Program.Basic
import DeployScript.Token.Lexer

/-!
# Programs from tokens

`Program.ofTokens` reads a stream of tokens as a program. Blocks, expressions, the values of
assignments and the operands of prefix operators nest, and nesting is bounded: the parsers that
open a level are given to all others as an `Inner`, and `levels` builds the `Inner` of each depth
from the one below it. Within a level nothing is recursive but loops:

* a chain of operators of one precedence has at most `maxChain` of them,
* a chain of accesses has at most as many as there are levels left, since each wraps the one
  before,
* lists end with the tokens.
-/

namespace DeployScript

/-- Deepest nesting of blocks, groups and operands. -/
def maxNesting : Nat := 64

/-- Most operators of one precedence in a row. -/
def maxChain : Nat := 256

/-- A parser reads from the front of a stream of tokens, or fails. -/
abbrev Parser (α : Type) := StateT TokenStream (Except ScriptError) α

namespace Parser

/-! ### One token -/

/-- The kind of the next token, if the source has not ended. -/
def peek : Parser (Option TokenKind) := do
  return (← get).tokens.head?.map (·.kind)

/-- The place of the next token, or of the end. -/
def place : Parser Span := do
  let s ← get
  return (s.tokens.head?.map (·.span)).getD s.stop

/-- The next token as messages show it. -/
def shown : Parser String := do
  return ((← peek).map TokenKind.shown).getD "EOF"

/-- Goes over the next token. -/
def advance : Parser Unit := modify fun s => { s with tokens := s.tokens.tail }

/-- Fails at the next token. -/
def failHere {α : Type} (cause : Cause) : Parser α := do
  throw (.at_ cause (← place))

/-- Fails because something else was waited for. -/
def failExpected {α : Type} (wanted : Expectation) : Parser α := do
  failHere (.expectedToken wanted (← shown))

/-- The next token if it has a fixed spelling. -/
def peekSymbol : Parser (Option Symbol) := do
  match ← peek with
  | some (.symbol s) => return some s
  | _ => return none

/-- Whether the next token is the symbol. -/
def at_ (s : Symbol) : Parser Bool := do
  return (← peekSymbol) = some s

/-- Goes over the symbol if it is next. -/
def accept (s : Symbol) : Parser Bool := do
  if ← at_ s then
    advance
    return true
  else return false

/-- Goes over the symbol, which has to be next, and gives its place. -/
def expect (s : Symbol) (wanted : Expectation) : Parser Span := do
  let span ← place
  if ← accept s then return span else failExpected wanted

/-- Goes over a word, which has to be next, and gives it with its place. -/
def expectWord (wanted : Expectation) : Parser (String × Span) := do
  let span ← place
  match ← peek with
  | some (.word name) =>
    advance
    return (name, span)
  | _ => failExpected wanted

/-! ### Ends of lines and statements -/

/-- Whether a token is a line feed. -/
def isNewline (t : Token) : Bool :=
  match t.kind with
  | .newline => true
  | _ => false

/-- Whether a token ends a statement. -/
def isTerminator (t : Token) : Bool :=
  match t.kind with
  | .newline | .symbol .semicolon => true
  | _ => false

/-- Goes over line feeds. -/
def skipNewlines : Parser Unit :=
  modify fun s => { s with tokens := s.tokens.dropWhile isNewline }

/-- Goes over line feeds and semicolons. -/
def skipTerminators : Parser Unit :=
  modify fun s => { s with tokens := s.tokens.dropWhile isTerminator }

/-- Whether the source has ended. -/
def atEnd : Parser Bool := do
  return (← get).tokens.isEmpty

/-- Whether the next token ends a statement, or the block or source that it stands in. -/
def atStatementEnd : Parser Bool := do
  match (← get).tokens with
  | [] => return true
  | t :: _ =>
    match t.kind with
    | .newline | .symbol .semicolon | .symbol .rightBrace => return true
    | _ => return false

/-- A statement has to end here. -/
def endStatement : Parser Unit := do
  if ← atStatementEnd then skipTerminators
  else failHere (.unexpectedToken (← shown))

/-! ### Expressions -/

/-- **The parsers that open a level of nesting,** and what bounds the loops beside them: how many
levels are left and how many tokens the source has. -/
structure Inner where
  room : Nat
  tokens : Nat
  block : Parser (List Stmt)
  assignment : Parser Expr
  unary : Parser Expr

/-- Items up to a closing symbol, which is left to be read. Line feeds may surround items, and a
comma may follow the last. -/
def delimited {α : Type} (close : Symbol) (item : Parser α) :
    (fuel : Nat) → (items : Array α) → Parser (List α)
  | 0, items => return items.toList
  | fuel + 1, items => do
    if ← at_ close then return items.toList
    else
      let items := items.push (← item)
      skipNewlines
      if ← accept .comma then
        skipNewlines
        delimited close item fuel items
      else return items.toList

/-- A key, a colon and a value. -/
def recordField (inner : Inner) : Parser (String × Expr) := do
  let key ← match ← peek with
    | some (.word name) => pure name
    | some (.text value) => pure value
    | _ => failExpected .recordKey
  advance
  let _ ← expect .colon .colonAfterKey
  skipNewlines
  return (key, ← inner.assignment)

/-- An expression that is one token or stands in brackets. -/
def primary (inner : Inner) : Parser Expr := do
  let span ← place
  match ← peek with
  | some (.number value) =>
    advance
    return .number value span
  | some (.text value) =>
    advance
    return .text value span
  | some (.word name) =>
    advance
    return .name name span
  | some (.symbol .true_) =>
    advance
    return .bool true span
  | some (.symbol .false_) =>
    advance
    return .bool false span
  | some (.symbol .nil) =>
    advance
    return .nil span
  | some (.symbol .leftParen) =>
    advance
    skipNewlines
    let e ← inner.assignment
    skipNewlines
    let _ ← expect .rightParen .parenAfterExpression
    return .group e span
  | some (.symbol .leftBracket) =>
    advance
    skipNewlines
    let elements ← delimited .rightBracket inner.assignment inner.tokens #[]
    let stop ← expect .rightBracket .bracketAfterElements
    return .array elements (span.through stop)
  | some (.symbol .leftBrace) =>
    advance
    skipNewlines
    let fields ← delimited .rightBrace (recordField inner) inner.tokens #[]
    let stop ← expect .rightBrace .braceAfterFields
    return .record fields (span.through stop)
  | _ => failHere .expectedExpression

/-- Calls, properties and indexes after an expression, at most `room` of them. -/
def accesses (inner : Inner) : (room : Nat) → Expr → Parser Expr
  | room, e => do
    match ← peekSymbol with
    | some .leftParen =>
      match room with
      | 0 => failHere (.limitExceeded .nesting)
      | room + 1 =>
        advance
        skipNewlines
        let args ← delimited .rightParen inner.assignment inner.tokens #[]
        let stop ← expect .rightParen .parenAfterArguments
        accesses inner room (.call e args (e.span.through stop))
    | some .dot =>
      match room with
      | 0 => failHere (.limitExceeded .nesting)
      | room + 1 =>
        advance
        let (name, stop) ← expectWord .propertyName
        accesses inner room (.get e name (e.span.through stop))
    | some .leftBracket =>
      match room with
      | 0 => failHere (.limitExceeded .nesting)
      | room + 1 =>
        advance
        skipNewlines
        let index ← inner.assignment
        skipNewlines
        let stop ← expect .rightBracket .bracketAfterIndex
        accesses inner room (.index e index (e.span.through stop))
    | _ => return e

/-- An expression with its accesses. -/
def access (inner : Inner) : Parser Expr := do
  accesses inner inner.room (← primary inner)

/-- Prefix operators. -/
def unary (inner : Inner) : Parser Expr := do
  let span ← place
  if ← accept .minus then return .unary .neg (← inner.unary) span
  else if ← accept .bang then return .unary .not (← inner.unary) span
  else access inner

/-- What an operator makes of its operands. -/
abbrev Combine := Expr → Expr → Span → Expr

/-- Operators of one precedence after a left operand, at most `chain` of them, grouped to the
left. -/
def operators (operand : Parser Expr) (combine? : Symbol → Option Combine) :
    (chain : Nat) → Expr → Parser Expr
  | chain, left => do
    match (← peekSymbol).bind combine? with
    | none => return left
    | some combine =>
      advance
      match chain with
      | 0 => failHere (.limitExceeded .operatorChain)
      | chain + 1 =>
        skipNewlines
        let right ← operand
        operators operand combine? chain (combine left right (left.span.through right.span))

/-- An operator with two operands as a node. -/
def combineBinary (op : BinaryOp) : Combine := fun left right span => .binary left op right span

/-- A logical operator as a node. -/
def combineLogical (op : LogicalOp) : Combine := fun left right span => .logical left op right span

/-- The operators of each precedence, from the tightest to the loosest. -/
def factorOp? : Symbol → Option Combine
  | .star => some (combineBinary .mul)
  | .slash => some (combineBinary .div)
  | .percent => some (combineBinary .mod)
  | _ => none

@[inherit_doc factorOp?]
def termOp? : Symbol → Option Combine
  | .plus => some (combineBinary .add)
  | .minus => some (combineBinary .sub)
  | _ => none

@[inherit_doc factorOp?]
def comparisonOp? : Symbol → Option Combine
  | .less => some (combineBinary .lt)
  | .lessEqual => some (combineBinary .le)
  | .greater => some (combineBinary .gt)
  | .greaterEqual => some (combineBinary .ge)
  | _ => none

@[inherit_doc factorOp?]
def equalityOp? : Symbol → Option Combine
  | .equalEqual => some (combineBinary .eq)
  | .bangEqual => some (combineBinary .ne)
  | _ => none

@[inherit_doc factorOp?]
def andOp? : Symbol → Option Combine
  | .and => some (combineLogical .and)
  | _ => none

@[inherit_doc factorOp?]
def orOp? : Symbol → Option Combine
  | .or => some (combineLogical .or)
  | _ => none

/-- One precedence: operands with operators between them. -/
def level (operand : Parser Expr) (combine? : Symbol → Option Combine) : Parser Expr := do
  operators operand combine? maxChain (← operand)

/-- Everything that binds tighter than an assignment. -/
def operation (inner : Inner) : Parser Expr :=
  let factor := level (unary inner) factorOp?
  let term := level factor termOp?
  let comparison := level term comparisonOp?
  let equality := level comparison equalityOp?
  let conjunction := level equality andOp?
  level conjunction orOp?

/-- The assignment to what an expression denotes, if it denotes a place. -/
def assignTo? (value : Expr) : Expr → Option Expr
  | .name name span => some (.assign name value span)
  | .get object name span => some (.set object name value span)
  | .index object index span => some (.setIndex object index value span)
  | _ => none

/-- An expression: an operation, or an assignment of a value to one. -/
def assignment (inner : Inner) : Parser Expr := do
  let target ← operation inner
  let equals ← place
  if ← accept .equal then
    skipNewlines
    let value ← inner.assignment
    match assignTo? value target with
    | some e => return e
    | none => throw (.at_ .invalidAssignmentTarget equals)
  else return target

/-! ### Statements -/

/-- A mutable variable, perhaps with a value. -/
def varDeclaration (inner : Inner) : Parser Stmt := do
  let span ← place
  advance
  let (name, _) ← expectWord .variableName
  let value ← if ← accept .equal then pure (some (← inner.assignment)) else pure none
  endStatement
  return .var name value span

/-- An immutable variable with its value. -/
def letDeclaration (inner : Inner) : Parser Stmt := do
  let span ← place
  advance
  let (name, _) ← expectWord .variableName
  let _ ← expect .equal .equalAfterName
  let value ← inner.assignment
  endStatement
  return .let_ name value span

/-- Names with commas between them; none may follow the last. -/
def parameters : (fuel : Nat) → (names : Array String) → Parser (List String)
  | 0, names => return names.toList
  | fuel + 1, names => do
    skipNewlines
    let (name, _) ← expectWord .parameterName
    skipNewlines
    if ← accept .comma then parameters fuel (names.push name)
    else return (names.push name).toList

/-- A function with its parameters and its body. -/
def functionDeclaration (inner : Inner) : Parser Stmt := do
  let span ← place
  advance
  let (name, _) ← expectWord .functionName
  let _ ← expect .leftParen .parenAfterFunctionName
  skipNewlines
  let params ← if ← at_ .rightParen then pure [] else parameters inner.tokens #[]
  let _ ← expect .rightParen .parenAfterParameters
  skipNewlines
  let _ ← expect .leftBrace .braceBeforeFunctionBody
  let body ← inner.block
  return .function name params body span

/-- The block after an `else`. -/
def elseBlock (inner : Inner) (span : Span) : Parser Stmt := do
  let _ ← expect .leftBrace .braceAfterElse
  return .block (← inner.block) span

/-- A conditional, given the parser of what follows its `else`. The line feeds before an `else` are
only gone over if there is one. -/
def conditionalWith (inner : Inner) (orElse : Span → Parser Stmt) : Parser Stmt := do
  let span ← place
  advance
  let condition ← inner.assignment
  skipNewlines
  let _ ← expect .leftBrace .braceAfterIf
  let body ← inner.block
  let before ← get
  skipNewlines
  if ← accept .else_ then
    skipNewlines
    return .if_ condition body (some (← orElse span)) span
  else
    set before
    return .if_ condition body none span

/-- A conditional with the conditionals that follow each `else`. -/
def conditional (inner : Inner) : (fuel : Nat) → Parser Stmt
  | 0 => conditionalWith inner (elseBlock inner)
  | fuel + 1 => conditionalWith inner fun span => do
    if ← at_ .if_ then conditional inner fuel else elseBlock inner span

/-- A loop with a condition. -/
def whileLoop (inner : Inner) : Parser Stmt := do
  let span ← place
  advance
  let condition ← inner.assignment
  skipNewlines
  let _ ← expect .leftBrace .braceAfterWhile
  return .while_ condition (← inner.block) span

/-- A loop over a container. The clause may stand in parentheses and declare its variable. -/
def forLoop (inner : Inner) : Parser Stmt := do
  let span ← place
  advance
  let parenthesized ← accept .leftParen
  if ← at_ .var then advance
  else if ← at_ .let_ then advance
  let (name, _) ← expectWord .loopVariable
  let _ ← expect .in_ .inAfterVariable
  let iterable ← inner.assignment
  if parenthesized then
    let _ ← expect .rightParen .parenAfterClause
  skipNewlines
  let _ ← expect .leftBrace .braceAfterClause
  return .for_ name iterable (← inner.block) span

/-- A return, with a value unless the statement ends. -/
def returnStatement (inner : Inner) : Parser Stmt := do
  let span ← place
  advance
  let value ← if ← atStatementEnd then pure none else pure (some (← inner.assignment))
  endStatement
  return .return_ value span

/-- A statement. -/
def statement (inner : Inner) : Parser Stmt := do
  match ← peekSymbol with
  | some .var => varDeclaration inner
  | some .let_ => letDeclaration inner
  | some .fn => functionDeclaration inner
  | some .if_ => conditional inner inner.tokens
  | some .while_ => whileLoop inner
  | some .for_ => forLoop inner
  | some .return_ => returnStatement inner
  | some .break_ =>
    let span ← place
    advance
    endStatement
    return .break_ span
  | some .continue_ =>
    let span ← place
    advance
    endStatement
    return .continue_ span
  | some .leftBrace =>
    let span ← place
    advance
    return .block (← inner.block) span
  | _ =>
    let e ← inner.assignment
    endStatement
    return .expr e

/-- Statements up to a closing brace, which is left to be read, or to the end. -/
def statements (inner : Inner) : (fuel : Nat) → (body : Array Stmt) → Parser (List Stmt)
  | 0, body => return body.toList
  | fuel + 1, body => do
    skipTerminators
    if (← at_ .rightBrace) || (← atEnd) then return body.toList
    else statements inner fuel (body.push (← statement inner))

/-- Statements and the closing brace. -/
def blockBody (inner : Inner) : Parser (List Stmt) := do
  let body ← statements inner inner.tokens #[]
  let _ ← expect .rightBrace .braceAfterBlock
  return body

/-! ### Levels -/

/-- The parsers that open a level of nesting, with `room` levels left. -/
def levels (tokens : Nat) : (room : Nat) → Inner
  | 0 =>
    { room := 0
      tokens
      block := failHere (.limitExceeded .nesting)
      assignment := failHere (.limitExceeded .nesting)
      unary := failHere (.limitExceeded .nesting) }
  | room + 1 =>
    let inner := levels tokens room
    { room := room + 1
      tokens
      block := blockBody inner
      assignment := assignment inner
      unary := unary inner }

/-- Statements up to the end. -/
def program (inner : Inner) : (fuel : Nat) → (body : Array Stmt) → Parser Program
  | 0, body => return { statements := body.toList }
  | fuel + 1, body => do
    skipTerminators
    if ← atEnd then return { statements := body.toList }
    else program inner fuel (body.push (← statement inner))

end Parser

/-- **The program that the tokens spell.** -/
def Program.ofTokens (stream : TokenStream) : Except ScriptError Program := do
  let tokens := stream.tokens.length + 1
  let (program, _) ← (Parser.program (Parser.levels tokens maxNesting) tokens #[]).run stream
  return program

/-- The program of a source. -/
def Program.ofSource (source : String) : Except ScriptError Program := do
  Program.ofTokens (← TokenStream.ofSource source)

end DeployScript
