import DeployScript.Program.Parser

/-!
# Reading with a position

`Program.ofTokens` takes tokens from the front of what is left of a stream. Here programs are read from a list
of tokens that stays as it is, the last of which is the end of the source: a position moves over it, the levels
of nesting that are open are counted, and nothing bounds the calls and the turns of loops in advance but a
number that is given from outside.

* `TokenCursor` — the tokens, the position and the open levels.
* `Fault` — what must not happen: an access outside the tokens, a position behind their end, a level closed
  that is not open, or more calls and turns than were allowed.
* `Reader` — gives an answer or an error of the script, and leaves a cursor in either case; or has a fault.
* `Reader.Calls` — the readers that open a level; `Reader.calls` builds them from each other.
* `Reader.program` — the statements of a list of tokens.
-/

namespace DeployScript

/-- What stands at a place of a list of tokens: a token, or the end of the source, which has no kind. -/
structure Slot where
  kind : Option TokenKind
  span : Span

/-- A token at its place. -/
def Token.slot (t : Token) : Slot := { kind := some t.kind, span := t.span }

/-- **The tokens with their end** as the last of them. -/
def TokenStream.slots (s : TokenStream) : List Slot :=
  s.tokens.map Token.slot ++ [{ kind := none, span := s.stop }]

/-- **Where reading is:** at a position of the tokens and within some levels of nesting. -/
structure TokenCursor where
  stream : TokenStream
  current : Nat
  depth : Nat

/-- What must not happen to a cursor. -/
inductive Fault
  /-- A token outside the list is looked at. -/
  | outOfRange
  /-- The token in front of the first one is looked at. -/
  | beforeFirst
  /-- The position moves behind the end. -/
  | pastEnd
  /-- A level is closed while none is open. -/
  | unopened
  /-- There are more calls or turns than were allowed. -/
  | outOfFuel
  deriving DecidableEq

/-- **A reader** goes from a cursor to an answer or an error of the script, and to a cursor in both cases. -/
abbrev Reader (α : Type) := ExceptT ScriptError (StateT TokenCursor (Except Fault)) α

namespace Slot

/-- The symbol there. -/
def symbol? (slot : Slot) : Option Symbol :=
  match slot.kind with
  | some (.symbol s) => some s
  | _ => none

/-- How messages show what is there. -/
def shown (slot : Slot) : String := (slot.kind.map TokenKind.shown).getD "EOF"

/-- Whether a line ends there. -/
def isNewline (slot : Slot) : Bool :=
  match slot.kind with
  | some .newline => true
  | _ => false

/-- Whether a token is there that ends a statement. -/
def isTerminator (slot : Slot) : Bool :=
  match slot.kind with
  | some .newline | some (.symbol .semicolon) => true
  | _ => false

/-- Whether a statement may end in front of it. -/
def endsStatement (slot : Slot) : Bool :=
  match slot.kind with
  | none | some .newline | some (.symbol .semicolon) | some (.symbol .rightBrace) => true
  | _ => false

end Slot

namespace Reader

open DeployScript.Parser (assignTo? Combine factorOp? termOp? comparisonOp? equalityOp? andOp? orOp?)

variable {α : Type}

/-! ### One token -/

/-- Something that must not happen. -/
def fault (f : Fault) : Reader α := fun _ => .error f

/-- What stands at a place of the list. -/
def slotAt (i : Nat) : Reader Slot := do
  match (← get).stream.slots[i]? with
  | some slot => return slot
  | none => fault .outOfRange

/-- What stands at the position. -/
def peek : Reader Slot := do
  slotAt (← get).current

/-- What stands in front of the position. -/
def previous : Reader Slot := do
  match (← get).current with
  | 0 => fault .beforeFirst
  | i + 1 => slotAt i

/-- Moves the position, which has to stay within the list. -/
def moveTo (i : Nat) : Reader Unit := do
  let c ← get
  if i < c.stream.slots.length then set { c with current := i } else fault .pastEnd

/-- Whether the position is at the end. -/
def isAtEnd : Reader Bool := do
  return (← peek).kind.isNone

/-- Goes over a token, but never over the end, and gives what the position is behind of then. -/
def advance : Reader Slot := do
  if ← isAtEnd then previous
  else
    moveTo ((← get).current + 1)
    previous

/-- Fails at the position. -/
def failHere (cause : Cause) : Reader α := do
  throw (.at_ cause (← peek).span)

/-- Fails because something else was waited for. -/
def failExpected (wanted : Expectation) : Reader α := do
  failHere (.expectedToken wanted (← peek).shown)

/-- Whether a symbol is next. -/
def check (s : Symbol) : Reader Bool := do
  return (← peek).symbol? = some s

/-- Goes over a symbol if it is next. -/
def accept (s : Symbol) : Reader Bool := do
  if ← check s then
    let _ ← advance
    return true
  else return false

/-- Goes over a symbol, which has to be next, and gives its place. -/
def expect (s : Symbol) (wanted : Expectation) : Reader Span := do
  if ← check s then return (← advance).span else failExpected wanted

/-- Goes over a word, which has to be next. -/
def expectWord (wanted : Expectation) : Reader String := do
  match (← peek).kind with
  | some (.word name) =>
    let _ ← advance
    return name
  | _ => failExpected wanted

/-- Goes over tokens of a sort. -/
def skipWhile (sort : Slot → Bool) : (turns : Nat) → Reader Unit
  | 0 => fault .outOfFuel
  | turns + 1 => do
    if sort (← peek) then
      let _ ← advance
      skipWhile sort turns
    else return ()

/-- Goes over line feeds. -/
abbrev skipNewlines (turns : Nat) : Reader Unit := skipWhile Slot.isNewline turns

/-- Goes over line feeds and semicolons. -/
abbrev skipTerminators (turns : Nat) : Reader Unit := skipWhile Slot.isTerminator turns

/-- A statement has to end here. -/
def endStatement (turns : Nat) : Reader Unit := do
  if (← peek).endsStatement then skipTerminators turns
  else failHere (.unexpectedToken (← peek).shown)

/-! ### Levels -/

/-- Opens a level, of which there may only be so many. -/
def enter : Reader Unit := do
  let c ← get
  if maxNesting ≤ c.depth then failHere (.limitExceeded .nesting)
  else set { c with depth := c.depth + 1 }

/-- Closes a level. -/
def leave : Reader Unit := do
  let c ← get
  match c.depth with
  | 0 => fault .unopened
  | depth + 1 => set { c with depth }

/-- **Reads within one more level,** which is closed whether reading fails or not. -/
def nested (read : Reader α) : Reader α := do
  enter
  let result ← ExceptT.lift read.run
  leave
  MonadExcept.ofExcept result

/-- **The readers that run within a level of their own,** and how many turns a loop may take. -/
structure Calls where
  turns : Nat
  block : Reader (List Stmt)
  assignment : Reader Expr
  unary : Reader Expr

/-- An expression stands in a level of its own. -/
def expression (calls : Calls) : Reader Expr := nested calls.assignment

/-- The statements of a block stand in a level of their own. -/
def blockStatements (calls : Calls) : Reader (List Stmt) := nested calls.block

/-! ### Expressions -/

/-- Items up to a closing symbol, which is left to be read. -/
def delimited (limit : Nat) (close : Symbol) (item : Reader α) :
    (turns : Nat) → (items : Array α) → Reader (List α)
  | 0, _ => fault .outOfFuel
  | turns + 1, items => do
    if ← check close then return items.toList
    else
      let items := items.push (← item)
      skipNewlines limit
      if ← accept .comma then
        skipNewlines limit
        delimited limit close item turns items
      else return items.toList

/-- A key, a colon and a value. -/
def recordField (calls : Calls) : Reader (String × Expr) := do
  let key ← match (← peek).kind with
    | some (.word name) => pure name
    | some (.text value) => pure value
    | _ => failExpected .recordKey
  let _ ← advance
  let _ ← expect .colon .colonAfterKey
  skipNewlines calls.turns
  return (key, ← expression calls)

/-- An expression that is one token or stands in brackets. -/
def primary (calls : Calls) : Reader Expr := do
  let ⟨kind, span⟩ ← peek
  match kind with
  | some (.number value) =>
    let _ ← advance
    return .number value span
  | some (.text value) =>
    let _ ← advance
    return .text value span
  | some (.word name) =>
    let _ ← advance
    return .name name span
  | some (.symbol .true_) =>
    let _ ← advance
    return .bool true span
  | some (.symbol .false_) =>
    let _ ← advance
    return .bool false span
  | some (.symbol .nil) =>
    let _ ← advance
    return .nil span
  | some (.symbol .leftParen) =>
    let _ ← advance
    skipNewlines calls.turns
    let e ← expression calls
    skipNewlines calls.turns
    let _ ← expect .rightParen .parenAfterExpression
    return .group e span
  | some (.symbol .leftBracket) =>
    let _ ← advance
    skipNewlines calls.turns
    let elements ← delimited calls.turns .rightBracket (expression calls) calls.turns #[]
    let stop ← expect .rightBracket .bracketAfterElements
    return .array elements (span.through stop)
  | some (.symbol .leftBrace) =>
    let _ ← advance
    skipNewlines calls.turns
    let fields ← delimited calls.turns .rightBrace (recordField calls) calls.turns #[]
    let stop ← expect .rightBrace .braceAfterFields
    return .record fields (span.through stop)
  | _ => throw (.at_ .expectedExpression span)

/-- One more access after `count` of them counts as a level of nesting. -/
def extendAccesses (count : Nat) : Reader Unit := do
  if maxNesting < (← get).depth + (count + 1) then failHere (.limitExceeded .nesting)
  else return ()

/-- Calls, properties and indexes after an expression. -/
def accesses (calls : Calls) : (turns : Nat) → (count : Nat) → Expr → Reader Expr
  | 0, _, _ => fault .outOfFuel
  | turns + 1, count, e => do
    match (← peek).symbol? with
    | some .leftParen =>
      extendAccesses count
      let _ ← advance
      skipNewlines calls.turns
      let args ← delimited calls.turns .rightParen (expression calls) calls.turns #[]
      let stop ← expect .rightParen .parenAfterArguments
      accesses calls turns (count + 1) (.call e args (e.span.through stop))
    | some .dot =>
      extendAccesses count
      let _ ← advance
      let name ← expectWord .propertyName
      let stop := (← previous).span
      accesses calls turns (count + 1) (.get e name (e.span.through stop))
    | some .leftBracket =>
      extendAccesses count
      let _ ← advance
      skipNewlines calls.turns
      let index ← expression calls
      skipNewlines calls.turns
      let stop ← expect .rightBracket .bracketAfterIndex
      accesses calls turns (count + 1) (.index e index (e.span.through stop))
    | _ => return e

/-- An expression with its accesses. -/
def access (calls : Calls) : Reader Expr := do
  accesses calls calls.turns 0 (← primary calls)

/-- Prefix operators. -/
def unary (calls : Calls) : Reader Expr := do
  if ← accept .minus then
    let span := (← previous).span
    return .unary .neg (← nested calls.unary) span
  else if ← accept .bang then
    let span := (← previous).span
    return .unary .not (← nested calls.unary) span
  else access calls

/-- Operators of one precedence after a left operand, behind `chain` others. -/
def operators (limit : Nat) (operand : Reader Expr) (combine? : Symbol → Option Combine) :
    (turns : Nat) → (chain : Nat) → Expr → Reader Expr
  | 0, _, _ => fault .outOfFuel
  | turns + 1, chain, left => do
    match (← peek).symbol?.bind combine? with
    | none => return left
    | some combine =>
      let _ ← advance
      if maxChain < chain + 1 then failHere (.limitExceeded .operatorChain)
      else
        skipNewlines limit
        let right ← operand
        operators limit operand combine? turns (chain + 1)
          (combine left right (left.span.through right.span))

/-- One precedence: operands with operators between them. -/
def level (turns : Nat) (operand : Reader Expr) (combine? : Symbol → Option Combine) :
    Reader Expr := do
  operators turns operand combine? turns 0 (← operand)

/-- Everything that binds tighter than an assignment. -/
def operation (calls : Calls) : Reader Expr :=
  let factor := level calls.turns (unary calls) factorOp?
  let term := level calls.turns factor termOp?
  let comparison := level calls.turns term comparisonOp?
  let equality := level calls.turns comparison equalityOp?
  let conjunction := level calls.turns equality andOp?
  level calls.turns conjunction orOp?

/-- An expression: an operation, or an assignment of a value to one. -/
def assignment (calls : Calls) : Reader Expr := do
  let target ← operation calls
  if ← accept .equal then
    let equals := (← previous).span
    skipNewlines calls.turns
    let value ← nested calls.assignment
    match assignTo? value target with
    | some e => return e
    | none => throw (.at_ .invalidAssignmentTarget equals)
  else return target

/-! ### Statements -/

/-- A mutable variable, perhaps with a value. -/
def varDeclaration (calls : Calls) : Reader Stmt := do
  let span := (← advance).span
  let name ← expectWord .variableName
  let value ← if ← accept .equal then pure (some (← expression calls)) else pure none
  endStatement calls.turns
  return .var name value span

/-- An immutable variable with its value. -/
def letDeclaration (calls : Calls) : Reader Stmt := do
  let span := (← advance).span
  let name ← expectWord .variableName
  let _ ← expect .equal .equalAfterName
  let value ← expression calls
  endStatement calls.turns
  return .let_ name value span

/-- Names with commas between them. -/
def parameters (limit : Nat) : (turns : Nat) → (names : Array String) → Reader (List String)
  | 0, _ => fault .outOfFuel
  | turns + 1, names => do
    skipNewlines limit
    let name ← expectWord .parameterName
    skipNewlines limit
    if ← accept .comma then parameters limit turns (names.push name)
    else return (names.push name).toList

/-- A function with its parameters and its body. -/
def functionDeclaration (calls : Calls) : Reader Stmt := do
  let span := (← advance).span
  let name ← expectWord .functionName
  let _ ← expect .leftParen .parenAfterFunctionName
  skipNewlines calls.turns
  let params ← if ← check .rightParen then pure [] else parameters calls.turns calls.turns #[]
  let _ ← expect .rightParen .parenAfterParameters
  skipNewlines calls.turns
  let _ ← expect .leftBrace .braceBeforeFunctionBody
  let body ← blockStatements calls
  return .function name params body span

/-- The block after an `else`. -/
def elseBlock (calls : Calls) (span : Span) : Reader Stmt := do
  let _ ← expect .leftBrace .braceAfterElse
  return .block (← blockStatements calls) span

/-- A conditional with the conditionals that follow each `else`. The line feeds before an `else` are only gone
over if there is one: if there is none, the position goes back. -/
def conditional (calls : Calls) : (turns : Nat) → Reader Stmt
  | 0 => fault .outOfFuel
  | turns + 1 => do
    let span := (← advance).span
    let condition ← expression calls
    skipNewlines calls.turns
    let _ ← expect .leftBrace .braceAfterIf
    let body ← blockStatements calls
    let checkpoint := (← get).current
    skipNewlines calls.turns
    if ← accept .else_ then
      skipNewlines calls.turns
      let other ← if ← check .if_ then conditional calls turns else elseBlock calls span
      return .if_ condition body (some other) span
    else
      moveTo checkpoint
      return .if_ condition body none span

/-- A loop with a condition. -/
def whileLoop (calls : Calls) : Reader Stmt := do
  let span := (← advance).span
  let condition ← expression calls
  skipNewlines calls.turns
  let _ ← expect .leftBrace .braceAfterWhile
  return .while_ condition (← blockStatements calls) span

/-- A loop over a container. -/
def forLoop (calls : Calls) : Reader Stmt := do
  let span := (← advance).span
  let parenthesized ← accept .leftParen
  if ← check .var then
    let _ ← advance
  else if ← check .let_ then
    let _ ← advance
  let name ← expectWord .loopVariable
  let _ ← expect .in_ .inAfterVariable
  let iterable ← expression calls
  if parenthesized then
    let _ ← expect .rightParen .parenAfterClause
  skipNewlines calls.turns
  let _ ← expect .leftBrace .braceAfterClause
  return .for_ name iterable (← blockStatements calls) span

/-- A return, with a value unless the statement ends. -/
def returnStatement (calls : Calls) : Reader Stmt := do
  let span := (← advance).span
  let value ← if (← peek).endsStatement then pure none else pure (some (← expression calls))
  endStatement calls.turns
  return .return_ value span

/-- A statement. -/
def statement (calls : Calls) : Reader Stmt := do
  match (← peek).symbol? with
  | some .var => varDeclaration calls
  | some .let_ => letDeclaration calls
  | some .fn => functionDeclaration calls
  | some .if_ => conditional calls calls.turns
  | some .while_ => whileLoop calls
  | some .for_ => forLoop calls
  | some .return_ => returnStatement calls
  | some .break_ =>
    let span := (← advance).span
    endStatement calls.turns
    return .break_ span
  | some .continue_ =>
    let span := (← advance).span
    endStatement calls.turns
    return .continue_ span
  | some .leftBrace =>
    let span := (← advance).span
    return .block (← blockStatements calls) span
  | _ =>
    let e ← expression calls
    endStatement calls.turns
    return .expr e

/-- Statements up to a closing brace, which is left to be read, or to the end. -/
def statements (calls : Calls) : (turns : Nat) → (body : Array Stmt) → Reader (List Stmt)
  | 0, _ => fault .outOfFuel
  | turns + 1, body => do
    skipTerminators calls.turns
    if (← check .rightBrace) || (← isAtEnd) then return body.toList
    else statements calls turns (body.push (← statement calls))

/-- Statements and the closing brace. -/
def blockBody (calls : Calls) : Reader (List Stmt) := do
  let body ← statements calls calls.turns #[]
  let _ ← expect .rightBrace .braceAfterBlock
  return body

/-- **The readers of a level call those of the next,** as long as calls are allowed. -/
def calls : (fuel : Nat) → Calls
  | 0 =>
    { turns := 0, block := fault .outOfFuel, assignment := fault .outOfFuel,
      unary := fault .outOfFuel }
  | fuel + 1 =>
    let next := calls fuel
    { turns := fuel + 1, block := blockBody next, assignment := assignment next,
      unary := unary next }

/-- Statements up to the end. -/
def program (calls : Calls) : (turns : Nat) → (body : Array Stmt) → Reader Program
  | 0, _ => fault .outOfFuel
  | turns + 1, body => do
    skipTerminators calls.turns
    if ← isAtEnd then return { statements := body.toList }
    else program calls turns (body.push (← statement calls))

end Reader

/-- **The program that a list of tokens spells,** read from its start with no level open. -/
def Program.read (fuel : Nat) (stream : TokenStream) :
    Except Fault (Except ScriptError Program × TokenCursor) :=
  Reader.program (Reader.calls fuel) fuel #[] { stream, current := 0, depth := 0 }

end DeployScript
