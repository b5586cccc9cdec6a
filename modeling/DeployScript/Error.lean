import DeployScript.Token.Basic

/-!
# What can be wrong with a script

An error is a cause, the place where it was found, and perhaps the line of the source there. The
wording of every message is here and nowhere else.

* `Cause` lists the causes, `Cause.message` words them, and `Cause.isSyntax` says which of them
  are found before a script runs.
* `ScriptError` adds the place, and `ScriptError.message` shows all of it.
-/

namespace DeployScript

/-! ### Parts of causes -/

/-- What a parser waited for. -/
inductive Expectation
  | variableName | equalAfterName
  | functionName | parenAfterFunctionName | parameterName | parenAfterParameters
  | braceBeforeFunctionBody
  | braceAfterIf | braceAfterElse | braceAfterWhile
  | loopVariable | inAfterVariable | parenAfterClause | braceAfterClause
  | braceAfterBlock
  | propertyName | bracketAfterIndex | parenAfterArguments | parenAfterExpression
  | bracketAfterElements | braceAfterFields | recordKey | colonAfterKey
  deriving Repr, DecidableEq, Inhabited

/-- The expectation in words. -/
def Expectation.text : Expectation → String
  | variableName => "expected variable name"
  | equalAfterName => "expected '=' after variable name"
  | functionName => "expected function name"
  | parenAfterFunctionName => "expected '(' after function name"
  | parameterName => "expected parameter name"
  | parenAfterParameters => "expected ')' after parameters"
  | braceBeforeFunctionBody => "expected '\x7b' before function body"
  | braceAfterIf => "expected '\x7b' after if condition"
  | braceAfterElse => "expected '\x7b' after else"
  | braceAfterWhile => "expected '\x7b' after while condition"
  | loopVariable => "expected variable name in for loop"
  | inAfterVariable => "expected 'in' after loop variable"
  | parenAfterClause => "expected ')' after for clause"
  | braceAfterClause => "expected '\x7b' after for clause"
  | braceAfterBlock => "expected '\x7d' after block"
  | propertyName => "expected property name after '.'"
  | bracketAfterIndex => "expected ']' after index"
  | parenAfterArguments => "expected ')' after arguments"
  | parenAfterExpression => "expected ')' after expression"
  | bracketAfterElements => "expected ']' after array elements"
  | braceAfterFields => "expected '\x7d' after record fields"
  | recordKey => "record key"
  | colonAfterKey => "expected ':' after record key"

/-- What a script may have only so much of. -/
inductive Limit
  | nesting | operatorChain
  | nameTable | constantPool | literalSize | localSlot | jumpDistance | loopBody
  | parameterList | argumentList | capturedSlot | captureList
  deriving Repr, DecidableEq, Inhabited

/-- The limited thing in words. -/
def Limit.text : Limit → String
  | nesting => "nesting depth"
  | operatorChain => "operator chain"
  | nameTable => "name table"
  | constantPool => "constant pool"
  | literalSize => "literal size"
  | localSlot => "local slot"
  | jumpDistance => "jump distance"
  | loopBody => "loop body"
  | parameterList => "parameter list"
  | argumentList => "argument list"
  | capturedSlot => "captured local slot"
  | captureList => "captured variable list"

/-- Most elements that one `range` or one string repetition may produce. -/
def maxSequence : Nat := Nat.pow 2 24

/-- Failures of a running script that concern one instruction or one intrinsic function. -/
inductive Failure
  | invalidOpcode (byte : UInt8)
  | closureOperand
  | missingCapture (index : Nat)
  | deadFunction
  | deadArray
  | deadPushTarget
  | repeatFraction (times : Float)
  | repeatTooLarge
  | lenArgument (got : String)
  | numText (text : String)
  | numArgument (got : String)
  | rangeArguments
  | rangeCount
  | rangeTooLong
  | pushTarget (got : String)
  | keysArgument (got : String)
  | assertNothing
  | assertion
  | assertionMessage (text : String)
  | undeclaredArguments (builtin : String)
  deriving Inhabited

/-- The failure in words. -/
def Failure.message : Failure → String
  | invalidOpcode byte => "invalid opcode " ++ toString byte.toNat
  | closureOperand => "closure operand must be a function"
  | missingCapture index => "missing upvalue " ++ toString index
  | deadFunction => "called value is not a live function"
  | deadArray => "array was collected"
  | deadPushTarget => "push() on a collected array"
  | repeatFraction times => "cannot repeat a string " ++ Number.text times ++ " times"
  | repeatTooLarge => "string repetition too large"
  | lenArgument got => "len() requires string, array or record, got " ++ got
  | numText text => "cannot convert '" ++ text ++ "' to number"
  | numArgument got => "cannot convert " ++ got ++ " to number"
  | rangeArguments => "range() requires numbers"
  | rangeCount => "range() takes 1 or 2 arguments"
  | rangeTooLong => "range() would produce more than " ++ toString maxSequence ++ " elements"
  | pushTarget got => "push() requires an array, got " ++ got
  | keysArgument got => "keys() requires a record, got " ++ got
  | assertNothing => "assert() requires at least one argument"
  | assertion => "assertion failed"
  | assertionMessage text => text
  | undeclaredArguments builtin => builtin ++ "() received arguments it did not declare"

/-! ### Causes -/

/-- What is wrong. -/
inductive Cause
  | unexpectedCharacter (c : Char)
  | unterminatedString
  | unterminatedComment
  | invalidNumber (text : String)
  | unexpectedToken (shown : String)
  | expectedToken (wanted : Expectation) (got : String)
  | expectedExpression
  | invalidAssignmentTarget
  | breakOutsideLoop
  | continueOutsideLoop
  | immutableBinding (name : String)
  | limitExceeded (limit : Limit)
  | undefinedVariable (name : String)
  | undefinedProperty (name : String)
  | typeMismatch (expected got : String)
  | divisionByZero
  | wrongArity (expected got : Nat)
  | argumentCount (builtin : String) (expected got : Nat)
  | argumentType (builtin : String) (position : Nat) (expected got : String)
  | indexOutOfBounds (index : Int)
  | stackOverflow
  | failure (failure : Failure)
  deriving Inhabited

namespace Cause

/-- The cause in words. -/
def message : Cause → String
  | unexpectedCharacter c => "unexpected character '" ++ String.singleton c ++ "'"
  | unterminatedString => "unterminated string"
  | unterminatedComment => "unterminated block comment"
  | invalidNumber text => "invalid number '" ++ text ++ "'"
  | unexpectedToken shown => "unexpected token '" ++ shown ++ "'"
  | expectedToken wanted got => wanted.text ++ ", got '" ++ got ++ "'"
  | expectedExpression => "expected expression"
  | invalidAssignmentTarget => "invalid assignment target"
  | breakOutsideLoop => "break outside of loop"
  | continueOutsideLoop => "continue outside of loop"
  | immutableBinding name => "cannot assign to immutable binding '" ++ name ++ "'"
  | limitExceeded limit => limit.text ++ " exceeds the supported limit"
  | undefinedVariable name => "undefined variable '" ++ name ++ "'"
  | undefinedProperty name => "undefined property '" ++ name ++ "'"
  | typeMismatch expected got => "type mismatch: expected " ++ expected ++ ", got " ++ got
  | divisionByZero => "division by zero"
  | wrongArity expected got =>
    "expected " ++ toString expected ++ " arguments, got " ++ toString got
  | argumentCount builtin expected got =>
    builtin ++ "() expects " ++ toString expected ++ " arguments, got " ++ toString got
  | argumentType builtin position expected got =>
    builtin ++ "() argument " ++ toString position ++ " must be " ++ expected ++ ", got " ++ got
  | indexOutOfBounds index => "index " ++ toString index ++ " out of bounds"
  | stackOverflow => "stack overflow"
  | failure f => f.message

/-- Whether the cause counts as one of syntax: found by reading or compiling, or the assignment to
an immutable binding, which may also be found while running. -/
def isSyntax : Cause → Bool
  | unexpectedCharacter _ | unterminatedString | unterminatedComment | invalidNumber _
  | unexpectedToken _ | expectedToken .. | expectedExpression | invalidAssignmentTarget
  | breakOutsideLoop | continueOutsideLoop | immutableBinding _ | limitExceeded _ => true
  | _ => false

end Cause

/-! ### Errors with a place -/

/-- An error of a script: the cause, the place if it is known, and the line of the source there
once it has been looked up. -/
structure ScriptError where
  cause : Cause
  span : Option Span
  excerpt : Option String
  deriving Inhabited

/-- The lines of a source: what a line feed ends, without a carriage return before it. A last line
that is empty does not count. -/
def sourceLines (source : String) : List String :=
  let parts := source.splitOn "\n"
  let kept := if parts.getLast? = some "" then parts.dropLast else parts
  let ended := parts.length - 1
  kept.zipIdx.map fun (line, index) =>
    if index < ended ∧ line.toList.getLast? = some '\r' then String.ofList line.toList.dropLast
    else line

namespace ScriptError

/-- An error at a place. -/
def at_ (cause : Cause) (span : Span) : ScriptError :=
  { cause, span := some span, excerpt := none }

/-- An error without a place. -/
def ofCause (cause : Cause) : ScriptError := { cause, span := none, excerpt := none }

/-- A limit is reported for a line. -/
def ofLimit (limit : Limit) (line : Nat) : ScriptError :=
  at_ (.limitExceeded limit) (Span.ofLine line)

/-- Attaches the line of the source where the error is. -/
def withSource (e : ScriptError) (source : String) : ScriptError :=
  match e.span with
  | none => e
  | some span => { e with excerpt := (sourceLines source)[span.line - 1]? }

/-- **The whole error in words:** place, cause, and the line with a mark under the column. -/
def message (e : ScriptError) : String :=
  match e.span with
  | none => "Error: " ++ e.cause.message
  | some span =>
    let place :=
      if span.column = 0 then toString span.line
      else toString span.line ++ ":" ++ toString span.column
    let head := "[line " ++ place ++ "] Error: " ++ e.cause.message
    match e.excerpt with
    | none => head
    | some line =>
      let shown := head ++ "\n  | " ++ line
      if span.column = 0 then shown
      else shown ++ "\n  | " ++ String.ofList (List.replicate (span.column - 1) ' ') ++ "^"

end ScriptError

end DeployScript
