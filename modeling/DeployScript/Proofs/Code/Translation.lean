import DeployScript.Proofs.Code.Reading
import DeployScript.Proofs.Code.Steps

/-!
# Code that says what a program says

What the instructions of a program are, without a compiler: a relation between the nodes of a
program and instructions, in which every count, every index and every distance is a number without
a bound. An operand is written in one byte or two; where code stands in the relation, the number that
is written is the one that is meant.

* `slot?` and `Captured` — which slot and which capture a name means.
* `Tables` — what the operands of a function refer to: constants, names, functions, captures.
* `Expr.Coded`, `Stmt.Coded` — the instructions of an expression and of a statement. A jump leads to
  the place behind the code that it jumps over, a loop to the place where its condition starts.
* `Compiled.Translates` — a script whose code says what its program says.
-/

namespace DeployScript

open Compile

/-! ### Names -/

/-- The names of the variables of a function that are in scope, the innermost first, and where its
captures come from. -/
structure NameScope where
  locals : List String
  captures : List CaptureSource

/-- The slot of the innermost variable of a name: the number of variables outside it. -/
def slot? (name : String) : List String → Option Nat
  | [] => none
  | n :: outer => if n = name then some outer.length else slot? name outer

theorem slot?_lt {name : String} {locals : List String} {k : Nat} (h : slot? name locals = some k) :
    k < locals.length := by
  induction locals with
  | nil => cases h
  | cons n outer ih =>
    unfold slot? at h
    split at h
    · cases h
      exact Nat.lt_succ_self _
    · exact Nat.lt_succ_of_lt (ih h)

/-- **A capture of a function means a variable further out:** a slot of the next function, or what a
capture of that function means. -/
inductive Captured (name : String) : (captures : List CaptureSource) → (enclosing : List NameScope) →
    (index : Nat) → Prop
  | slot {captures : List CaptureSource} {parent : NameScope} {outer : List NameScope} {index : Nat}
      {slot : UInt8} (hk : captures[index]? = some ⟨true, slot⟩)
      (hl : slot? name parent.locals = some slot.toNat) :
      Captured name captures (parent :: outer) index
  | outer {captures : List CaptureSource} {parent : NameScope} {outer : List NameScope} {index : Nat}
      {inner : UInt8} (hk : captures[index]? = some ⟨false, inner⟩)
      (hl : slot? name parent.locals = none) (h : Captured name parent.captures outer inner.toNat) :
      Captured name captures (parent :: outer) index

/-- What the operands of a function refer to. The functions around it come with the names that are
in scope where it stands. -/
structure Tables where
  constants : Array Literal
  names : Array String
  functions : Array (Prototype Literal)
  captures : List CaptureSource
  enclosing : List NameScope

/-- **The number that finds a variable:** its slot, the index of a capture, or that of the name. -/
inductive Tables.Finds (T : Tables) (locals : List String) (name : String) : Place → UInt16 → Prop
  | slot {isMutable : Bool} {w : UInt16} (h : slot? name locals = some w.toNat) :
      Finds T locals name (.slot w.toNat isMutable) w
  | capture {isMutable : Bool} {w : UInt16} (hl : slot? name locals = none)
      (h : Captured name T.captures T.enclosing w.toNat) :
      Finds T locals name (.capture w.toNat isMutable) w
  | global {w : UInt16} (hl : slot? name locals = none)
      (ho : ∀ f ∈ T.enclosing, slot? name f.locals = none) (h : T.names[w.toNat]? = some name) :
      Finds T locals name .global w

/-- Instructions of one line. -/
def Written.of (instrs : List Instr) (line : Nat) : Written := instrs.map (·, line)

/-! ### Expressions -/

mutual

/-- **The instructions of an expression.** -/
def Expr.Coded : Expr → Tables → (locals : List String) → Written → Prop
  | .number value span, T, _, code => ∃ w, T.constants[w.toNat]? = some (.number value) ∧
      code = [(⟨.constant, w⟩, span.line)]
  | .text value span, T, _, code => ∃ w, T.constants[w.toNat]? = some (.text value) ∧
      code = [(⟨.constant, w⟩, span.line)]
  | .bool true span, _, _, code => code = [(⟨.true_, ()⟩, span.line)]
  | .bool false span, _, _, code => code = [(⟨.false_, ()⟩, span.line)]
  | .nil span, _, _, code => code = [(⟨.nil, ()⟩, span.line)]
  | .name x span, T, locals, code => ∃ place w, T.Finds locals x place w ∧
      code = [(readInstr place w, span.line)]
  | .array elements span, T, locals, code => ∃ values w, Expr.CodedAll elements T locals values ∧
      w.toNat = elements.length ∧ code = values ++ [(⟨.array, w⟩, span.line)]
  | .record entries span, T, locals, code => ∃ values w,
      Expr.CodedFields entries T locals span.line values ∧ w.toNat = entries.length ∧
      code = values ++ [(⟨.record, w⟩, span.line)]
  | .binary left op right span, T, locals, code => ∃ l r, left.Coded T locals l ∧
      right.Coded T locals r ∧ code = l ++ (r ++ [(binaryInstr op, span.line)])
  | .logical left op right span, T, locals, code => ∃ l r w, left.Coded T locals l ∧
      right.Coded T locals r ∧ w.toNat = 1 + Written.size r ∧
      code = l ++ ((logicalJump op w, span.line) :: (⟨.pop, ()⟩, span.line) :: r)
  | .unary op operand span, T, locals, code => ∃ o, operand.Coded T locals o ∧
      code = o ++ [(unaryInstr op, span.line)]
  | .call callee args span, T, locals, code => ∃ (f values : Written) (n : UInt8),
      Expr.CodedAll args T locals values ∧ n.toNat = args.length ∧
      ((isPrint callee = true ∧ code = values ++ [(⟨.print, n⟩, span.line)]) ∨
        (isPrint callee = false ∧ callee.Coded T locals f ∧
          code = f ++ (values ++ [(⟨.call, n⟩, span.line)])))
  | .group inner _, T, locals, code => inner.Coded T locals code
  | .assign x value span, T, locals, code => ∃ v place w, value.Coded T locals v ∧
      T.Finds locals x place w ∧ code = v ++ [(writeInstr place w, span.line)]
  | .get object property span, T, locals, code => ∃ o w, object.Coded T locals o ∧
      T.names[w.toNat]? = some property ∧ code = o ++ [(⟨.getProperty, w⟩, span.line)]
  | .set object property value span, T, locals, code => ∃ o v w, object.Coded T locals o ∧
      value.Coded T locals v ∧ T.names[w.toNat]? = some property ∧
      code = o ++ (v ++ [(⟨.setProperty, w⟩, span.line)])
  | .index object key span, T, locals, code => ∃ o k, object.Coded T locals o ∧
      key.Coded T locals k ∧ code = o ++ (k ++ [(⟨.index, ()⟩, span.line)])
  | .setIndex object key value span, T, locals, code => ∃ o k v, object.Coded T locals o ∧
      key.Coded T locals k ∧ value.Coded T locals v ∧
      code = o ++ (k ++ (v ++ [(⟨.setIndex, ()⟩, span.line)]))

/-- The instructions of expressions one behind another. -/
def Expr.CodedAll : List Expr → Tables → (locals : List String) → Written → Prop
  | [], _, _, code => code = []
  | e :: es, T, locals, code => ∃ first rest, e.Coded T locals first ∧
      Expr.CodedAll es T locals rest ∧ code = first ++ rest

/-- The instructions of the keys and values of a record. -/
def Expr.CodedFields : List (String × Expr) → Tables → (locals : List String) → (line : Nat) →
    Written → Prop
  | [], _, _, _, code => code = []
  | (key, e) :: es, T, locals, line, code => ∃ w value rest, T.constants[w.toNat]? = some (.text key) ∧
      e.Coded T locals value ∧ Expr.CodedFields es T locals line rest ∧
      code = (⟨.constant, w⟩, line) :: (value ++ rest)

end

/-! ### Statements -/

/-- The innermost loop around a statement: the places where its condition starts and where its code
ends, and how many variables are kept when it is left. -/
structure LoopSpan where
  start : Nat
  stop : Nat
  kept : Nat

/-- Where a statement stands in its function: inside a block or not, in which loop, behind which
variables, and at which place of the code. -/
structure Spot where
  inBlock : Bool
  loop : Option LoopSpan
  locals : List String
  offset : Nat

namespace Spot

/-- The spot behind code that declares nothing. -/
def past (x : Spot) (size : Nat) : Spot := { x with offset := x.offset + size }

/-- The spot with one more variable, if it is inside a block. Outside all blocks a declaration is
that of a global. -/
def declare (x : Spot) (name : String) : Spot :=
  if x.inBlock then { x with locals := name :: x.locals } else x

/-- The spot behind a statement. -/
def after (x : Spot) (p : Stmt) (size : Nat) : Spot :=
  (p.declaredName?.elim x x.declare).past size

end Spot

/-- What instructions are at a spot. -/
abbrev Coding := Spot → Written → Prop

/-- Instructions that take `count` variables off the stack. -/
def Unwinds (count line : Nat) (code : Written) : Prop :=
  code.length = count ∧ ∀ e ∈ code, e = (⟨.pop, ()⟩, line) ∨ e = (⟨.closeCapture, ()⟩, line)

/-- The instructions of a block: those of its body, and behind them those that take its variables off
the stack. -/
def InBlock (body : Coding) (count : Nat) : Coding := fun x code => ∃ inner off,
  body { x with inBlock := true } inner ∧ Unwinds count 0 off ∧ code = inner ++ off

/-- How many variables statements declare in the block that they stand in. -/
def Stmt.declared (ps : List Stmt) : Nat := (ps.filterMap Stmt.declaredName?).length

/-- The instructions of a conditional. -/
def Conditional (condition body orElse : Coding) (line : Nat) : Coding := fun x code =>
  ∃ c b e toElse toEnd, condition x c ∧
    body (x.past (Written.size c + 4)) b ∧ toElse.toNat = 1 + Written.size b + 3 ∧
    orElse (x.past (Written.size c + 4 + Written.size b + 4)) e ∧ toEnd.toNat = 1 + Written.size e ∧
    code = c ++ ((⟨.jumpIfFalse, toElse⟩, line) :: (⟨.pop, ()⟩, line) ::
      (b ++ ((⟨.jump, toEnd⟩, line) :: (⟨.pop, ()⟩, line) :: e)))

/-- The instructions of a loop. -/
def Looping (condition body : Coding) (line : Nat) : Coding := fun x code =>
  ∃ c b exit back, condition x c ∧
    body { x.past (Written.size c + 4) with
      loop := some { start := x.offset, stop := x.offset + Written.size code
                     kept := x.locals.length } } b ∧
    exit.toNat = 1 + Written.size b + 3 ∧ back.toNat = Written.size c + 4 + Written.size b + 3 ∧
    code = c ++ ((⟨.jumpIfFalse, exit⟩, line) :: (⟨.pop, ()⟩, line) ::
      (b ++ Written.of [⟨.loop, back⟩, ⟨.pop, ()⟩] line))

/-- The instructions that start a round of a loop over the container in a slot: the index in the slot
behind it gets one more, and is compared with the length. -/
def NextRound (T : Tables) (container line : Nat) : Coding := fun _ code => ∃ c i one : UInt16,
  c.toNat = container ∧ i.toNat = container + 1 ∧ T.constants[one.toNat]? = some (.number 1) ∧
    code = Written.of [⟨.getLocal, i⟩, ⟨.constant, one⟩, ⟨.add, ()⟩, ⟨.setLocal, i⟩, ⟨.pop, ()⟩,
      ⟨.getLocal, c⟩, ⟨.len, ()⟩, ⟨.getLocal, i⟩, ⟨.gt, ()⟩] line

/-- The instructions of a round of a loop over the container in a slot: the element at the index is
moved to the slot of the variable. -/
def Round (body : Coding) (container line : Nat) : Coding := fun x code =>
  ∃ (c i v : UInt16) (b : Written), c.toNat = container ∧ i.toNat = container + 1 ∧
    v.toNat = container + 2 ∧ body (x.past 11) b ∧
    code = Written.of [⟨.getLocal, c⟩, ⟨.getLocal, i⟩, ⟨.index, ()⟩, ⟨.setLocal, v⟩, ⟨.pop, ()⟩] line
      ++ b

/-- The instructions of a loop over a container, which have three variables: the container, an index
and the element. -/
def Iterating (T : Tables) (name : String) (iterable body : Coding) (line : Nat) : Coding :=
  InBlock (fun x code => ∃ it first loop, iterable x it ∧
    T.constants[first.toNat]? = some (.number (-1)) ∧
    Looping (NextRound T x.locals.length line) (Round body x.locals.length line) line
      { x.past (Written.size it + 4) with locals := name :: "__idx__" :: "__iter__" :: x.locals }
      loop ∧
    code = it ++ ((⟨.constant, first⟩, line) :: (⟨.nil, ()⟩, line) :: loop)) 3

/-- The spot at the start of a function: behind the function itself and its parameters. -/
def Spot.entry (params : List String) : Spot :=
  { inBlock := true, loop := none, locals := params.reverse ++ [""], offset := 0 }

/-- **The instruction that makes a closure,** and the function that it refers to: its code says what
its body says. The slots and captures that the sources name are those of the function around. -/
def MakesClosure (T : Tables) (name : String) (params : List String) (body : Tables → Coding)
    (line : Nat) : Coding := fun x code =>
  ∃ (w : UInt16) (k : Nat) (f : Prototype Literal) (sources : List CaptureSource) (inner : Written),
    code = [(⟨.closure, (w, sources)⟩, line)] ∧
    T.constants[w.toNat]? = some (.function k) ∧ T.functions[k]? = some f ∧
    f.name = name ∧ f.params = params ∧ f.captures = sources.length ∧
    params.length ≤ maxParams ∧ sources.length ≤ Scope.maxCaptures ∧
    body { constants := f.chunk.constants, names := f.chunk.names, functions := T.functions
           captures := sources, enclosing := ⟨x.locals, T.captures⟩ :: T.enclosing }
      (Spot.entry params) inner ∧
    f.chunk.Reads 0 (inner ++ Written.of [⟨.nil, ()⟩, ⟨.return_, ()⟩] line)

/-- The instructions of a value that may be left out, and is nil then. -/
def CodedOrNil (T : Tables) (locals : List String) (line : Nat) : Option Expr → Written → Prop
  | some value, code => value.Coded T locals code
  | none, code => code = [(⟨.nil, ()⟩, line)]

/-- The instruction that binds a value, if there is one: inside a block the value stays where it is. -/
def Binds (T : Tables) (name : String) (isMutable : Bool) (line : Nat) : Coding := fun x code =>
  (x.inBlock = true ∧ code = []) ∨
    (x.inBlock = false ∧ ∃ w : UInt16, T.names[w.toNat]? = some name ∧
      code = [(defineInstr isMutable w, line)])

mutual

/-- **The instructions of a statement.** -/
def Stmt.Coded : Stmt → Tables → Coding
  | .expr value, T, x, code => ∃ v, value.Coded T x.locals v ∧
      code = v ++ [(⟨.pop, ()⟩, value.span.line)]
  | .var name value span, T, x, code => ∃ v d, CodedOrNil T x.locals span.line value v ∧
      Binds T name true span.line x d ∧ code = v ++ d
  | .let_ name value span, T, x, code => ∃ v d, value.Coded T x.locals v ∧
      Binds T name false span.line x d ∧ code = v ++ d
  | .block body _, T, x, code => InBlock (Stmt.CodedAll body T) (Stmt.declared body) x code
  | .if_ condition body none span, T, x, code =>
      Conditional (fun x => condition.Coded T x.locals)
        (InBlock (Stmt.CodedAll body T) (Stmt.declared body)) (fun _ code => code = []) span.line x code
  | .if_ condition body (some orElse) span, T, x, code =>
      Conditional (fun x => condition.Coded T x.locals)
        (InBlock (Stmt.CodedAll body T) (Stmt.declared body)) (orElse.Coded T) span.line x code
  | .while_ condition body span, T, x, code =>
      Looping (fun x => condition.Coded T x.locals)
        (InBlock (Stmt.CodedAll body T) (Stmt.declared body)) span.line x code
  | .for_ name iterable body span, T, x, code =>
      Iterating T name (fun x => iterable.Coded T x.locals)
        (InBlock (Stmt.CodedAll body T) (Stmt.declared body)) span.line x code
  | .function name params body span, T, x, code => ∃ f d,
      MakesClosure T name params (Stmt.CodedAll body) span.line (x.declare name) f ∧
      Binds T name false span.line x d ∧ code = f ++ d
  | .return_ value span, T, x, code => ∃ v, CodedOrNil T x.locals span.line value v ∧
      code = v ++ [(⟨.return_, ()⟩, span.line)]
  | .break_ span, _, x, code => ∃ (loop : LoopSpan) (off : Written) (w : UInt16),
      x.loop = some loop ∧ Unwinds (x.locals.length - loop.kept) span.line off ∧
      x.offset + Written.size off + 3 + w.toNat = loop.stop ∧
      code = off ++ [(⟨.jump, w⟩, span.line)]
  | .continue_ span, _, x, code => ∃ (loop : LoopSpan) (off : Written) (w : UInt16),
      x.loop = some loop ∧ Unwinds (x.locals.length - loop.kept) span.line off ∧
      loop.start + w.toNat = x.offset + Written.size off + 3 ∧
      code = off ++ [(⟨.loop, w⟩, span.line)]

/-- The instructions of statements one behind another. -/
def Stmt.CodedAll : List Stmt → Tables → Coding
  | [], _, _, code => code = []
  | p :: ps, T, x, code => ∃ first rest, p.Coded T x first ∧
      Stmt.CodedAll ps T (x.after p (Written.size first)) rest ∧ code = first ++ rest

end

/-! ### Scripts -/

/-- What the operands of the code that runs first refer to. -/
def Compiled.tables (c : Compiled) : Tables :=
  { constants := c.main.constants, names := c.main.names, functions := c.functions
    captures := [], enclosing := [] }

/-- **A script whose code says what its program says:** its statements in turn, and then the value
of the expression at its end, or nil. -/
def Compiled.Translates (c : Compiled) (p : Program) : Prop := ∃ body value,
  Stmt.CodedAll (splitLast p.statements).1 c.tables
    { inBlock := false, loop := none, locals := [""], offset := 0 } body ∧
  CodedOrNil c.tables [""] 0 (splitLast p.statements).2 value ∧
  c.main.Reads 0 (body ++ (value ++ [(⟨.return_, ()⟩, 0)]))

end DeployScript
