import DeployScript.Proofs.Program.Faithful
import DeployScript.Proofs.Program.Height

/-!
# How tightly operators bind

* `Expr.binding` — how tightly an expression binds: an assignment the least, then the operators with
  two operands in their order, the prefix operators, and what is one token, stands in brackets or is
  an access.
* `Expr.Grouped` — every operator, access and assignment in an expression has operands that bind
  tightly enough.
* `Program.faithful_ofTokens` — a program that is read keeps the tokens and the precedences.
-/

namespace DeployScript

/-! ### Precedence -/

/-- The precedence of an operator, from the loosest to the tightest. -/
def LogicalOp.binding : LogicalOp → Nat
  | or => 1
  | and => 2

@[inherit_doc LogicalOp.binding]
def BinaryOp.binding : BinaryOp → Nat
  | eq | ne => 3
  | lt | le | gt | ge => 4
  | add | sub => 5
  | mul | div | mod => 6

/-- The precedence of prefix operators. -/
def UnaryOp.binding : Nat := 7

/-- The precedence of accesses, and of what is complete in itself. -/
def Expr.closed : Nat := 8

/-- How tightly an expression binds. -/
def Expr.binding : Expr → Nat
  | .assign .. | .set .. | .setIndex .. => 0
  | .logical _ op _ _ => op.binding
  | .binary _ op _ _ => op.binding
  | .unary .. => UnaryOp.binding
  | .number .. | .text .. | .bool .. | .nil .. | .name .. | .array .. | .record .. | .call ..
  | .group .. | .get .. | .index .. => Expr.closed

mutual

/-- **Operands bind tightly enough:** the left one of an operator at least as tightly as the operator
and the right one more tightly, the operand of a prefix operator at least as tightly, and what is
called or accessed is complete in itself. An assignment binds less than any of these, so it is none
of them. -/
def Expr.Grouped : Expr → Prop
  | .number .. | .text .. | .bool .. | .nil .. | .name .. => True
  | .array elements _ => Expr.AllGrouped elements
  | .record fields _ => Expr.FieldsGrouped fields
  | .binary left op right _ =>
    op.binding ≤ left.binding ∧ op.binding < right.binding ∧ left.Grouped ∧ right.Grouped
  | .logical left op right _ =>
    op.binding ≤ left.binding ∧ op.binding < right.binding ∧ left.Grouped ∧ right.Grouped
  | .unary _ operand _ => UnaryOp.binding ≤ operand.binding ∧ operand.Grouped
  | .call callee args _ =>
    Expr.closed ≤ callee.binding ∧ callee.Grouped ∧ Expr.AllGrouped args
  | .group inner _ => inner.Grouped
  | .assign _ value _ => value.Grouped
  | .get object _ _ => Expr.closed ≤ object.binding ∧ object.Grouped
  | .set object _ value _ =>
    Expr.closed ≤ object.binding ∧ object.Grouped ∧ value.Grouped
  | .index object key _ =>
    Expr.closed ≤ object.binding ∧ object.Grouped ∧ key.Grouped
  | .setIndex object key value _ =>
    Expr.closed ≤ object.binding ∧ object.Grouped ∧ key.Grouped ∧ value.Grouped

@[inherit_doc Expr.Grouped]
def Expr.AllGrouped : List Expr → Prop
  | [] => True
  | e :: es => e.Grouped ∧ Expr.AllGrouped es

@[inherit_doc Expr.Grouped]
def Expr.FieldsGrouped : List (String × Expr) → Prop
  | [] => True
  | (_, e) :: fields => e.Grouped ∧ Expr.FieldsGrouped fields

end

mutual

/-- Operands bind tightly enough in all expressions of a statement. -/
def Stmt.Grouped : Stmt → Prop
  | .expr value | .let_ _ value _ => value.Grouped
  | .var _ value _ | .return_ value _ => ∀ e ∈ value, e.Grouped
  | .block body _ | .function _ _ body _ => Stmt.AllGrouped body
  | .if_ condition body none _ => condition.Grouped ∧ Stmt.AllGrouped body
  | .if_ condition body (some orElse) _ =>
    condition.Grouped ∧ Stmt.AllGrouped body ∧ orElse.Grouped
  | .while_ condition body _ => condition.Grouped ∧ Stmt.AllGrouped body
  | .for_ _ iterable body _ => iterable.Grouped ∧ Stmt.AllGrouped body
  | .break_ _ | .continue_ _ => True

@[inherit_doc Stmt.Grouped]
def Stmt.AllGrouped : List Stmt → Prop
  | [] => True
  | p :: ps => p.Grouped ∧ Stmt.AllGrouped ps

end

/-- Operands bind tightly enough in all expressions of a program. -/
def Program.Grouped (p : Program) : Prop := Stmt.AllGrouped p.statements

theorem Expr.allGrouped_of {es : List Expr} (h : ∀ e ∈ es, e.Grouped) : Expr.AllGrouped es := by
  induction es with
  | nil => trivial
  | cons e es ih => exact ⟨h e List.mem_cons_self, ih fun a ha => h a (List.mem_cons_of_mem _ ha)⟩

theorem Expr.fieldsGrouped_of {fields : List (String × Expr)} (h : ∀ f ∈ fields, f.2.Grouped) :
    Expr.FieldsGrouped fields := by
  induction fields with
  | nil => trivial
  | cons f fields ih =>
    obtain ⟨key, e⟩ := f
    exact ⟨h (key, e) List.mem_cons_self, ih fun a ha => h a (List.mem_cons_of_mem _ ha)⟩

theorem Stmt.allGrouped_of {ps : List Stmt} (h : ∀ p ∈ ps, p.Grouped) : Stmt.AllGrouped ps := by
  induction ps with
  | nil => trivial
  | cons p ps ih => exact ⟨h p List.mem_cons_self, ih fun a ha => h a (List.mem_cons_of_mem _ ha)⟩

namespace Parser

/-! ### Expressions -/

/-- An expression that binds at least as tightly as a precedence, with operands that do. -/
def Binds (least : Nat) (e : Expr) : Prop := least ≤ e.binding ∧ e.Grouped

variable {inner : Inner}

/-- The parsers that open a level give expressions with operands that bind tightly enough. -/
structure Inner.Tight (inner : Inner) : Prop where
  block : Yields inner.block fun ps => ∀ p ∈ ps, p.Grouped
  assignment : Yields inner.assignment Expr.Grouped
  unary : Yields inner.unary (Binds UnaryOp.binding)

theorem grouped_recordField (h : inner.Tight) :
    Yields (recordField inner) fun f => f.2.Grouped := by
  have hrest : ∀ key : String, Yields (do
      advance
      let _ ← expect .colon .colonAfterKey
      skipNewlines
      return (key, ← inner.assignment)) fun f => f.2.Grouped := fun key =>
    .behind fun _ => .behind fun _ => .behind fun _ => h.assignment.bind fun e he => yields_pure he
  refine .behind fun k => ?_
  split
  · exact hrest _
  · exact hrest _
  · exact .behind fun key => hrest key

theorem binds_primary (h : inner.Tight) : Yields (primary inner) (Binds Expr.closed) := by
  refine .behind fun _ => .behind fun k => ?_
  split
  case h_1 | h_2 | h_3 | h_4 | h_5 | h_6 =>
    exact .behind fun _ => yields_pure ⟨le_refl _, trivial⟩
  case h_7 =>
    refine .behind fun _ => .behind fun _ => h.assignment.bind fun e he => ?_
    exact .behind fun _ => .behind fun _ => yields_pure ⟨le_refl _, he⟩
  case h_8 =>
    refine .behind fun _ => .behind fun _ => ?_
    refine (yields_delimited h.assignment _ (by simp)).bind fun es hes => ?_
    exact .behind fun _ => yields_pure ⟨le_refl _, Expr.allGrouped_of hes⟩
  case h_9 =>
    refine .behind fun _ => .behind fun _ => ?_
    refine (yields_delimited (grouped_recordField h) _ (by simp)).bind fun fields hfields => ?_
    exact .behind fun _ => yields_pure ⟨le_refl _, Expr.fieldsGrouped_of hfields⟩
  case h_10 => exact yields_failHere

theorem binds_accesses (h : inner.Tight) (room : Nat) {e : Expr} (he : Binds Expr.closed e) :
    Yields (accesses inner room e) (Binds Expr.closed) := by
  induction room generalizing e with
  | zero =>
    rw [accesses]
    refine .behind fun s => ?_
    split
    case h_4 => exact yields_pure he
    all_goals exact yields_failHere
  | succ room ih =>
    rw [accesses]
    refine .behind fun s => ?_
    split
    · refine .behind fun _ => .behind fun _ => ?_
      refine (yields_delimited h.assignment _ (by simp)).bind fun args hargs => ?_
      exact .behind fun _ => ih ⟨le_refl _, he.1, he.2, Expr.allGrouped_of hargs⟩
    · exact .behind fun _ => .behind fun r => ih ⟨le_refl _, he⟩
    · refine .behind fun _ => .behind fun _ => h.assignment.bind fun key hkey => ?_
      exact .behind fun _ => .behind fun _ => ih ⟨le_refl _, he.1, he.2, hkey⟩
    · exact yields_pure he

theorem binds_unary (h : inner.Tight) : Yields (unary inner) (Binds UnaryOp.binding) := by
  have hsigned : ∀ (op : UnaryOp) (span : Span), Yields (do
      return Expr.unary op (← inner.unary) span) (Binds UnaryOp.binding) := fun op span =>
    h.unary.bind fun e he => yields_pure ⟨le_refl _, he⟩
  refine .behind fun _ => .behind fun _ => yields_ite (hsigned _ _) ?_
  refine .behind fun _ => yields_ite (hsigned _ _) ?_
  refine (binds_primary h).bind fun e he => ?_
  intro s e' s' he'
  obtain ⟨hbinds, hgrouped⟩ := binds_accesses h _ he s e' s' he'
  exact ⟨(by decide : UnaryOp.binding ≤ Expr.closed).trans hbinds, hgrouped⟩

/-- The operators of a precedence. -/
def Joins (least : Nat) (combine? : Symbol → Option Combine) : Prop :=
  ∀ s combine, combine? s = some combine → ∀ left right span,
    Binds least left → Binds (least + 1) right → Binds least (combine left right span)

/-- **Operators of one precedence** are grouped to the left. -/
theorem binds_level {operand : Parser Expr} {combine? : Symbol → Option Combine} (least : Nat)
    (hoperand : Yields operand (Binds (least + 1))) (hcombine : Joins least combine?) :
    Yields (level operand combine?) (Binds least) := by
  have hloop : ∀ (chain : Nat) {left : Expr}, Binds least left →
      Yields (operators operand combine? chain left) (Binds least) := by
    intro chain
    induction chain with
    | zero =>
      intro left hleft
      rw [operators]
      refine .behind fun s => ?_
      split
      · exact yields_pure hleft
      · exact .behind fun _ => yields_failHere
    | succ chain ih =>
      intro left hleft
      rw [operators]
      refine .behind fun s => ?_
      split
      case h_1 => exact yields_pure hleft
      case h_2 combine hc =>
        obtain ⟨symbol, _, hsymbol⟩ := Option.bind_eq_some_iff.1 hc
        refine .behind fun _ => .behind fun _ => hoperand.bind fun right hright => ih ?_
        exact hcombine symbol combine hsymbol _ _ _ hleft hright
  exact hoperand.bind fun left hleft => hloop _ ⟨Nat.le_of_succ_le hleft.1, hleft.2⟩

theorem binds_operation (h : inner.Tight) : Yields (operation inner) (Binds 1) := by
  refine binds_level 1 (binds_level 2 (binds_level 3 (binds_level 4 (binds_level 5 (binds_level 6
    (binds_unary h) ?_) ?_) ?_) ?_) ?_) ?_
  all_goals
    intro s combine hs
    cases s <;> cases hs
    all_goals exact fun left right span hl hr => ⟨le_refl _, hl.1, hr.1, hl.2, hr.2⟩

theorem grouped_assignment (h : inner.Tight) : Yields (assignment inner) Expr.Grouped := by
  refine (binds_operation h).bind fun target htarget => .behind fun _ => .behind fun _ => ?_
  refine yields_ite (.behind fun _ => h.assignment.bind fun value hvalue => ?_)
    (yields_pure htarget.2)
  split
  case h_1 e he =>
    refine yields_pure ?_
    cases target with
    | name n span =>
      cases he
      exact hvalue
    | get object n span =>
      cases he
      exact ⟨htarget.2.1, htarget.2.2, hvalue⟩
    | index object key span =>
      cases he
      exact ⟨htarget.2.1, htarget.2.2.1, htarget.2.2.2, hvalue⟩
    | _ => cases he
  case h_2 => exact yields_throw

/-! ### Statements -/

theorem grouped_conditionalWith (h : inner.Tight) {orElse : Span → Parser Stmt}
    (horElse : ∀ span, Yields (orElse span) Stmt.Grouped) :
    Yields (conditionalWith inner orElse) Stmt.Grouped := by
  refine .behind fun _ => .behind fun _ => h.assignment.bind fun condition hcondition => ?_
  refine .behind fun _ => .behind fun _ => h.block.bind fun body hbody => ?_
  refine .behind fun _ => .behind fun _ => .behind fun _ => yields_ite ?_ ?_
  · refine .behind fun _ => (horElse _).bind fun p hp => yields_pure ?_
    exact ⟨hcondition, Stmt.allGrouped_of hbody, hp⟩
  · exact .behind fun _ => yields_pure ⟨hcondition, Stmt.allGrouped_of hbody⟩

theorem grouped_elseBlock (h : inner.Tight) (span : Span) :
    Yields (elseBlock inner span) Stmt.Grouped :=
  .behind fun _ => h.block.bind fun _ hbody => yields_pure (Stmt.allGrouped_of hbody)

theorem grouped_conditional (h : inner.Tight) (fuel : Nat) :
    Yields (conditional inner fuel) Stmt.Grouped := by
  induction fuel with
  | zero => exact grouped_conditionalWith h (grouped_elseBlock h)
  | succ fuel ih =>
    exact grouped_conditionalWith h fun span => .behind fun _ =>
      yields_ite ih (grouped_elseBlock h span)

theorem grouped_varDeclaration (h : inner.Tight) :
    Yields (varDeclaration inner) Stmt.Grouped := by
  have hrest : ∀ (name : String) (span : Span) (value : Option Expr),
      (∀ e ∈ value, e.Grouped) → Yields (do
        endStatement
        return Stmt.var name value span) Stmt.Grouped :=
    fun _ _ _ hvalue => .behind fun _ => yields_pure hvalue
  refine .behind fun _ => .behind fun _ => .behind fun r => .behind fun _ => yields_ite ?_ ?_
  · refine h.assignment.bind fun e he => hrest _ _ (some e) fun a ha => ?_
    cases ha
    exact he
  · exact hrest _ _ none fun a ha => nomatch ha

theorem grouped_returnStatement (h : inner.Tight) :
    Yields (returnStatement inner) Stmt.Grouped := by
  have hrest : ∀ (span : Span) (value : Option Expr), (∀ e ∈ value, e.Grouped) → Yields (do
      endStatement
      return Stmt.return_ value span) Stmt.Grouped :=
    fun _ _ hvalue => .behind fun _ => yields_pure hvalue
  refine .behind fun _ => .behind fun _ => .behind fun _ => yields_ite ?_ ?_
  · exact hrest _ none fun a ha => nomatch ha
  · refine h.assignment.bind fun e he => hrest _ (some e) fun a ha => ?_
    cases ha
    exact he

theorem grouped_functionDeclaration (h : inner.Tight) :
    Yields (functionDeclaration inner) Stmt.Grouped := by
  have hrest : ∀ (name : String) (span : Span) (params : List String), Yields (do
      let _ ← expect .rightParen .parenAfterParameters
      skipNewlines
      let _ ← expect .leftBrace .braceBeforeFunctionBody
      let body ← inner.block
      return Stmt.function name params body span) Stmt.Grouped := fun _ _ _ =>
    .behind fun _ => .behind fun _ => .behind fun _ => h.block.bind fun _ hbody =>
      yields_pure (Stmt.allGrouped_of hbody)
  refine .behind fun _ => .behind fun _ => .behind fun r => .behind fun _ => .behind fun _ => ?_
  exact .behind fun _ => yields_ite (hrest _ _ []) (.behind fun params => hrest _ _ params)

theorem grouped_forLoop (h : inner.Tight) : Yields (forLoop inner) Stmt.Grouped := by
  have hbody : ∀ (name : String) (iterable : Expr) (span : Span), iterable.Grouped → Yields (do
      skipNewlines
      let _ ← expect .leftBrace .braceAfterClause
      return Stmt.for_ name iterable (← inner.block) span) Stmt.Grouped :=
    fun name iterable span hiterable => .behind fun _ => .behind fun _ =>
      h.block.bind fun body hbody => yields_pure ⟨hiterable, Stmt.allGrouped_of hbody⟩
  have hclause : ∀ (parenthesized : Bool) (span : Span), Yields (do
      let word ← expectWord .loopVariable
      let _ ← expect .in_ .inAfterVariable
      let iterable ← inner.assignment
      if parenthesized then
        let _ ← expect .rightParen .parenAfterClause
      skipNewlines
      let _ ← expect .leftBrace .braceAfterClause
      return Stmt.for_ word.1 iterable (← inner.block) span) Stmt.Grouped := by
    intro parenthesized span
    refine .behind fun r => .behind fun _ => h.assignment.bind fun iterable hiterable => ?_
    cases parenthesized with
    | false => exact hbody r.1 iterable span hiterable
    | true => exact .behind fun _ => hbody r.1 iterable span hiterable
  refine .behind fun _ => .behind fun _ => .behind fun _ => .behind fun _ => ?_
  refine yields_ite (.behind fun _ => hclause _ _) (.behind fun _ => ?_)
  exact yields_ite (.behind fun _ => hclause _ _) (hclause _ _)

theorem grouped_statement (h : inner.Tight) : Yields (statement inner) Stmt.Grouped := by
  refine .behind fun s => ?_
  split
  case h_1 => exact grouped_varDeclaration h
  case h_2 =>
    refine .behind fun _ => .behind fun _ => .behind fun r => .behind fun _ => ?_
    exact h.assignment.bind fun value hvalue => .behind fun _ => yields_pure hvalue
  case h_3 => exact grouped_functionDeclaration h
  case h_4 => exact grouped_conditional h _
  case h_5 =>
    refine .behind fun _ => .behind fun _ => h.assignment.bind fun condition hcondition => ?_
    exact .behind fun _ => .behind fun _ => h.block.bind fun body hbody =>
      yields_pure ⟨hcondition, Stmt.allGrouped_of hbody⟩
  case h_6 => exact grouped_forLoop h
  case h_7 => exact grouped_returnStatement h
  case h_8 | h_9 => exact .behind fun _ => .behind fun _ => .behind fun _ => yields_pure trivial
  case h_10 =>
    exact .behind fun _ => .behind fun _ => h.block.bind fun body hbody =>
      yields_pure (Stmt.allGrouped_of hbody)
  case h_11 => exact h.assignment.bind fun e he => .behind fun _ => yields_pure he

theorem grouped_statements (h : inner.Tight) (fuel : Nat) {body : Array Stmt}
    (hbody : ∀ p ∈ body, p.Grouped) :
    Yields (statements inner fuel body) fun ps => ∀ p ∈ ps, p.Grouped := by
  have hdone : Yields (pure body.toList) fun ps => ∀ p ∈ ps, p.Grouped :=
    yields_pure fun p hp => hbody p (Array.mem_toList_iff.1 hp)
  induction fuel generalizing body with
  | zero => exact hdone
  | succ fuel ih =>
    rw [statements]
    refine .behind fun _ => .behind fun _ => .behind fun _ => yields_ite hdone ?_
    refine (grouped_statement h).bind fun p hp => ?_
    have hpush : ∀ q ∈ body.push p, q.Grouped := by
      intro q hq
      rcases Array.mem_push.1 hq with hq | rfl
      · exact hbody q hq
      · exact hp
    exact ih hpush (yields_pure fun q hq => hpush q (Array.mem_toList_iff.1 hq))

theorem grouped_program (h : inner.Tight) (fuel : Nat) {body : Array Stmt}
    (hbody : ∀ p ∈ body, p.Grouped) : Yields (program inner fuel body) Program.Grouped := by
  have hdone : Yields (pure ⟨body.toList⟩) Program.Grouped :=
    yields_pure (Stmt.allGrouped_of fun p hp => hbody p (Array.mem_toList_iff.1 hp))
  induction fuel generalizing body with
  | zero => exact hdone
  | succ fuel ih =>
    rw [program]
    refine .behind fun _ => .behind fun _ => yields_ite hdone ?_
    refine (grouped_statement h).bind fun p hp => ?_
    have hpush : ∀ q ∈ body.push p, q.Grouped := by
      intro q hq
      rcases Array.mem_push.1 hq with hq | rfl
      · exact hbody q hq
      · exact hp
    exact ih hpush
      (yields_pure (Stmt.allGrouped_of fun q hq => hpush q (Array.mem_toList_iff.1 hq)))

theorem tight_levels (tokens room : Nat) : (levels tokens room).Tight := by
  induction room with
  | zero => exact ⟨yields_failHere, yields_failHere, yields_failHere⟩
  | succ room ih =>
    exact ⟨(grouped_statements ih _ (by simp)).bind fun ps hps => .behind fun _ => yields_pure hps,
      grouped_assignment ih, binds_unary ih⟩

end Parser

/-- **A program keeps what it was read from:** written back, it is what counts of its tokens, none
dropped, doubled or moved; and every operand binds tightly enough. -/
theorem Program.faithful_ofTokens {stream : TokenStream} {p : Program}
    (h : Program.ofTokens stream = .ok p) : p.written = TokenKind.essentials stream.kinds ∧ p.Grouped := by
  refine ⟨(Program.essentials_ofTokens h).symm, ?_⟩
  simp only [Program.ofTokens, bind, Except.bind] at h
  split at h
  case h_1 => cases h
  case h_2 r hr =>
    cases h
    exact Parser.grouped_program (Parser.tight_levels _ _) _ (by simp) stream r.1 r.2 hr

/-- The kinds of tokens of a loop with all that may be left out: `for (var x in [a, b,])`, and in the
body, on a line of its own, `total = total + y * x;`. -/
def looseLoop : List TokenKind :=
  [.symbol .for_, .symbol .leftParen, .symbol .var, .word "x", .symbol .in_,
    .symbol .leftBracket, .word "a", .symbol .comma, .word "b", .symbol .comma,
    .symbol .rightBracket, .symbol .rightParen, .symbol .leftBrace, .newline, .word "total",
    .symbol .equal, .word "total", .symbol .plus, .word "y", .symbol .star, .word "x",
    .symbol .semicolon, .newline, .symbol .rightBrace]

/-- The tokens of the loop, at no place in particular. -/
def looseTokens : TokenStream :=
  { tokens := looseLoop.map fun kind => { kind, span := default, lexeme := "" }, stop := default }

/-- The loop as a statement. -/
def looseStmt : Stmt :=
  .for_ "x" (.array [.name "a" default, .name "b" default] default)
    [.expr (.assign "total" (.binary (.name "total" default) .add
      (.binary (.name "y" default) .mul (.name "x" default) default) default) default)] default

theorem Program.faithful_looseLoop :
    Program.ofTokens looseTokens = .ok ⟨[looseStmt]⟩ ∧
      (Program.written ⟨[looseStmt]⟩ = TokenKind.essentials looseTokens.kinds ∧
        Program.Grouped ⟨[looseStmt]⟩) := by
  have h : Program.ofTokens looseTokens = .ok ⟨[looseStmt]⟩ := by cbv
  exact ⟨h, Program.faithful_ofTokens h⟩

end DeployScript
