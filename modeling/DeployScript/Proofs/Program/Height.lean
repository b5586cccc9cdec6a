import DeployScript.Program.Parser
import Mathlib

/-!
# The height of programs

How deeply the statements and expressions of a program stand in one another. Every parser that opens a
level of nesting is charged for it, and so is every chain of operators and of accesses; a chain of
conditionals, each behind the `else` of the one before, is not.

* `Stmt.height` — the height, where a conditional behind an `else` counts as many levels as is said.
* `Parser.Yields` — what a parser gives if it succeeds.
* `Parser.low_levels` — the bound of every level of nesting, from the bound of the level below it.
* `Program.height_ofTokens_le` — with chains of conditionals laid flat, there is one bound for all
  programs.
* `Program.height_unbounded` — with chains of conditionals as they stand in the tree, there is none.
-/

namespace DeployScript

/-! ### Heights -/

mutual

/-- How many expressions stand in one another, this one included. -/
@[simp] def Expr.height : Expr → Nat
  | .number _ _ | .text _ _ | .bool _ _ | .nil _ | .name _ _ => 1
  | .array elements _ => Expr.heightAll elements + 1
  | .record fields _ => Expr.heightFields fields + 1
  | .binary left _ right _ | .logical left _ right _ => max left.height right.height + 1
  | .unary _ operand _ => operand.height + 1
  | .call callee args _ => max callee.height (Expr.heightAll args) + 1
  | .group inner _ => inner.height + 1
  | .assign _ value _ => value.height + 1
  | .get object _ _ => object.height + 1
  | .set object _ value _ => max object.height value.height + 1
  | .index object key _ => max object.height key.height + 1
  | .setIndex object key value _ => max (max object.height key.height) value.height + 1

/-- The height of the highest of some expressions. -/
@[simp] def Expr.heightAll : List Expr → Nat
  | [] => 0
  | e :: es => max e.height (Expr.heightAll es)

/-- The height of the highest value of some fields. -/
@[simp] def Expr.heightFields : List (String × Expr) → Nat
  | [] => 0
  | (_, e) :: es => max e.height (Expr.heightFields es)

end

/-- The height of an expression that may be left out. -/
def Expr.heightOption (e : Option Expr) : Nat := (e.map Expr.height).getD 0

mutual

/-- **How many statements and expressions stand in one another.** What stands behind the `else` of a
conditional is `rung` levels deeper than the conditional. -/
@[simp] def Stmt.height (rung : Nat) : Stmt → Nat
  | .expr value | .let_ _ value _ => value.height + 1
  | .var _ value _ | .return_ value _ => Expr.heightOption value + 1
  | .block body _ | .function _ _ body _ => Stmt.heightAll rung body + 1
  | .if_ condition body none _ => max condition.height (Stmt.heightAll rung body) + 1
  | .if_ condition body (some orElse) _ =>
    max (max condition.height (Stmt.heightAll rung body) + 1) (orElse.height rung + rung)
  | .while_ condition body _ => max condition.height (Stmt.heightAll rung body) + 1
  | .for_ _ iterable body _ => max iterable.height (Stmt.heightAll rung body) + 1
  | .break_ _ | .continue_ _ => 1

/-- The height of the highest of some statements. -/
@[simp] def Stmt.heightAll (rung : Nat) : List Stmt → Nat
  | [] => 0
  | p :: ps => max (p.height rung) (Stmt.heightAll rung ps)

end

/-- The height of a program. -/
def Program.height (rung : Nat) (p : Program) : Nat := Stmt.heightAll rung p.statements

theorem Expr.heightAll_le {es : List Expr} {bound : Nat} (h : ∀ e ∈ es, e.height ≤ bound) :
    Expr.heightAll es ≤ bound := by
  induction es with
  | nil => exact Nat.zero_le _
  | cons e es ih =>
    rw [Expr.heightAll]
    exact max_le (h e List.mem_cons_self) (ih fun a ha => h a (List.mem_cons_of_mem _ ha))

theorem Expr.heightFields_le {es : List (String × Expr)} {bound : Nat}
    (h : ∀ e ∈ es, e.2.height ≤ bound) : Expr.heightFields es ≤ bound := by
  induction es with
  | nil => exact Nat.zero_le _
  | cons e es ih =>
    obtain ⟨key, e⟩ := e
    rw [Expr.heightFields]
    exact max_le (h (key, e) List.mem_cons_self) (ih fun a ha => h a (List.mem_cons_of_mem _ ha))

theorem Stmt.heightAll_le {rung : Nat} {ps : List Stmt} {bound : Nat}
    (h : ∀ p ∈ ps, p.height rung ≤ bound) : Stmt.heightAll rung ps ≤ bound := by
  induction ps with
  | nil => exact Nat.zero_le _
  | cons p ps ih =>
    rw [Stmt.heightAll]
    exact max_le (h p List.mem_cons_self) (ih fun q hq => h q (List.mem_cons_of_mem _ hq))

/-- A token with a fixed spelling, at no place in particular. -/
def Symbol.token (s : Symbol) : Token :=
  { kind := .symbol s, span := default, lexeme := s.text }

namespace Parser

/-! ### What parsers give -/

/-- **What a parser gives** if it succeeds, on whatever tokens. -/
def Yields {α : Type} (x : Parser α) (p : α → Prop) : Prop :=
  ∀ s a s', x s = .ok (a, s') → p a

section Basic

variable {α β : Type} {x : Parser α} {p : α → Prop} {q : β → Prop}

theorem yields_pure {a : α} (h : p a) : Yields (pure a) p := by
  intro s b s' hx
  cases hx
  exact h

theorem Yields.bind {f : α → Parser β} (hx : Yields x p) (hf : ∀ a, p a → Yields (f a) q) :
    Yields (x >>= f) q := by
  intro s b s' h
  simp only [Bind.bind, StateT.bind, Except.bind] at h
  split at h
  case h_1 => cases h
  case h_2 r hr => exact hf r.1 (hx s r.1 r.2 hr) r.2 b s' h

/-- A parser behind one whose answer does not matter. -/
theorem Yields.behind {f : α → Parser β} (hf : ∀ a, Yields (f a) q) : Yields (x >>= f) q :=
  Yields.bind (p := fun _ => True) (fun _ _ _ _ => trivial) fun a _ => hf a

theorem yields_throw {e : ScriptError} : Yields (throw e : Parser α) p := by
  intro s a s' h
  cases h

theorem yields_failHere {cause : Cause} : Yields (failHere cause : Parser α) p :=
  .behind fun _ => yields_throw

theorem yields_ite {c : Prop} [Decidable c] {y : Parser α} (hx : Yields x p) (hy : Yields y p) :
    Yields (if c then x else y) p := by
  split
  · exact hx
  · exact hy

theorem yields_delimited {close : Symbol} {item : Parser α} (hitem : Yields item p) (fuel : Nat)
    {items : Array α} (h : ∀ a ∈ items, p a) :
    Yields (delimited close item fuel items) fun l => ∀ a ∈ l, p a := by
  induction fuel generalizing items with
  | zero => exact yields_pure fun a ha => h a (Array.mem_toList_iff.1 ha)
  | succ fuel ih =>
    rw [delimited]
    refine .behind fun _ => yields_ite (yields_pure fun a ha => h a (Array.mem_toList_iff.1 ha)) ?_
    refine hitem.bind fun a ha => ?_
    have hpush : ∀ b ∈ items.push a, p b := by
      intro b hb
      rcases Array.mem_push.1 hb with hb | rfl
      · exact h b hb
      · exact ha
    refine .behind fun _ => .behind fun _ => yields_ite (.behind fun _ => ih hpush) ?_
    exact yields_pure fun b hb => hpush b (Array.mem_toList_iff.1 hb)

end Basic

/-! ### Expressions -/

variable {inner : Inner} {bound c : Nat}

/-- The parsers that open a level give nothing higher than a bound. -/
structure Inner.Low (inner : Inner) (bound : Nat) : Prop where
  block : Yields inner.block fun ps => ∀ p ∈ ps, p.height 0 ≤ bound
  assignment : Yields inner.assignment fun e => e.height ≤ bound
  unary : Yields inner.unary fun e => e.height ≤ bound

theorem yields_recordField (h : inner.Low bound) :
    Yields (recordField inner) fun f => f.2.height ≤ bound := by
  have hrest : ∀ key : String, Yields (do
      advance
      let _ ← expect .colon .colonAfterKey
      skipNewlines
      return (key, ← inner.assignment)) fun f => f.2.height ≤ bound := fun key =>
    .behind fun _ => .behind fun _ => .behind fun _ => h.assignment.bind fun e he => yields_pure he
  refine .behind fun k => ?_
  split
  · exact hrest _
  · exact hrest _
  · exact .behind fun key => hrest key

theorem yields_primary (h : inner.Low bound) :
    Yields (primary inner) fun e => e.height ≤ bound + 1 := by
  refine .behind fun _ => .behind fun k => ?_
  split
  case h_1 | h_2 | h_3 | h_4 | h_5 | h_6 =>
    exact .behind fun _ => yields_pure (by simp [Expr.height])
  case h_7 =>
    refine .behind fun _ => .behind fun _ => h.assignment.bind fun e he => ?_
    refine .behind fun _ => .behind fun _ => yields_pure ?_
    rw [Expr.height]
    exact Nat.add_le_add_right he 1
  case h_8 =>
    refine .behind fun _ => .behind fun _ => ?_
    refine (yields_delimited h.assignment _ (by simp)).bind fun es hes => ?_
    refine .behind fun _ => yields_pure ?_
    rw [Expr.height]
    exact Nat.add_le_add_right (Expr.heightAll_le hes) 1
  case h_9 =>
    refine .behind fun _ => .behind fun _ => ?_
    refine (yields_delimited (yields_recordField h) _ (by simp)).bind fun es hes => ?_
    refine .behind fun _ => yields_pure ?_
    rw [Expr.height]
    exact Nat.add_le_add_right (Expr.heightFields_le hes) 1
  case h_10 => exact yields_failHere

/-- Each access adds a level. -/
theorem yields_accesses (h : inner.Low bound) (room : Nat) {e : Expr} (he : e.height ≤ c)
    (hc : bound ≤ c) : Yields (accesses inner room e) fun e => e.height ≤ c + room := by
  induction room generalizing e c with
  | zero =>
    rw [accesses]
    refine .behind fun s => ?_
    split
    · exact yields_failHere
    · exact yields_failHere
    · exact yields_failHere
    · exact yields_pure he
  | succ room ih =>
    have hnext : ∀ {e' : Expr}, e'.height ≤ c + 1 →
        Yields (accesses inner room e') fun e => e.height ≤ c + (room + 1) := by
      intro e' he'
      have hi := ih he' (Nat.le_succ_of_le hc)
      rwa [Nat.add_right_comm] at hi
    rw [accesses]
    refine .behind fun s => ?_
    split
    · refine .behind fun _ => .behind fun _ => ?_
      refine (yields_delimited h.assignment _ (by simp)).bind fun es hes => ?_
      refine .behind fun _ => hnext ?_
      rw [Expr.height]
      exact Nat.add_le_add_right (max_le he ((Expr.heightAll_le hes).trans hc)) 1
    · refine .behind fun _ => .behind fun r => hnext ?_
      rw [Expr.height]
      exact Nat.add_le_add_right he 1
    · refine .behind fun _ => .behind fun _ => h.assignment.bind fun key hkey => ?_
      refine .behind fun _ => .behind fun _ => hnext ?_
      rw [Expr.height]
      exact Nat.add_le_add_right (max_le he (hkey.trans hc)) 1
    · exact yields_pure (he.trans (Nat.le_add_right _ _))

theorem yields_unary (h : inner.Low bound) :
    Yields (unary inner) fun e => e.height ≤ bound + 1 + inner.room := by
  have hsigned : ∀ (op : UnaryOp) (span : Span), Yields (do
      return Expr.unary op (← inner.unary) span)
        fun e => e.height ≤ bound + 1 + inner.room := by
    intro op span
    refine h.unary.bind fun e he => yields_pure ?_
    rw [Expr.height]
    exact (Nat.add_le_add_right he 1).trans (Nat.le_add_right _ _)
  refine .behind fun _ => .behind fun _ => yields_ite (hsigned _ _) ?_
  refine .behind fun _ => yields_ite (hsigned _ _) ?_
  exact (yields_primary h).bind fun e he => yields_accesses h _ he (Nat.le_succ _)

/-- An operator adds a level to its operands. -/
def Tall (combine? : Symbol → Option Combine) : Prop :=
  ∀ s combine, combine? s = some combine → ∀ left right span,
    (combine left right span).height = max left.height right.height + 1

/-- Each operator of a chain adds a level, since chains are grouped to the left. -/
theorem yields_level {operand : Parser Expr} {combine? : Symbol → Option Combine}
    (hoperand : Yields operand fun e => e.height ≤ c) (hcombine : Tall combine?) :
    Yields (level operand combine?) fun e => e.height ≤ c + maxChain := by
  have hloop : ∀ (chain before : Nat) {left : Expr}, left.height ≤ c + before →
      Yields (operators operand combine? chain left) fun e => e.height ≤ c + (before + chain) := by
    intro chain
    induction chain with
    | zero =>
      intro before left hleft
      rw [operators]
      refine .behind fun s => ?_
      split
      · exact yields_pure hleft
      · exact .behind fun _ => yields_failHere
    | succ chain ih =>
      intro before left hleft
      rw [operators]
      refine .behind fun s => ?_
      split
      case h_1 => exact yields_pure (hleft.trans (by omega))
      case h_2 combine hc =>
        obtain ⟨symbol, _, hsymbol⟩ := Option.bind_eq_some_iff.1 hc
        refine .behind fun _ => .behind fun _ => hoperand.bind fun right hright => ?_
        rw [← Nat.succ_add_eq_add_succ]
        refine ih (before + 1) ?_
        rw [hcombine symbol combine hsymbol]
        omega
  refine hoperand.bind fun left hleft => ?_
  have hall := hloop maxChain 0 hleft
  rwa [Nat.zero_add] at hall

/-- How many precedences of operators there are. -/
def precedences : Nat := 6

theorem yields_operation (h : inner.Low bound) :
    Yields (operation inner)
      fun e => e.height ≤ bound + 1 + inner.room + precedences * maxChain := by
  have hbinary : ∀ op left right span,
      (combineBinary op left right span).height = max left.height right.height + 1 :=
    fun op left right span => by rw [combineBinary, Expr.height]
  have hlogical : ∀ op left right span,
      (combineLogical op left right span).height = max left.height right.height + 1 :=
    fun op left right span => by rw [combineLogical, Expr.height]
  have hfactor : Tall factorOp? := by
    intro s combine hs
    unfold factorOp? at hs
    split at hs <;> cases hs
    all_goals exact hbinary _
  have hterm : Tall termOp? := by
    intro s combine hs
    unfold termOp? at hs
    split at hs <;> cases hs
    all_goals exact hbinary _
  have hcomparison : Tall comparisonOp? := by
    intro s combine hs
    unfold comparisonOp? at hs
    split at hs <;> cases hs
    all_goals exact hbinary _
  have hequality : Tall equalityOp? := by
    intro s combine hs
    unfold equalityOp? at hs
    split at hs <;> cases hs
    all_goals exact hbinary _
  have hand : Tall andOp? := by
    intro s combine hs
    unfold andOp? at hs
    split at hs <;> cases hs
    exact hlogical _
  have hor : Tall orOp? := by
    intro s combine hs
    unfold orOp? at hs
    split at hs <;> cases hs
    exact hlogical _
  have hall := yields_level (yields_level (yields_level (yields_level (yields_level
    (yields_level (yields_unary h) hfactor) hterm) hcomparison) hequality) hand) hor
  intro s e s' he
  exact hall s e s' he

/-- An assignment is not higher than its value or the place that it names. -/
theorem height_assignTo_le {value target e : Expr} (he : assignTo? value target = some e)
    (hvalue : value.height + 1 ≤ c) (htarget : target.height ≤ c) : e.height ≤ c := by
  cases target with
  | name n span =>
    cases he
    rw [Expr.height]
    exact hvalue
  | get object n span =>
    cases he
    simp only [Expr.height] at htarget ⊢
    omega
  | index object key span =>
    cases he
    simp only [Expr.height] at htarget ⊢
    omega
  | _ => cases he

theorem yields_assignment (h : inner.Low bound) :
    Yields (assignment inner)
      fun e => e.height ≤ bound + 1 + inner.room + precedences * maxChain := by
  refine (yields_operation h).bind fun target htarget => .behind fun _ => .behind fun _ => ?_
  refine yields_ite (.behind fun _ => h.assignment.bind fun value hvalue => ?_) (yields_pure htarget)
  split
  case h_1 e he => exact yields_pure (height_assignTo_le he (by omega) htarget)
  case h_2 => exact yields_throw

/-! ### Statements -/

theorem yields_conditionalWith (h : inner.Low bound) {orElse : Span → Parser Stmt}
    (horElse : ∀ span, Yields (orElse span) fun p => p.height 0 ≤ bound + 1) :
    Yields (conditionalWith inner orElse) fun p => p.height 0 ≤ bound + 1 := by
  refine .behind fun _ => .behind fun _ => h.assignment.bind fun condition hcondition => ?_
  refine .behind fun _ => .behind fun _ => h.block.bind fun body hbody => ?_
  have hthen := max_le hcondition (Stmt.heightAll_le hbody)
  refine .behind fun _ => .behind fun _ => .behind fun _ => yields_ite ?_ ?_
  · refine .behind fun _ => (horElse _).bind fun p hp => yields_pure ?_
    rw [Stmt.height]
    exact max_le (Nat.add_le_add_right hthen 1) hp
  · refine .behind fun _ => yields_pure ?_
    rw [Stmt.height]
    exact Nat.add_le_add_right hthen 1

theorem yields_elseBlock (h : inner.Low bound) (span : Span) :
    Yields (elseBlock inner span) fun p => p.height 0 ≤ bound + 1 := by
  refine .behind fun _ => h.block.bind fun body hbody => yields_pure ?_
  rw [Stmt.height]
  exact Nat.add_le_add_right (Stmt.heightAll_le hbody) 1

/-- **A chain of conditionals** is as high as the highest of them. -/
theorem yields_conditional (h : inner.Low bound) (fuel : Nat) :
    Yields (conditional inner fuel) fun p => p.height 0 ≤ bound + 1 := by
  induction fuel with
  | zero => exact yields_conditionalWith h (yields_elseBlock h)
  | succ fuel ih =>
    exact yields_conditionalWith h fun span => .behind fun _ =>
      yields_ite ih (yields_elseBlock h span)

theorem yields_varDeclaration (h : inner.Low bound) :
    Yields (varDeclaration inner) fun p => p.height 0 ≤ bound + 1 := by
  have hrest : ∀ (name : String) (span : Span) (value : Option Expr),
      Expr.heightOption value ≤ bound → Yields (do
        endStatement
        return Stmt.var name value span) fun p => p.height 0 ≤ bound + 1 := by
    intro name span value hvalue
    refine .behind fun _ => yields_pure ?_
    rw [Stmt.height]
    exact Nat.add_le_add_right hvalue 1
  refine .behind fun _ => .behind fun _ => .behind fun r => .behind fun _ => yields_ite ?_ ?_
  · exact h.assignment.bind fun e he => hrest _ _ (some e) he
  · exact hrest _ _ none (Nat.zero_le _)

theorem yields_letDeclaration (h : inner.Low bound) :
    Yields (letDeclaration inner) fun p => p.height 0 ≤ bound + 1 := by
  refine .behind fun _ => .behind fun _ => .behind fun r => .behind fun _ => ?_
  refine h.assignment.bind fun value hvalue => .behind fun _ => yields_pure ?_
  rw [Stmt.height]
  exact Nat.add_le_add_right hvalue 1

theorem yields_functionDeclaration (h : inner.Low bound) :
    Yields (functionDeclaration inner) fun p => p.height 0 ≤ bound + 1 := by
  have hrest : ∀ (name : String) (span : Span) (params : List String), Yields (do
      let _ ← expect .rightParen .parenAfterParameters
      skipNewlines
      let _ ← expect .leftBrace .braceBeforeFunctionBody
      let body ← inner.block
      return Stmt.function name params body span) fun p => p.height 0 ≤ bound + 1 := by
    intro name span params
    refine .behind fun _ => .behind fun _ => .behind fun _ => h.block.bind fun body hbody => ?_
    refine yields_pure ?_
    rw [Stmt.height]
    exact Nat.add_le_add_right (Stmt.heightAll_le hbody) 1
  refine .behind fun _ => .behind fun _ => .behind fun r => .behind fun _ => .behind fun _ => ?_
  exact .behind fun _ => yields_ite (hrest _ _ []) (.behind fun params => hrest _ _ params)

theorem yields_whileLoop (h : inner.Low bound) :
    Yields (whileLoop inner) fun p => p.height 0 ≤ bound + 1 := by
  refine .behind fun _ => .behind fun _ => h.assignment.bind fun condition hcondition => ?_
  refine .behind fun _ => .behind fun _ => h.block.bind fun body hbody => yields_pure ?_
  rw [Stmt.height]
  exact Nat.add_le_add_right (max_le hcondition (Stmt.heightAll_le hbody)) 1

theorem yields_forLoop (h : inner.Low bound) :
    Yields (forLoop inner) fun p => p.height 0 ≤ bound + 1 := by
  have hbody : ∀ (name : String) (iterable : Expr) (span : Span), iterable.height ≤ bound →
      Yields (do
        skipNewlines
        let _ ← expect .leftBrace .braceAfterClause
        return Stmt.for_ name iterable (← inner.block) span) fun p => p.height 0 ≤ bound + 1 := by
    intro name iterable span hiterable
    refine .behind fun _ => .behind fun _ => h.block.bind fun body hbody => yields_pure ?_
    rw [Stmt.height]
    exact Nat.add_le_add_right (max_le hiterable (Stmt.heightAll_le hbody)) 1
  have hclause : ∀ (parenthesized : Bool) (span : Span), Yields (do
      let word ← expectWord .loopVariable
      let _ ← expect .in_ .inAfterVariable
      let iterable ← inner.assignment
      if parenthesized then
        let _ ← expect .rightParen .parenAfterClause
      skipNewlines
      let _ ← expect .leftBrace .braceAfterClause
      return Stmt.for_ word.1 iterable (← inner.block) span)
        fun p => p.height 0 ≤ bound + 1 := by
    intro parenthesized span
    refine .behind fun r => .behind fun _ => h.assignment.bind fun iterable hiterable => ?_
    cases parenthesized with
    | false => exact hbody r.1 iterable span hiterable
    | true => exact .behind fun _ => hbody r.1 iterable span hiterable
  refine .behind fun _ => .behind fun _ => .behind fun _ => .behind fun _ => ?_
  refine yields_ite (.behind fun _ => hclause _ _) (.behind fun _ => ?_)
  exact yields_ite (.behind fun _ => hclause _ _) (hclause _ _)

theorem yields_returnStatement (h : inner.Low bound) :
    Yields (returnStatement inner) fun p => p.height 0 ≤ bound + 1 := by
  have hrest : ∀ (span : Span) (value : Option Expr), Expr.heightOption value ≤ bound → Yields (do
      endStatement
      return Stmt.return_ value span) fun p => p.height 0 ≤ bound + 1 := by
    intro span value hvalue
    refine .behind fun _ => yields_pure ?_
    rw [Stmt.height]
    exact Nat.add_le_add_right hvalue 1
  refine .behind fun _ => .behind fun _ => .behind fun _ => yields_ite ?_ ?_
  · exact hrest _ none (Nat.zero_le _)
  · exact h.assignment.bind fun e he => hrest _ (some e) he

/-- **A statement** is one level higher than what stands in it. -/
theorem yields_statement (h : inner.Low bound) :
    Yields (statement inner) fun p => p.height 0 ≤ bound + 1 := by
  have hjump : ∀ p : Span → Stmt, (∀ span, (p span).height 0 = 1) → Yields (do
      let span ← place
      advance
      endStatement
      return p span) fun p => p.height 0 ≤ bound + 1 := by
    intro p hp
    refine .behind fun span => .behind fun _ => .behind fun _ => yields_pure ?_
    rw [hp]
    exact Nat.le_add_left _ _
  refine .behind fun s => ?_
  split
  case h_1 => exact yields_varDeclaration h
  case h_2 => exact yields_letDeclaration h
  case h_3 => exact yields_functionDeclaration h
  case h_4 => exact yields_conditional h _
  case h_5 => exact yields_whileLoop h
  case h_6 => exact yields_forLoop h
  case h_7 => exact yields_returnStatement h
  case h_8 => exact hjump .break_ fun _ => by rw [Stmt.height]
  case h_9 => exact hjump .continue_ fun _ => by rw [Stmt.height]
  case h_10 =>
    refine .behind fun _ => .behind fun _ => h.block.bind fun body hbody => yields_pure ?_
    rw [Stmt.height]
    exact Nat.add_le_add_right (Stmt.heightAll_le hbody) 1
  case h_11 =>
    refine h.assignment.bind fun e he => .behind fun _ => yields_pure ?_
    rw [Stmt.height]
    exact Nat.add_le_add_right he 1

theorem yields_statements (h : inner.Low bound) (fuel : Nat) {body : Array Stmt}
    (hbody : ∀ p ∈ body, p.height 0 ≤ bound + 1) :
    Yields (statements inner fuel body) fun ps => ∀ p ∈ ps, p.height 0 ≤ bound + 1 := by
  induction fuel generalizing body with
  | zero => exact yields_pure fun p hp => hbody p (Array.mem_toList_iff.1 hp)
  | succ fuel ih =>
    have hdone : Yields (pure body.toList) fun ps => ∀ p ∈ ps, p.height 0 ≤ bound + 1 :=
      yields_pure fun p hp => hbody p (Array.mem_toList_iff.1 hp)
    have hmore : Yields (do statements inner fuel (body.push (← statement inner)))
        fun ps => ∀ p ∈ ps, p.height 0 ≤ bound + 1 := by
      refine (yields_statement h).bind fun p hp => ih fun q hq => ?_
      rcases Array.mem_push.1 hq with hq | rfl
      · exact hbody q hq
      · exact hp
    rw [statements]
    exact .behind fun _ => .behind fun _ => .behind fun _ => yields_ite hdone hmore

theorem yields_program (h : inner.Low bound) (fuel : Nat) {body : Array Stmt}
    (hbody : ∀ p ∈ body, p.height 0 ≤ bound + 1) :
    Yields (program inner fuel body) fun p => p.height 0 ≤ bound + 1 := by
  induction fuel generalizing body with
  | zero => exact yields_pure (Stmt.heightAll_le fun p hp => hbody p (Array.mem_toList_iff.1 hp))
  | succ fuel ih =>
    rw [program]
    refine .behind fun _ => .behind fun _ => yields_ite ?_ ?_
    · exact yields_pure (Stmt.heightAll_le fun p hp => hbody p (Array.mem_toList_iff.1 hp))
    · refine (yields_statement h).bind fun p hp => ih fun q hq => ?_
      rcases Array.mem_push.1 hq with hq | rfl
      · exact hbody q hq
      · exact hp

/-! ### Levels -/

/-- The height of what stands in `room` levels of nesting. Each level has a chain of accesses and one
chain of operators for each precedence. -/
def heightWithin : (room : Nat) → Nat
  | 0 => 0
  | room + 1 => heightWithin room + 1 + room + precedences * maxChain

theorem low_levels (tokens room : Nat) : (levels tokens room).Low (heightWithin room) := by
  induction room with
  | zero => exact ⟨yields_failHere, yields_failHere, yields_failHere⟩
  | succ room ih =>
    have hroom : (levels tokens room).room = room := by cases room <;> rfl
    have hassignment := yields_assignment ih
    have hunary := yields_unary ih
    rw [hroom] at hassignment hunary
    refine ⟨fun s ps s' hps p hp => ?_, hassignment, fun s e s' he => ?_⟩
    · have hbody : Yields (blockBody (levels tokens room))
          fun ps => ∀ p ∈ ps, p.height 0 ≤ heightWithin room + 1 :=
        (yields_statements ih _ (by simp)).bind fun ps hps => .behind fun _ => yields_pure hps
      have hle := hbody s ps s' hps p hp
      rw [heightWithin]
      omega
    · have hle := hunary s e s' he
      rw [heightWithin]
      omega

/-! ### Chains of conditionals -/

/-- The tokens of an `if` with a condition and an empty block. -/
def rung : List Token := [Symbol.if_, .true_, .leftBrace, .rightBrace].map Symbol.token

/-- A conditional, and behind its `else` the next one, and so on. -/
def ladder : (rungs : Nat) → List Token
  | 0 => rung
  | rungs + 1 => rung ++ Symbol.else_.token :: ladder rungs

/-- What the tokens of a ladder spell. -/
def ladderStmt : (rungs : Nat) → Stmt
  | 0 => .if_ (.bool true default) [] none default
  | rungs + 1 => .if_ (.bool true default) [] (some (ladderStmt rungs)) default

theorem ladder_head (rungs : Nat) : ∃ ts, ladder rungs = Symbol.if_.token :: ts := by
  cases rungs with
  | zero => exact ⟨_, rfl⟩
  | succ rungs => exact ⟨_, rfl⟩

theorem lt_length_ladder (rungs : Nat) : rungs < (ladder rungs).length := by
  induction rungs with
  | zero => decide
  | succ rungs ih =>
    simp only [ladder, List.length_append, List.length_cons]
    omega

/-- Each rung is one level deeper than the one before. -/
theorem height_ladderStmt (rungs : Nat) : (ladderStmt rungs).height 1 = rungs + 2 := by
  induction rungs with
  | zero => simp [ladderStmt, Stmt.height, Stmt.heightAll, Expr.height]
  | succ rungs ih =>
    simp only [ladderStmt, Stmt.height, Stmt.heightAll, Expr.height, ih]
    omega

section Ladder

variable {rest : List Token} {stop : Span}

/-- The tokens from an opening brace on. -/
abbrev fromBrace (rest : List Token) (stop : Span) : TokenStream :=
  ⟨Symbol.leftBrace.token :: rest, stop⟩

/-- No operator stands before a brace. -/
theorem level_fromBrace {operand : Parser Expr} {combine? : Symbol → Option Combine}
    {s : TokenStream} {e : Expr} (h : operand s = .ok (e, fromBrace rest stop))
    (hcombine : combine? .leftBrace = none) :
    level operand combine? s = .ok (e, fromBrace rest stop) := by
  have hpeek : peekSymbol (fromBrace rest stop) = .ok (some .leftBrace, fromBrace rest stop) := rfl
  unfold level
  simp only [bind, StateT.bind, Except.bind, h]
  rw [operators.eq_def]
  simp only [bind, StateT.bind, Except.bind, hpeek, Option.bind_some, hcombine]
  rfl

theorem assignment_true (inner : Inner) :
    assignment inner ⟨Symbol.true_.token :: Symbol.leftBrace.token :: rest, stop⟩ =
      .ok (.bool true default, fromBrace rest stop) := by
  have hunary : unary inner ⟨Symbol.true_.token :: Symbol.leftBrace.token :: rest, stop⟩ =
      .ok (.bool true default, fromBrace rest stop) := by
    have hdone : ∀ room e, accesses inner room e (fromBrace rest stop) =
        .ok (e, fromBrace rest stop) := by
      intro room e
      rw [accesses.eq_def]
      rfl
    exact hdone inner.room _
  have hoperation : operation inner ⟨Symbol.true_.token :: Symbol.leftBrace.token :: rest, stop⟩ =
      .ok (.bool true default, fromBrace rest stop) :=
    level_fromBrace (level_fromBrace (level_fromBrace (level_fromBrace (level_fromBrace
      (level_fromBrace hunary rfl) rfl) rfl) rfl) rfl) rfl
  unfold assignment
  simp only [bind, StateT.bind, Except.bind, hoperation]
  rfl

/-- **However long a ladder is,** it is read within one level of nesting. -/
theorem conditional_ladder (tokens : Nat) {rungs fuel : Nat} (hfuel : rungs ≤ fuel) :
    conditional (levels (tokens + 1) maxNesting) fuel ⟨ladder rungs, stop⟩ =
      .ok (ladderStmt rungs, ⟨[], stop⟩) := by
  have hassignment : ∀ rest : List Token, (levels (tokens + 1) maxNesting).assignment
      ⟨Symbol.true_.token :: Symbol.leftBrace.token :: rest, stop⟩ =
        .ok (.bool true default, fromBrace rest stop) := fun rest => assignment_true _
  have hblock : ∀ rest : List Token, (levels (tokens + 1) maxNesting).block
      ⟨Symbol.rightBrace.token :: rest, stop⟩ = .ok ([], ⟨rest, stop⟩) := fun _ => rfl
  generalize levels (tokens + 1) maxNesting = inner at hassignment hblock ⊢
  -- One conditional up to its `else`, whatever reads what stands behind that.
  have hrung : ∀ (orElse : Span → Parser Stmt) (rest : List Token),
      conditionalWith inner orElse ⟨rung ++ rest, stop⟩ = (do
        skipNewlines
        if ← accept .else_ then
          skipNewlines
          return .if_ (.bool true default) [] (some (← orElse default)) default
        else
          set (⟨rest, stop⟩ : TokenStream)
          return .if_ (.bool true default) [] none default : Parser Stmt) ⟨rest, stop⟩ := by
    intro orElse rest
    have hfirst : place ⟨rung ++ rest, stop⟩ = .ok (default, ⟨rung ++ rest, stop⟩) := rfl
    have hif : advance ⟨rung ++ rest, stop⟩ = .ok ((), ⟨Symbol.true_.token ::
        Symbol.leftBrace.token :: Symbol.rightBrace.token :: rest, stop⟩) := rfl
    have hlines : ∀ rest, skipNewlines (fromBrace rest stop) = .ok ((), fromBrace rest stop) :=
      fun _ => rfl
    have hbrace : ∀ rest, expect .leftBrace .braceAfterIf (fromBrace rest stop) =
        .ok (default, ⟨rest, stop⟩) := fun _ => rfl
    unfold conditionalWith
    simp only [bind, StateT.bind, Except.bind, hfirst, hif, hassignment, hlines, hbrace, hblock]
    rfl
  induction rungs generalizing fuel with
  | zero =>
    have hdone : ∀ orElse, conditionalWith inner orElse ⟨ladder 0, stop⟩ =
        .ok (ladderStmt 0, ⟨[], stop⟩) := fun orElse => hrung orElse []
    cases fuel with
    | zero => exact hdone _
    | succ fuel => exact hdone _
  | succ rungs ih =>
    obtain ⟨fuel, rfl⟩ : ∃ f, fuel = f + 1 := Nat.exists_eq_succ_of_ne_zero (by omega)
    have hnext := ih (Nat.le_of_succ_le_succ hfuel)
    obtain ⟨ts, hts⟩ := ladder_head rungs
    have hread : conditional inner (fuel + 1) ⟨ladder (rungs + 1), stop⟩ =
        conditionalWith inner (fun span => do
          if ← at_ .if_ then conditional inner fuel else elseBlock inner span)
          ⟨rung ++ Symbol.else_.token :: ladder rungs, stop⟩ := rfl
    rw [hts] at hnext hread
    have helse : accept .else_ ⟨Symbol.else_.token :: Symbol.if_.token :: ts, stop⟩ =
        .ok (true, ⟨Symbol.if_.token :: ts, stop⟩) := rfl
    have hif : at_ .if_ ⟨Symbol.if_.token :: ts, stop⟩ =
        .ok (true, ⟨Symbol.if_.token :: ts, stop⟩) := rfl
    have hlines : ∀ s ts, skipNewlines ⟨Symbol.token s :: ts, stop⟩ =
        .ok ((), ⟨Symbol.token s :: ts, stop⟩) := fun _ _ => rfl
    rw [hread, hrung]
    simp only [bind, StateT.bind, Except.bind, hlines, helse, hif, if_true, hnext]
    rfl

end Ladder

end Parser

/-! ### Programs -/

/-- The bound on the height of programs in which chains of conditionals are laid flat. -/
def Program.heightBound : Nat := Parser.heightWithin maxNesting + 1

/-- Every ladder is a program. -/
theorem Program.ofTokens_ladder (rungs : Nat) (stop : Span) :
    Program.ofTokens ⟨Parser.ladder rungs, stop⟩ = .ok ⟨[Parser.ladderStmt rungs]⟩ := by
  have hlength := Parser.lt_length_ladder rungs
  have hread : Parser.conditional (Parser.levels ((Parser.ladder rungs).length + 1) maxNesting)
      ((Parser.ladder rungs).length + 1) ⟨Parser.ladder rungs, stop⟩ =
        .ok (Parser.ladderStmt rungs, ⟨[], stop⟩) :=
    Parser.conditional_ladder _ (Nat.le_succ_of_le hlength.le)
  obtain ⟨ts, hts⟩ := Parser.ladder_head rungs
  obtain ⟨fuel, hfuel⟩ : ∃ f, (Parser.ladder rungs).length = f + 1 :=
    Nat.exists_eq_succ_of_ne_zero (by omega)
  unfold Program.ofTokens
  dsimp only
  generalize (Parser.ladder rungs).length = length at hread hfuel ⊢
  rw [hts] at hread ⊢
  have hstatement : Parser.statement (Parser.levels (length + 1) maxNesting)
      ⟨Symbol.if_.token :: ts, stop⟩ = .ok (Parser.ladderStmt rungs, ⟨[], stop⟩) := hread
  have hprogram : Parser.program (Parser.levels (length + 1) maxNesting) (length + 1) #[]
      ⟨Symbol.if_.token :: ts, stop⟩ = .ok (⟨[Parser.ladderStmt rungs]⟩, ⟨[], stop⟩) := by
    have hmore : Parser.atEnd ⟨Symbol.if_.token :: ts, stop⟩ =
        .ok (false, ⟨Symbol.if_.token :: ts, stop⟩) := rfl
    have hlines : Parser.skipTerminators ⟨Symbol.if_.token :: ts, stop⟩ =
        .ok ((), ⟨Symbol.if_.token :: ts, stop⟩) := rfl
    rw [Parser.program]
    simp only [bind, StateT.bind, Except.bind, hlines, hmore, hstatement, Bool.false_eq_true,
      if_false]
    rw [hfuel]
    rfl
  simp only [bind, Except.bind, StateT.run, hprogram]
  rfl

/-- **With chains of conditionals laid flat, programs have one bound.** It follows from the deepest
nesting and the longest chain of operators alone. -/
theorem Program.height_ofTokens_le {stream : TokenStream} {p : Program}
    (h : Program.ofTokens stream = .ok p) : p.height 0 ≤ Program.heightBound := by
  simp only [Program.ofTokens, bind, Except.bind] at h
  split at h
  case h_1 => cases h
  case h_2 r hr =>
    cases h
    exact Parser.yields_program (Parser.low_levels _ _) _ (by simp) stream r.1 r.2 hr

/-- A ladder of more conditionals than there are levels of nesting. -/
theorem Program.height_ladder_le :
    Program.ofTokens ⟨Parser.ladder 70, default⟩ = .ok ⟨[Parser.ladderStmt 70]⟩ ∧
      Program.height 0 ⟨[Parser.ladderStmt 70]⟩ ≤ Program.heightBound :=
  ⟨Program.ofTokens_ladder 70 default, Program.height_ofTokens_le (Program.ofTokens_ladder 70 default)⟩

/-- **With chains of conditionals as they stand in the tree, programs have no bound.** -/
theorem Program.height_unbounded :
    ¬ ∃ bound, ∀ (stream : TokenStream) (p : Program), Program.ofTokens stream = .ok p →
      p.height 1 ≤ bound := by
  rintro ⟨bound, h⟩
  have hle := h _ _ (Program.ofTokens_ladder bound default)
  simp only [Program.height, Stmt.heightAll, Parser.height_ladderStmt] at hle
  omega

end DeployScript
