import DeployScript.Proofs.Program.Alike
import DeployScript.Proofs.Program.Bare
import DeployScript.Proofs.Program.Lines

/-!
# Programs one behind another

Two sources that spell programs, with the end of a line between them, spell the program with the
statements of both. The first program is read as if it stood alone, since no expression and no statement
goes on behind the end of a line unless something is missing; only an `else` could, and no program begins
with one. The second program is read as if it came first, since nothing but its tokens counts.

* `Parser.Inner.Along` — the levels of nesting on both sides; `Parser.along_levels` — all of them.
* `Parser.goes_assignment`, `Parser.goes_statement` — the parsers, one by one.
* `Parser.program_continues` — a program with more behind it.
* `Program.ofSource_append` — the program of two sources, one behind the other.
-/

namespace DeployScript

namespace Parser

open TokenKind (symbolOf)

/-! ### Expressions -/

/-- **The parsers that open a level go alike.** -/
structure Inner.Along (more : List TokenKind) (bound : Nat) (inner inner' : Inner) : Prop where
  room : inner.room = inner'.room
  enough : bound ≤ inner.tokens
  tokens : inner.tokens ≤ inner'.tokens
  block : Goes more bound (Ahead more) (fun ps ps' => Stmt.bareAll ps = Stmt.bareAll ps') inner.block
    inner'.block
  assignment : Goes more bound (Ahead more) Expr.Same inner.assignment inner'.assignment
  unary : Goes more bound (Ahead more) Expr.Same inner.unary inner'.unary
  needs : Needs inner.assignment

section Expressions

variable {more : List TokenKind} {bound : Nat} {inner inner' : Inner}

theorem needs_recordField : Needs (recordField inner) := by
  rw [recordField]
  exact failsAt_peek (fails_failExpected.bind _).at_

theorem goes_recordField (hmore : TokenKind.NextLines more) (h : inner.Along more bound inner') :
    Goes more bound (Ahead more) Expr.SameField (recordField inner) (recordField inner') := by
  have hrest : ∀ key : String, Goes more (bound - 1) (Ahead more) Expr.SameField
      (do
        let _ ← expect .colon .colonAfterKey
        skipNewlines
        return (key, ← inner.assignment))
      (do
        let _ ← expect .colon .colonAfterKey
        skipNewlines
        return (key, ← inner'.assignment)) := fun key =>
    goes_expect hmore fun _ _ => (goes_skipNewlines (h.needs.bind _) <|
      h.assignment.bind fun e e' he => goes_pure ⟨rfl, he⟩).mono (Nat.sub_le _ _)
  refine goes_peek (fun k => ?_) (fails_failExpected.bind _)
  cases k with
  | word key | text key =>
    dsimp only
    rw [pure_bind, pure_bind]
    exact goesAt_advance (hrest key)
  | number | symbol | newline => exact (fails_failExpected.bind _).goes _ _

/-- **No expression** begins with an `else`, or where there is nothing. -/
theorem failsAt_primary {next : Option TokenKind} (hnext : next = none ∨ next = some (.symbol .else_)) :
    FailsAt next (primary inner) := by
  rw [primary]
  refine failsAt_place fun _ => failsAt_peek ?_
  rcases hnext with rfl | rfl <;> exact fails_failHere.at_

theorem goes_primary (hmore : TokenKind.NextLines more) (h : inner.Along more bound inner') :
    Goes more bound (Ahead more) Expr.Same (primary inner) (primary inner') := by
  refine goes_place fun span span' => goes_peek (fun k => ?_) fails_failHere
  cases k with
  | number value | text value | word name => exact goesAt_advance (goes_pure rfl)
  | newline => exact fails_failHere.goes _ _
  | symbol sym =>
    have hone : ∀ {e e' : Expr}, e.Same e' → GoesAt more bound (some (.symbol sym)) (Ahead more) Expr.Same
        (advance >>= fun _ => pure e) (advance >>= fun _ => pure e') :=
      fun he => goesAt_advance (goes_pure he)
    cases sym with
    | true_ => exact hone rfl
    | false_ => exact hone rfl
    | nil => exact hone rfl
    | leftParen =>
      refine goesAt_advance <| (goes_skipNewlines (h.needs.bind _) ?_).mono (Nat.sub_le _ _)
      refine h.assignment.bind fun e e' he => goes_skipNewlines (needs_expect.bind _) ?_
      refine goes_expect hmore fun _ _ => goes_pure ?_
      rw [Expr.Same, Expr.bare, Expr.bare, he]
    | leftBracket =>
      refine goesAt_advance <| (goes_skipNewlines ?_ ?_).mono (Nat.sub_le _ _)
      · exact needs_delimited h.needs _ _ fun l => needs_expect.bind _
      refine goes_delimited hmore h.assignment h.needs h.tokens .nil fun es es' _ _ hes => goes_pure ?_
      rw [Expr.Same, Expr.bare, Expr.bare, Expr.bareAll_of_same hes]
    | leftBrace =>
      refine goesAt_advance <| (goes_skipNewlines ?_ ?_).mono (Nat.sub_le _ _)
      · exact needs_delimited needs_recordField _ _ fun l => needs_expect.bind _
      refine goes_delimited hmore (goes_recordField hmore h) needs_recordField h.tokens .nil
        fun fields fields' _ _ hfields => goes_pure ?_
      rw [Expr.Same, Expr.bare, Expr.bare, Expr.bareFields_of_same hfields]
    | _ => exact fails_failHere.goes _ _

theorem goes_accesses (hmore : TokenKind.NextLines more) (h : inner.Along more bound inner') (room : Nat)
    {e e' : Expr} (he : e.Same e') :
    Goes more bound (Ahead more) Expr.Same (accesses inner room e) (accesses inner' room e') := by
  induction room generalizing e e' with
  | zero =>
    rw [accesses, accesses]
    refine goes_peekSymbol hmore (fun sym => ?_) (goes_pure he)
    cases sym with
    | leftParen | dot | leftBracket => exact fails_failHere.goes _ _
    | _ => exact goes_pure he _
  | succ room ih =>
    rw [accesses, accesses]
    refine goes_peekSymbol hmore (fun sym => ?_) (goes_pure he)
    cases sym with
    | leftParen =>
      refine goesAt_advance <| (goes_skipNewlines ?_ ?_).mono (Nat.sub_le _ _)
      · exact needs_delimited h.needs _ _ fun l => needs_expect.bind _
      refine goes_delimited hmore h.assignment h.needs h.tokens .nil fun args args' _ _ hargs => ih ?_
      rw [Expr.Same, Expr.bare, Expr.bare, he, Expr.bareAll_of_same hargs]
    | dot =>
      refine goesAt_advance <| (goes_expectWord fun name _ _ => ih ?_).mono (Nat.sub_le _ _)
      rw [Expr.Same, Expr.bare, Expr.bare, he]
    | leftBracket =>
      refine goesAt_advance <| (goes_skipNewlines (h.needs.bind _) ?_).mono (Nat.sub_le _ _)
      refine h.assignment.bind fun key key' hkey => goes_skipNewlines (needs_expect.bind _) ?_
      refine goes_expect hmore fun _ _ => ih ?_
      rw [Expr.Same, Expr.bare, Expr.bare, he, hkey]
    | _ => exact goes_pure he _

theorem failsAt_unary {next : Option TokenKind} (hnext : next = none ∨ next = some (.symbol .else_)) :
    FailsAt next (unary inner) := by
  have hsymbol : symbolOf next ≠ some .minus ∧ symbolOf next ≠ some .bang := by
    rcases hnext with rfl | rfl <;> exact ⟨nofun, nofun⟩
  rw [unary]
  exact failsAt_place fun _ => failsAt_accept hsymbol.1 <| failsAt_accept hsymbol.2 <|
    (failsAt_primary hnext).bind _

theorem goes_unary (hmore : TokenKind.NextLines more) (h : inner.Along more bound inner') :
    Goes more bound (Ahead more) Expr.Same (unary inner) (unary inner') := by
  have hunary : ∀ (op : UnaryOp) (span span' : Span), Goes more (bound - 1) (Ahead more) Expr.Same
      (inner.unary >>= fun e => pure (.unary op e span))
      (inner'.unary >>= fun e => pure (.unary op e span')) := by
    intro op span span'
    refine (h.unary.bind fun e e' he => goes_pure ?_).mono (Nat.sub_le _ _)
    rw [Expr.Same, Expr.bare, Expr.bare, he]
  refine goes_place fun span span' => goes_accept hmore (hunary .neg span span') <|
    goes_accept hmore (hunary .not span span') ?_
  refine (goes_primary hmore h).bind fun e e' he => ?_
  rw [h.room]
  exact goes_accesses hmore h _ he

/-- What an operator makes of its operands does not depend on places. -/
def Placeless (combine? : Symbol → Option Combine) : Prop :=
  ∀ s combine, combine? s = some combine → ∀ left left' right right' span span',
    left.Same left' → right.Same right' → (combine left right span).Same (combine left' right' span')

theorem goes_level (hmore : TokenKind.NextLines more) {operand operand' : Parser Expr}
    {combine? : Symbol → Option Combine} (hneeds : Needs operand)
    (hoperand : Goes more bound (Ahead more) Expr.Same operand operand')
    (hcombine : Placeless combine?) :
    Goes more bound (Ahead more) Expr.Same (level operand combine?) (level operand' combine?) := by
  have hloop : ∀ (chain : Nat) {left left' : Expr}, left.Same left' → Goes more bound (Ahead more) Expr.Same
      (operators operand combine? chain left) (operators operand' combine? chain left') := by
    intro chain
    induction chain with
    | zero =>
      intro left left' hleft
      rw [operators, operators]
      refine goes_peekSymbol hmore (fun s => ?_) (goes_pure hleft)
      rw [Option.bind_some]
      cases combine? s with
      | none => exact goes_pure hleft _
      | some combine => exact goesAt_advance (fails_failHere.goes _)
    | succ chain ih =>
      intro left left' hleft
      rw [operators, operators]
      refine goes_peekSymbol hmore (fun s => ?_) (goes_pure hleft)
      rw [Option.bind_some]
      cases hs : combine? s with
      | none => exact goes_pure hleft _
      | some combine =>
        refine goesAt_advance <| (goes_skipNewlines (hneeds.bind _) ?_).mono (Nat.sub_le _ _)
        exact hoperand.bind fun right right' hright =>
          ih (hcombine s combine hs _ _ _ _ _ _ hleft hright)
  exact hoperand.bind fun left left' hleft => hloop _ hleft

theorem goes_operation (hmore : TokenKind.NextLines more) (h : inner.Along more bound inner') :
    Goes more bound (Ahead more) Expr.Same (operation inner) (operation inner') := by
  have hbinary : ∀ op, ∀ left left' right right' span span', left.Same left' → right.Same right' →
      (combineBinary op left right span).Same (combineBinary op left' right' span') := by
    intro op left left' right right' span span' hleft hright
    simp only [Expr.Same, combineBinary, Expr.bare, hleft, hright]
  have hlogical : ∀ op, ∀ left left' right right' span span', left.Same left' → right.Same right' →
      (combineLogical op left right span).Same (combineLogical op left' right' span') := by
    intro op left left' right right' span span' hleft hright
    simp only [Expr.Same, combineLogical, Expr.bare, hleft, hright]
  have hneeds : Needs (unary inner) := failsAt_unary (.inl rfl)
  refine goes_level hmore (((((hneeds.bind _).bind _).bind _).bind _).bind _) (goes_level hmore
    ((((hneeds.bind _).bind _).bind _).bind _) (goes_level hmore (((hneeds.bind _).bind _).bind _)
    (goes_level hmore ((hneeds.bind _).bind _) (goes_level hmore (hneeds.bind _) (goes_level hmore hneeds
    (goes_unary hmore h) ?_) ?_) ?_) ?_) ?_) ?_
  all_goals
    intro s combine hs
    cases s <;> cases hs
    all_goals first
      | exact hbinary _
      | exact hlogical _

/-- An assignment does not depend on places. -/
theorem assignTo?_bare (value target : Expr) :
    (assignTo? value target).map Expr.bare = assignTo? value.bare target.bare := by
  cases target <;> rfl

theorem failsAt_assignment {next : Option TokenKind} (hnext : next = none ∨ next = some (.symbol .else_)) :
    FailsAt next (assignment inner) :=
  ((((((failsAt_unary hnext).bind _).bind _).bind _).bind _).bind _).bind _ |>.bind _

/-- **An expression** is the same up to places. -/
theorem goes_assignment (hmore : TokenKind.NextLines more) (h : inner.Along more bound inner') :
    Goes more bound (Ahead more) Expr.Same (assignment inner) (assignment inner') := by
  refine (goes_operation hmore h).bind fun target target' htarget => goes_place fun equals equals' => ?_
  refine goes_accept hmore ?_ (goes_pure htarget)
  refine (goes_skipNewlines (h.needs.bind _) ?_).mono (Nat.sub_le _ _)
  refine h.assignment.bind fun value value' hvalue => ?_
  have hassign : (assignTo? value target).map Expr.bare = (assignTo? value' target').map Expr.bare := by
    rw [assignTo?_bare, assignTo?_bare, hvalue, htarget]
  cases hleft : assignTo? value target with
  | none => exact fails_throw.goes _
  | some e =>
    cases hright : assignTo? value' target' with
    | none =>
      rw [hleft, hright] at hassign
      cases hassign
    | some e' =>
      rw [hleft, hright] at hassign
      exact goes_pure (Option.some.inj hassign)

end Expressions

/-! ### Statements -/

section Statements

variable {α β : Type} {more : List TokenKind} {bound : Nat} {next : Option TokenKind}
  {inner inner' : Inner} {R : α → β → Prop}

/-- Statements that end with a brace. -/
theorem Goes.behind {x : Parser α} {y : Parser β} (h : Goes more bound (Ahead more) R x y) :
    Goes more bound (Behind more) R x y := by
  intro next s s' a t hnext hlt hs hx
  obtain ⟨hle, b, t', hb, hr, hahead⟩ := h next s s' a t hnext hlt hs hx
  exact ⟨hle, b, t', hb, hr, .inl hahead⟩

theorem goesAt_varDeclaration (hmore : TokenKind.NextLines more) (h : inner.Along more bound inner') :
    GoesAt more bound (some (.symbol .var)) (Behind more) Stmt.Same (varDeclaration inner)
      (varDeclaration inner') := by
  refine goesAt_place fun span span' => goesAt_advance ?_
  refine goes_expectWord fun name _ _ => Goes.mono ?_ (Nat.sub_le bound _)
  refine goes_accept hmore (Goes.mono ?_ (Nat.sub_le bound _)) ?_
  · simp only [if_true, pure_bind]
    refine h.assignment.bind fun e e' he => goes_endStatement hmore ?_
    simp only [Stmt.Same, Stmt.bare, Option.map_some, he]
  · simp only [Bool.false_eq_true, if_false, pure_bind]
    exact goes_endStatement hmore rfl

theorem goesAt_letDeclaration (hmore : TokenKind.NextLines more) (h : inner.Along more bound inner') :
    GoesAt more bound (some (.symbol .let_)) (Behind more) Stmt.Same (letDeclaration inner)
      (letDeclaration inner') := by
  refine goesAt_place fun span span' => goesAt_advance ?_
  refine goes_expectWord fun name _ _ => goes_expect hmore fun _ _ => ?_
  refine Goes.mono (h.assignment.bind fun e e' he => goes_endStatement hmore ?_) (Nat.sub_le _ _)
  simp only [Stmt.Same, Stmt.bare, he]

theorem goesAt_functionDeclaration (hmore : TokenKind.NextLines more)
    (h : inner.Along more bound inner') :
    GoesAt more bound (some (.symbol .fn)) (Behind more) Stmt.Same (functionDeclaration inner)
      (functionDeclaration inner') := by
  refine goesAt_place fun span span' => goesAt_advance (Goes.mono (Goes.behind ?_) (Nat.sub_le _ _))
  refine goes_expectWord fun name _ _ => goes_expect hmore fun _ _ => ?_
  have hbody : ∀ params : List String, Goes more bound (Ahead more) Stmt.Same
      (do
        skipNewlines
        let _ ← expect .leftBrace .braceBeforeFunctionBody
        let body ← inner.block
        return Stmt.function name params body span)
      (do
        skipNewlines
        let _ ← expect .leftBrace .braceBeforeFunctionBody
        let body ← inner'.block
        return Stmt.function name params body span') := by
    refine fun params => goes_skipNewlines (needs_expect.bind _) (goes_expect hmore fun _ _ => ?_)
    refine h.block.bind fun body body' hsame => goes_pure ?_
    simp only [Stmt.Same, Stmt.bare, hsame]
  refine goes_skipNewlines ?_ (goes_at hmore ?_ ?_)
  · refine needs_at ?_
    simp only [Bool.false_eq_true, if_false]
    exact needs_parameters _ _ fun l => needs_expect.bind _
  · simp only [if_true, pure_bind]
    exact goes_expect hmore (fun _ _ => hbody []) _
  · simp only [Bool.false_eq_true, if_false]
    exact goes_parameters hmore h.tokens h.enough fun params _ _ => hbody params

theorem goes_elseBlock (hmore : TokenKind.NextLines more) (h : inner.Along more bound inner')
    (span span' : Span) :
    Goes more bound (Ahead more) Stmt.Same (elseBlock inner span) (elseBlock inner' span') := by
  refine goes_expect hmore fun _ _ => h.block.bind fun body body' hsame => goes_pure ?_
  simp only [Stmt.Same, Stmt.bare, hsame]

theorem goesAt_conditionalWith (hmore : TokenKind.NextLines more) (h : inner.Along more bound inner')
    {branch branch' : Span → Parser Stmt} (hneeds : ∀ span, Needs (branch span))
    (hbranch : ∀ span span', Goes more bound (Ahead more) Stmt.Same (branch span) (branch' span')) :
    GoesAt more bound (some (.symbol .if_)) (Ahead more) Stmt.Same (conditionalWith inner branch)
      (conditionalWith inner' branch') := by
  refine goesAt_place fun span span' => goesAt_advance (Goes.mono ?_ (Nat.sub_le _ _))
  refine h.assignment.bind fun condition condition' hcondition => ?_
  refine goes_skipNewlines (needs_expect.bind _) (goes_expect hmore fun _ _ => ?_)
  refine h.block.bind fun body body' hbody => goes_orElse hmore ((hneeds span).bind _) ?_ (goes_pure ?_)
  · refine (hbranch span span').bind fun p p' hp => goes_pure ?_
    simp only [Stmt.Same, Stmt.bare, hcondition, hbody, hp]
  · simp only [Stmt.Same, Stmt.bare, hcondition, hbody]

theorem needs_elseBlock (span : Span) : Needs (elseBlock inner span) := needs_expect.bind _

/-- **Conditionals:** where the rounds on the one side are used up, the last `else` has a block behind
it. -/
theorem goesAt_conditional (hmore : TokenKind.NextLines more) (h : inner.Along more bound inner')
    {fuel fuel' : Nat} (hfuel : fuel ≤ fuel') :
    GoesAt more bound (some (.symbol .if_)) (Ahead more) Stmt.Same (conditional inner fuel)
      (conditional inner' fuel') := by
  have hneeds : ∀ (fuel : Nat) (span : Span), Needs (at_ .if_ >>= fun found =>
      if found then conditional inner fuel else elseBlock inner span) :=
    fun _ span => needs_at (needs_elseBlock span)
  induction fuel generalizing fuel' with
  | zero =>
    cases fuel' with
    | zero => exact goesAt_conditionalWith hmore h needs_elseBlock (goes_elseBlock hmore h)
    | succ fuel' =>
      -- A round more looks for an `if` first, and there is a brace.
      refine goesAt_conditionalWith hmore h needs_elseBlock fun span span' => ?_
      intro next s s' a t hnext hlt hs hx
      obtain ⟨_, u, hu, -⟩ := bind_ok (x := expect .leftBrace .braceAfterElse) hx
      rw [bind_of_ok (at_eq .if_ s'), hs.symbol (head_of_expect hu)]
      exact goes_elseBlock hmore h span span' next s s' a t hnext hlt hs hx
  | succ fuel ih =>
    obtain ⟨rounds, rfl⟩ : ∃ rounds, fuel' = rounds + 1 := ⟨fuel' - 1, by omega⟩
    refine goesAt_conditionalWith hmore h (hneeds fuel) fun span span' => goes_at hmore ?_ ?_
    · exact ih (by omega)
    · exact goes_elseBlock hmore h span span'

theorem goesAt_whileLoop (hmore : TokenKind.NextLines more) (h : inner.Along more bound inner') :
    GoesAt more bound (some (.symbol .while_)) (Ahead more) Stmt.Same (whileLoop inner)
      (whileLoop inner') := by
  refine goesAt_place fun span span' => goesAt_advance (Goes.mono ?_ (Nat.sub_le _ _))
  refine h.assignment.bind fun condition condition' hcondition => ?_
  refine goes_skipNewlines (needs_expect.bind _) (goes_expect hmore fun _ _ => ?_)
  refine h.block.bind fun body body' hbody => goes_pure ?_
  simp only [Stmt.Same, Stmt.bare, hcondition, hbody]

theorem goesAt_forLoop (hmore : TokenKind.NextLines more) (h : inner.Along more bound inner') :
    GoesAt more bound (some (.symbol .for_)) (Ahead more) Stmt.Same (forLoop inner)
      (forLoop inner') := by
  -- From the back to the front: the body, the clause, and the word that may declare the variable.
  have hclause : ∀ (parenthesized : Bool) (span span' : Span), Goes more bound (Ahead more) Stmt.Same
      (do
        let word ← expectWord .loopVariable
        let _ ← expect .in_ .inAfterVariable
        let iterable ← inner.assignment
        if parenthesized then
          let _ ← expect .rightParen .parenAfterClause
        skipNewlines
        let _ ← expect .leftBrace .braceAfterClause
        return .for_ word.1 iterable (← inner.block) span)
      (do
        let word ← expectWord .loopVariable
        let _ ← expect .in_ .inAfterVariable
        let iterable ← inner'.assignment
        if parenthesized then
          let _ ← expect .rightParen .parenAfterClause
        skipNewlines
        let _ ← expect .leftBrace .braceAfterClause
        return .for_ word.1 iterable (← inner'.block) span') := by
    intro parenthesized span span'
    refine goes_expectWord fun name _ _ => goes_expect hmore fun _ _ => ?_
    refine h.assignment.bind fun iterable iterable' hiterable => ?_
    have hbody : Goes more bound (Ahead more) Stmt.Same
        (do
          skipNewlines
          let _ ← expect .leftBrace .braceAfterClause
          return Stmt.for_ name iterable (← inner.block) span)
        (do
          skipNewlines
          let _ ← expect .leftBrace .braceAfterClause
          return Stmt.for_ name iterable' (← inner'.block) span') := by
      refine goes_skipNewlines (needs_expect.bind _) (goes_expect hmore fun _ _ => ?_)
      refine h.block.bind fun body body' hsame => goes_pure ?_
      simp only [Stmt.Same, Stmt.bare, hiterable, hsame]
    cases parenthesized with
    | true => exact goes_expect hmore fun _ _ => hbody
    | false => exact hbody
  have hdeclared : ∀ (parenthesized : Bool) (span span' : Span), Goes more bound (Ahead more) Stmt.Same
      (do
        if ← at_ .var then advance
        else if ← at_ .let_ then advance
        let word ← expectWord .loopVariable
        let _ ← expect .in_ .inAfterVariable
        let iterable ← inner.assignment
        if parenthesized then
          let _ ← expect .rightParen .parenAfterClause
        skipNewlines
        let _ ← expect .leftBrace .braceAfterClause
        return .for_ word.1 iterable (← inner.block) span)
      (do
        if ← at_ .var then advance
        else if ← at_ .let_ then advance
        let word ← expectWord .loopVariable
        let _ ← expect .in_ .inAfterVariable
        let iterable ← inner'.assignment
        if parenthesized then
          let _ ← expect .rightParen .parenAfterClause
        skipNewlines
        let _ ← expect .leftBrace .braceAfterClause
        return .for_ word.1 iterable (← inner'.block) span') := by
    intro parenthesized span span'
    have hrest := hclause parenthesized span span'
    refine goes_at hmore ?_ (goes_at hmore ?_ hrest)
    · exact goesAt_advance (hrest.mono (Nat.sub_le _ _))
    · exact goesAt_advance (hrest.mono (Nat.sub_le _ _))
  refine goesAt_place fun span span' => goesAt_advance (Goes.mono ?_ (Nat.sub_le bound _))
  refine goes_accept hmore ((hdeclared true span span').mono (Nat.sub_le _ _)) ?_
  exact hdeclared false span span'

theorem goesAt_returnStatement (hmore : TokenKind.NextLines more) (h : inner.Along more bound inner') :
    GoesAt more bound (some (.symbol .return_)) (Behind more) Stmt.Same (returnStatement inner)
      (returnStatement inner') := by
  refine goesAt_place fun span span' => goesAt_advance (Goes.mono ?_ (Nat.sub_le bound _))
  refine goes_atStatementEnd hmore fun found => ?_
  cases found with
  | true =>
    simp only [if_true, pure_bind]
    exact goes_endStatement hmore rfl
  | false =>
    simp only [Bool.false_eq_true, if_false, pure_bind]
    refine h.assignment.bind fun e e' he => goes_endStatement hmore ?_
    simp only [Stmt.Same, Stmt.bare, Option.map_some, he]

/-- **A statement** is the same up to places. -/
theorem goes_statement (hmore : TokenKind.NextLines more) (h : inner.Along more bound inner') :
    Goes more bound (Behind more) Stmt.Same (statement inner) (statement inner') := by
  have hplain : Goes more bound (Behind more) Stmt.Same
      (do
        let e ← inner.assignment
        endStatement
        return .expr e)
      (do
        let e ← inner'.assignment
        endStatement
        return .expr e) := by
    refine h.assignment.bind fun e e' he => goes_endStatement hmore ?_
    simp only [Stmt.Same, Stmt.bare, he]
  have hblock : GoesAt more bound (some (.symbol .leftBrace)) (Behind more) Stmt.Same
      (do
        let span ← place
        advance
        return .block (← inner.block) span)
      (do
        let span ← place
        advance
        return .block (← inner'.block) span) := by
    refine goesAt_place fun span span' => goesAt_advance (Goes.mono (Goes.behind ?_) (Nat.sub_le _ _))
    refine h.block.bind fun body body' hbody => goes_pure ?_
    simp only [Stmt.Same, Stmt.bare, hbody]
  have hjump : ∀ (sym : Symbol) (jump : Span → Stmt), (∀ span span', (jump span).Same (jump span')) →
      GoesAt more bound (some (.symbol sym)) (Behind more) Stmt.Same
        (do
          let span ← place
          advance
          endStatement
          return jump span)
        (do
          let span ← place
          advance
          endStatement
          return jump span) := by
    intro sym jump hsame
    exact goesAt_place fun span span' => goesAt_advance (goes_endStatement hmore (hsame span span'))
  -- A statement that ends in a block may end right at the end of the source.
  have hends : ∀ {sym : Symbol} {x y : Parser Stmt}, GoesAt more bound (some (.symbol sym)) (Ahead more)
      Stmt.Same x y → GoesAt more bound (some (.symbol sym)) (Behind more) Stmt.Same x y := by
    intro sym x y hxy s s' a t hnext hlt hs hx
    obtain ⟨hle, b, t', hb, hr, hahead⟩ := hxy s s' a t hnext hlt hs hx
    exact ⟨hle, b, t', hb, hr, .inl hahead⟩
  refine goes_peekSymbol hmore (fun sym => ?_) hplain
  cases sym with
  | var => exact goesAt_varDeclaration hmore h
  | let_ => exact goesAt_letDeclaration hmore h
  | fn => exact goesAt_functionDeclaration hmore h
  | if_ => exact hends (goesAt_conditional hmore h h.tokens)
  | while_ => exact hends (goesAt_whileLoop hmore h)
  | for_ => exact hends (goesAt_forLoop hmore h)
  | return_ => exact goesAt_returnStatement hmore h
  | break_ => exact hjump .break_ _ fun _ _ => rfl
  | continue_ => exact hjump .continue_ _ fun _ _ => rfl
  | leftBrace => exact hblock
  | _ => exact hplain _

/-- No statement begins with an `else`. -/
theorem failsAt_statement {next : Option TokenKind} (hnext : next = none ∨ next = some (.symbol .else_))
    (h : FailsAt next inner.assignment) : FailsAt next (statement inner) := by
  rw [statement]
  refine failsAt_peekSymbol ?_
  rcases hnext with rfl | rfl <;> exact h.bind _

/-- The end is on the one side only where nothing is left on the other. -/
theorem goes_atEnd {P : List TokenKind → List TokenKind → Prop} {f : Bool → Parser α} {g : Bool → Parser β}
    (hneeds : Needs (f true)) (hf : Goes more bound P R (f false) (g false)) :
    Goes more bound P R (atEnd >>= f) (atEnd >>= g) := by
  intro next s s' a t hnext hlt hs h
  have hend : ∀ u : TokenStream, atEnd u = .ok (u.kinds.isEmpty, u) := by
    intro u
    rw [TokenStream.kinds, List.isEmpty_map]
    rfl
  rw [bind_of_ok (hend s)] at h
  cases hks : s.kinds with
  | nil =>
    rw [hks] at h
    exact absurd h (hneeds s a t (by rw [hks]; rfl))
  | cons k ks =>
    have hks' : s'.kinds.isEmpty = false := by
      rw [hs, hks]
      rfl
    rw [bind_of_ok (hend s'), hks', ← hks]
    rw [hks] at h
    exact hf next s s' a t hnext hlt hs h

/-- What follows a statement goes alike unless nothing is left. -/
theorem Goes.bindBehind {γ δ : Type} {Q : γ → δ → Prop} {P : List TokenKind → List TokenKind → Prop}
    {x : Parser γ} {y : Parser δ} {f : γ → Parser α} {g : δ → Parser β}
    (hx : Goes more bound (Behind more) Q x y) (hneeds : ∀ c, Needs (f c))
    (hf : ∀ c d, Q c d → Goes more bound P R (f c) (g d)) :
    Goes more bound P R (x >>= f) (y >>= g) := by
  intro next s s' a t hnext hlt hs h
  obtain ⟨c, u, hc, hu⟩ := bind_ok h
  obtain ⟨hle, d, u', hd, hcd, hbehind⟩ := hx next s s' c u hnext hlt hs hc
  have hahead : Ahead more u.kinds u'.kinds := by
    refine hbehind.resolve_right fun hnil => hneeds c u a t ?_ hu
    rw [hnil.1]
    rfl
  obtain ⟨hle', b, t', hb, hr⟩ := hf c d hcd _ u u' a t rfl (hle.trans_lt hlt) hahead hu
  exact ⟨hle'.trans hle, b, t', (bind_of_ok hd).trans hb, hr⟩

theorem needs_statements (fuel : Nat) (body : Array Stmt) {f : List Stmt → Parser α}
    (hf : ∀ ps, Needs (f ps)) : Needs (statements inner fuel body >>= f) := by
  cases fuel with
  | zero => exact hf _
  | succ fuel =>
    rw [statements]
    simp only [bind_assoc]
    refine needs_skipTerminators (needs_at (needs_atEnd ?_))
    exact hf _

/-- A block ends in front of the brace that closes it. -/
theorem statements_of_head {u : TokenStream} (h : symbolOf u.kinds.head? = some .rightBrace) (fuel : Nat)
    (body : Array Stmt) : statements inner fuel body u = .ok (body.toList, u) := by
  cases fuel with
  | zero => rfl
  | succ fuel =>
    have hskip : skipTerminators u = .ok ((), u) := by
      have hskip : skipTerminators u = .ok ((), { u with tokens := u.tokens.dropWhile isTerminator }) := rfl
      rw [hskip]
      obtain ⟨tokens, stop⟩ := u
      cases tokens with
      | nil => rfl
      | cons t ts =>
        obtain ⟨kind, span, lexeme⟩ := t
        have hkind : symbolOf (some kind) = some .rightBrace := h
        cases kind with
        | symbol sym =>
          cases hkind
          rfl
        | number | text | word | newline => cases hkind
    have hend : atEnd u = .ok (u.tokens.isEmpty, u) := rfl
    rw [statements, bind_of_ok hskip, bind_of_ok (at_eq .rightBrace u), decide_eq_true h, bind_of_ok hend,
      Bool.true_or, if_pos rfl]
    rfl

/-- **The statements of a block.** -/
theorem goes_statements (hmore : TokenKind.NextLines more) (h : inner.Along more bound inner')
    {wanted : Expectation} {fuel fuel' : Nat} (hfuel : fuel ≤ fuel') {body body' : Array Stmt}
    (hbody : List.Forall₂ Stmt.Same body.toList body'.toList) :
    Goes more bound (Ahead more) (List.Forall₂ Stmt.Same)
      (statements inner fuel body >>= fun ps => expect .rightBrace wanted >>= fun _ => pure ps)
      (statements inner' fuel' body' >>= fun ps => expect .rightBrace wanted >>= fun _ => pure ps) := by
  induction fuel generalizing fuel' body body' with
  | zero =>
    -- Where the rounds on the one side are used up, the brace is next, and the other side ends there too.
    intro next s s' ps t hnext hlt hs hx
    obtain ⟨_, u, hu, -⟩ := bind_ok (x := expect .rightBrace wanted) (f := fun _ => pure body.toList) hx
    rw [bind_of_ok (statements_of_head (hs.symbol (head_of_expect hu)) fuel' body')]
    exact goes_expect hmore (fun _ _ => goes_pure hbody) next s s' ps t hnext hlt hs hx
  | succ fuel ih =>
    obtain ⟨rounds, rfl⟩ : ∃ rounds, fuel' = rounds + 1 := ⟨fuel' - 1, by omega⟩
    rw [statements, statements]
    simp only [bind_assoc]
    have hend : ∀ ps : List Stmt, Needs (expect .rightBrace wanted >>= fun _ => (pure ps : Parser _)) :=
      fun _ => needs_expect.bind _
    refine goes_skipTerminators ?_ (goes_at hmore (goes_atEnd ?_ ?_ _) (goes_atEnd ?_ ?_))
    · exact needs_at (needs_atEnd (hend _))
    · exact hend _
    · exact goes_expect hmore fun _ _ => goes_pure hbody
    · exact hend _
    · simp only [Bool.or_self, Bool.false_eq_true, if_false, bind_assoc]
      refine (goes_statement hmore h).bindBehind (fun p => needs_statements _ _ hend) fun p p' hp => ?_
      refine ih (by omega) ?_
      rw [Array.toList_push, Array.toList_push]
      exact List.rel_append hbody (.cons hp .nil)

theorem goes_blockBody (hmore : TokenKind.NextLines more) (h : inner.Along more bound inner') :
    Goes more bound (Ahead more) (fun ps ps' => Stmt.bareAll ps = Stmt.bareAll ps') (blockBody inner)
      (blockBody inner') :=
  (goes_statements hmore h h.tokens .nil).imp fun _ _ => Stmt.bareAll_of_same

/-- **Every level goes alike.** -/
theorem along_levels (hmore : TokenKind.NextLines more) {tokens tokens' : Nat} (hle : tokens ≤ tokens')
    (room : Nat) : (levels tokens room).Along more tokens (levels tokens' room) := by
  induction room with
  | zero =>
    exact ⟨rfl, Nat.le_refl _, hle, fails_failHere.goes _, fails_failHere.goes _, fails_failHere.goes _,
      fails_failHere.at_⟩
  | succ room ih =>
    exact ⟨rfl, Nat.le_refl _, hle, goes_blockBody hmore ih, goes_assignment hmore ih, goes_unary hmore ih,
      failsAt_assignment (.inl rfl)⟩

end Statements

/-! ### Programs -/

section Programs

variable {more : List TokenKind} {bound : Nat} {inner inner' : Inner} {s s' t : TokenStream}
  {p : Program} {fuel fuel' : Nat} {body body' : Array Stmt}

/-- A stream without the ends of statements at its front. -/
def begun (s : TokenStream) : TokenStream :=
  { s with tokens := s.tokens.dropWhile isTerminator }

theorem kinds_begun (s : TokenStream) : (begun s).kinds = s.kinds.dropWhile TokenKind.isEnd :=
  kinds_dropWhile isTerminator_eq s

/-- **One round** of the loop over the statements of a program. -/
theorem program_succ (s : TokenStream) : program inner (fuel + 1) body s =
    if (begun s).kinds.isEmpty then .ok ({ statements := body.toList }, begun s)
    else (statement inner >>= fun p => program inner fuel (body.push p)) (begun s) := by
  have hskip : skipTerminators s = .ok ((), begun s) := rfl
  have hend : atEnd (begun s) = .ok ((begun s).kinds.isEmpty, begun s) := by
    rw [TokenStream.kinds, List.isEmpty_map]
    rfl
  rw [program, bind_of_ok hskip, bind_of_ok hend]
  split <;> rfl

theorem begun_begun (s : TokenStream) : begun (begun s) = begun s := by
  unfold begun
  rw [List.dropWhile_idempotent]

/-- **A program with more behind it:** the loop over its statements goes on with what is there. -/
theorem program_continues (hmore : TokenKind.NextLines more) (h : inner.Along more bound inner')
    (hfaithful : inner.Faithful) (hfaithful' : inner'.Faithful) (front : List Stmt)
    {statements : List Stmt} (hp : program inner fuel body s = .ok (p, t)) (hfuel : s.kinds.length < fuel)
    (hbound : s.kinds.length < bound) (hfuel' : s'.kinds.length < fuel')
    (hbehind : Behind more s.kinds s'.kinds) (hbody' : body'.toList = front ++ statements)
    (hsame : List.Forall₂ Stmt.Same body.toList statements) :
    ∃ (rounds : Nat) (last : Array Stmt) (u : TokenStream) (ps : List Stmt),
      program inner' fuel' body' s' = program inner' rounds last u ∧ u.kinds.length < rounds ∧
      u.kinds = more.dropWhile TokenKind.isEnd ∧ last.toList = front ++ ps ∧
      List.Forall₂ Stmt.Same p.statements ps := by
  -- The induction is on the rounds that the first program takes alone; the loop with more behind it takes
  -- the same ones, and goes on where the first program has come to its end.
  induction fuel generalizing s s' fuel' body body' statements with
  | zero => omega
  | succ fuel ih =>
    obtain ⟨rounds, rfl⟩ : ∃ rounds, fuel' = rounds + 1 := ⟨fuel' - 1, by omega⟩
    rw [program_succ] at hp
    have hle : (begun s).kinds.length ≤ s.kinds.length := by
      rw [kinds_begun]
      exact (List.dropWhile_sublist _).length_le
    have hle' : (begun s').kinds.length ≤ s'.kinds.length := by
      rw [kinds_begun]
      exact (List.dropWhile_sublist _).length_le
    split at hp
    case isTrue hnil =>
      cases hp
      refine ⟨rounds + 1, body', begun s', statements, ?_, by omega, ?_, hbody', hsame⟩
      · rw [program_succ, program_succ, begun_begun]
      · rw [kinds_begun] at hnil ⊢
        rcases hbehind with hahead | ⟨-, hrest⟩
        · rw [hahead, List.dropWhile_append, if_pos hnil]
        · rw [hrest, List.dropWhile_idempotent]
    case isFalse hne =>
      have hahead : Ahead more (begun s).kinds (begun s').kinds := by
        rw [kinds_begun] at hne ⊢
        rcases hbehind with hahead | ⟨hnil, -⟩
        · rw [Ahead, kinds_begun, hahead, List.dropWhile_append, if_neg hne]
        · rw [hnil] at hne
          exact absurd rfl hne
      have hne' : ¬ (begun s').kinds.isEmpty := by
        rw [hahead]
        simp only [List.isEmpty_iff] at hne
        simp [hne]
      obtain ⟨q, v, hq, hv⟩ := bind_ok hp
      obtain ⟨hle₁, q', v', hq', hqq', hbehind'⟩ := goes_statement hmore h _ _ _ q v rfl
        (by omega) hahead hq
      have hlength : ∀ u : TokenStream, u.kinds.length = u.tokens.length := fun _ => List.length_map _
      have hlt := length_statement_lt hfaithful hq
      have hlt' := length_statement_lt hfaithful' hq'
      rw [← hlength, ← hlength] at hlt hlt'
      rw [program_succ, if_neg hne', bind_of_ok hq']
      have hpushed : (body'.push q').toList = front ++ (statements ++ [q']) := by
        rw [Array.toList_push, hbody', List.append_assoc]
      refine ih hv (by omega) (by omega) (by omega) hbehind' hpushed ?_
      rw [Array.toList_push]
      exact List.rel_append hsame (.cons hqq' .nil)

/-- **No program** begins with an `else`. -/
theorem not_else_of_program (hinner : FailsAt (some (.symbol .else_)) inner.assignment)
    (hp : program inner (fuel + 1) body s = .ok (p, t)) :
    symbolOf (s.kinds.dropWhile TokenKind.isLine).head? ≠ some .else_ := by
  intro helse
  obtain ⟨ks, hks⟩ : ∃ ks, s.kinds.dropWhile TokenKind.isLine = .symbol .else_ :: ks := by
    cases hk : s.kinds.dropWhile TokenKind.isLine with
    | nil =>
      rw [hk] at helse
      cases helse
    | cons k ks =>
      rw [hk] at helse
      cases k with
      | symbol sym =>
        cases helse
        exact ⟨ks, rfl⟩
      | number | text | word | newline => cases helse
  -- The lines in front of the `else` end no statement, so that it would begin one.
  have hlines : ∀ k ∈ s.kinds.takeWhile TokenKind.isLine, k.isEnd = true := by
    intro k hk
    have hline := List.mem_takeWhile_imp hk
    cases k with
    | newline => rfl
    | number | text | word | symbol => cases hline
  have hbegun : (begun s).kinds = .symbol .else_ :: ks := by
    rw [kinds_begun, ← List.takeWhile_append_dropWhile (p := TokenKind.isLine) (l := s.kinds),
      List.dropWhile_append_of_pos hlines, hks]
    rfl
  rw [program_succ, hbegun] at hp
  obtain ⟨q, v, hq, -⟩ := bind_ok hp
  exact failsAt_statement (.inr rfl) hinner _ q v (by rw [hbegun]; rfl) hq

end Programs

end Parser

/-- How a program is read. -/
theorem Program.ofTokens_eq_ok {s : TokenStream} {p : Program} :
    Program.ofTokens s = .ok p ↔ ∃ t, Parser.program (Parser.levels (s.tokens.length + 1) maxNesting)
      (s.tokens.length + 1) #[] s = .ok (p, t) := by
  have hrun : Program.ofTokens s = (Parser.program (Parser.levels (s.tokens.length + 1) maxNesting)
      (s.tokens.length + 1) #[] s).map (·.1) := by
    unfold Program.ofTokens StateT.run
    dsimp only
    generalize Parser.program _ _ _ s = r
    cases r <;> rfl
  rw [hrun]
  cases Parser.program _ _ _ s with
  | error e =>
    refine ⟨fun h => ?_, fun ⟨t, h⟩ => ?_⟩
    · cases h
    · cases h
  | ok r =>
    refine ⟨fun h => ?_, fun ⟨t, h⟩ => ?_⟩
    · cases h
      exact ⟨r.2, rfl⟩
    · cases h
      rfl

open DeployScript.Parser in
/-- **Programs one behind another:** the tokens of two programs, with the end of a line between them, are
those of a program with the statements of both, up to places. -/
theorem Program.ofTokens_append {s t u : TokenStream} {p q : Program} (hp : Program.ofTokens s = .ok p)
    (hq : Program.ofTokens t = .ok q) (hu : u.kinds = s.kinds ++ .newline :: t.kinds) :
    ∃ r, Program.ofTokens u = .ok r ∧
      Stmt.bareAll r.statements = Stmt.bareAll (p.statements ++ q.statements) := by
  obtain ⟨s', hp⟩ := Program.ofTokens_eq_ok.1 hp
  obtain ⟨t', hq⟩ := Program.ofTokens_eq_ok.1 hq
  have hlength : ∀ u : TokenStream, u.kinds.length = u.tokens.length := fun _ => List.length_map _
  have hlengths : u.tokens.length = s.tokens.length + (t.tokens.length + 1) := by
    rw [← hlength, hu, List.length_append, List.length_cons, hlength, hlength]
  have hmore : TokenKind.NextLines (.newline :: t.kinds) :=
    { line := fun k ks h => (List.cons.inj h).1.symm
      fresh := not_else_of_program (failsAt_assignment (.inr rfl)) hq }
  have hfaithful := fun tokens => faithful_levels tokens maxNesting
  -- The statements of the first program come first,
  have halong : (levels (s.tokens.length + 1) maxNesting).Along _ _ (levels (u.tokens.length + 1) maxNesting) :=
    along_levels hmore (by omega) maxNesting
  have henough : u.kinds.length < u.tokens.length + 1 := by
    rw [hlength]
    exact Nat.lt_succ_self _
  have hempty : (#[] : Array Stmt).toList = [] ++ [] := rfl
  obtain ⟨rounds, last, v, ps, hrun, hrounds, hv, hlast, hps⟩ := program_continues hmore halong (hfaithful _)
    (hfaithful _) [] hp (by rw [hlength]; omega) (by rw [hlength]; omega) henough (.inl hu) hempty .nil
  -- those of the second behind them,
  have hnothing : TokenKind.NextLines [] := ⟨nofun, nofun⟩
  have hbegun : Parser.program (levels (t.tokens.length + 1) maxNesting) (t.tokens.length + 1) #[]
      (begun t) = .ok (q, t') := by
    rw [program_succ, begun_begun, ← program_succ]
    exact hq
  have hle : (begun t).kinds.length ≤ t.tokens.length := by
    rw [kinds_begun, ← hlength]
    exact (List.dropWhile_sublist _).length_le
  have halong' : (levels (t.tokens.length + 1) maxNesting).Along [] _ (levels (u.tokens.length + 1) maxNesting) :=
    along_levels hnothing (by omega) maxNesting
  have hbehind : Behind [] (begun t).kinds v.kinds := by
    refine .inl ?_
    rw [Ahead, List.append_nil, hv, kinds_begun]
    rfl
  obtain ⟨rounds', last', w, qs, hrun', hrounds', hw, hlast', hqs⟩ := program_continues hnothing halong'
    (hfaithful _) (hfaithful _) ps hbegun (by omega) (by omega) hrounds hbehind
    (hlast.trans (List.append_nil _).symm) .nil
  -- and then there is nothing left.
  obtain ⟨rounds', rfl⟩ : ∃ n, rounds' = n + 1 := ⟨rounds' - 1, by omega⟩
  have hend : (begun w).kinds.isEmpty := by
    rw [kinds_begun, hw]
    rfl
  refine ⟨{ statements := last'.toList }, Program.ofTokens_eq_ok.2 ⟨begun w, ?_⟩, ?_⟩
  · rw [hrun, hrun', program_succ, if_pos hend]
  · rw [hlast']
    exact (Stmt.bareAll_of_same (List.rel_append hps hqs)).symm

/-- **Sources one behind another** have the statements of both, up to places. -/
theorem Program.ofSource_append {a b : String} {p q : Program} (hp : Program.ofSource a = .ok p)
    (hq : Program.ofSource b = .ok q) : ∃ r, Program.ofSource (a ++ "\n" ++ b) = .ok r ∧
      Stmt.bareAll r.statements = Stmt.bareAll (p.statements ++ q.statements) := by
  have hsplit : ∀ {source : String} {p : Program}, Program.ofSource source = .ok p →
      ∃ s, TokenStream.ofSource source = .ok s ∧ Program.ofTokens s = .ok p := by
    intro source p h
    unfold Program.ofSource at h
    cases hs : TokenStream.ofSource source with
    | error e =>
      rw [hs] at h
      cases h
    | ok s =>
      rw [hs] at h
      exact ⟨s, rfl, h⟩
  obtain ⟨s, hs, hp⟩ := hsplit hp
  obtain ⟨t, ht, hq⟩ := hsplit hq
  obtain ⟨u, hu, hkinds⟩ := TokenStream.ofSource_append hs ht
  obtain ⟨r, hr, hsame⟩ := Program.ofTokens_append hp hq hkinds
  refine ⟨r, ?_, hsame⟩
  rw [Program.ofSource, hu]
  exact hr

end DeployScript
