import DeployScript.Proofs.Program.Faithful
import DeployScript.Proofs.Program.Following

/-!
# Reading ends and stays in bounds

Whatever tokens a source has, reading them comes to an end, with a program or with an error. Each turn of a loop
goes over a token or is the last, and each call that is not for a token opens one of the levels, of which there
are only so many. On the way no token outside the list is looked at, and the levels that are opened are closed.

* `Reader.Calls.Follow` — the readers that open a level follow the parsers that do.
* `Reader.follows_assignment`, `Reader.follows_statement` — the readers, one by one.
* `Program.read_eq_ofTokens` — a whole list of tokens.
-/

namespace DeployScript

namespace Reader

open TokenCursor

/-! ### Loops -/

section Loops

variable {α : Type} {left depth : Nat} {x : Reader α} {y : Parser α}

/-- Items with commas between them. -/
theorem follows_delimited {close : Symbol} (hitem : Follows left depth x y) (hconsumes : Consumes y)
    {limit turns fuel : Nat} (hlimit : left < limit) (hturns : left < turns) (hfuel : left < fuel)
    (items : Array α) :
    Follows left depth (delimited limit close x turns items) (Parser.delimited close y fuel items) := by
  induction turns generalizing left fuel items with
  | zero => exact absurd hturns (Nat.not_lt_zero _)
  | succ turns ih =>
    obtain ⟨fuel, rfl⟩ : ∃ f, fuel = f + 1 := Nat.exists_eq_succ_of_ne_zero (by omega)
    rw [delimited, Parser.delimited]
    refine follows_of_next fun slot => follows_check (fun _ => follows_pure) ?_
    rw [if_neg Bool.false_ne_true, if_neg Bool.false_ne_true]
    -- An item takes a token, so a turn less is enough for what stands behind it.
    refine FollowsAt.bind_fewer hitem.at hconsumes fun a hleft => ?_
    have hlines : Follows (left - 1) depth (skipNewlines limit) Parser.skipNewlines :=
      follows_skipNewlines (by omega)
    refine hlines.bind fun _ => follows_of_next fun slot => follows_accept ?_ follows_pure
    refine hlines.at.bind fun _ => ?_
    exact ih (hitem.fewer (Nat.sub_le _ _)) (by omega) (by omega) (by omega) _

/-- Names with commas between them. -/
theorem follows_parameters {limit turns fuel : Nat} (hlimit : left < limit) (hturns : left < turns)
    (hfuel : left < fuel) (names : Array String) :
    Follows left depth (parameters limit turns names) (Parser.parameters fuel names) := by
  induction turns generalizing left fuel names with
  | zero => exact absurd hturns (Nat.not_lt_zero _)
  | succ turns ih =>
    obtain ⟨fuel, rfl⟩ : ∃ f, fuel = f + 1 := Nat.exists_eq_succ_of_ne_zero (by omega)
    rw [parameters, Parser.parameters]
    refine (follows_skipNewlines hlimit).bind fun _ => ?_
    -- A name takes a token as well.
    refine follows_expectWord_fewer fun name slot hleft => ?_
    have hlines : Follows (left - 1) depth (skipNewlines limit) Parser.skipNewlines :=
      follows_skipNewlines (by omega)
    refine hlines.at.bind fun _ => follows_of_next fun slot => follows_accept ?_ follows_pure
    exact (ih (by omega) (by omega) (by omega) _).at

/-- **Operators of one precedence:** those in front of them and those that may still come are as many as
there may be. -/
theorem follows_operators {operand : Reader Expr} {operand' : Parser Expr}
    {combine? : Symbol → Option Parser.Combine} (hoperand : Follows left depth operand operand')
    {limit turns chain more : Nat} (hlimit : left < limit) (hturns : left < turns)
    (hchain : chain + more = maxChain) (e : Expr) :
    Follows left depth (operators limit operand combine? turns chain e)
      (Parser.operators operand' combine? more e) := by
  induction turns generalizing left chain more e with
  | zero => exact absurd hturns (Nat.not_lt_zero _)
  | succ turns ih =>
    rw [operators, Parser.operators.eq_def]
    refine follows_of_next fun slot => follows_peek <| follows_peekSymbol ?_
    cases hcombine : slot.symbol?.bind combine? with
    | none => exact follows_pure
    | some combine =>
      have hkind : slot.kind ≠ none := by
        obtain ⟨s, hs, _⟩ := Option.bind_eq_some_iff.1 hcombine
        exact kind_ne_none hs
      -- The operator itself is a token less, so the turns last as long as there are tokens.
      refine follows_advance_fewer hkind fun hleft => ?_
      cases more with
      | zero =>
        rw [if_pos (by omega)]
        exact follows_failHere.at
      | succ more =>
        rw [if_neg (by omega)]
        have hlines : Follows (left - 1) depth (skipNewlines limit) Parser.skipNewlines :=
          follows_skipNewlines (by omega)
        have hfewer := hoperand.fewer (Nat.sub_le left 1)
        refine hlines.at.bind fun _ => hfewer.bind fun right => ?_
        exact ih hfewer (by omega) (by omega) (by omega) _

theorem follows_level {operand : Reader Expr} {operand' : Parser Expr}
    {combine? : Symbol → Option Parser.Combine} (hoperand : Follows left depth operand operand')
    {turns : Nat} (hturns : left < turns) :
    Follows left depth (level turns operand combine?) (Parser.level operand' combine?) :=
  hoperand.bind fun e => follows_operators hoperand hturns hturns (Nat.zero_add _) e

end Loops

/-! ### Expressions -/

/-- **The readers and the parsers that open a level do the same,** where that many levels are open. -/
structure Calls.Follow (left depth : Nat) (calls : Calls) (inner : Parser.Inner) : Prop where
  turns : left < calls.turns
  tokens : left < inner.tokens
  room : inner.room + depth = maxNesting
  faithful : inner.Faithful
  block : Follows left depth (nested calls.block) inner.block
  assignment : Follows left depth (nested calls.assignment) inner.assignment
  unary : Follows left depth (nested calls.unary) inner.unary

section Calls

variable {left depth : Nat} {calls : Calls} {inner : Parser.Inner}

theorem Calls.Follow.fewer (h : calls.Follow left depth inner) {left' : Nat} (hle : left' ≤ left) :
    calls.Follow left' depth inner :=
  ⟨hle.trans_lt h.turns, hle.trans_lt h.tokens, h.room, h.faithful, h.block.fewer hle,
    h.assignment.fewer hle, h.unary.fewer hle⟩

theorem Calls.Follow.lines (h : calls.Follow left depth inner) :
    Follows left depth (skipNewlines calls.turns) Parser.skipNewlines :=
  follows_skipNewlines h.turns

theorem consumes_assignment (h : inner.Faithful) : Consumes inner.assignment :=
  fun _ _ _ => h.assignment.length_lt Expr.leading

theorem follows_recordField (h : calls.Follow left depth inner) :
    Follows left depth (recordField calls) (Parser.recordField inner) := by
  -- Whichever token the key is, the same follows.
  have hrest (key : String) : Follows left depth (do
      let _ ← expect .colon .colonAfterKey
      skipNewlines calls.turns
      return (key, ← expression calls)) (do
      let _ ← Parser.expect .colon .colonAfterKey
      Parser.skipNewlines
      return (key, ← inner.assignment)) :=
    follows_expect fun _ => h.lines.bind fun _ => h.assignment.bind fun _ => follows_pure
  refine follows_of_next fun slot => ?_
  obtain ⟨kind, span⟩ := slot
  rw [recordField, Parser.recordField]
  refine follows_peek <| follows_parser_peek ?_
  match kind with
  | some (.word name) =>
    dsimp only
    rw [pure_bind, pure_bind]
    exact follows_advance nofun (hrest name).at
  | some (.text value) =>
    dsimp only
    rw [pure_bind, pure_bind]
    exact follows_advance nofun (hrest value).at
  | none | some (.number _) | some (.symbol _) | some .newline => exact follows_failExpected_bind.at

theorem consumes_recordField (h : inner.Faithful) : Consumes (Parser.recordField inner) :=
  fun _ _ _ => (Parser.reads_recordField h).length_lt fun _ => ⟨_, _, rfl, rfl⟩

theorem follows_elements (h : calls.Follow left depth inner) (close : Symbol) :
    Follows left depth (delimited calls.turns close (expression calls) calls.turns #[])
      (Parser.delimited close inner.assignment inner.tokens #[]) :=
  follows_delimited h.assignment (consumes_assignment h.faithful) h.turns h.turns h.tokens #[]

theorem follows_fields (h : calls.Follow left depth inner) (close : Symbol) :
    Follows left depth (delimited calls.turns close (recordField calls) calls.turns #[])
      (Parser.delimited close (Parser.recordField inner) inner.tokens #[]) :=
  follows_delimited (follows_recordField h) (consumes_recordField h.faithful) h.turns h.turns h.tokens #[]

theorem follows_primary (h : calls.Follow left depth inner) :
    Follows left depth (primary calls) (Parser.primary inner) := by
  refine follows_of_next fun slot => ?_
  obtain ⟨kind, span⟩ := slot
  rw [primary, Parser.primary]
  refine follows_peek <| follows_place <| follows_parser_peek ?_
  have hfail : FollowsAt (NextIs ⟨kind, span⟩) left depth
      (throw (.at_ .expectedExpression span) : Reader Expr) (Parser.failHere .expectedExpression) := by
    intro c hc hk
    rw [parser_failHere_eq hk]
    exact .refusal hc.refl
  cases kind with
  | none => exact hfail
  | some kind =>
    cases kind with
    | number | text | word => exact follows_advance nofun follows_pure
    | newline => exact hfail
    | symbol s =>
      cases s
      case true_ | false_ | nil => exact follows_advance nofun follows_pure
      case leftParen =>
        refine follows_advance nofun <| h.lines.at.bind fun _ => h.assignment.bind fun e => ?_
        exact h.lines.bind fun _ => follows_expect fun _ => follows_pure
      case leftBracket =>
        refine follows_advance nofun <| h.lines.at.bind fun _ => ?_
        exact (follows_elements h _).bind fun _ => follows_expect fun _ => follows_pure
      case leftBrace =>
        refine follows_advance nofun <| h.lines.at.bind fun _ => ?_
        exact (follows_fields h _).bind fun _ => follows_expect fun _ => follows_pure
      all_goals exact hfail

/-- The levels that accesses count as, and those that are open, are not too many yet. -/
theorem follows_extendAccesses {β : Type} {known : TokenCursor → Prop} {count : Nat} {f : Unit → Reader β}
    {p : Parser β} (hlt : depth + count < maxNesting)
    (h : FollowsAt known left depth (f ()) p) :
    FollowsAt known left depth (extendAccesses count >>= f) p := by
  intro c hc hk
  have hextend : extendAccesses count c = .ok (.ok (), c) := by
    have hle : ¬ maxNesting < c.depth + (count + 1) := by
      have hdepth := hc.depth
      omega
    rw [extendAccesses, bind_value (get_eq c), if_neg hle]
    rfl
  rw [bind_value hextend]
  exact h c hc hk

/-- One more would be too many. -/
theorem follows_extendAccesses_full {β : Type} {count : Nat} {f : Unit → Reader β}
    (heq : depth + count = maxNesting) :
    Follows left depth (extendAccesses count >>= f) (Parser.failHere (.limitExceeded .nesting)) := by
  refine follows_of_next fun slot c hc hk => ?_
  have hlt : maxNesting < c.depth + (count + 1) := by
    have hdepth := hc.depth
    omega
  have hextend : extendAccesses count c = .ok (.error (.at_ (.limitExceeded .nesting) slot.span), c) := by
    rw [extendAccesses, bind_value (get_eq c), if_pos hlt]
    exact failHere_eq hk
  rw [bind_refusal hextend, parser_failHere_eq hk]
  exact .refusal hc.refl

/-- **Accesses:** each counts as a level, so that there may be as many as levels are left. -/
theorem follows_accesses (h : calls.Follow left depth inner) {turns count room : Nat}
    (hturns : left < turns) (hroom : depth + count + room = maxNesting) (e : Expr) :
    Follows left depth (accesses calls turns count e) (Parser.accesses inner room e) := by
  induction turns generalizing left count room e with
  | zero => exact absurd hturns (Nat.not_lt_zero _)
  | succ turns ih =>
    refine follows_of_next fun slot => ?_
    cases room with
    | zero =>
      -- No level is left: an access fails before its token is gone over.
      have hfull : depth + count = maxNesting := hroom
      have hfail {f : Unit → Reader Expr} : FollowsAt (NextIs slot) left depth
          (extendAccesses count >>= f) (Parser.failHere (.limitExceeded .nesting)) :=
        (follows_extendAccesses_full hfull).at
      rw [accesses, Parser.accesses]
      refine follows_peek <| follows_peekSymbol ?_
      cases slot.symbol? with
      | none => exact follows_pure
      | some s =>
        cases s
        case leftParen | dot | leftBracket => exact hfail
        all_goals exact follows_pure
    | succ room =>
      have hlt : depth + count < maxNesting := by omega
      -- Behind the token of the access, there is one turn less and one level less.
      have hnext (hleft : 0 < left) (e : Expr) : Follows (left - 1) depth
          (accesses calls turns (count + 1) e) (Parser.accesses inner room e) :=
        ih (h.fewer (Nat.sub_le _ _)) (by omega) (by omega) e
      have hfewer := h.fewer (Nat.sub_le left 1)
      rw [accesses, Parser.accesses]
      refine follows_peek <| follows_peekSymbol ?_
      cases hs : slot.symbol? with
      | none => exact follows_pure
      | some s =>
        have hkind := kind_ne_none hs
        cases s
        case leftParen =>
          refine follows_extendAccesses hlt <| follows_advance_fewer hkind fun hleft => ?_
          refine hfewer.lines.at.bind fun _ => (follows_elements hfewer _).bind fun args => ?_
          exact follows_expect fun _ => hnext hleft _
        case dot =>
          refine follows_extendAccesses hlt <| follows_advance_fewer hkind fun hleft => ?_
          exact (follows_expectWord fun name slot => follows_previous (hnext hleft _).at).at
        case leftBracket =>
          refine follows_extendAccesses hlt <| follows_advance_fewer hkind fun hleft => ?_
          refine hfewer.lines.at.bind fun _ => hfewer.assignment.bind fun index => ?_
          exact hfewer.lines.bind fun _ => follows_expect fun _ => hnext hleft _
        all_goals exact follows_pure

theorem follows_unary (h : calls.Follow left depth inner) :
    Follows left depth (unary calls) (Parser.unary inner) := by
  have hroom : depth + 0 + inner.room = maxNesting := by
    rw [Nat.add_zero, Nat.add_comm]
    exact h.room
  have haccess : Follows left depth (access calls) (Parser.access inner) :=
    (follows_primary h).bind fun e => follows_accesses h h.turns hroom e
  refine follows_of_next fun slot => ?_
  rw [unary, Parser.unary]
  refine follows_place <| follows_accept ?_ <| follows_accept ?_ haccess.at
  · exact follows_previous <| h.unary.at.bind fun _ => follows_pure
  · exact follows_previous <| h.unary.at.bind fun _ => follows_pure

theorem follows_assignment (h : calls.Follow left depth inner) :
    Follows left depth (assignment calls) (Parser.assignment inner) := by
  have hoperation : Follows left depth (operation calls) (Parser.operation inner) :=
    follows_level (follows_level (follows_level (follows_level (follows_level (follows_level
      (follows_unary h) h.turns) h.turns) h.turns) h.turns) h.turns) h.turns
  refine hoperation.bind fun target => follows_of_next fun slot => ?_
  -- Once the sign is accepted it stands in front of the position, where the reader looks for its place.
  refine follows_place <| follows_accept ?_ follows_pure
  refine follows_previous <| h.lines.at.bind fun _ => h.assignment.bind fun value => ?_
  cases Parser.assignTo? value target with
  | none => exact follows_throw
  | some e => exact follows_pure

/-! ### Statements -/

theorem Calls.Follow.ended (h : calls.Follow left depth inner) (p : Stmt) :
    Follows left depth (do
      endStatement calls.turns
      return p) (do
      Parser.endStatement
      return p) :=
  (follows_endStatement h.turns).bind fun _ => follows_pure

/-- A block, which may be on the next line. -/
theorem Calls.Follow.body (h : calls.Follow left depth inner) (wanted : Expectation)
    (whole : List Stmt → Stmt) :
    Follows left depth (do
      skipNewlines calls.turns
      let _ ← expect .leftBrace wanted
      return whole (← blockStatements calls)) (do
      Parser.skipNewlines
      let _ ← Parser.expect .leftBrace wanted
      return whole (← inner.block)) :=
  h.lines.bind fun _ => follows_expect fun _ => h.block.bind fun _ => follows_pure

section Statements

variable {slot : Slot}

theorem follows_varDeclaration (h : calls.Follow left depth inner) (hkind : slot.kind ≠ none) :
    FollowsAt (NextIs slot) left depth (varDeclaration calls) (Parser.varDeclaration inner) := by
  rw [varDeclaration, Parser.varDeclaration]
  refine follows_place <| follows_advance hkind <| Follows.at <| follows_expectWord fun name _ => ?_
  have hrest (value : Option Expr) := h.ended (.var name value slot.span)
  refine Follows.at <| follows_of_next fun _ => follows_accept ?_ ?_
  · exact h.assignment.at.bind fun e => follows_pure.bind hrest
  · exact follows_pure.bind hrest

theorem follows_letDeclaration (h : calls.Follow left depth inner) (hkind : slot.kind ≠ none) :
    FollowsAt (NextIs slot) left depth (letDeclaration calls) (Parser.letDeclaration inner) := by
  rw [letDeclaration, Parser.letDeclaration]
  refine follows_place <| follows_advance hkind <| Follows.at <| follows_expectWord fun name _ => ?_
  refine Follows.at <| follows_expect fun _ => h.assignment.bind fun value => ?_
  exact h.ended (.let_ name value slot.span)

theorem follows_functionDeclaration (h : calls.Follow left depth inner) (hkind : slot.kind ≠ none) :
    FollowsAt (NextIs slot) left depth (functionDeclaration calls)
      (Parser.functionDeclaration inner) := by
  rw [functionDeclaration, Parser.functionDeclaration]
  refine follows_place <| follows_advance hkind <| Follows.at <| follows_expectWord fun name _ => ?_
  have hrest (params : List String) : Follows left depth (do
      let _ ← expect .rightParen .parenAfterParameters
      skipNewlines calls.turns
      let _ ← expect .leftBrace .braceBeforeFunctionBody
      let body ← blockStatements calls
      return Stmt.function name params body slot.span) (do
      let _ ← Parser.expect .rightParen .parenAfterParameters
      Parser.skipNewlines
      let _ ← Parser.expect .leftBrace .braceBeforeFunctionBody
      let body ← inner.block
      return Stmt.function name params body slot.span) :=
    follows_expect fun _ => h.body _ (.function name params · slot.span)
  refine Follows.at <| follows_expect fun _ => h.lines.bind fun _ => ?_
  refine follows_of_next fun _ => follows_check (fun _ => follows_pure.bind hrest) ?_
  exact (follows_parameters h.turns h.turns h.tokens _).at.bind hrest

theorem follows_elseBlock (h : calls.Follow left depth inner) (span : Span) :
    Follows left depth (elseBlock calls span) (Parser.elseBlock inner span) :=
  follows_expect fun _ => h.block.bind fun _ => follows_pure

/-- **The position goes back** where no `else` comes, and only then. -/
theorem follows_checkpoint {β : Type} {turns : Nat} {a b : Reader β} {a' b' : Parser β}
    (hturns : left < turns) (ha : Follows left depth a a') (hb : Follows left depth b b') :
    Follows left depth (do
      let checkpoint := (← get).current
      skipNewlines turns
      if ← accept .else_ then a
      else
        moveTo checkpoint
        b) (do
      let before ← get
      Parser.skipNewlines
      if ← Parser.accept .else_ then a'
      else
        set before
        b') := by
  intro c hc _
  have hbefore : (get : Parser TokenStream) c.rest = .ok (c.rest, c.rest) := rfl
  rw [bind_value (get_eq c), parser_bind_value hbefore]
  have hlines : FollowsAt (fun now => c = now) left depth (skipNewlines turns) Parser.skipNewlines :=
    (follows_skipNewlines hturns).at
  refine hlines.bind_of ?_ c hc rfl
  rintro _ c' _ _ rfl hon _
  obtain ⟨slot, hslot⟩ := (hc.onward hon).nextIs
  by_cases helse : slot.symbol? = some .else_
  · obtain ⟨hread, hon', hparse⟩ := accept_eq_true hslot helse
    have hin := (hc.onward hon).onward hon'
    rw [bind_value hread, parser_bind_value hparse]
    exact (ha c'.next hin trivial).onward (hon.trans hon')
  · obtain ⟨hread, hparse⟩ := accept_eq_false hslot helse
    -- Only the position has changed, so that going back is as if nothing had been looked at.
    have hback : { c' with current := c.current } = c := by
      obtain ⟨stream, current, depth⟩ := c
      obtain ⟨stream', current', depth'⟩ := c'
      obtain rfl : stream' = stream := hon.stream
      obtain rfl : depth' = depth := hon.depth
      rfl
    have hmove : moveTo c.current c' = .ok (.ok (), c) := by
      have hle : c.current ≤ c'.stream.tokens.length := by
        rw [hon.stream]
        exact hc.current
      rw [moveTo_eq hle, hback]
    have hset : (set c.rest : Parser PUnit) c'.rest = .ok (⟨⟩, c.rest) := rfl
    rw [bind_value hread, parser_bind_value hparse, if_neg Bool.false_ne_true,
      if_neg Bool.false_ne_true, bind_value hmove, parser_bind_value hset]
    exact hb c hc trivial

/-- A conditional, and behind each `else` perhaps another one. -/
theorem follows_conditional (h : calls.Follow left depth inner) (hkind : slot.kind ≠ none)
    {turns fuel : Nat} (hturns : left < turns) (hfuel : left ≤ fuel) :
    FollowsAt (NextIs slot) left depth (conditional calls turns) (Parser.conditional inner fuel) := by
  induction turns generalizing left fuel slot with
  | zero => exact absurd hturns (Nat.not_lt_zero _)
  | succ turns ih =>
    cases fuel with
    | zero =>
      -- The `if` itself is a token.
      rw [conditional, Parser.conditional, Parser.conditionalWith]
      refine follows_place <| follows_advance_fewer hkind fun hleft => ?_
      exact absurd hleft (Nat.not_lt_of_le hfuel)
    | succ fuel =>
      rw [conditional, Parser.conditional, Parser.conditionalWith]
      refine follows_place <| follows_advance_fewer hkind fun hleft => ?_
      have hfewer := h.fewer (Nat.sub_le left 1)
      refine hfewer.assignment.at.bind fun condition => hfewer.lines.bind fun _ => ?_
      refine follows_expect fun _ => hfewer.block.bind fun body => ?_
      refine follows_checkpoint hfewer.turns (hfewer.lines.bind fun _ => ?_) follows_pure
      refine follows_of_next fun next => ?_
      rw [bind_assoc]
      refine follows_check (fun hif => ?_) ?_
      · rw [if_pos rfl, if_pos rfl]
        exact (ih hfewer (kind_ne_none hif) (by omega) (by omega)).bind fun _ => follows_pure
      · rw [if_neg Bool.false_ne_true, if_neg Bool.false_ne_true]
        exact (follows_elseBlock hfewer slot.span).at.bind fun _ => follows_pure

theorem follows_whileLoop (h : calls.Follow left depth inner) (hkind : slot.kind ≠ none) :
    FollowsAt (NextIs slot) left depth (whileLoop calls) (Parser.whileLoop inner) := by
  rw [whileLoop, Parser.whileLoop]
  refine follows_place <| follows_advance hkind <| h.assignment.at.bind fun condition => ?_
  exact h.body _ (.while_ condition · slot.span)

theorem follows_forLoop (h : calls.Follow left depth inner) (hkind : slot.kind ≠ none) :
    FollowsAt (NextIs slot) left depth (forLoop calls) (Parser.forLoop inner) := by
  have hclause (parenthesized : Bool) : Follows left depth (do
      let name ← expectWord .loopVariable
      let _ ← expect .in_ .inAfterVariable
      let iterable ← expression calls
      if parenthesized then
        let _ ← expect .rightParen .parenAfterClause
      skipNewlines calls.turns
      let _ ← expect .leftBrace .braceAfterClause
      return Stmt.for_ name iterable (← blockStatements calls) slot.span) (do
      let word ← Parser.expectWord .loopVariable
      let _ ← Parser.expect .in_ .inAfterVariable
      let iterable ← inner.assignment
      if parenthesized then
        let _ ← Parser.expect .rightParen .parenAfterClause
      Parser.skipNewlines
      let _ ← Parser.expect .leftBrace .braceAfterClause
      return Stmt.for_ word.1 iterable (← inner.block) slot.span) := by
    refine follows_expectWord fun name _ => Follows.at <| follows_expect fun _ => ?_
    refine h.assignment.bind fun iterable => ?_
    have hbody := h.body .braceAfterClause (.for_ name iterable · slot.span)
    cases parenthesized with
    | false => exact hbody
    | true => exact follows_expect fun _ => hbody
  rw [forLoop, Parser.forLoop]
  refine follows_place <| follows_advance hkind <| Follows.at <| follows_of_next fun _ => ?_
  refine follows_accept ?_ ?_
  all_goals
    -- The word that declares the variable may be left out.
    refine Follows.at <| follows_of_next fun _ => ?_
    refine follows_check (fun hvar => ?_) <| follows_check (fun hlet => ?_) ?_
    · exact follows_advance (kind_ne_none hvar) (hclause _).at
    · exact follows_advance (kind_ne_none hlet) (hclause _).at
    · exact (hclause _).at

theorem follows_returnStatement (h : calls.Follow left depth inner) (hkind : slot.kind ≠ none) :
    FollowsAt (NextIs slot) left depth (returnStatement calls) (Parser.returnStatement inner) := by
  have hrest (value : Option Expr) := h.ended (.return_ value slot.span)
  rw [returnStatement, Parser.returnStatement]
  refine follows_place <| follows_advance hkind <| Follows.at <| follows_of_next fun next => ?_
  refine follows_atStatementEnd ?_
  cases next.endsStatement with
  | true => exact follows_pure.bind hrest
  | false => exact h.assignment.at.bind fun e => follows_pure.bind hrest

end Statements

theorem follows_statement (h : calls.Follow left depth inner) :
    Follows left depth (statement calls) (Parser.statement inner) := by
  have hplain : Follows left depth (do
      let e ← expression calls
      endStatement calls.turns
      return Stmt.expr e) (do
      let e ← inner.assignment
      Parser.endStatement
      return Stmt.expr e) := h.assignment.bind fun e => h.ended (Stmt.expr e)
  refine follows_of_next fun slot => ?_
  rw [statement, Parser.statement]
  refine follows_peek <| follows_peekSymbol ?_
  cases hs : slot.symbol? with
  | none => exact hplain.at
  | some s =>
    have hkind := kind_ne_none hs
    cases s
    case var => exact follows_varDeclaration h hkind
    case let_ => exact follows_letDeclaration h hkind
    case fn => exact follows_functionDeclaration h hkind
    case if_ => exact follows_conditional h hkind h.turns h.tokens.le
    case while_ => exact follows_whileLoop h hkind
    case for_ => exact follows_forLoop h hkind
    case return_ => exact follows_returnStatement h hkind
    case break_ => exact follows_place <| follows_advance hkind (h.ended (.break_ slot.span)).at
    case continue_ => exact follows_place <| follows_advance hkind (h.ended (.continue_ slot.span)).at
    case leftBrace =>
      exact follows_place <| follows_advance hkind <| h.block.at.bind fun _ => follows_pure
    all_goals exact hplain.at

theorem consumes_statement (h : inner.Faithful) : Consumes (Parser.statement inner) :=
  fun _ _ _ => Parser.length_statement_lt h

theorem follows_atEnd {β : Type} {slot : Slot} {f : Bool → Reader β} {g : Bool → Parser β}
    (h : ∀ ended, FollowsAt (NextIs slot) left depth (f ended) (g ended)) :
    FollowsAt (NextIs slot) left depth (isAtEnd >>= f) (Parser.atEnd >>= g) := by
  intro c hc hk
  have hread : isAtEnd c = .ok (.ok slot.kind.isNone, c) := by
    rw [isAtEnd, bind_value (peek_eq hk)]
    rfl
  have hparse : Parser.atEnd c.rest = .ok (slot.kind.isNone, c.rest) := by
    show Except.ok (c.rest.tokens.isEmpty, c.rest) = _
    obtain ⟨t, htokens, rfl, _⟩ | ⟨hnil, rfl⟩ := hk.rest
    · rw [htokens]
      rfl
    · rw [hnil]
      rfl
  rw [bind_value hread, parser_bind_value hparse]
  exact h _ c hc hk

/-- The statements of a block. -/
theorem follows_statements (h : calls.Follow left depth inner) {turns fuel : Nat}
    (hturns : left < turns) (hfuel : left < fuel) (body : Array Stmt) :
    Follows left depth (statements calls turns body) (Parser.statements inner fuel body) := by
  induction turns generalizing left fuel body with
  | zero => exact absurd hturns (Nat.not_lt_zero _)
  | succ turns ih =>
    obtain ⟨fuel, rfl⟩ : ∃ f, fuel = f + 1 := Nat.exists_eq_succ_of_ne_zero (by omega)
    have hmore : Follows left depth (do statements calls turns (body.push (← statement calls)))
        (do Parser.statements inner fuel (body.push (← Parser.statement inner))) := by
      -- A statement takes at least one token, which pays for the turn.
      refine FollowsAt.bind_fewer (follows_statement h) (consumes_statement h.faithful) fun p hleft => ?_
      exact ih (h.fewer (Nat.sub_le _ _)) (by omega) (by omega) _
    rw [statements, Parser.statements]
    refine (follows_skipTerminators h.turns).bind fun _ => follows_of_next fun slot => ?_
    refine follows_check (fun _ => follows_atEnd fun _ => follows_pure) <| follows_atEnd fun ended => ?_
    cases ended with
    | true => exact follows_pure
    | false => exact hmore.at

theorem follows_blockBody (h : calls.Follow left depth inner) :
    Follows left depth (blockBody calls) (Parser.blockBody inner) :=
  (follows_statements h h.turns h.tokens _).bind fun _ => follows_expect fun _ => follows_pure

/-- The statements of a whole source. -/
theorem follows_program (h : calls.Follow left depth inner) {turns fuel : Nat}
    (hturns : left < turns) (hfuel : left < fuel) (body : Array Stmt) :
    Follows left depth (program calls turns body) (Parser.program inner fuel body) := by
  induction turns generalizing left fuel body with
  | zero => exact absurd hturns (Nat.not_lt_zero _)
  | succ turns ih =>
    obtain ⟨fuel, rfl⟩ : ∃ f, fuel = f + 1 := Nat.exists_eq_succ_of_ne_zero (by omega)
    rw [program, Parser.program]
    refine (follows_skipTerminators h.turns).bind fun _ => follows_of_next fun slot => ?_
    refine follows_atEnd fun ended => ?_
    cases ended with
    | true => exact follows_pure
    | false =>
      refine FollowsAt.bind_fewer (follows_statement h).at (consumes_statement h.faithful) fun p hleft => ?_
      exact ih (h.fewer (Nat.sub_le _ _)) (by omega) (by omega) _

/-- **The levels.** With so many levels open, as many are left as the parsers have room for; the calls that are
allowed are enough for the levels and for the tokens. -/
theorem follow_calls {tokens room fuel : Nat} (htokens : left < tokens)
    (hroom : room + depth = maxNesting) (hfuel : left + room < fuel) :
    (Reader.calls fuel).Follow left depth (Parser.levels tokens room) := by
  induction room generalizing depth fuel with
  | zero =>
    have hturns : left < (Reader.calls fuel).turns := by
      cases fuel with
      | zero => exact absurd hfuel (Nat.not_lt_zero _)
      | succ fuel => exact hfuel
    -- At the deepest level nothing is called any more.
    obtain rfl : depth = maxNesting := by omega
    exact ⟨hturns, htokens, hroom, Parser.faithful_levels _ _, follows_nested_deepest,
      follows_nested_deepest, follows_nested_deepest⟩
  | succ room ih =>
    obtain ⟨fuel, rfl⟩ : ∃ f, fuel = f + 1 := Nat.exists_eq_succ_of_ne_zero (by omega)
    have hdepth : depth < maxNesting := by omega
    have hturns : left < fuel + 1 := by omega
    have hinner : (Reader.calls fuel).Follow left (depth + 1) (Parser.levels tokens room) :=
      ih (by omega) (by omega)
    exact ⟨hturns, htokens, hroom, Parser.faithful_levels _ _,
      follows_nested (follows_blockBody hinner) hdepth,
      follows_nested (follows_assignment hinner) hdepth,
      follows_nested (follows_unary hinner) hdepth⟩

end Calls

end Reader

/-! ### Programs -/

/-- **Reading a list of tokens ends and stays in bounds.** Calls and turns for each token, for each level of
nesting and one more are enough, whatever the tokens are. What comes out is the program that the tokens spell or
the error that they have; no token outside the list has been looked at and the position has not left it, or
there would have been a fault; and in both cases no level is open in the end. -/
theorem Program.read_eq_ofTokens (stream : TokenStream) {fuel : Nat}
    (hfuel : stream.tokens.length + maxNesting < fuel) :
    ∃ c : TokenCursor, Program.read fuel stream = .ok (Program.ofTokens stream, c) ∧
      c.stream = stream ∧ c.current ≤ stream.tokens.length ∧ c.depth = 0 := by
  -- At the start all tokens are left, no level is open, and all levels may still be.
  have hcalls : (Reader.calls fuel).Follow stream.tokens.length 0
      (Parser.levels (stream.tokens.length + 1) maxNesting) :=
    Reader.follow_calls (Nat.lt_succ_self _) rfl hfuel
  have hprogram := Reader.follows_program hcalls (Nat.lt_of_le_of_lt (Nat.le_add_right _ _) hfuel)
    (Nat.lt_succ_self _) #[]
  let start : TokenCursor := { stream, current := 0, depth := 0 }
  have hstart : start.Within stream.tokens.length 0 := ⟨Nat.zero_le _, Nat.le_add_left _ _, rfl⟩
  have hagree := hprogram start hstart trivial
  have hrest : start.rest = stream := rfl
  rw [hrest] at hagree
  unfold Program.read Program.ofTokens
  dsimp only [StateT.run]
  generalize Reader.program (Reader.calls fuel) fuel #[] start = result at hagree
  generalize Parser.program _ _ _ stream = outcome at hagree
  cases hagree with
  | value hon => exact ⟨_, rfl, hon.stream, hon.bound, hon.depth⟩
  | refusal hon => exact ⟨_, rfl, hon.stream, hon.bound, hon.depth⟩

/-- The tokens of an `if` with a parenthesis behind it, and nothing else. -/
def unfinished : TokenStream :=
  ⟨[⟨.symbol .if_, default, "if"⟩, ⟨.symbol .leftParen, default, "("⟩], default⟩

/-- Where an expression is missing at the end, two levels are open and are closed again. -/
theorem Program.read_unfinished :
    Program.ofTokens unfinished = .error (.at_ .expectedExpression default) ∧
      ∃ c : TokenCursor, Program.read 67 unfinished = .ok (Program.ofTokens unfinished, c) ∧
        c.current ≤ 2 ∧ c.depth = 0 := by
  have hfuel : unfinished.tokens.length + maxNesting < 67 := by decide
  obtain ⟨c, hread, _, hcurrent, hdepth⟩ := Program.read_eq_ofTokens unfinished hfuel
  exact ⟨rfl, c, hread, hcurrent, hdepth⟩

end DeployScript
