import DeployScript.Proofs.Program.Regular

/-!
# Programs that a source spells

Behind each `else` of a program that was read from a source there is a block or a conditional, and no
name in it is empty (`Program.spelled_ofSource`). Its nodes are on the lines of the tokens of the source,
or of its end (`Program.spelled_of_lines`). A source that spells none has an error of syntax
(`Program.isSyntax_ofSource`). The parsers are gone through one by one: what they give, what they refuse,
and that they only take tokens away.
-/

namespace DeployScript

/-- No word of a stream is empty, and its lines are as they should be. -/
structure TokenStream.Proper (ok : Nat → Prop) (s : TokenStream) : Prop where
  words : ∀ t ∈ s.tokens, ∀ name, t.kind = .word name → name ≠ ""
  lines : ∀ t ∈ s.tokens, ok t.span.line
  stop : ok s.stop.line

variable {ok : Nat → Prop}

/-! ### Tokens -/

theorem word_ne_empty {p : Position} {c : Char} {cs : List Char} {scanned : Scanned}
    (h : scanToken p c cs = .ok scanned) : ∀ name, scanned.kind = .word name → name ≠ "" := by
  have hword : ∀ (taken : List Char), String.ofList (c :: taken) ≠ "" := by
    intro taken he
    have hlist := congrArg String.toList he
    simp at hlist
  unfold scanToken at h
  split at h
  · cases h; exact fun _ hk => by cases hk
  split at h
  · split at h
    case h_1 s hs =>
      cases h
      have hkind : ∀ {q value lexeme cs} {scanned : Scanned},
          scanString c q value lexeme cs = .ok scanned → ∃ v, scanned.kind = .text v := by
        intro q value lexeme cs scanned hscan
        fun_induction scanString c q value lexeme cs <;> grind
      obtain ⟨v, hv⟩ := hkind hs
      rw [hv]
      exact fun _ hk => by cases hk
    case h_2 => cases h
  split at h
  · simp only at h
    split at h
    · cases h; exact fun _ hk => by cases hk
    · cases h
  split at h
  · cases h
    intro name hk
    simp only at hk
    split at hk
    · cases hk
    · cases hk
      exact hword _
  · split at h
    · cases h; exact fun _ hk => by cases hk
    · cases h

theorem words_scanFrom {p : Position} {cs : List Char} {tokens : Array Token} {s : TokenStream}
    (h : scanFrom p cs tokens = .ok s)
    (htokens : ∀ t ∈ tokens, ∀ name, t.kind = .word name → name ≠ "") :
    ∀ t ∈ s.tokens, ∀ name, t.kind = .word name → name ≠ "" := by
  fun_induction scanFrom p cs tokens with
  | case1 => cases h
  | case2 =>
    cases h
    exact fun t ht => htokens t (Array.mem_toList_iff.1 ht)
  | case3 => cases h
  | case4 p cs tokens q c rest hg scanned hs ih =>
    refine ih h fun t ht => ?_
    rcases Array.mem_push.1 ht with ht | rfl
    · exact htokens t ht
    · exact word_ne_empty hs

theorem isSyntax_skipGap {mode : GapMode} {p : Position} {cs : List Char} {e : ScriptError}
    (h : skipGap mode p cs = .error e) : e.cause.isSyntax = true := by
  fun_induction skipGap mode p cs with
  | case1 _ _ ih | case2 _ _ ih | case3 _ _ _ _ _ _ ih => exact ih h
  | case4 | case5 | case6 | case8 => cases h
  | case7 _ _ _ _ ih | case9 _ _ _ ih | case10 _ _ _ _ ih | case11 _ _ _ _ _ _ ih => exact ih h
  | case12 =>
    cases h
    rfl

theorem isSyntax_scanToken {p : Position} {c : Char} {cs : List Char} {e : ScriptError}
    (h : scanToken p c cs = .error e) : e.cause.isSyntax = true := by
  unfold scanToken at h
  split at h
  · cases h
  split at h
  · split at h <;> cases h
    rfl
  split at h
  · dsimp only at h
    split at h <;> cases h
    rfl
  split at h
  · cases h
  · split at h <;> cases h
    rfl

/-- **A source that cannot be cut into tokens** has an error of syntax. -/
theorem TokenStream.isSyntax_ofSource {source : String} {e : ScriptError}
    (h : TokenStream.ofSource source = .error e) : e.cause.isSyntax = true := by
  unfold TokenStream.ofSource at h
  generalize Position.start = p, source.toList = cs, #[] = tokens at h
  fun_induction scanFrom p cs tokens with
  | case1 p cs tokens e' hg =>
    cases h
    exact isSyntax_skipGap hg
  | case2 => cases h
  | case3 p cs tokens q c rest hg e' hs =>
    cases h
    exact isSyntax_scanToken hs
  | case4 p cs tokens q c rest hg scanned hs ih => exact ih h

/-! ### Parsers -/

namespace Parser

/-- **What a parser gives:** on a proper stream, if it succeeds, an answer with a property, and a
proper stream. If it fails, the error is one of syntax. -/
def Ensures (ok : Nat → Prop) {α : Type} (x : Parser α) (p : α → Prop) : Prop :=
  ∀ s, TokenStream.Proper ok s →
    (∀ a s', x s = .ok (a, s') → TokenStream.Proper ok s' ∧ p a) ∧
      ∀ e, x s = .error e → e.cause.isSyntax = true

section Basic

variable {α β : Type} {x : Parser α} {p : α → Prop} {q : β → Prop}

theorem ensures_pure {a : α} (h : p a) : Ensures ok (pure a) p := by
  refine fun s hs => ⟨fun b s' hx => ?_, nofun⟩
  cases hx
  exact ⟨hs, h⟩

theorem ensures_bind {f : α → Parser β} (hx : Ensures ok x p) (hf : ∀ a, p a → Ensures ok (f a) q) :
    Ensures ok (x >>= f) q := by
  intro s hs
  obtain ⟨hgives, hrefuses⟩ := hx s hs
  have hbind : (x >>= f) s = (x s).bind fun r => f r.1 r.2 := rfl
  rw [hbind]
  cases hr : x s with
  | error e =>
    refine ⟨nofun, fun e' he => ?_⟩
    cases he
    exact hrefuses e hr
  | ok r =>
    obtain ⟨hs₁, ha⟩ := hgives r.1 r.2 hr
    exact hf r.1 ha r.2 hs₁

/-- One parser behind another that does not look at its answer. -/
theorem ensures_seq {y : Parser β} (hx : Ensures ok x p) (hy : Ensures ok y q) :
    Ensures ok (x >>= fun _ => y) q :=
  ensures_bind hx fun _ _ => hy

theorem ensures_throw {e : ScriptError} (he : e.cause.isSyntax = true) :
    Ensures ok (throw e : Parser α) p := by
  refine fun s _ => ⟨nofun, fun e' h => ?_⟩
  cases h
  exact he

theorem Ensures.imp {p' : α → Prop} (h : Ensures ok x p) (hp : ∀ a, p a → p' a) : Ensures ok x p' :=
  fun s hs => (h s hs).imp_left fun hgives a s' hx => (hgives a s' hx).imp_right (hp a)

theorem ensures_ite {c : Prop} [Decidable c] {y : Parser α} (hx : Ensures ok x p) (hy : Ensures ok y p) :
    Ensures ok (if c then x else y) p := by
  split
  · exact hx
  · exact hy

theorem ensures_get : Ensures ok (get : Parser TokenStream) (TokenStream.Proper ok) := by
  refine fun s hs => ⟨fun a s' h => ?_, nofun⟩
  cases h
  exact ⟨hs, hs⟩

theorem ensures_set {t : TokenStream} (ht : t.Proper ok) : Ensures ok (set t) fun _ => True := by
  refine fun s _ => ⟨fun a s' h => ?_, nofun⟩
  cases h
  exact ⟨ht, trivial⟩

theorem ensures_tokens {f : List Token → List Token} (hf : ∀ ts t, t ∈ f ts → t ∈ ts) :
    Ensures ok (modify fun s => { s with tokens := f s.tokens }) fun _ => True := by
  refine fun s hs => ⟨fun a s' h => ?_, nofun⟩
  cases h
  exact ⟨⟨fun t ht => hs.words t (hf _ t ht), fun t ht => hs.lines t (hf _ t ht), hs.stop⟩, trivial⟩

end Basic

theorem ensures_peek : Ensures ok peek fun k => ∀ name, k = some (.word name) → name ≠ "" := by
  refine ensures_bind ensures_get fun s hs => ensures_pure fun name hk => ?_
  obtain ⟨t, ht, hkind⟩ := Option.map_eq_some_iff.1 hk
  exact hs.words t (List.mem_of_head? ht) name hkind

theorem ensures_place : Ensures ok place fun span => ok span.line := by
  refine ensures_bind ensures_get fun s hs => ensures_pure ?_
  cases hhead : s.tokens.head? with
  | none => exact hs.stop
  | some t => exact hs.lines t (List.mem_of_head? hhead)

theorem ensures_failHere {α : Type} {p : α → Prop} {cause : Cause} (h : cause.isSyntax = true) :
    Ensures ok (failHere cause : Parser α) p :=
  ensures_bind ensures_place fun _ _ => ensures_throw h

theorem ensures_failExpected {α : Type} {p : α → Prop} {wanted : Expectation} :
    Ensures ok (failExpected wanted : Parser α) p :=
  ensures_bind (ensures_bind ensures_peek fun _ _ => ensures_pure (p := fun _ => True) trivial)
    fun _ _ => ensures_failHere rfl

theorem ensures_advance : Ensures ok advance fun _ => True :=
  ensures_tokens fun _ _ => List.mem_of_mem_tail

theorem ensures_skipNewlines : Ensures ok skipNewlines fun _ => True :=
  ensures_tokens fun _ _ ht => (List.dropWhile_sublist _).subset ht

theorem ensures_skipTerminators : Ensures ok skipTerminators fun _ => True :=
  ensures_tokens fun _ _ ht => (List.dropWhile_sublist _).subset ht

theorem ensures_peekSymbol : Ensures ok peekSymbol fun _ => True := by
  refine ensures_bind ensures_peek fun k _ => ?_
  split <;> exact ensures_pure trivial

theorem ensures_at {s : Symbol} : Ensures ok (at_ s) fun _ => True :=
  ensures_bind ensures_peekSymbol fun _ _ => ensures_pure trivial

theorem ensures_accept {s : Symbol} : Ensures ok (accept s) fun _ => True :=
  ensures_bind ensures_at fun _ _ => ensures_ite
    (ensures_bind ensures_advance fun _ _ => ensures_pure trivial) (ensures_pure trivial)

theorem ensures_expect {s : Symbol} {wanted : Expectation} :
    Ensures ok (expect s wanted) fun _ => True :=
  ensures_bind ensures_place fun _ _ => ensures_bind ensures_accept fun _ _ =>
    ensures_ite (ensures_pure trivial) ensures_failExpected

theorem ensures_expectWord {wanted : Expectation} :
    Ensures ok (expectWord wanted) fun r => r.1 ≠ "" := by
  refine ensures_bind ensures_place fun _ _ => ensures_bind ensures_peek fun k hk => ?_
  split
  case h_1 name => exact ensures_bind ensures_advance fun _ _ => ensures_pure (hk name rfl)
  case h_2 => exact ensures_failExpected

theorem ensures_atEnd : Ensures ok atEnd fun _ => True :=
  ensures_bind ensures_get fun _ _ => ensures_pure trivial

theorem ensures_atStatementEnd : Ensures ok atStatementEnd fun _ => True := by
  refine ensures_bind ensures_get fun s _ => ?_
  split
  · exact ensures_pure trivial
  · split <;> exact ensures_pure trivial

theorem ensures_endStatement : Ensures ok endStatement fun _ => True :=
  ensures_bind ensures_atStatementEnd fun _ _ => ensures_ite ensures_skipTerminators
    (ensures_bind (ensures_bind ensures_peek fun _ _ => ensures_pure (p := fun _ => True) trivial)
      fun _ _ => ensures_failHere rfl)

/-! ### Expressions -/

/-- The parsers that open a level give what a source can spell. -/
structure Inner.Ok (ok : Nat → Prop) (inner : Inner) : Prop where
  block : Ensures ok inner.block fun ps => ∀ p ∈ ps, p.Spelled ok
  assignment : Ensures ok inner.assignment (Expr.Spelled ok)
  unary : Ensures ok inner.unary (Expr.Spelled ok)

theorem ensures_delimited {α : Type} {close : Symbol} {item : Parser α} {p : α → Prop}
    (hitem : Ensures ok item p) (fuel : Nat) {items : Array α} (h : ∀ a ∈ items, p a) :
    Ensures ok (delimited close item fuel items) fun l => ∀ a ∈ l, p a := by
  induction fuel generalizing items with
  | zero => exact ensures_pure fun a ha => h a (Array.mem_toList_iff.1 ha)
  | succ fuel ih =>
    rw [delimited]
    refine ensures_bind ensures_at fun _ _ => ensures_ite
      (ensures_pure fun a ha => h a (Array.mem_toList_iff.1 ha)) ?_
    refine ensures_bind hitem fun a ha => ?_
    have hpush : ∀ b ∈ items.push a, p b := fun b hb => by
      rcases Array.mem_push.1 hb with hb | rfl
      · exact h b hb
      · exact ha
    refine ensures_bind ensures_skipNewlines fun _ _ => ensures_bind ensures_accept fun _ _ => ?_
    exact ensures_ite (ensures_bind ensures_skipNewlines fun _ _ => ih hpush)
      (ensures_pure fun b hb => hpush b (Array.mem_toList_iff.1 hb))

variable {inner : Inner} (hinner : inner.Ok ok)
include hinner

theorem ensures_recordField : Ensures ok (recordField inner) fun f => f.2.Spelled ok := by
  have hrest : ∀ key : String, Ensures ok (do
      advance
      let _ ← expect .colon .colonAfterKey
      skipNewlines
      return (key, ← inner.assignment)) fun f => f.2.Spelled ok := fun key =>
    ensures_seq ensures_advance (ensures_bind ensures_expect fun _ _ => (ensures_seq ensures_skipNewlines
      (ensures_bind hinner.assignment fun e he => ensures_pure he)))
  refine ensures_bind ensures_peek fun k _ => ?_
  split
  · exact hrest _
  · exact hrest _
  · exact ensures_bind (p := fun _ => True) ensures_failExpected fun key _ => hrest key

theorem ensures_primary : Ensures ok (primary inner) (Expr.Spelled ok) := by
  refine ensures_bind ensures_place fun span hspan => ensures_bind ensures_peek fun k hk => ?_
  split
  case h_1 | h_2 | h_4 | h_5 | h_6 =>
    exact ensures_seq ensures_advance (ensures_pure ⟨trivial, hspan⟩)
  case h_3 name => exact ensures_seq ensures_advance (ensures_pure ⟨hk name rfl, hspan⟩)
  case h_7 =>
    refine ensures_seq ensures_advance (ensures_seq ensures_skipNewlines ?_)
    refine ensures_bind hinner.assignment fun e he => ?_
    exact ensures_seq ensures_skipNewlines (ensures_seq ensures_expect
      (ensures_pure ⟨he.names, hspan, he.placed⟩))
  case h_8 =>
    refine ensures_seq ensures_advance (ensures_seq ensures_skipNewlines ?_)
    refine ensures_bind (ensures_delimited hinner.assignment _ (by simp)) fun es hes => ?_
    obtain ⟨hnames, hplaced⟩ := Expr.all_of_spelled hes
    exact ensures_bind ensures_expect fun _ _ => ensures_pure ⟨hnames, hspan, hplaced⟩
  case h_9 =>
    refine ensures_seq ensures_advance (ensures_seq ensures_skipNewlines ?_)
    refine ensures_bind (ensures_delimited (ensures_recordField hinner) _ (by simp))
      fun es hes => ?_
    obtain ⟨hnames, hplaced⟩ := Expr.fields_of_spelled hes
    exact ensures_bind ensures_expect fun _ _ => ensures_pure ⟨hnames, hspan, hplaced⟩
  case h_10 => exact ensures_failHere rfl

/-- What an access makes of an expression starts where that starts. -/
theorem ensures_accesses (room : Nat) {e : Expr} (he : e.Spelled ok) :
    Ensures ok (accesses inner room e) (Expr.Spelled ok) := by
  induction room generalizing e with
  | zero =>
    rw [accesses]
    refine ensures_bind ensures_peekSymbol fun s _ => ?_
    split
    · exact ensures_failHere rfl
    · exact ensures_failHere rfl
    · exact ensures_failHere rfl
    · exact ensures_pure he
  | succ room ih =>
    have hline := he.placed.line
    rw [accesses]
    refine ensures_bind ensures_peekSymbol fun s _ => ?_
    split
    · refine ensures_seq ensures_advance (ensures_seq ensures_skipNewlines ?_)
      refine ensures_bind (ensures_delimited hinner.assignment _ (by simp)) fun es hes => ?_
      obtain ⟨hnames, hplaced⟩ := Expr.all_of_spelled hes
      exact ensures_bind ensures_expect fun _ _ =>
        ih ⟨⟨Or.inr he.names, hnames⟩, hline, he.placed, hplaced⟩
    · exact ensures_seq ensures_advance (ensures_bind ensures_expectWord fun r _ =>
        ih ⟨he.names, hline, he.placed⟩)
    · refine ensures_seq ensures_advance (ensures_seq ensures_skipNewlines ?_)
      refine ensures_bind hinner.assignment fun key hkey => ?_
      exact ensures_seq ensures_skipNewlines (ensures_bind ensures_expect fun _ _ =>
        ih ⟨⟨he.names, hkey.names⟩, hline, he.placed, hkey.placed⟩)
    · exact ensures_pure he

theorem ensures_unary : Ensures ok (unary inner) (Expr.Spelled ok) := by
  refine ensures_bind ensures_place fun span hspan => ensures_bind ensures_accept fun _ _ =>
    ensures_ite ?_ ?_
  · exact ensures_bind hinner.unary fun e he => ensures_pure ⟨he.names, hspan, he.placed⟩
  refine ensures_bind ensures_accept fun _ _ => ensures_ite ?_ ?_
  · exact ensures_bind hinner.unary fun e he => ensures_pure ⟨he.names, hspan, he.placed⟩
  · exact ensures_bind (ensures_primary hinner) fun e he => ensures_accesses hinner _ he

omit hinner in
/-- One precedence keeps what its operands have, if its operators do. -/
theorem ensures_level {operand : Parser Expr} {combine? : Symbol → Option Combine}
    (hoperand : Ensures ok operand (Expr.Spelled ok))
    (hcombine : ∀ s combine, combine? s = some combine → ∀ left right span, left.Spelled ok →
      right.Spelled ok → ok span.line → (combine left right span).Spelled ok) :
    Ensures ok (level operand combine?) (Expr.Spelled ok) := by
  have hloop : ∀ (chain : Nat) {left : Expr}, left.Spelled ok →
      Ensures ok (operators operand combine? chain left) (Expr.Spelled ok) := by
    intro chain
    induction chain with
    | zero =>
      intro left hleft
      rw [operators]
      refine ensures_bind ensures_peekSymbol fun s _ => ?_
      split
      · exact ensures_pure hleft
      · exact ensures_seq ensures_advance (ensures_failHere rfl)
    | succ chain ih =>
      intro left hleft
      rw [operators]
      refine ensures_bind ensures_peekSymbol fun s _ => ?_
      split
      case h_1 => exact ensures_pure hleft
      case h_2 combine hc =>
        obtain ⟨symbol, _, hsymbol⟩ := Option.bind_eq_some_iff.1 hc
        refine ensures_seq ensures_advance (ensures_seq ensures_skipNewlines ?_)
        exact ensures_bind hoperand fun right hright =>
          ih (hcombine symbol combine hsymbol _ _ _ hleft hright hleft.placed.line)
  exact ensures_bind hoperand fun left hleft => hloop _ hleft

theorem ensures_operation : Ensures ok (operation inner) (Expr.Spelled ok) := by
  have hbinary : ∀ op left right span, left.Spelled ok → right.Spelled ok → ok span.line →
      (combineBinary op left right span).Spelled ok := fun _ _ _ _ hl hr hspan =>
    ⟨⟨hl.names, hr.names⟩, hspan, hl.placed, hr.placed⟩
  have hlogical : ∀ op left right span, left.Spelled ok → right.Spelled ok → ok span.line →
      (combineLogical op left right span).Spelled ok := fun _ _ _ _ hl hr hspan =>
    ⟨⟨hl.names, hr.names⟩, hspan, hl.placed, hr.placed⟩
  refine ensures_level (ensures_level (ensures_level (ensures_level (ensures_level (ensures_level
    (ensures_unary hinner) ?_) ?_) ?_) ?_) ?_) ?_
  all_goals
    intro s combine hs
    cases s <;> cases hs
    all_goals first | exact hbinary _ | exact hlogical _

theorem ensures_assignment : Ensures ok (assignment inner) (Expr.Spelled ok) := by
  refine ensures_bind (ensures_operation hinner) fun target htarget => ?_
  refine ensures_bind ensures_place fun _ _ => ensures_bind ensures_accept fun _ _ => ensures_ite ?_ ?_
  · refine ensures_seq ensures_skipNewlines (ensures_bind hinner.assignment fun value hvalue => ?_)
    split
    case h_1 e he =>
      refine ensures_pure ?_
      obtain ⟨hnames, hplaced⟩ := htarget
      cases target <;> cases he
      · exact ⟨⟨hnames, hvalue.names⟩, hplaced, hvalue.placed⟩
      · exact ⟨⟨hnames, hvalue.names⟩, hplaced.1, hplaced.2, hvalue.placed⟩
      · exact ⟨⟨hnames.1, hnames.2, hvalue.names⟩, hplaced.1, hplaced.2.1, hplaced.2.2, hvalue.placed⟩
    case h_2 => exact ensures_throw rfl
  · exact ensures_pure htarget

/-! ### Statements -/

theorem ensures_body : Ensures ok inner.block (Stmt.AllSpelled ok) :=
  hinner.block.imp fun _ h => Stmt.all_of_spelled h

theorem ensures_varDeclaration : Ensures ok (varDeclaration inner) (Stmt.Spelled ok) := by
  refine ensures_bind ensures_place fun span hspan => ensures_seq ensures_advance ?_
  refine ensures_bind ensures_expectWord fun r hr => ensures_bind ensures_accept fun _ _ => ?_
  have hrest : ∀ value : Option Expr, (∀ e ∈ value, e.Spelled ok) → Ensures ok (do
      endStatement
      return Stmt.var r.1 value span) (Stmt.Spelled ok) := fun value hvalue =>
    ensures_seq ensures_endStatement (ensures_pure ⟨trivial, ⟨hr, fun e he => (hvalue e he).names⟩,
      hspan, fun e he => (hvalue e he).placed⟩)
  refine ensures_ite ?_ (hrest none fun a ha => nomatch ha)
  refine ensures_bind hinner.assignment fun e he => hrest (some e) fun a ha => ?_
  cases ha
  exact he

theorem ensures_letDeclaration : Ensures ok (letDeclaration inner) (Stmt.Spelled ok) := by
  refine ensures_bind ensures_place fun span hspan => ensures_seq ensures_advance ?_
  refine ensures_bind ensures_expectWord fun r hr => ensures_bind ensures_expect fun _ _ => ?_
  exact ensures_bind hinner.assignment fun e he =>
    ensures_seq ensures_endStatement (ensures_pure ⟨trivial, ⟨hr, he.names⟩, hspan, he.placed⟩)

omit hinner in
theorem ensures_parameters (fuel : Nat) {names : Array String} (h : ∀ n ∈ names, n ≠ "") :
    Ensures ok (parameters fuel names) fun l => ∀ n ∈ l, n ≠ "" := by
  induction fuel generalizing names with
  | zero => exact ensures_pure fun n hn => h n (Array.mem_toList_iff.1 hn)
  | succ fuel ih =>
    rw [parameters]
    refine ensures_seq ensures_skipNewlines (ensures_bind ensures_expectWord fun r hr => ?_)
    have hpush : ∀ n ∈ names.push r.1, n ≠ "" := fun n hn => by
      rcases Array.mem_push.1 hn with hn | rfl
      · exact h n hn
      · exact hr
    refine ensures_seq ensures_skipNewlines (ensures_bind ensures_accept fun _ _ => ?_)
    exact ensures_ite (ih hpush) (ensures_pure fun n hn => hpush n (Array.mem_toList_iff.1 hn))

theorem ensures_functionDeclaration : Ensures ok (functionDeclaration inner) (Stmt.Spelled ok) := by
  refine ensures_bind ensures_place fun span hspan => ensures_seq ensures_advance ?_
  refine ensures_bind ensures_expectWord fun r hr => ?_
  refine ensures_bind ensures_expect fun _ _ => (ensures_seq ensures_skipNewlines ?_)
  refine ensures_bind ensures_at fun _ _ => ?_
  have hrest : ∀ params : List String, (∀ n ∈ params, n ≠ "") → Ensures ok (do
      let _ ← expect .rightParen .parenAfterParameters
      skipNewlines
      let _ ← expect .leftBrace .braceBeforeFunctionBody
      let body ← inner.block
      return Stmt.function r.1 params body span) (Stmt.Spelled ok) := fun params hparams =>
    ensures_bind ensures_expect fun _ _ => (ensures_seq ensures_skipNewlines (ensures_seq ensures_expect
      (ensures_bind (ensures_body hinner) fun body hbody =>
        ensures_pure ⟨hbody.regular, ⟨hr, hparams, hbody.names⟩, hspan, hbody.placed⟩)))
  exact ensures_ite (hrest [] (by simp))
    (ensures_bind (ensures_parameters _ (by simp)) fun params hparams => hrest params hparams)

/-- What may follow an `else`. -/
def Alternative (ok : Nat → Prop) (p : Stmt) : Prop := p.Spelled ok ∧ p.isBranch = true

theorem ensures_elseBlock {span : Span} (hspan : ok span.line) :
    Ensures ok (elseBlock inner span) (Alternative ok) :=
  ensures_bind ensures_expect fun _ _ => (ensures_bind (ensures_body hinner) fun _ hbody =>
    ensures_pure ⟨⟨hbody.regular, hbody.names, hspan, hbody.placed⟩, rfl⟩)

theorem ensures_conditionalWith {orElse : Span → Parser Stmt}
    (horElse : ∀ span, ok span.line → Ensures ok (orElse span) (Alternative ok)) :
    Ensures ok (conditionalWith inner orElse) (Alternative ok) := by
  refine ensures_bind ensures_place fun span hspan => ensures_seq ensures_advance ?_
  refine ensures_bind hinner.assignment fun condition hcondition => ?_
  refine ensures_seq ensures_skipNewlines (ensures_bind ensures_expect fun _ _ => ?_)
  refine ensures_bind (ensures_body hinner) fun body hbody => ?_
  refine ensures_bind ensures_get fun before hbefore => ?_
  refine ensures_seq ensures_skipNewlines (ensures_bind ensures_accept fun _ _ => ensures_ite ?_ ?_)
  · refine ensures_seq ensures_skipNewlines (ensures_bind (horElse _ hspan) fun e he => ensures_pure ?_)
    obtain ⟨he, hbranch⟩ := he
    exact ⟨⟨⟨hbody.regular, hbranch, he.regular⟩, ⟨hcondition.names, hbody.names, he.names⟩, hspan,
      hcondition.placed, hbody.placed, he.placed⟩, rfl⟩
  · exact ensures_seq (ensures_set hbefore) (ensures_pure ⟨⟨hbody.regular,
      ⟨hcondition.names, hbody.names⟩, hspan, hcondition.placed, hbody.placed⟩, rfl⟩)

theorem ensures_conditional (fuel : Nat) : Ensures ok (conditional inner fuel) (Alternative ok) := by
  induction fuel with
  | zero => exact ensures_conditionalWith hinner fun _ hspan => ensures_elseBlock hinner hspan
  | succ fuel ih =>
    exact ensures_conditionalWith hinner fun span hspan => ensures_bind ensures_at fun _ _ =>
      ensures_ite ih (ensures_elseBlock hinner hspan)

theorem ensures_whileLoop : Ensures ok (whileLoop inner) (Stmt.Spelled ok) := by
  refine ensures_bind ensures_place fun span hspan => ensures_seq ensures_advance ?_
  refine ensures_bind hinner.assignment fun condition hcondition => ?_
  refine ensures_seq ensures_skipNewlines (ensures_bind ensures_expect fun _ _ => ?_)
  exact ensures_bind (ensures_body hinner) fun body hbody => ensures_pure
    ⟨hbody.regular, ⟨hcondition.names, hbody.names⟩, hspan, hcondition.placed, hbody.placed⟩

theorem ensures_forLoop : Ensures ok (forLoop inner) (Stmt.Spelled ok) := by
  have hbody : ∀ (name : String) (iterable : Expr) (span : Span), name ≠ "" → iterable.Spelled ok →
      ok span.line → Ensures ok (do
        skipNewlines
        let _ ← expect .leftBrace .braceAfterClause
        return .for_ name iterable (← inner.block) span) (Stmt.Spelled ok) :=
    fun name iterable span hname hiterable hspan =>
      ensures_seq ensures_skipNewlines (ensures_seq ensures_expect
        (ensures_bind (ensures_body hinner) fun body hbody => ensures_pure
          ⟨hbody.regular, ⟨hname, hiterable.names, hbody.names⟩, hspan, hiterable.placed, hbody.placed⟩))
  have hclause : ∀ (parenthesized : Bool) (span : Span), ok span.line → Ensures ok (do
      let word ← expectWord .loopVariable
      let _ ← expect .in_ .inAfterVariable
      let iterable ← inner.assignment
      if parenthesized then
        let _ ← expect .rightParen .parenAfterClause
      skipNewlines
      let _ ← expect .leftBrace .braceAfterClause
      return .for_ word.1 iterable (← inner.block) span) (Stmt.Spelled ok) := by
    intro parenthesized span hspan
    refine ensures_bind ensures_expectWord fun r hr => ensures_bind ensures_expect fun _ _ => ?_
    refine ensures_bind hinner.assignment fun iterable hiterable => ?_
    cases parenthesized
    · exact hbody r.1 iterable span hr hiterable hspan
    · exact ensures_bind ensures_expect fun _ _ => hbody r.1 iterable span hr hiterable hspan
  refine ensures_bind ensures_place fun span hspan => ensures_seq ensures_advance ?_
  refine ensures_bind ensures_accept fun parenthesized _ => ensures_bind ensures_at fun _ _ => ?_
  refine ensures_ite (ensures_seq ensures_advance (hclause _ _ hspan)) ?_
  exact ensures_bind ensures_at fun _ _ =>
    ensures_ite (ensures_seq ensures_advance (hclause _ _ hspan)) (hclause _ _ hspan)

theorem ensures_returnStatement : Ensures ok (returnStatement inner) (Stmt.Spelled ok) := by
  refine ensures_bind ensures_place fun span hspan => ensures_seq ensures_advance ?_
  refine ensures_bind ensures_atStatementEnd fun _ _ => ?_
  have hrest : ∀ value : Option Expr, (∀ e ∈ value, e.Spelled ok) → Ensures ok (do
      endStatement
      return Stmt.return_ value span) (Stmt.Spelled ok) := fun value hvalue =>
    ensures_seq ensures_endStatement (ensures_pure ⟨trivial, fun e he => (hvalue e he).names,
      hspan, fun e he => (hvalue e he).placed⟩)
  refine ensures_ite (hrest none fun a ha => nomatch ha) ?_
  refine ensures_bind hinner.assignment fun e he => hrest (some e) fun a ha => ?_
  cases ha
  exact he

theorem ensures_statement : Ensures ok (statement inner) (Stmt.Spelled ok) := by
  refine ensures_bind ensures_peekSymbol fun s _ => ?_
  split
  · exact ensures_varDeclaration hinner
  · exact ensures_letDeclaration hinner
  · exact ensures_functionDeclaration hinner
  · exact (ensures_conditional hinner _).imp fun _ h => h.1
  · exact ensures_whileLoop hinner
  · exact ensures_forLoop hinner
  · exact ensures_returnStatement hinner
  · exact ensures_bind ensures_place fun _ hspan => ensures_seq ensures_advance
      (ensures_seq ensures_endStatement (ensures_pure ⟨trivial, trivial, hspan⟩))
  · exact ensures_bind ensures_place fun _ hspan => ensures_seq ensures_advance
      (ensures_seq ensures_endStatement (ensures_pure ⟨trivial, trivial, hspan⟩))
  · exact ensures_bind ensures_place fun _ hspan => ensures_seq ensures_advance
      (ensures_bind (ensures_body hinner) fun body hbody =>
        ensures_pure ⟨hbody.regular, hbody.names, hspan, hbody.placed⟩)
  · exact ensures_bind hinner.assignment fun e he =>
      ensures_seq ensures_endStatement (ensures_pure ⟨trivial, he.names, he.placed⟩)

theorem ensures_statements (fuel : Nat) {body : Array Stmt} (h : ∀ p ∈ body, p.Spelled ok) :
    Ensures ok (statements inner fuel body) fun ps => ∀ p ∈ ps, p.Spelled ok := by
  induction fuel generalizing body with
  | zero => exact ensures_pure fun p hp => h p (Array.mem_toList_iff.1 hp)
  | succ fuel ih =>
    have hdone : Ensures ok (pure body.toList) fun ps => ∀ p ∈ ps, p.Spelled ok :=
      ensures_pure fun p hp => h p (Array.mem_toList_iff.1 hp)
    have hmore : Ensures ok (do statements inner fuel (body.push (← statement inner)))
        fun ps => ∀ p ∈ ps, p.Spelled ok := by
      refine ensures_bind (ensures_statement hinner) fun p hp => ih fun q hq => ?_
      rcases Array.mem_push.1 hq with hq | rfl
      · exact h q hq
      · exact hp
    rw [statements]
    refine ensures_seq ensures_skipTerminators (ensures_bind ensures_at fun _ _ => ?_)
    refine ensures_bind ensures_atEnd fun _ _ => ensures_ite hdone hmore

theorem ensures_blockBody : Ensures ok (blockBody inner) fun ps => ∀ p ∈ ps, p.Spelled ok :=
  ensures_bind (ensures_statements hinner _ (by simp)) fun _ hps =>
    ensures_bind ensures_expect fun _ _ => (ensures_pure hps)

theorem ensures_program (fuel : Nat) {body : Array Stmt} (h : ∀ p ∈ body, p.Spelled ok) :
    Ensures ok (program inner fuel body) fun r => ∀ p ∈ r.statements, p.Spelled ok := by
  induction fuel generalizing body with
  | zero => exact ensures_pure fun p hp => h p (Array.mem_toList_iff.1 hp)
  | succ fuel ih =>
    rw [program]
    refine ensures_seq ensures_skipTerminators (ensures_bind ensures_atEnd fun _ _ => ensures_ite
      (ensures_pure fun p hp => h p (Array.mem_toList_iff.1 hp)) ?_)
    refine ensures_bind (ensures_statement hinner) fun p hp => ih fun q hq => ?_
    rcases Array.mem_push.1 hq with hq | rfl
    · exact h q hq
    · exact hp

omit hinner in
/-- Each level gives what a source can spell, if the one below does. -/
theorem ok_levels (tokens room : Nat) : (levels tokens room).Ok ok := by
  induction room with
  | zero => exact ⟨ensures_failHere rfl, ensures_failHere rfl, ensures_failHere rfl⟩
  | succ room ih => exact ⟨ensures_blockBody ih, ensures_assignment ih, ensures_unary ih⟩

end Parser

/-- **A program that a source spells,** where the lines of its tokens and of its end are as they should
be. -/
theorem Program.spelled_of_lines {source : String} {p : Program} (h : Program.ofSource source = .ok p)
    (hlines : ∀ s, TokenStream.ofSource source = .ok s →
      (∀ t ∈ s.tokens, ok t.span.line) ∧ ok s.stop.line) : Stmt.AllSpelled ok p.statements := by
  refine Stmt.all_of_spelled ?_
  simp only [Program.ofSource, Program.ofTokens, bind, Except.bind] at h
  split at h
  case h_1 => cases h
  case h_2 stream hstream =>
    obtain ⟨htokens, hstop⟩ := hlines stream hstream
    have hproper : stream.Proper ok := ⟨words_scanFrom hstream (by simp), htokens, hstop⟩
    split at h
    case h_1 => cases h
    case h_2 r hr =>
      cases h
      exact ((Parser.ensures_program (Parser.ok_levels _ _) _ (by simp) stream hproper).1 r.1 r.2 hr).2

/-- **A source that spells no program** has an error of syntax, in its tokens or behind them. -/
theorem Program.isSyntax_ofSource {source : String} {e : ScriptError}
    (h : Program.ofSource source = .error e) : e.cause.isSyntax = true := by
  simp only [Program.ofSource, Program.ofTokens, bind, Except.bind] at h
  split at h
  case h_1 _ he =>
    cases h
    exact TokenStream.isSyntax_ofSource he
  case h_2 stream hstream =>
    have hproper : stream.Proper fun _ => True :=
      ⟨words_scanFrom hstream (by simp), fun _ _ => trivial, trivial⟩
    have hlevels : (Parser.levels (stream.tokens.length + 1) maxNesting).Ok fun _ => True :=
      Parser.ok_levels _ _
    have hempty : ∀ s ∈ (#[] : Array Stmt), s.Spelled fun _ => True := by simp
    have hprogram := Parser.ensures_program hlevels (stream.tokens.length + 1) hempty
    split at h
    case h_1 _ he =>
      cases h
      exact (hprogram stream hproper).2 _ he
    case h_2 => cases h

/-- **A program that a source spells** has a block or a conditional behind each `else`, and no empty
name. -/
theorem Program.spelled_ofSource {source : String} {p : Program}
    (h : Program.ofSource source = .ok p) :
    Stmt.AllRegular p.statements ∧ Stmt.AllNames (· ≠ "") p.statements := by
  have hspelled : Stmt.AllSpelled (fun _ => True) p.statements :=
    Program.spelled_of_lines h fun _ _ => ⟨fun _ _ => trivial, trivial⟩
  exact ⟨hspelled.regular, hspelled.names⟩

end DeployScript
