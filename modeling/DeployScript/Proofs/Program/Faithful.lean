import DeployScript.Proofs.Program.Written

/-!
# What parsers go over

Every parser goes over tokens at the front of a stream. What it gives, written back, is what counts of
these tokens.

* `Parser.Reads` — what a parser gives, and what the tokens that it went over put in front of what
  counts of the tokens behind them.
* `Expr.ReadAs`, `Stmt.ReadAs` — the tokens of an expression and of a statement.
* `Parser.reads_assignment`, `Parser.reads_statement` — the parsers, one by one.
* `Program.essentials_ofTokens` — the tokens of a whole program.
-/

namespace DeployScript

open TokenKind

/-- The kinds of the tokens of a stream. -/
def TokenStream.kinds (s : TokenStream) : List TokenKind := s.tokens.map (·.kind)

namespace Parser

/-- What tokens put in front of what counts of those behind them. -/
abbrev Front := List TokenKind → List TokenKind

/-- **What a parser goes over** where it is known which token is next: if it succeeds, it has taken
tokens from the front of the stream, and its answer is related to what these put in front of the
others. -/
def ReadsAt {α : Type} (next : Option TokenKind) (x : Parser α) (P : α → Front → Prop) : Prop :=
  ∀ s a s', s.kinds.head? = next → x s = .ok (a, s') →
    ∃ ts, s.kinds = ts ++ s'.kinds ∧ P a fun out => ts.foldr before out

/-- What a parser goes over, whatever is next. -/
def Reads {α : Type} (x : Parser α) (P : α → Front → Prop) : Prop := ∀ next, ReadsAt next x P

section Basic

variable {α β : Type} {P : β → Front → Prop} {next : Option TokenKind}

theorem reads_pure {b : β} (h : P b id) : Reads (pure b) P := by
  intro next s a s' _ hx
  cases hx
  exact ⟨[], rfl, h⟩

theorem reads_throw {e : ScriptError} : Reads (throw e : Parser β) P := by
  intro next s a s' _ hx
  cases hx

theorem ReadsAt.bind {x : Parser α} {Q : α → Front → Prop} {f : α → Parser β}
    (hx : ReadsAt next x Q) (hf : ∀ a g, Q a g → Reads (f a) fun b g' => P b fun out => g (g' out)) :
    ReadsAt next (x >>= f) P := by
  intro s b s' hs h
  simp only [Bind.bind, StateT.bind, Except.bind] at h
  split at h
  case h_1 => cases h
  case h_2 r hr =>
    obtain ⟨ts, hts, hq⟩ := hx s r.1 r.2 hs hr
    obtain ⟨us, hus, hp⟩ := hf r.1 _ hq _ r.2 b s' rfl h
    refine ⟨ts ++ us, by rw [hts, hus, List.append_assoc], ?_⟩
    simpa only [List.foldr_append] using hp

theorem Reads.bind {x : Parser α} {Q : α → Front → Prop} {f : α → Parser β} (hx : Reads x Q)
    (hf : ∀ a g, Q a g → Reads (f a) fun b g' => P b fun out => g (g' out)) :
    Reads (x >>= f) P :=
  fun next => (hx next).bind hf

theorem ReadsAt.imp {x : Parser β} {Q : β → Front → Prop} (h : ReadsAt next x P)
    (hi : ∀ b g, P b g → Q b g) : ReadsAt next x Q := by
  intro s b s' hs hx
  obtain ⟨ts, hts, hp⟩ := h s b s' hs hx
  exact ⟨ts, hts, hi b _ hp⟩

theorem Reads.imp {x : Parser β} {Q : β → Front → Prop} (h : Reads x P)
    (hi : ∀ b g, P b g → Q b g) : Reads x Q :=
  fun next => (h next).imp hi

/-! ### One token -/

theorem readsAt_place {f : Span → Parser β} (hf : ∀ span, ReadsAt next (f span) P) :
    ReadsAt next (place >>= f) P :=
  fun s b s' hs h => hf _ s b s' hs h

theorem reads_place {f : Span → Parser β} (hf : ∀ span, Reads (f span) P) :
    Reads (place >>= f) P :=
  fun _ => readsAt_place fun span => hf span _

theorem reads_peek {f : Option TokenKind → Parser β} (hf : ∀ next, ReadsAt next (f next) P) :
    Reads (peek >>= f) P := by
  intro next s b s' hs h
  refine hf next s b s' hs ?_
  rwa [← hs, TokenStream.kinds, List.head?_map]

theorem readsAt_advance {k : TokenKind} {f : Unit → Parser β}
    (hf : Reads (f ()) fun b g => P b fun out => k.before (g out)) :
    ReadsAt (some k) (advance >>= f) P := by
  intro s b s' hs h
  obtain ⟨ts, hts⟩ : ∃ ts, s.kinds = k :: ts := List.head?_eq_some_iff.1 hs
  obtain ⟨us, hus, hp⟩ := hf _ { s with tokens := s.tokens.tail } b s' rfl h
  refine ⟨k :: us, ?_, hp⟩
  rw [List.cons_append, ← hus, hts, TokenStream.kinds, List.map_tail, ← TokenStream.kinds, hts,
    List.tail_cons]

theorem reads_failHere {cause : Cause} : Reads (failHere cause : Parser β) P :=
  reads_place fun _ => reads_throw

theorem reads_failExpected {wanted : Expectation} : Reads (failExpected wanted : Parser β) P := by
  intro next s b s' hs h
  exact reads_throw next s b s' hs h

theorem reads_peekSymbol {f : Option Symbol → Parser β}
    (hsome : ∀ s, ReadsAt (some (.symbol s)) (f (some s)) P) (hnone : Reads (f none) P) :
    Reads (peekSymbol >>= f) P := by
  rw [peekSymbol, bind_assoc]
  refine reads_peek fun k => ?_
  split
  · rw [pure_bind]
    exact hsome _
  · rw [pure_bind]
    exact hnone _

theorem reads_at {sym : Symbol} {f : Bool → Parser β}
    (htrue : ReadsAt (some (.symbol sym)) (f true) P) (hfalse : Reads (f false) P) :
    Reads (at_ sym >>= f) P := by
  rw [at_, bind_assoc]
  refine reads_peekSymbol (fun s => ?_) hfalse
  rw [pure_bind]
  by_cases h : s = sym
  · subst h
    rw [decide_eq_true rfl]
    exact htrue
  · rw [decide_eq_false (fun he => h (Option.some.inj he))]
    exact hfalse _

theorem reads_accept {sym : Symbol} {f : Bool → Parser β}
    (htrue : Reads (f true) fun b g => P b fun out => before (.symbol sym) (g out))
    (hfalse : Reads (f false) P) : Reads (accept sym >>= f) P := by
  rw [accept, bind_assoc]
  refine reads_at ?_ ?_
  · rw [if_pos rfl, bind_assoc]
    exact readsAt_advance htrue
  · rw [if_neg Bool.false_ne_true]
    exact hfalse

theorem reads_expect {sym : Symbol} {wanted : Expectation} {f : Span → Parser β}
    (hf : ∀ span, Reads (f span) fun b g => P b fun out => before (.symbol sym) (g out)) :
    Reads (expect sym wanted >>= f) P := by
  rw [expect, bind_assoc]
  refine reads_place fun span => ?_
  rw [bind_assoc]
  refine reads_accept ?_ ?_
  · rw [if_pos rfl, pure_bind]
    exact hf span
  · rw [if_neg Bool.false_ne_true]
    exact Reads.bind (Q := fun _ _ => False) reads_failExpected fun _ _ h => h.elim

theorem reads_expectWord {wanted : Expectation} {f : String × Span → Parser β}
    (hf : ∀ name span, Reads (f (name, span)) fun b g => P b fun out => .word name :: g out) :
    Reads (expectWord wanted >>= f) P := by
  rw [expectWord, bind_assoc]
  refine reads_place fun span => ?_
  rw [bind_assoc]
  refine reads_peek fun k => ?_
  split
  · rw [bind_assoc]
    exact readsAt_advance (hf _ span)
  · exact Reads.bind (Q := fun _ _ => False) reads_failExpected (fun _ _ h => h.elim) _

/-- Tokens that do not count. -/
theorem foldr_before_of_terminators {ts : List TokenKind}
    (h : ∀ t ∈ ts, t = .newline ∨ t = .symbol .semicolon) (out : List TokenKind) :
    ts.foldr before out = out := by
  induction ts with
  | nil => rfl
  | cons t ts ih =>
    rw [List.foldr_cons, ih fun u hu => h u (List.mem_cons_of_mem _ hu)]
    rcases h t List.mem_cons_self with rfl | rfl <;> rfl

/-- Tokens that do not count are gone over. -/
theorem reads_dropWhile {p : Token → Bool}
    (hp : ∀ t, p t = true → t.kind = .newline ∨ t.kind = .symbol .semicolon)
    {f : Unit → Parser β} (hf : Reads (f ()) P) :
    Reads (modify (fun s => { s with tokens := s.tokens.dropWhile p }) >>= f) P := by
  intro next s b s' _ h
  obtain ⟨us, hus, hb⟩ := hf _ { s with tokens := s.tokens.dropWhile p } b s' rfl h
  refine ⟨(s.tokens.takeWhile p).map (·.kind) ++ us, ?_, ?_⟩
  · rw [List.append_assoc, ← hus, TokenStream.kinds, TokenStream.kinds, ← List.map_append,
      List.takeWhile_append_dropWhile]
  · have hskip : ∀ t ∈ (s.tokens.takeWhile p).map (·.kind),
        t = .newline ∨ t = .symbol .semicolon := by
      intro k hk
      obtain ⟨t, ht, rfl⟩ := List.mem_map.1 hk
      exact hp t (List.mem_takeWhile_imp ht)
    simpa only [List.foldr_append, foldr_before_of_terminators hskip] using hb

theorem reads_skipNewlines {f : Unit → Parser β} (hf : Reads (f ()) P) :
    Reads (skipNewlines >>= f) P := by
  refine reads_dropWhile (fun t ht => .inl ?_) hf
  unfold isNewline at ht
  split at ht <;> trivial

theorem reads_skipTerminators {f : Unit → Parser β} (hf : Reads (f ()) P) :
    Reads (skipTerminators >>= f) P := by
  refine reads_dropWhile (fun t ht => ?_) hf
  unfold isTerminator at ht
  split at ht <;> simp_all

end Basic

/-! ### Lists -/

/-- What reads as the tokens `ts`, wherever no colon follows. -/
abbrev ReadAs (ts : List TokenKind) (g : Front) : Prop := ∀ out, Apart out → g out = ts ++ out

/-- What is written as something takes at least one token. -/
theorem Reads.length_lt {α : Type} {x : Parser α} {written : α → List TokenKind}
    (h : Reads x fun a => ReadAs (written a)) (hwritten : ∀ a, Leading (written a))
    {s s' : TokenStream} {a : α} (hx : x s = .ok (a, s')) : s'.tokens.length < s.tokens.length := by
  obtain ⟨ts, hts, hread⟩ := h _ s a s' rfl hx
  have hne : ts ≠ [] := by
    rintro rfl
    have hnil : [] = written a ++ [] := hread [] trivial
    rw [List.append_nil] at hnil
    exact (hwritten a).ne_nil hnil.symm
  have hlength := congrArg List.length hts
  have hpos := List.length_pos_of_ne_nil hne
  simp only [TokenStream.kinds, List.length_append, List.length_map] at hlength
  omega

section Lists

variable {α : Type} {close : Symbol}

/-- What stands before a closing bracket reads as more items, with commas between them. -/
def ReadsMore (written : α → List TokenKind) (before after : List α) (g : Front) : Prop :=
  ∃ more, after = before ++ more ∧
    ∀ out, closes out = true → g out = separated (more.map written) ++ out

section More

variable {written : α → List TokenKind} {items l : List α} {a : α} {g g' : Front}

theorem readsMore_nil : ReadsMore written items items id :=
  ⟨[], (List.append_nil _).symm, fun _ _ => rfl⟩

theorem readsMore_last (hg : ReadAs (written a) g) :
    ReadsMore written items (items ++ [a]) g := by
  refine ⟨[a], rfl, fun out hout => ?_⟩
  rw [List.map_singleton, separated_singleton]
  exact hg out (apart_of_closes hout)

/-- An item, a comma, and what stands behind it, which may be nothing. -/
theorem ReadsMore.cons (hg : ReadAs (written a) g) (hwritten : ∀ a, Leading (written a))
    (h : ReadsMore written (items ++ [a]) l g') :
    ReadsMore written items l fun out => g (before (.symbol .comma) (g' out)) := by
  obtain ⟨more, rfl, hmore⟩ := h
  refine ⟨a :: more, by rw [List.append_assoc, List.singleton_append], fun out hout => ?_⟩
  show g (before (.symbol .comma) (g' out)) = _
  rw [hmore out hout]
  cases more with
  | nil =>
    rw [List.map_nil, separated_nil, List.nil_append, before_comma_of_closes hout,
      hg out (apart_of_closes hout), List.map_singleton, separated_singleton]
  | cons b more =>
    have hlead : Leading (separated ((b :: more).map written) ++ out) := by
      rw [List.map_cons]
      exact ((hwritten b).separated _).append out
    rw [before_comma hlead, hg (.symbol .comma :: _) trivial, List.map_cons, List.map_cons,
      List.map_cons, separated_cons_cons, List.append_assoc, List.cons_append]

end More

/-- **A list of items:** a comma behind the last one does not count. -/
theorem reads_delimited {item : Parser α} {written : α → List TokenKind}
    (hitem : Reads item fun a => ReadAs (written a)) (hwritten : ∀ a, Leading (written a))
    (fuel : Nat) (items : Array α) :
    Reads (delimited close item fuel items) fun l g => ReadsMore written items.toList l g := by
  induction fuel generalizing items with
  | zero => exact reads_pure readsMore_nil
  | succ fuel ih =>
    rw [delimited]
    refine reads_at (reads_pure readsMore_nil _) ?_
    rw [if_neg Bool.false_ne_true]
    refine hitem.bind fun a g hg => reads_skipNewlines (reads_accept ?_ ?_)
    · rw [if_pos rfl]
      refine reads_skipNewlines ((ih (items.push a)).imp fun l g' h => ?_)
      rw [Array.toList_push] at h
      exact h.cons hg hwritten
    · rw [if_neg Bool.false_ne_true]
      refine reads_pure ?_
      rw [Array.toList_push]
      exact readsMore_last hg

end Lists

/-! ### Expressions -/

variable {inner : Inner}

/-- The parsers that open a level go over the tokens of what they give. -/
structure Inner.Faithful (inner : Inner) : Prop where
  block : Reads inner.block fun ps g => ∀ out,
    g out = Stmt.writtenAll ps ++ .symbol .rightBrace :: out
  assignment : Reads inner.assignment fun e => ReadAs e.written
  unary : Reads inner.unary fun e => ReadAs e.written

theorem reads_recordField (h : inner.Faithful) :
    Reads (recordField inner) fun f => ReadAs (Expr.writtenField f) := by
  refine reads_peek fun k => ?_
  have hrest : ∀ (key : String) (P : String × Expr → Front → Prop),
      (∀ e g, ReadAs e.written g → P (key, e) fun out => .symbol .colon :: g out) → Reads (do
        let _ ← expect .colon .colonAfterKey
        skipNewlines
        return (key, ← inner.assignment)) P := fun key P hP =>
    reads_expect fun _ => reads_skipNewlines <| h.assignment.bind fun e g hg =>
      reads_pure (hP e g hg)
  split
  · rw [pure_bind]
    refine readsAt_advance (hrest _ _ fun e g hg out hout => ?_)
    show before _ (.symbol .colon :: g out) = _
    rw [hg out hout]
    rfl
  · rw [pure_bind]
    refine readsAt_advance (hrest _ _ fun e g hg out hout => ?_)
    show before _ (.symbol .colon :: g out) = _
    rw [hg out hout]
    rfl
  · exact Reads.bind (Q := fun _ _ => False) reads_failExpected (fun _ _ h => h.elim) _

theorem reads_primary (h : inner.Faithful) :
    Reads (primary inner) fun e => ReadAs e.written := by
  refine reads_place fun span => reads_peek fun k => ?_
  split
  case h_1 | h_3 | h_4 | h_5 | h_6 =>
    refine readsAt_advance (reads_pure fun out _ => ?_)
    rw [Expr.written]
    rfl
  case h_2 => exact readsAt_advance (reads_pure fun out hout => before_text _ hout)
  case h_7 =>
    refine readsAt_advance <| reads_skipNewlines <| h.assignment.bind fun e g hg => ?_
    refine reads_skipNewlines <| reads_expect fun _ => reads_pure fun out _ => ?_
    show .symbol .leftParen :: g (.symbol .rightParen :: out) = _
    rw [hg (.symbol .rightParen :: out) trivial, Expr.written]
    simp
  case h_8 =>
    refine readsAt_advance <| reads_skipNewlines ?_
    refine (reads_delimited h.assignment Expr.leading _ #[]).bind fun es g hg => ?_
    refine reads_expect fun _ => reads_pure fun out _ => ?_
    obtain ⟨more, rfl, hmore⟩ := hg
    show .symbol .leftBracket :: g (.symbol .rightBracket :: out) = _
    rw [hmore _ rfl, Expr.written, Expr.writtenEach_eq]
    simp
  case h_9 =>
    refine readsAt_advance <| reads_skipNewlines ?_
    refine (reads_delimited (reads_recordField h) (fun f => ⟨_, _, rfl, rfl⟩) _ #[]).bind
      fun fields g hg => ?_
    refine reads_expect fun _ => reads_pure fun out _ => ?_
    obtain ⟨more, rfl, hmore⟩ := hg
    show .symbol .leftBrace :: g (.symbol .rightBrace :: out) = _
    rw [hmore _ rfl, Expr.written, Expr.writtenFields_eq]
    simp
  case h_10 => exact reads_failHere _

/-- What follows the tokens of one expression so that both are the tokens of another. -/
def Extends (e e' : Expr) (g : Front) : Prop :=
  ∀ out, Apart out → Apart (g out) ∧ e.written ++ g out = e'.written ++ out

theorem reads_accesses (h : inner.Faithful) (room : Nat) (e : Expr) :
    Reads (accesses inner room e) fun e' => Extends e e' := by
  have hdone : Extends e e id := fun out hout => ⟨hout, rfl⟩
  induction room generalizing e with
  | zero =>
    rw [accesses]
    refine reads_peekSymbol (fun s => ?_) (reads_pure hdone)
    split
    case h_4 => exact reads_pure hdone _
    all_goals exact reads_failHere _
  | succ room ih =>
    have hnext : ∀ {e₁ : Expr}, Reads (accesses inner room e₁) fun e' => Extends e₁ e' :=
      fun {e₁} => ih e₁ fun out hout => ⟨hout, rfl⟩
    rw [accesses]
    refine reads_peekSymbol (fun s => ?_) (reads_pure hdone)
    split
    case h_1 hs =>
      cases hs
      refine readsAt_advance <| reads_skipNewlines ?_
      refine (reads_delimited h.assignment Expr.leading _ #[]).bind fun args g hg => ?_
      obtain ⟨more, rfl, hmore⟩ := hg
      refine reads_expect fun stop => hnext.imp fun e' g' hg' out hout => ⟨trivial, ?_⟩
      show e.written ++ .symbol .leftParen :: g (.symbol .rightParen :: g' out) = _
      rw [← (hg' out hout).2, hmore _ rfl, Expr.written, Expr.writtenEach_eq]
      simp
    case h_2 hs =>
      cases hs
      refine readsAt_advance <| reads_expectWord fun name stop => hnext.imp ?_
      intro e' g' hg' out hout
      refine ⟨trivial, ?_⟩
      show e.written ++ .symbol .dot :: .word name :: g' out = _
      rw [← (hg' out hout).2, Expr.written]
      simp
    case h_3 hs =>
      cases hs
      refine readsAt_advance <| reads_skipNewlines <| h.assignment.bind fun key g hg => ?_
      refine reads_skipNewlines <| reads_expect fun stop => hnext.imp ?_
      intro e' g' hg' out hout
      refine ⟨trivial, ?_⟩
      show e.written ++ .symbol .leftBracket :: g (.symbol .rightBracket :: g' out) = _
      rw [← (hg' out hout).2, hg (.symbol .rightBracket :: g' out) trivial, Expr.written]
      simp
    case h_4 => exact reads_pure hdone _

/-- One expression behind another that it extends. -/
theorem Extends.readAs {e e' : Expr} {g g' : Front} (h : ReadAs e.written g)
    (h' : Extends e e' g') : ReadAs e'.written fun out => g (g' out) := by
  intro out hout
  obtain ⟨hapart, heq⟩ := h' out hout
  show g (g' out) = _
  rw [h _ hapart, heq]

theorem reads_unary (h : inner.Faithful) : Reads (unary inner) fun e => ReadAs e.written := by
  refine reads_place fun span => reads_accept ?_ (reads_accept ?_ ?_)
  · rw [if_pos rfl]
    refine h.unary.bind fun e g hg => reads_pure fun out hout => ?_
    show .symbol .minus :: g out = _
    rw [hg out hout, Expr.written]
    rfl
  · rw [if_pos rfl]
    refine h.unary.bind fun e g hg => reads_pure fun out hout => ?_
    show .symbol .bang :: g out = _
    rw [hg out hout, Expr.written]
    rfl
  · exact (reads_primary h).bind fun e g hg => (reads_accesses h _ e).imp fun e' g' hg' =>
      hg'.readAs hg

/-- An operator stands between its operands, and always counts. -/
def Infix (combine? : Symbol → Option Combine) : Prop :=
  ∀ s combine, combine? s = some combine →
    (∀ out, before (.symbol s) out = .symbol s :: out) ∧ (∀ out, Apart (.symbol s :: out)) ∧
      ∀ left right span,
        (combine left right span).written = left.written ++ .symbol s :: right.written

theorem reads_level {operand : Parser Expr} {combine? : Symbol → Option Combine}
    (hoperand : Reads operand fun e => ReadAs e.written) (hcombine : Infix combine?) :
    Reads (level operand combine?) fun e => ReadAs e.written := by
  have hloop : ∀ (chain : Nat) (left : Expr),
      Reads (operators operand combine? chain left) fun e => Extends left e := by
    intro chain
    induction chain with
    | zero =>
      intro left
      rw [operators]
      refine reads_peekSymbol (fun s => ?_) (reads_pure fun out hout => ⟨hout, rfl⟩)
      split
      · exact reads_pure (fun out hout => ⟨hout, rfl⟩) _
      · exact readsAt_advance reads_failHere
    | succ chain ih =>
      intro left
      rw [operators]
      refine reads_peekSymbol (fun s => ?_) (reads_pure fun out hout => ⟨hout, rfl⟩)
      split
      case h_1 => exact reads_pure (fun out hout => ⟨hout, rfl⟩) _
      case h_2 combine hc =>
        obtain ⟨hcounts, hapart, hwritten⟩ := hcombine s combine hc
        refine readsAt_advance <| reads_skipNewlines <| hoperand.bind fun right g hg => ?_
        refine (ih _).imp fun e g' hg' out hout => ?_
        obtain ⟨hapart', heq⟩ := hg' out hout
        show Apart (before (.symbol s) (g (g' out))) ∧
          left.written ++ before (.symbol s) (g (g' out)) = _
        rw [hcounts]
        refine ⟨hapart _, ?_⟩
        rw [hg _ hapart', ← heq, hwritten]
        simp
  exact hoperand.bind fun left g hg => (hloop _ left).imp fun e g' hg' => hg'.readAs hg

theorem reads_operation (h : inner.Faithful) :
    Reads (operation inner) fun e => ReadAs e.written := by
  refine reads_level (reads_level (reads_level (reads_level (reads_level (reads_level
    (reads_unary h) ?_) ?_) ?_) ?_) ?_) ?_
  all_goals
    intro s combine hs
    cases s <;> cases hs
    all_goals exact ⟨fun _ => rfl, fun _ => trivial, fun _ _ _ => by first
      | rw [combineBinary, Expr.written]; rfl
      | rw [combineLogical, Expr.written]; rfl⟩

/-- An assignment is written as its place, and behind it the value. -/
theorem written_assignTo {value target e : Expr} (he : assignTo? value target = some e) :
    e.written = target.written ++ .symbol .equal :: value.written := by
  cases target with
  | name n span =>
    cases he
    rw [Expr.written, Expr.written]
    rfl
  | get object n span =>
    cases he
    rw [Expr.written, Expr.written]
    simp
  | index object key span =>
    cases he
    rw [Expr.written, Expr.written]
    simp
  | _ => cases he

/-- **An expression** is written as the tokens that were gone over. -/
theorem reads_assignment (h : inner.Faithful) :
    Reads (assignment inner) fun e => ReadAs e.written := by
  refine (reads_operation h).bind fun target g hg => reads_place fun equals => ?_
  refine reads_accept ?_ ?_
  · rw [if_pos rfl]
    refine reads_skipNewlines <| h.assignment.bind fun value g' hg' => ?_
    split
    case h_1 e he =>
      refine reads_pure fun out hout => ?_
      show g (.symbol .equal :: g' out) = _
      rw [hg (.symbol .equal :: g' out) trivial, hg' out hout, written_assignTo he]
      simp
    case h_2 => exact reads_throw
  · rw [if_neg Bool.false_ne_true]
    exact reads_pure hg

/-! ### Statements -/

section Ends

variable {β : Type} {P : β → Front → Prop} {next : Option TokenKind}

theorem reads_atStatementEnd {f : Bool → Parser β} (hf : ∀ b, Reads (f b) P) :
    Reads (atStatementEnd >>= f) P := by
  intro next s b s' hs h
  rw [atStatementEnd, bind_assoc] at h
  have hget : ∀ {g : TokenStream → Parser β}, (get >>= g) s = g s s := rfl
  rw [hget] at h
  split at h
  · exact hf _ next s b s' hs h
  · split at h <;> exact hf _ next s b s' hs h

theorem reads_atEnd {f : Bool → Parser β} (hf : ∀ b, Reads (f b) P) : Reads (atEnd >>= f) P :=
  fun next s b s' hs h => hf _ next s b s' hs h

theorem reads_endStatement {f : Unit → Parser β} (hf : Reads (f ()) P) :
    Reads (endStatement >>= f) P := by
  rw [endStatement, bind_assoc]
  refine reads_atStatementEnd fun b => ?_
  cases b with
  | true =>
    rw [if_pos rfl]
    exact reads_skipTerminators hf
  | false =>
    rw [if_neg Bool.false_ne_true]
    refine Reads.bind (Q := fun _ _ => False) ?_ fun _ _ h => h.elim
    intro next s b s' hs h
    exact reads_failHere (P := fun _ _ => False) next s b s' hs h

/-- A symbol is next or not. -/
theorem accept_isOk (sym : Symbol) (s : TokenStream) : ∃ found t, accept sym s = .ok (found, t) := by
  have hpeek : ∃ next, peekSymbol s = .ok (next, s) := by
    have hpeek : peek s = .ok (s.tokens.head?.map (·.kind), s) := rfl
    simp only [peekSymbol, bind, StateT.bind, Except.bind, hpeek]
    generalize s.tokens.head?.map (·.kind) = k
    cases k with
    | none => exact ⟨_, rfl⟩
    | some k => cases k <;> exact ⟨_, rfl⟩
  obtain ⟨next, hpeek⟩ := hpeek
  simp only [accept, at_, bind, StateT.bind, Except.bind, hpeek]
  by_cases h : next = some sym
  · rw [decide_eq_true h]
    exact ⟨_, _, rfl⟩
  · rw [decide_eq_false h]
    exact ⟨_, _, rfl⟩

/-- Whether there is an `else` behind ends of lines; if not, these are left to be read. -/
theorem reads_orElse {x y : Parser β}
    (hx : Reads x fun b g => P b fun out => .symbol .else_ :: g out) (hy : Reads y P) :
    Reads (do
      let before ← get
      skipNewlines
      if ← accept .else_ then
        skipNewlines
        x
      else
        set before
        y) P := by
  intro next s b s' hs h
  have hthen : Reads (do
      skipNewlines
      if ← accept .else_ then
        skipNewlines
        x
      else throw default) P := by
    refine reads_skipNewlines (reads_accept ?_ ?_)
    · rw [if_pos rfl]
      exact reads_skipNewlines hx
    · rw [if_neg Bool.false_ne_true]
      exact reads_throw
  have hlines : skipNewlines s = .ok ((), { s with tokens := s.tokens.dropWhile isNewline }) := rfl
  obtain ⟨found, t, hfound⟩ := accept_isOk .else_ { s with tokens := s.tokens.dropWhile isNewline }
  have hget : (get : Parser TokenStream) s = .ok (s, s) := rfl
  simp only [bind, StateT.bind, Except.bind, hget, hlines, hfound] at h
  -- Either the parser goes on behind the `else`, or it starts again where it began.
  cases found with
  | true =>
    refine hthen next s b s' hs ?_
    simp only [bind, StateT.bind, Except.bind, hlines, hfound]
    exact h
  | false => exact hy next s b s' hs h

end Ends

/-- A statement is written as the tokens that were gone over. -/
abbrev ReadsStmt (p : Stmt) (g : Front) : Prop := ReadAs p.written g

/-- A block is written with the brace that closes it. -/
abbrev ReadsBody (ps : List Stmt) (g : Front) : Prop :=
  ∀ out, g out = Stmt.writtenAll ps ++ .symbol .rightBrace :: out

theorem readsAt_varDeclaration (h : inner.Faithful) :
    ReadsAt (some (.symbol .var)) (varDeclaration inner) ReadsStmt := by
  refine readsAt_place fun span => readsAt_advance <| reads_expectWord fun name _ => ?_
  refine reads_accept ?_ ?_
  · rw [if_pos rfl]
    refine h.assignment.bind fun e g hg => ?_
    rw [pure_bind]
    refine reads_endStatement <| reads_pure fun out hout => ?_
    show .symbol .var :: .word name :: .symbol .equal :: g out = _
    rw [hg out hout, Stmt.written]
    rfl
  · rw [if_neg Bool.false_ne_true, pure_bind]
    refine reads_endStatement <| reads_pure fun out _ => ?_
    rw [Stmt.written]
    rfl

theorem readsAt_letDeclaration (h : inner.Faithful) :
    ReadsAt (some (.symbol .let_)) (letDeclaration inner) ReadsStmt := by
  refine readsAt_place fun span => readsAt_advance <| reads_expectWord fun name _ => ?_
  refine reads_expect fun _ => h.assignment.bind fun e g hg => reads_endStatement <| reads_pure ?_
  intro out hout
  show .symbol .let_ :: .word name :: .symbol .equal :: g out = _
  rw [hg out hout, Stmt.written]
  rfl

theorem reads_parameters (fuel : Nat) (names : Array String) :
    Reads (parameters fuel names) fun l g => ReadsMore (fun n => [.word n]) names.toList l g := by
  have hword : ∀ name : String, ReadAs [.word name] fun out => .word name :: out :=
    fun _ _ _ => rfl
  induction fuel generalizing names with
  | zero => exact reads_pure readsMore_nil
  | succ fuel ih =>
    rw [parameters]
    refine reads_skipNewlines <| reads_expectWord fun name _ => reads_skipNewlines ?_
    refine reads_accept ?_ ?_
    · rw [if_pos rfl]
      refine (ih (names.push name)).imp fun l g h => ?_
      rw [Array.toList_push] at h
      exact h.cons (hword name) fun n => ⟨_, _, rfl, rfl⟩
    · rw [if_neg Bool.false_ne_true]
      refine reads_pure ?_
      show ReadsMore _ _ (names.push name).toList _
      rw [Array.toList_push]
      exact readsMore_last (hword name)

theorem readsAt_functionDeclaration (h : inner.Faithful) :
    ReadsAt (some (.symbol .fn)) (functionDeclaration inner) ReadsStmt := by
  refine readsAt_place fun span => readsAt_advance <| reads_expectWord fun name _ => ?_
  refine reads_expect fun _ => reads_skipNewlines ?_
  have hrest : ∀ params : List String, Reads (do
      let _ ← expect .rightParen .parenAfterParameters
      skipNewlines
      let _ ← expect .leftBrace .braceBeforeFunctionBody
      let body ← inner.block
      return Stmt.function name params body span) fun p g => ∃ body,
        p = .function name params body span ∧ ∀ out, g out = .symbol .rightParen ::
          .symbol .leftBrace :: Stmt.writtenAll body ++ .symbol .rightBrace :: out := by
    intro params
    refine reads_expect fun _ => reads_skipNewlines <| reads_expect fun _ => ?_
    refine h.block.bind fun body g hg => reads_pure ⟨body, rfl, fun out => ?_⟩
    show .symbol .rightParen :: .symbol .leftBrace :: g out = _
    rw [hg out]
    rfl
  have hall : ∀ (params : List String) (g g' : Front) (p : Stmt),
      ReadsMore (fun n => [.word n]) [] params g → (∃ body, p = .function name params body span ∧
        ∀ out, g' out = .symbol .rightParen ::
          .symbol .leftBrace :: Stmt.writtenAll body ++ .symbol .rightBrace :: out) →
      ReadsStmt p fun out => .symbol .fn :: .word name :: .symbol .leftParen :: g (g' out) := by
    rintro params g g' p ⟨more, rfl, hmore⟩ ⟨body, rfl, hbody⟩ out hout
    show .symbol .fn :: .word name :: .symbol .leftParen :: g (g' out) = _
    rw [hbody out, List.cons_append, hmore _ rfl, Stmt.written]
    simp
  refine reads_at ?_ ?_
  · rw [if_pos rfl]
    exact ((hrest []).imp fun p g' hg' => hall [] id g' p readsMore_nil hg') _
  · rw [if_neg Bool.false_ne_true]
    exact (reads_parameters _ #[]).bind fun params g hg => (hrest params).imp fun p g' hg' =>
      hall params g g' p hg hg'

theorem reads_elseBlock (h : inner.Faithful) (span : Span) :
    Reads (elseBlock inner span) ReadsStmt := by
  refine reads_expect fun _ => h.block.bind fun body g hg => reads_pure fun out _ => ?_
  show .symbol .leftBrace :: g out = _
  rw [hg out, Stmt.written]
  simp

theorem readsAt_conditionalWith (h : inner.Faithful) {orElse : Span → Parser Stmt}
    (horElse : ∀ span, Reads (orElse span) ReadsStmt) :
    ReadsAt (some (.symbol .if_)) (conditionalWith inner orElse) ReadsStmt := by
  refine readsAt_place fun span => readsAt_advance <| h.assignment.bind fun condition g hg => ?_
  refine reads_skipNewlines <| reads_expect fun _ => h.block.bind fun body g' hg' => ?_
  refine reads_orElse ?_ ?_
  · refine (horElse span).bind fun p g'' hg'' => reads_pure fun out hout => ?_
    show .symbol .if_ :: g (.symbol .leftBrace :: g' (.symbol .else_ :: g'' out)) = _
    rw [hg (.symbol .leftBrace :: _) trivial, hg', hg'' out hout, Stmt.written]
    simp
  · refine reads_pure fun out _ => ?_
    show .symbol .if_ :: g (.symbol .leftBrace :: g' out) = _
    rw [hg (.symbol .leftBrace :: _) trivial, hg', Stmt.written]
    simp

theorem readsAt_conditional (h : inner.Faithful) (fuel : Nat) :
    ReadsAt (some (.symbol .if_)) (conditional inner fuel) ReadsStmt := by
  induction fuel with
  | zero => exact readsAt_conditionalWith h (reads_elseBlock h)
  | succ fuel ih =>
    refine readsAt_conditionalWith h fun span => reads_at ?_ ?_
    · rw [if_pos rfl]
      exact ih
    · rw [if_neg Bool.false_ne_true]
      exact reads_elseBlock h span

theorem readsAt_whileLoop (h : inner.Faithful) :
    ReadsAt (some (.symbol .while_)) (whileLoop inner) ReadsStmt := by
  refine readsAt_place fun span => readsAt_advance <| h.assignment.bind fun condition g hg => ?_
  refine reads_skipNewlines <| reads_expect fun _ => h.block.bind fun body g' hg' => ?_
  refine reads_pure fun out _ => ?_
  show .symbol .while_ :: g (.symbol .leftBrace :: g' out) = _
  rw [hg (.symbol .leftBrace :: _) trivial, hg', Stmt.written]
  simp

/-- The clause of a loop behind its parenthesis and its keyword, and the body. -/
def ReadsClause (parenthesized : Bool) (span : Span) (p : Stmt) (g : Front) : Prop :=
  ∃ name iterable body, p = .for_ name iterable body span ∧ ∀ out, g out =
    .word name :: .symbol .in_ :: (iterable.written ++
      ((if parenthesized then [.symbol .rightParen] else []) ++
        .symbol .leftBrace :: (Stmt.writtenAll body ++ .symbol .rightBrace :: out)))

/-- **Parentheses and a keyword** at the beginning of a loop do not count. -/
theorem ReadsClause.readsStmt {parenthesized : Bool} {span : Span} {p : Stmt} {g : Front}
    (h : ReadsClause parenthesized span p g) (keyword : List TokenKind)
    (hkeyword : keyword = [] ∨ keyword = [.symbol .var] ∨ keyword = [.symbol .let_]) :
    ReadsStmt p fun out => before (.symbol .for_)
      ((if parenthesized then [.symbol .leftParen] else []) ++ (keyword ++ g out)) := by
  obtain ⟨name, iterable, body, rfl, hg⟩ := h
  have hundeclared : ∀ ts, undeclared (keyword ++ .word name :: ts) = .word name :: ts := by
    rcases hkeyword with rfl | rfl | rfl <;> exact fun _ => rfl
  intro out _
  show before (.symbol .for_) _ = _
  rw [hg out, before, Stmt.written]
  cases parenthesized with
  | true =>
    have hclause : ∀ ts, plainClause (.symbol .leftParen :: ts) = dropClosing 0 (undeclared ts) :=
      fun _ => rfl
    rw [if_pos rfl, if_pos rfl, List.singleton_append, hclause, hundeclared]
    have hpaired : Paired (.word name :: .symbol .in_ :: iterable.written) :=
      (iterable.paired.cons rfl).cons rfl
    have hpairs : ∀ ts, dropClosing 0 (.word name :: .symbol .in_ :: (iterable.written ++
        .symbol .rightParen :: ts)) = .word name :: .symbol .in_ :: (iterable.written ++ ts) :=
      fun ts => hpaired 0 (.symbol .rightParen :: ts)
    rw [List.singleton_append, hpairs]
    simp
  | false =>
    have hclause : ∀ ts, plainClause (keyword ++ .word name :: ts) =
        undeclared (keyword ++ .word name :: ts) := by
      rcases hkeyword with rfl | rfl | rfl <;> exact fun _ => rfl
    rw [if_neg Bool.false_ne_true, if_neg Bool.false_ne_true, List.nil_append, hclause, hundeclared]
    simp

theorem readsAt_forLoop (h : inner.Faithful) :
    ReadsAt (some (.symbol .for_)) (forLoop inner) ReadsStmt := by
  have hclause : ∀ (parenthesized : Bool) (span : Span), Reads (do
      let word ← expectWord .loopVariable
      let _ ← expect .in_ .inAfterVariable
      let iterable ← inner.assignment
      if parenthesized then
        let _ ← expect .rightParen .parenAfterClause
      skipNewlines
      let _ ← expect .leftBrace .braceAfterClause
      return .for_ word.1 iterable (← inner.block) span) (ReadsClause parenthesized span) := by
    intro parenthesized span
    refine reads_expectWord fun name _ => reads_expect fun _ => h.assignment.bind ?_
    intro iterable g hg
    have hbody : Reads (do
        skipNewlines
        let _ ← expect .leftBrace .braceAfterClause
        return Stmt.for_ name iterable (← inner.block) span) fun p g' => ∃ body,
          p = .for_ name iterable body span ∧ ∀ out, g' out =
            .symbol .leftBrace :: (Stmt.writtenAll body ++ .symbol .rightBrace :: out) := by
      refine reads_skipNewlines <| reads_expect fun _ => h.block.bind fun body g' hg' => ?_
      refine reads_pure ⟨body, rfl, fun out => ?_⟩
      show .symbol .leftBrace :: g' out = _
      rw [hg' out]
    cases parenthesized with
    | true =>
      refine reads_expect fun _ => hbody.imp ?_
      rintro p g' ⟨body, rfl, hg'⟩
      refine ⟨name, iterable, body, rfl, fun out => ?_⟩
      show .word name :: .symbol .in_ :: g (.symbol .rightParen :: g' out) = _
      rw [hg (.symbol .rightParen :: _) trivial, hg']
      rfl
    | false =>
      refine hbody.imp ?_
      rintro p g' ⟨body, rfl, hg'⟩
      refine ⟨name, iterable, body, rfl, fun out => ?_⟩
      show .word name :: .symbol .in_ :: g (g' out) = _
      rw [hg', hg (.symbol .leftBrace :: _) trivial]
      rfl
  -- A keyword before the name is optional, and the tree does not keep it.
  have hdeclared : ∀ (parenthesized : Bool) (span : Span), Reads (do
      if ← at_ .var then advance
      else if ← at_ .let_ then advance
      let word ← expectWord .loopVariable
      let _ ← expect .in_ .inAfterVariable
      let iterable ← inner.assignment
      if parenthesized then
        let _ ← expect .rightParen .parenAfterClause
      skipNewlines
      let _ ← expect .leftBrace .braceAfterClause
      return .for_ word.1 iterable (← inner.block) span) fun p g => ReadsStmt p fun out =>
        before (.symbol .for_) ((if parenthesized then [.symbol .leftParen] else []) ++ g out) := by
    intro parenthesized span
    have hall := fun keyword hkeyword => (hclause parenthesized span).imp fun p g hg =>
      hg.readsStmt keyword hkeyword
    refine reads_at ?_ (reads_at ?_ ?_)
    · exact readsAt_advance (hall [.symbol .var] (.inr (.inl rfl)))
    · exact readsAt_advance (hall [.symbol .let_] (.inr (.inr rfl)))
    · exact hall [] (.inl rfl)
  refine readsAt_place fun span => readsAt_advance <| reads_accept ?_ ?_
  · exact hdeclared true span
  · exact hdeclared false span

theorem readsAt_returnStatement (h : inner.Faithful) :
    ReadsAt (some (.symbol .return_)) (returnStatement inner) ReadsStmt := by
  refine readsAt_place fun span => readsAt_advance <| reads_atStatementEnd fun b => ?_
  cases b with
  | true =>
    rw [if_pos rfl, pure_bind]
    refine reads_endStatement <| reads_pure fun out _ => ?_
    rw [Stmt.written]
    rfl
  | false =>
    rw [if_neg Bool.false_ne_true]
    refine h.assignment.bind fun e g hg => ?_
    rw [pure_bind]
    refine reads_endStatement <| reads_pure fun out hout => ?_
    show .symbol .return_ :: g out = _
    rw [hg out hout, Stmt.written]
    rfl

/-- **A statement** is written as the tokens that were gone over. -/
theorem reads_statement (h : inner.Faithful) : Reads (statement inner) ReadsStmt := by
  have hplain : Reads (do
      let e ← inner.assignment
      endStatement
      return .expr e) ReadsStmt := by
    refine h.assignment.bind fun e g hg => reads_endStatement <| reads_pure fun out hout => ?_
    rw [Stmt.written]
    exact hg out hout
  refine reads_peekSymbol (fun s => ?_) hplain
  split
  case h_1 hs =>
    cases hs
    exact readsAt_varDeclaration h
  case h_2 hs =>
    cases hs
    exact readsAt_letDeclaration h
  case h_3 hs =>
    cases hs
    exact readsAt_functionDeclaration h
  case h_4 hs =>
    cases hs
    exact readsAt_conditional h _
  case h_5 hs =>
    cases hs
    exact readsAt_whileLoop h
  case h_6 hs =>
    cases hs
    exact readsAt_forLoop h
  case h_7 hs =>
    cases hs
    exact readsAt_returnStatement h
  case h_8 hs =>
    cases hs
    refine readsAt_place fun span => readsAt_advance <| reads_endStatement <| reads_pure ?_
    intro out _
    rw [Stmt.written]
    rfl
  case h_9 hs =>
    cases hs
    refine readsAt_place fun span => readsAt_advance <| reads_endStatement <| reads_pure ?_
    intro out _
    rw [Stmt.written]
    rfl
  case h_10 hs =>
    cases hs
    refine readsAt_place fun span => readsAt_advance <| h.block.bind fun body g hg => ?_
    refine reads_pure fun out _ => ?_
    show .symbol .leftBrace :: g out = _
    rw [hg out, Stmt.written]
    simp
  case h_11 => exact hplain _

/-- More statements behind others. -/
def ReadsStmts (before after : List Stmt) (g : Front) : Prop :=
  ∃ more, after = before ++ more ∧ ∀ out, Apart out → g out = Stmt.writtenAll more ++ out

theorem readsStmts_nil {body : List Stmt} : ReadsStmts body body id :=
  ⟨[], (List.append_nil _).symm, fun _ _ => rfl⟩

theorem ReadsStmts.cons {body l : List Stmt} {p : Stmt} {g g' : Front} (hg : ReadsStmt p g)
    (h : ReadsStmts (body ++ [p]) l g') : ReadsStmts body l fun out => g (g' out) := by
  obtain ⟨more, rfl, hmore⟩ := h
  refine ⟨p :: more, by rw [List.append_assoc, List.singleton_append], fun out hout => ?_⟩
  have hapart : Apart (Stmt.writtenAll more ++ out) := by
    cases more with
    | nil => exact hout
    | cons q more =>
      rw [Stmt.writtenAll, List.append_assoc]
      exact (q.leading.append _).apart
  show g (g' out) = _
  rw [hmore out hout, hg _ hapart, Stmt.writtenAll, List.append_assoc]

theorem reads_statements (h : inner.Faithful) (fuel : Nat) (body : Array Stmt) :
    Reads (statements inner fuel body) fun ps => ReadsStmts body.toList ps := by
  induction fuel generalizing body with
  | zero => exact reads_pure readsStmts_nil
  | succ fuel ih =>
    rw [statements]
    have hmore : Reads (do statements inner fuel (body.push (← statement inner)))
        fun ps => ReadsStmts body.toList ps := by
      refine (reads_statement h).bind fun p g hg => (ih (body.push p)).imp fun l g' hl => ?_
      rw [Array.toList_push] at hl
      exact hl.cons hg
    refine reads_skipTerminators ?_
    have hcases : ∀ found, Reads (do
        let ended ← atEnd
        if found || ended then return body.toList
        else statements inner fuel (body.push (← statement inner)))
        fun ps => ReadsStmts body.toList ps := by
      refine fun found => reads_atEnd fun ended => ?_
      split
      · exact reads_pure readsStmts_nil
      · exact hmore
    exact reads_at (hcases true _) (hcases false)

theorem reads_blockBody (h : inner.Faithful) : Reads (blockBody inner) ReadsBody := by
  refine (reads_statements h _ #[]).bind fun ps g hg => reads_expect fun _ => reads_pure ?_
  obtain ⟨more, rfl, hmore⟩ := hg
  exact fun out => hmore (.symbol .rightBrace :: out) trivial

theorem reads_program (h : inner.Faithful) (fuel : Nat) (body : Array Stmt) :
    Reads (program inner fuel body) fun p => ReadsStmts body.toList p.statements := by
  induction fuel generalizing body with
  | zero => exact reads_pure readsStmts_nil
  | succ fuel ih =>
    rw [program]
    refine reads_skipTerminators <| reads_atEnd fun ended => ?_
    split
    · exact reads_pure readsStmts_nil
    · refine (reads_statement h).bind fun p g hg => (ih (body.push p)).imp fun r g' hr => ?_
      rw [Array.toList_push] at hr
      exact hr.cons hg

theorem faithful_levels (tokens room : Nat) : (levels tokens room).Faithful := by
  induction room with
  | zero => exact ⟨reads_failHere, reads_failHere, reads_failHere⟩
  | succ room ih => exact ⟨reads_blockBody ih, reads_assignment ih, reads_unary ih⟩

/-! ### Whole programs -/

/-- A statement takes at least one token. -/
theorem length_statement_lt (h : inner.Faithful) {s s' : TokenStream} {p : Stmt}
    (hp : statement inner s = .ok (p, s')) : s'.tokens.length < s.tokens.length :=
  (reads_statement h).length_lt Stmt.leading hp

/-- **Nothing is left** behind a program: its loop goes on while there are tokens. -/
theorem program_exhausts (h : inner.Faithful) {fuel : Nat} {body : Array Stmt}
    {s s' : TokenStream} {p : Program} (hfuel : s.tokens.length < fuel)
    (hp : program inner fuel body s = .ok (p, s')) : s'.tokens = [] := by
  induction fuel generalizing body s with
  | zero => exact absurd hfuel (Nat.not_lt_zero _)
  | succ fuel ih =>
    have hskip : skipTerminators s =
        .ok ((), { s with tokens := s.tokens.dropWhile isTerminator }) := rfl
    have hend : ∀ t : TokenStream, atEnd t = .ok (t.tokens.isEmpty, t) := fun _ => rfl
    have hle := (List.dropWhile_sublist isTerminator (l := s.tokens)).length_le
    rw [program] at hp
    simp only [bind, StateT.bind, Except.bind, hskip, hend] at hp
    split at hp
    case isTrue hempty =>
      cases hp
      exact List.isEmpty_iff.1 hempty
    case isFalse =>
      simp only [StateT.bind, bind, Except.bind] at hp
      split at hp
      case h_1 => cases hp
      case h_2 r hr =>
        have hlt := length_statement_lt h hr
        exact ih (by simp only at hlt; omega) hp

end Parser

/-- **Writing a program back gives what counts of its tokens.** -/
theorem Program.essentials_ofTokens {stream : TokenStream} {p : Program}
    (h : Program.ofTokens stream = .ok p) : essentials stream.kinds = p.written := by
  simp only [Program.ofTokens, bind, Except.bind] at h
  split at h
  case h_1 => cases h
  case h_2 r hr =>
    cases h
    have hinner := Parser.faithful_levels (stream.tokens.length + 1) maxNesting
    obtain ⟨ts, hts, more, hmore, hread⟩ :=
      Parser.reads_program hinner (stream.tokens.length + 1) #[] _ stream r.1 r.2 rfl hr
    have hrest : r.2.kinds = [] := by
      rw [TokenStream.kinds, Parser.program_exhausts hinner (Nat.lt_succ_self _) hr, List.map_nil]
    have hstatements : r.1.statements = more := hmore
    rw [hts, hrest, List.append_nil, Program.written, hstatements, ← List.append_nil
      (Stmt.writtenAll more)]
    exact hread [] trivial

end DeployScript
