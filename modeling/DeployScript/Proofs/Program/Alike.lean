import DeployScript.Proofs.Program.Faithful

/-!
# Parsers side by side

Two parsers go on two streams of tokens, where the second has the tokens of the first and more lines
behind them. A parser that succeeds on the first looks at what is behind them only to see that it has come
to an end: so the other one succeeds as well, and leaves what the first leaves with the same lines behind.

* `TokenKind.NextLines` — what may stand behind.
* `Parser.Goes` — two parsers that go alike; `Parser.Fails`, `FailsAt`, `Needs` — parsers that fail.
* `Parser.goes_peek`, `goes_expect` and the like — single tokens.
* `Parser.goes_skipNewlines` — ends of lines, behind which a parser goes on.
* `Parser.goes_endStatement`, `goes_orElse` — where it may be the end of the first stream.
* `Parser.goes_delimited`, `goes_parameters` — lists.
-/

namespace DeployScript

/-- Whether a token is a line feed. -/
def TokenKind.isLine : TokenKind → Bool
  | .newline => true
  | _ => false

/-- Whether a token ends a statement. -/
def TokenKind.isEnd : TokenKind → Bool
  | .newline | .symbol .semicolon => true
  | _ => false

/-- The symbol that a token is, if it is one. -/
def TokenKind.symbolOf : Option TokenKind → Option Symbol
  | some (.symbol sym) => some sym
  | _ => none

/-- **What may stand behind a program:** nothing, or a new line that does not go on with an `else`. -/
structure TokenKind.NextLines (more : List TokenKind) : Prop where
  line : ∀ k ks, more = k :: ks → k = .newline
  fresh : symbolOf (more.dropWhile isLine).head? ≠ some .else_

namespace Parser

open TokenKind (symbolOf)

/-! ### Two parsers side by side -/

/-- The tokens on one side are those on the other, with more behind them. -/
abbrev Ahead (more : List TokenKind) (ks ks' : List TokenKind) : Prop := ks' = ks ++ more

/-- **Two parsers go alike** where it is known which token is next, on streams of which the second has
more tokens behind those of the first. If the one succeeds then so does the other, and their answers are
related. -/
def GoesAt {α β : Type} (more : List TokenKind) (bound : Nat) (next : Option TokenKind)
    (P : List TokenKind → List TokenKind → Prop) (R : α → β → Prop) (x : Parser α) (y : Parser β) :
    Prop :=
  ∀ s s' a t, s.kinds.head? = next → s.kinds.length < bound → Ahead more s.kinds s'.kinds →
    x s = .ok (a, t) → t.kinds.length ≤ s.kinds.length ∧
      ∃ b t', y s' = .ok (b, t') ∧ R a b ∧ P t.kinds t'.kinds

/-- Two parsers go alike, whatever is next. -/
def Goes {α β : Type} (more : List TokenKind) (bound : Nat)
    (P : List TokenKind → List TokenKind → Prop) (R : α → β → Prop) (x : Parser α) (y : Parser β) :
    Prop :=
  ∀ next, GoesAt more bound next P R x y

/-- A parser that does not succeed. -/
def Fails {α : Type} (x : Parser α) : Prop := ∀ s a t, x s ≠ .ok (a, t)

/-- A parser that does not succeed where it is known which token is next. -/
def FailsAt {α : Type} (next : Option TokenKind) (x : Parser α) : Prop :=
  ∀ s a t, s.kinds.head? = next → x s ≠ .ok (a, t)

/-- A parser that does not succeed at the end. -/
abbrev Needs {α : Type} (x : Parser α) : Prop := FailsAt none x

section Basic

variable {α β γ δ : Type} {more : List TokenKind} {bound : Nat} {next : Option TokenKind}
  {P : List TokenKind → List TokenKind → Prop} {R : α → β → Prop} {Q : γ → δ → Prop}

/-- One parser behind another. -/
theorem bind_ok {x : Parser γ} {f : γ → Parser α} {s t : TokenStream} {a : α}
    (h : (x >>= f) s = .ok (a, t)) : ∃ c u, x s = .ok (c, u) ∧ f c u = .ok (a, t) := by
  simp only [Bind.bind, StateT.bind, Except.bind] at h
  split at h
  case h_1 => cases h
  case h_2 r hr => exact ⟨r.1, r.2, hr, h⟩

theorem bind_of_ok {x : Parser γ} {f : γ → Parser α} {s u : TokenStream} {c : γ}
    (h : x s = .ok (c, u)) : (x >>= f) s = f c u := by
  simp only [Bind.bind, StateT.bind, Except.bind, h]

/-! ### The next token -/

theorem peek_eq (u : TokenStream) : peek u = .ok (u.kinds.head?, u) := by
  rw [TokenStream.kinds, List.head?_map]
  rfl

theorem peekSymbol_eq (u : TokenStream) : peekSymbol u = .ok (symbolOf u.kinds.head?, u) := by
  rw [peekSymbol, bind_of_ok (peek_eq u)]
  cases u.kinds.head? with
  | none => rfl
  | some k => cases k <;> rfl

theorem at_eq (sym : Symbol) (u : TokenStream) :
    at_ sym u = .ok (decide (symbolOf u.kinds.head? = some sym), u) := by
  rw [at_, bind_of_ok (peekSymbol_eq u)]
  rfl

theorem accept_of_next {sym : Symbol} {u : TokenStream} (h : symbolOf u.kinds.head? ≠ some sym) :
    accept sym u = .ok (false, u) := by
  rw [accept, bind_of_ok (at_eq sym u), decide_eq_false h]
  rfl

theorem accept_of_head {sym : Symbol} {u : TokenStream} (h : symbolOf u.kinds.head? = some sym) :
    accept sym u = .ok (true, { u with tokens := u.tokens.tail }) := by
  rw [accept, bind_of_ok (at_eq sym u), decide_eq_true h]
  rfl

/-! ### Parsers that do not succeed -/

theorem fails_throw {e : ScriptError} : Fails (throw e : Parser α) := fun _ _ _ h => by cases h

theorem fails_failHere {cause : Cause} : Fails (failHere cause : Parser α) := fun _ _ _ h => by cases h

theorem fails_failExpected {wanted : Expectation} : Fails (failExpected wanted : Parser α) :=
  fun _ _ _ h => by cases h

theorem Fails.bind {x : Parser γ} (hx : Fails x) (f : γ → Parser α) : Fails (x >>= f) := by
  intro s a t h
  obtain ⟨c, u, hc, -⟩ := bind_ok h
  exact hx _ _ _ hc

theorem Fails.goes {x : Parser α} (hx : Fails x) (y : Parser β) : Goes more bound P R x y :=
  fun _ s _ a t _ _ _ h => absurd h (hx s a t)

theorem Fails.at_ {x : Parser α} (hx : Fails x) : FailsAt next x := fun s a t _ => hx s a t

theorem FailsAt.bind {x : Parser γ} (hx : FailsAt next x) (f : γ → Parser α) :
    FailsAt next (x >>= f) := by
  intro s a t hs h
  obtain ⟨c, u, hc, -⟩ := bind_ok h
  exact hx s c u hs hc

theorem failsAt_place {f : Span → Parser α} (hf : ∀ span, FailsAt next (f span)) :
    FailsAt next (place >>= f) :=
  fun s a t hs h => hf _ s a t hs h

theorem failsAt_peek {f : Option TokenKind → Parser α} (hf : FailsAt next (f next)) :
    FailsAt next (peek >>= f) := by
  intro s a t hs h
  rw [bind_of_ok (peek_eq s), hs] at h
  exact hf s a t hs h

theorem failsAt_peekSymbol {f : Option Symbol → Parser α} (hf : FailsAt next (f (symbolOf next))) :
    FailsAt next (peekSymbol >>= f) := by
  intro s a t hs h
  rw [bind_of_ok (peekSymbol_eq s), hs] at h
  exact hf s a t hs h

theorem failsAt_accept {sym : Symbol} {f : Bool → Parser α} (hnext : symbolOf next ≠ some sym)
    (hf : FailsAt next (f false)) : FailsAt next (accept sym >>= f) := by
  intro s a t hs h
  rw [bind_of_ok (accept_of_next (hs ▸ hnext))] at h
  exact hf s a t hs h

theorem needs_accept {sym : Symbol} {f : Bool → Parser α} (hf : Needs (f false)) :
    Needs (accept sym >>= f) := by
  refine failsAt_accept (fun h => ?_) hf
  cases h

theorem needs_at {sym : Symbol} {f : Bool → Parser α} (hf : Needs (f false)) :
    Needs (at_ sym >>= f) := by
  intro s a t hs h
  rw [bind_of_ok (at_eq sym s), hs] at h
  exact hf s a t hs h

theorem needs_expect {sym : Symbol} {wanted : Expectation} : Needs (expect sym wanted) := by
  rw [expect]
  exact failsAt_place fun _ => needs_accept fails_failExpected.at_

theorem needs_expectWord {wanted : Expectation} : Needs (expectWord wanted) := by
  rw [expectWord]
  exact failsAt_place fun _ => failsAt_peek fails_failExpected.at_

theorem needs_skipNewlines {f : Unit → Parser α} (hf : Needs (f ())) : Needs (skipNewlines >>= f) := by
  intro s a t hs h
  refine hf { s with tokens := s.tokens.dropWhile isNewline } a t ?_ h
  rw [TokenStream.kinds, List.map_eq_nil_iff.1 (List.head?_eq_none_iff.1 hs)]
  rfl

theorem needs_skipTerminators {f : Unit → Parser α} (hf : Needs (f ())) :
    Needs (skipTerminators >>= f) := by
  intro s a t hs h
  refine hf { s with tokens := s.tokens.dropWhile isTerminator } a t ?_ h
  rw [TokenStream.kinds, List.map_eq_nil_iff.1 (List.head?_eq_none_iff.1 hs)]
  rfl

theorem needs_atEnd {f : Bool → Parser α} (hf : Needs (f true)) : Needs (atEnd >>= f) := by
  intro s a t hs h
  have hend : atEnd s = .ok (true, s) := by
    have hnil : s.tokens = [] := List.map_eq_nil_iff.1 (List.head?_eq_none_iff.1 hs)
    have hend : atEnd s = .ok (s.tokens.isEmpty, s) := rfl
    rw [hend, hnil]
    rfl
  rw [bind_of_ok hend] at h
  exact hf s a t hs h

/-! ### Parsers that go alike -/

theorem goes_pure {a : α} {b : β} (h : R a b) : Goes more bound (Ahead more) R (pure a) (pure b) := by
  rintro next s s' _ _ - - hs ⟨⟩
  exact ⟨Nat.le_refl _, b, s', rfl, h, hs⟩

theorem GoesAt.bind {x : Parser γ} {y : Parser δ} {f : γ → Parser α} {g : δ → Parser β}
    (hx : GoesAt more bound next (Ahead more) Q x y)
    (hf : ∀ c d, Q c d → Goes more bound P R (f c) (g d)) :
    GoesAt more bound next P R (x >>= f) (y >>= g) := by
  intro s s' a t hnext hlt hs h
  obtain ⟨c, u, hc, hu⟩ := bind_ok h
  obtain ⟨hle, d, u', hd, hcd, hahead⟩ := hx s s' c u hnext hlt hs hc
  obtain ⟨hle', b, t', hb, hr⟩ := hf c d hcd _ u u' a t rfl (hle.trans_lt hlt) hahead hu
  exact ⟨hle'.trans hle, b, t', (bind_of_ok hd).trans hb, hr⟩

theorem Goes.bind {x : Parser γ} {y : Parser δ} {f : γ → Parser α} {g : δ → Parser β}
    (hx : Goes more bound (Ahead more) Q x y) (hf : ∀ c d, Q c d → Goes more bound P R (f c) (g d)) :
    Goes more bound P R (x >>= f) (y >>= g) :=
  fun next => (hx next).bind hf

variable {f : γ → Parser α} {g : δ → Parser β}

theorem goesAt_place {f : Span → Parser α} {g : Span → Parser β}
    (hf : ∀ span span', GoesAt more bound next P R (f span) (g span')) :
    GoesAt more bound next P R (place >>= f) (place >>= g) :=
  fun s s' a t hnext hlt hs h => hf _ _ s s' a t hnext hlt hs h

theorem goes_place {f : Span → Parser α} {g : Span → Parser β}
    (hf : ∀ span span', Goes more bound P R (f span) (g span')) :
    Goes more bound P R (place >>= f) (place >>= g) :=
  fun _ => goesAt_place fun span span' => hf span span' _

/-- The next token is the same one on both sides. -/
theorem Ahead.head {ks ks' : List TokenKind} {k : TokenKind} (h : Ahead more ks ks')
    (hk : ks.head? = some k) : ks'.head? = some k := by
  obtain ⟨rest, rfl⟩ := List.head?_eq_some_iff.1 hk
  rw [h]
  rfl

theorem goes_peek {f : Option TokenKind → Parser α} {g : Option TokenKind → Parser β}
    (hf : ∀ k, GoesAt more bound (some k) P R (f (some k)) (g (some k))) (hnone : Fails (f none)) :
    Goes more bound P R (peek >>= f) (peek >>= g) := by
  intro next s s' a t hnext hlt hs h
  rw [bind_of_ok (peek_eq s), hnext] at h
  cases next with
  | none => exact absurd h (hnone s a t)
  | some k =>
    rw [bind_of_ok (peek_eq s'), hs.head hnext]
    exact hf k s s' a t hnext hlt hs h

theorem goesAt_advance {k : TokenKind} {f : Unit → Parser α} {g : Unit → Parser β}
    (hf : Goes more (bound - 1) P R (f ()) (g ())) :
    GoesAt more bound (some k) P R (advance >>= f) (advance >>= g) := by
  intro s s' a t hnext hlt hs h
  obtain ⟨ks, hks⟩ := List.head?_eq_some_iff.1 hnext
  have htail : ∀ u : TokenStream, ({ u with tokens := u.tokens.tail } : TokenStream).kinds = u.kinds.tail :=
    fun u => List.map_tail
  have hlength : s.kinds.length = ks.length + 1 := by rw [hks]; rfl
  have hrest : s.kinds.tail.length = ks.length := by rw [hks]; rfl
  obtain ⟨hle, b, t', hb, hr⟩ := hf _ { s with tokens := s.tokens.tail } { s' with tokens := s'.tokens.tail }
    a t rfl (by rw [htail, hrest]; omega) (by
      rw [Ahead, htail, htail, hs, hks]
      rfl) h
  rw [htail, hrest] at hle
  exact ⟨by omega, b, t', hb, hr⟩

/-- Fewer tokens are bounded as well. -/
theorem Goes.mono {x : Parser α} {y : Parser β} {bound' : Nat} (h : Goes more bound P R x y)
    (hle : bound' ≤ bound) : Goes more bound' P R x y :=
  fun next s s' a t hnext hlt => h next s s' a t hnext (hlt.trans_le hle)

theorem Goes.imp {x : Parser α} {y : Parser β} {R' : α → β → Prop} (h : Goes more bound P R x y)
    (hi : ∀ a b, R a b → R' a b) : Goes more bound P R' x y := by
  intro next s s' a t hnext hlt hs hx
  obtain ⟨hle, b, t', hb, hr, hp⟩ := h next s s' a t hnext hlt hs hx
  exact ⟨hle, b, t', hb, hi a b hr, hp⟩

/-- Whether a token with a fixed spelling is next. -/
theorem goes_peekSymbol (hmore : TokenKind.NextLines more) {f : Option Symbol → Parser α}
    {g : Option Symbol → Parser β}
    (hsome : ∀ sym, GoesAt more bound (some (.symbol sym)) P R (f (some sym)) (g (some sym)))
    (hnone : Goes more bound P R (f none) (g none)) :
    Goes more bound P R (peekSymbol >>= f) (peekSymbol >>= g) := by
  intro next s s' a t hnext hlt hs h
  rw [bind_of_ok (peekSymbol_eq s), hnext] at h
  rw [bind_of_ok (peekSymbol_eq s')]
  cases next with
  | none =>
    have hnext' : symbolOf s'.kinds.head? = none := by
      rw [hs, List.head?_eq_none_iff.1 hnext, List.nil_append]
      cases hk : more with
      | nil => rfl
      | cons k ks =>
        obtain rfl := hmore.line k ks hk
        rfl
    rw [hnext']
    exact hnone none s s' a t hnext hlt hs h
  | some k =>
    rw [hs.head hnext]
    cases k with
    | symbol sym => exact hsome sym s s' a t hnext hlt hs h
    | number | text | word | newline => exact hnone _ s s' a t hnext hlt hs h

theorem goes_at (hmore : TokenKind.NextLines more) {sym : Symbol} {f : Bool → Parser α}
    {g : Bool → Parser β}
    (htrue : GoesAt more bound (some (.symbol sym)) P R (f true) (g true))
    (hfalse : Goes more bound P R (f false) (g false)) :
    Goes more bound P R (at_ sym >>= f) (at_ sym >>= g) := by
  rw [at_, bind_assoc, bind_assoc]
  refine goes_peekSymbol hmore (fun s => ?_) hfalse
  rw [pure_bind, pure_bind]
  by_cases h : s = sym
  · subst h
    rw [decide_eq_true rfl]
    exact htrue
  · rw [decide_eq_false (fun he => h (Option.some.inj he))]
    exact hfalse _

theorem goes_accept (hmore : TokenKind.NextLines more) {sym : Symbol} {f : Bool → Parser α}
    {g : Bool → Parser β} (htrue : Goes more (bound - 1) P R (f true) (g true))
    (hfalse : Goes more bound P R (f false) (g false)) :
    Goes more bound P R (accept sym >>= f) (accept sym >>= g) := by
  rw [accept, bind_assoc, bind_assoc]
  refine goes_at hmore ?_ ?_
  · rw [if_pos rfl, bind_assoc, bind_assoc]
    exact goesAt_advance htrue
  · rw [if_neg Bool.false_ne_true]
    exact hfalse

theorem goes_expect (hmore : TokenKind.NextLines more) {sym : Symbol} {wanted : Expectation}
    {f : Span → Parser α} {g : Span → Parser β}
    (hf : ∀ span span', Goes more bound P R (f span) (g span')) :
    Goes more bound P R (expect sym wanted >>= f) (expect sym wanted >>= g) := by
  rw [expect, bind_assoc, bind_assoc]
  refine goes_place fun span span' => ?_
  rw [bind_assoc, bind_assoc]
  refine goes_accept hmore ?_ ?_
  · simp only [if_pos, pure_bind]
    exact (hf span span').mono (Nat.sub_le _ _)
  · rw [if_neg Bool.false_ne_true]
    exact (fails_failExpected.bind _).goes _

theorem goes_expectWord {wanted : Expectation} {f : String × Span → Parser α}
    {g : String × Span → Parser β}
    (hf : ∀ name span span', Goes more bound P R (f (name, span)) (g (name, span'))) :
    Goes more bound P R (expectWord wanted >>= f) (expectWord wanted >>= g) := by
  rw [expectWord, bind_assoc, bind_assoc]
  refine goes_place fun span span' => ?_
  rw [bind_assoc, bind_assoc]
  refine goes_peek (fun k => ?_) (fails_failExpected.bind _)
  cases k with
  | word name =>
    dsimp only
    rw [bind_assoc, bind_assoc]
    exact goesAt_advance ((hf _ span span').mono (Nat.sub_le _ _))
  | number | text | symbol | newline => exact (fails_failExpected.bind _).goes _ _

/-! ### Ends of lines -/

theorem isNewline_eq (t : Token) : isNewline t = t.kind.isLine := by
  unfold isNewline TokenKind.isLine
  cases t.kind <;> rfl

theorem isTerminator_eq (t : Token) : isTerminator t = t.kind.isEnd := by
  unfold isTerminator TokenKind.isEnd
  cases t.kind with
  | symbol s => cases s <;> rfl
  | number | text | word | newline => rfl

/-- What is left behind tokens of a kind. -/
theorem kinds_dropWhile {f : TokenKind → Bool} {d : Token → Bool} (hd : ∀ t, d t = f t.kind)
    (u : TokenStream) :
    ({ u with tokens := u.tokens.dropWhile d } : TokenStream).kinds = u.kinds.dropWhile f := by
  rw [TokenStream.kinds, TokenStream.kinds, List.dropWhile_map]
  congr 1
  exact congrArg (List.dropWhile · u.tokens) (funext hd)

theorem goes_dropWhile {kind : TokenKind → Bool} {d : Token → Bool} (hd : ∀ t, d t = kind t.kind)
    {f : Unit → Parser α} {g : Unit → Parser β} (hneeds : Needs (f ()))
    (hf : Goes more bound P R (f ()) (g ())) :
    Goes more bound P R (modify (fun s => { s with tokens := s.tokens.dropWhile d }) >>= f)
      (modify (fun s => { s with tokens := s.tokens.dropWhile d }) >>= g) := by
  intro next s s' a t _ hlt hs h
  have hdrop := kinds_dropWhile hd
  have hle := (List.dropWhile_sublist kind (l := s.kinds)).length_le
  have hne : (s.kinds.dropWhile kind).isEmpty = false := by
    by_contra hnil
    have hnil := List.isEmpty_iff.1 (Bool.not_eq_false _ ▸ hnil)
    exact hneeds { s with tokens := s.tokens.dropWhile d } a t (by rw [hdrop, hnil]; rfl) h
  obtain ⟨hle', b, t', hb, hr⟩ := hf _ { s with tokens := s.tokens.dropWhile d }
    { s' with tokens := s'.tokens.dropWhile d } a t rfl (by rw [hdrop]; omega) (by
      rw [Ahead, hdrop, hdrop, hs, List.dropWhile_append, hne]
      rfl) h
  rw [hdrop] at hle'
  exact ⟨hle'.trans hle, b, t', hb, hr⟩

theorem goes_skipNewlines {f : Unit → Parser α} {g : Unit → Parser β} (hneeds : Needs (f ()))
    (hf : Goes more bound P R (f ()) (g ())) :
    Goes more bound P R (skipNewlines >>= f) (skipNewlines >>= g) :=
  goes_dropWhile isNewline_eq hneeds hf

theorem goes_skipTerminators {f : Unit → Parser α} {g : Unit → Parser β} (hneeds : Needs (f ()))
    (hf : Goes more bound P R (f ()) (g ())) :
    Goes more bound P R (skipTerminators >>= f) (skipTerminators >>= g) :=
  goes_dropWhile isTerminator_eq hneeds hf

/-- What is left behind a statement: on the side with more tokens its end may be gone over as well. -/
def Behind (more ks ks' : List TokenKind) : Prop :=
  Ahead more ks ks' ∨ ks = [] ∧ ks' = more.dropWhile TokenKind.isEnd

/-- Whether a statement may end in front of tokens. -/
def ended : List TokenKind → Bool
  | [] | .newline :: _ | .symbol .semicolon :: _ | .symbol .rightBrace :: _ => true
  | _ => false

theorem atStatementEnd_eq (u : TokenStream) : atStatementEnd u = .ok (ended u.kinds, u) := by
  have hget : (get : Parser TokenStream) u = .ok (u, u) := rfl
  rw [atStatementEnd, bind_of_ok hget, TokenStream.kinds]
  cases u.tokens with
  | nil => rfl
  | cons t ts =>
    obtain ⟨kind, span, lexeme⟩ := t
    cases kind with
    | symbol sym => cases sym <;> rfl
    | number | text | word | newline => rfl

theorem ended_append (hmore : TokenKind.NextLines more) (ks : List TokenKind) :
    ended (ks ++ more) = ended ks := by
  cases ks with
  | cons k ks =>
    cases k with
    | symbol sym => cases sym <;> rfl
    | number | text | word | newline => rfl
  | nil =>
    cases hk : more with
    | nil => rfl
    | cons k ks =>
      obtain rfl := hmore.line k ks hk
      rfl

theorem goes_atStatementEnd (hmore : TokenKind.NextLines more) {f : Bool → Parser α}
    {g : Bool → Parser β} (hf : ∀ b, Goes more bound P R (f b) (g b)) :
    Goes more bound P R (atStatementEnd >>= f) (atStatementEnd >>= g) := by
  intro next s s' a t hnext hlt hs h
  rw [bind_of_ok (atStatementEnd_eq s)] at h
  rw [bind_of_ok (atStatementEnd_eq s'), hs, ended_append hmore]
  exact hf _ next s s' a t hnext hlt hs h

/-- **The end of a statement.** -/
theorem goes_endStatement (hmore : TokenKind.NextLines more) {a : α} {b : β} (hr : R a b) :
    Goes more bound (Behind more) R (endStatement >>= fun _ => pure a)
      (endStatement >>= fun _ => pure b) := by
  rw [endStatement, bind_assoc, bind_assoc]
  refine goes_atStatementEnd hmore fun found => ?_
  cases found with
  | false => exact (Fails.bind (fun _ _ _ h => by cases h) _).goes _
  | true =>
    have hdrop := kinds_dropWhile isTerminator_eq
    have hskip : ∀ {ι : Type} (c : ι) (u : TokenStream), ((if true then skipTerminators else do
        failHere (.unexpectedToken (← shown))) >>= fun _ => (pure c : Parser ι)) u
          = .ok (c, { u with tokens := u.tokens.dropWhile isTerminator }) := fun _ _ => rfl
    intro next s s' c t _ hlt hs h
    cases h
    refine ⟨?_, b, _, hskip b s', hr, ?_⟩
    · rw [hdrop]
      exact (List.dropWhile_sublist _).length_le
    · rw [hdrop, hdrop, hs, List.dropWhile_append]
      split
      case isTrue hnil => exact .inr ⟨List.isEmpty_iff.1 hnil, rfl⟩
      case isFalse => exact .inl rfl

/-- How a conditional goes on behind its first block. -/
def orElse (x y : Parser α) : Parser α := do
  let before ← get
  skipNewlines
  if ← accept .else_ then
    skipNewlines
    x
  else
    set before
    y

/-- Whether an `else` comes first behind ends of lines. -/
def elseFirst (ks : List TokenKind) : Bool :=
  decide (symbolOf (ks.dropWhile TokenKind.isLine).head? = some .else_)

theorem orElse_eq (x y : Parser α) (u : TokenStream) :
    orElse x y u = if elseFirst u.kinds then (skipNewlines >>= fun _ => x)
        { u with tokens := (u.tokens.dropWhile isNewline).tail }
      else y u := by
  have hget : (get : Parser TokenStream) u = .ok (u, u) := rfl
  have hlines : skipNewlines u = .ok ((), { u with tokens := u.tokens.dropWhile isNewline }) := rfl
  have hkinds := kinds_dropWhile isNewline_eq u
  rw [orElse, bind_of_ok hget, bind_of_ok hlines, elseFirst, ← hkinds]
  by_cases h : symbolOf (TokenStream.kinds { u with tokens := u.tokens.dropWhile isNewline }).head?
      = some .else_
  · rw [bind_of_ok (accept_of_head h), decide_eq_true h]
    rfl
  · rw [bind_of_ok (accept_of_next h), decide_eq_false h]
    rfl

theorem elseFirst_append (hmore : TokenKind.NextLines more) (ks : List TokenKind) :
    elseFirst (ks ++ more) = elseFirst ks := by
  unfold elseFirst
  rw [List.dropWhile_append]
  cases ks.dropWhile TokenKind.isLine with
  | cons k rest => rfl
  | nil => exact decide_eq_false hmore.fresh

/-- **Whether there is an `else`** is the same on both sides. -/
theorem goes_orElse (hmore : TokenKind.NextLines more) {x y : Parser α} {x' y' : Parser β}
    (hneeds : Needs x) (hx : Goes more bound P R x x') (hy : Goes more bound P R y y') :
    Goes more bound P R (orElse x y) (orElse x' y') := by
  intro next s s' a t hnext hlt hs h
  have hfound : elseFirst s'.kinds = elseFirst s.kinds := by rw [hs, elseFirst_append hmore]
  rw [orElse_eq] at h
  rw [orElse_eq, hfound]
  cases hf : elseFirst s.kinds with
  | false =>
    rw [hf] at h
    exact hy next s s' a t hnext hlt hs h
  | true =>
    rw [hf] at h
    -- Both sides go on behind the `else`.
    have htail : ∀ u : TokenStream, ({ u with tokens := (u.tokens.dropWhile isNewline).tail } :
        TokenStream).kinds = (u.kinds.dropWhile TokenKind.isLine).tail := by
      intro u
      rw [← kinds_dropWhile isNewline_eq]
      exact List.map_tail
    have hne : s.kinds.dropWhile TokenKind.isLine ≠ [] := by
      intro hnil
      rw [elseFirst, hnil] at hf
      cases hf
    have hle : (s.kinds.dropWhile TokenKind.isLine).tail.length ≤ s.kinds.length :=
      (List.tail_sublist _).length_le.trans (List.dropWhile_sublist _).length_le
    obtain ⟨hle', b, t', hb, hr⟩ := goes_skipNewlines (f := fun _ => x) (g := fun _ => x') hneeds hx _ _
      { s' with tokens := (s'.tokens.dropWhile isNewline).tail } a t rfl (by rw [htail]; omega) (by
        rw [Ahead, htail, htail, hs, List.dropWhile_append, if_neg (by simpa using hne),
          List.tail_append_of_ne_nil hne]) h
    rw [htail] at hle'
    exact ⟨hle'.trans hle, b, t', hb, hr⟩

end Basic

/-! ### Lists -/

section Lists

variable {α β γ δ : Type} {more : List TokenKind} {bound : Nat} {close : Symbol} {wanted : Expectation}
  {P : List TokenKind → List TokenKind → Prop} {R : α → β → Prop} {Q : γ → δ → Prop}

theorem needs_delimited {item : Parser α} (hitem : Needs item) (fuel : Nat) (items : Array α)
    {f : List α → Parser γ} (hf : ∀ l, Needs (f l)) :
    Needs (delimited close item fuel items >>= f) := by
  cases fuel with
  | zero => exact hf _
  | succ fuel =>
    rw [delimited, bind_assoc]
    exact needs_at ((hitem.bind _).bind _)

/-- The symbol comes first where it is gone over. -/
theorem head_of_expect {sym : Symbol} {u t : TokenStream} {span : Span}
    (h : expect sym wanted u = .ok (span, t)) : symbolOf u.kinds.head? = some sym := by
  have hplace : place u = .ok ((u.tokens.head?.map (·.span)).getD u.stop, u) := rfl
  by_contra hnext
  rw [expect, bind_of_ok hplace, bind_of_ok (accept_of_next hnext)] at h
  exact fails_failExpected _ _ _ h

theorem Ahead.symbol {ks ks' : List TokenKind} {sym : Symbol} (h : Ahead more ks ks')
    (hk : symbolOf ks.head? = some sym) : symbolOf ks'.head? = some sym := by
  cases hks : ks.head? with
  | none =>
    rw [hks] at hk
    cases hk
  | some k => rw [h.head hks, ← hks, hk]

/-- A list ends in front of the symbol that closes it. -/
theorem delimited_of_head {item : Parser α} {u : TokenStream}
    (h : symbolOf u.kinds.head? = some close) (fuel : Nat) (items : Array α) :
    delimited close item fuel items u = .ok (items.toList, u) := by
  cases fuel with
  | zero => rfl
  | succ fuel =>
    rw [delimited, bind_of_ok (at_eq close u), decide_eq_true h]
    rfl

/-- **Lists** up to the symbol that closes them. -/
theorem goes_delimited (hmore : TokenKind.NextLines more) {item : Parser α} {item' : Parser β}
    (hitem : Goes more bound (Ahead more) R item item') (hneeds : Needs item) {fuel fuel' : Nat}
    (hfuel : fuel ≤ fuel') {items : Array α} {items' : Array β}
    (hitems : List.Forall₂ R items.toList items'.toList) {f : List α → Span → Parser γ}
    {g : List β → Span → Parser δ}
    (hf : ∀ l l' span span', List.Forall₂ R l l' → Goes more bound P Q (f l span) (g l' span')) :
    Goes more bound P Q (delimited close item fuel items >>= fun l => expect close wanted >>= f l)
      (delimited close item' fuel' items' >>= fun l => expect close wanted >>= g l) := by
  have hend : ∀ {items : Array α} {items' : Array β}, List.Forall₂ R items.toList items'.toList →
      Goes more bound P Q (expect close wanted >>= f items.toList)
        (expect close wanted >>= g items'.toList) :=
    fun h => goes_expect hmore fun span span' => hf _ _ span span' h
  induction fuel generalizing fuel' items items' with
  | zero =>
    intro next s s' a t hnext hlt hs h
    obtain ⟨span, u, hu, -⟩ := bind_ok (x := expect close wanted) (f := f items.toList) h
    rw [bind_of_ok (delimited_of_head (hs.symbol (head_of_expect hu)) fuel' items')]
    exact hend hitems next s s' a t hnext hlt hs h
  | succ fuel ih =>
    obtain ⟨rounds, rfl⟩ : ∃ rounds, fuel' = rounds + 1 := ⟨fuel' - 1, by omega⟩
    rw [delimited, delimited]
    simp only [bind_assoc]
    refine goes_at hmore (hend hitems _) ?_
    simp only [Bool.false_eq_true, if_false, bind_assoc]
    refine hitem.bind fun a b hab => ?_
    have hpushed : List.Forall₂ R (items.push a).toList (items'.push b).toList := by
      rw [Array.toList_push, Array.toList_push]
      exact List.rel_append hitems (.cons hab .nil)
    refine goes_skipNewlines ?_ ?_
    · exact needs_accept (needs_expect.bind _)
    refine goes_accept hmore ?_ (hend hpushed)
    simp only [if_true, bind_assoc]
    refine (goes_skipNewlines ?_ (ih (by omega) hpushed)).mono (Nat.sub_le _ _)
    exact needs_delimited hneeds _ _ fun l => needs_expect.bind _

theorem needs_parameters (fuel : Nat) (names : Array String) {f : List String → Parser γ}
    (hf : ∀ l, Needs (f l)) : Needs (parameters fuel names >>= f) := by
  cases fuel with
  | zero => exact hf _
  | succ fuel =>
    rw [parameters, bind_assoc]
    exact needs_skipNewlines ((needs_expectWord.bind _).bind _)

/-- **The names of parameters,** of which there are no more than tokens. -/
theorem goes_parameters (hmore : TokenKind.NextLines more) {fuel fuel' : Nat} (hfuel : fuel ≤ fuel')
    (hbound : bound ≤ fuel) {names : Array String} {f : List String → Span → Parser γ}
    {g : List String → Span → Parser δ}
    (hf : ∀ l span span', Goes more bound P Q (f l span) (g l span')) :
    Goes more bound P Q (parameters fuel names >>= fun l => expect .rightParen wanted >>= f l)
      (parameters fuel' names >>= fun l => expect .rightParen wanted >>= g l) := by
  induction fuel generalizing fuel' bound names with
  | zero =>
    intro next s s' a t _ hlt
    omega
  | succ fuel ih =>
    obtain ⟨rounds, rfl⟩ : ∃ rounds, fuel' = rounds + 1 := ⟨fuel' - 1, by omega⟩
    rw [parameters, parameters]
    simp only [bind_assoc]
    refine goes_skipNewlines ?_ (goes_expectWord fun name span span' => ?_)
    · exact needs_expectWord.bind _
    simp only
    refine goes_skipNewlines ?_ ?_
    · exact needs_accept (needs_expect.bind _)
    refine goes_accept hmore ?_ (goes_expect hmore fun span span' => hf _ span span')
    rw [if_pos rfl, if_pos rfl]
    exact ih (by omega) (by omega) fun l span span' => (hf l span span').mono (Nat.sub_le _ _)

end Lists

end Parser

end DeployScript
