import DeployScript.Proofs.Program.Cursor

/-!
# Readers that follow parsers

A reader moves a position over a list of tokens, and a parser takes tokens from the front of what is left. One
follows the other if, wherever a cursor is in bounds, both come to the same: the same answer with the same tokens
behind it, or the same error. A fault is no answer, so a reader that follows a parser has none.

* `TokenCursor.Within` — a cursor in bounds, with the tokens that are left and the levels that are open.
* `TokenCursor.Onward` — what reading may do to a cursor.
* `Reader.Follows`, `Reader.FollowsAt` — a reader does as a parser does; the second where something is known of
  the cursor, such as what is next.
* `Reader.FollowsAt.bind`, `Reader.follows_nested` and the others — the ways that readers are put together.
-/

namespace DeployScript

/-! ### Cursors -/

theorem TokenStream.length_slots (s : TokenStream) : s.slots.length = s.tokens.length + 1 := by
  rw [slots, List.length_append, List.length_map, List.length_singleton]

namespace TokenCursor

/-- What is left of the tokens. -/
def rest (c : TokenCursor) : TokenStream := { c.stream with tokens := c.stream.tokens.drop c.current }

/-- A token further. -/
def next (c : TokenCursor) : TokenCursor := { c with current := c.current + 1 }

/-- **In bounds:** the position is at a token or at the end, at most so many tokens are left, and so many
levels are open. -/
structure Within (left depth : Nat) (c : TokenCursor) : Prop where
  current : c.current ≤ c.stream.tokens.length
  left : c.stream.tokens.length ≤ c.current + left
  depth : c.depth = depth

/-- **What reading does to a cursor:** it goes over tokens, and is in as many levels afterwards as before. -/
structure Onward (c c' : TokenCursor) : Prop where
  stream : c'.stream = c.stream
  depth : c'.depth = c.depth
  current : c.current ≤ c'.current
  bound : c'.current ≤ c.stream.tokens.length

/-- What is at the position. -/
def NextIs (slot : Slot) (c : TokenCursor) : Prop := c.stream.slots[c.current]? = some slot

/-- What is in front of the position. -/
def LastIs (slot : Slot) (c : TokenCursor) : Prop :=
  ∃ i, c.current = i + 1 ∧ c.stream.slots[i]? = some slot

variable {left depth : Nat} {c c' c'' : TokenCursor} {slot : Slot}

theorem Onward.trans (h : c.Onward c') (h' : c'.Onward c'') : c.Onward c'' := by
  obtain ⟨hstream, hdepth, hcurrent, hbound⟩ := h
  refine ⟨h'.stream.trans hstream, h'.depth.trans hdepth, Nat.le_trans hcurrent h'.current, ?_⟩
  rw [← hstream]
  exact h'.bound

theorem Within.refl (h : c.Within left depth) : c.Onward c := ⟨rfl, rfl, Nat.le_refl _, h.current⟩

theorem Within.onward (h : c.Within left depth) (h' : c.Onward c') : c'.Within left depth := by
  refine ⟨?_, ?_, h'.depth.trans h.depth⟩
  · rw [h'.stream]
    exact h'.bound
  · have hleft := h.left
    have hle := h'.current
    rw [h'.stream]
    omega

theorem Within.more (h : c.Within left depth) {left' : Nat} (hle : left ≤ left') :
    c.Within left' depth :=
  ⟨h.current, Nat.le_trans h.left (Nat.add_le_add_left hle _), h.depth⟩

theorem length_rest (c : TokenCursor) : c.rest.tokens.length = c.stream.tokens.length - c.current :=
  List.length_drop

/-- Where something has been gone over, fewer tokens are left. -/
theorem Within.fewer (h : c.Within left depth) (h' : c.Onward c') (hlt : c.current < c'.current) :
    0 < left ∧ c'.Within (left - 1) depth := by
  have hin := h.onward h'
  have hleft := h.left
  have hbound := h'.bound
  refine ⟨by omega, hin.current, ?_, hin.depth⟩
  rw [h'.stream]
  omega

/-- Something is at each position in bounds. -/
theorem Within.nextIs (h : c.Within left depth) : ∃ slot, c.NextIs slot := by
  have hlt : c.current < c.stream.slots.length := by
    rw [c.stream.length_slots]
    exact Nat.lt_succ_of_le h.current
  exact ⟨_, List.getElem?_eq_getElem hlt⟩

/-- What is at the position is the first token that is left, or the end. -/
theorem NextIs.rest (h : c.NextIs slot) :
    (∃ t, c.rest.tokens = t :: c.next.rest.tokens ∧ slot = t.slot ∧
      c.current < c.stream.tokens.length) ∨
    (c.rest.tokens = [] ∧ slot = ⟨none, c.stream.stop⟩) := by
  unfold NextIs TokenStream.slots at h
  -- The slots are the tokens and behind them the end, so the position is in either part.
  rw [List.getElem?_append, List.length_map] at h
  split at h
  case isTrue hlt =>
    rw [List.getElem?_map, List.getElem?_eq_getElem hlt] at h
    refine .inl ⟨_, ?_, (Option.some.inj h).symm, hlt⟩
    exact List.drop_eq_getElem_cons hlt
  case isFalse hge =>
    have hlast : c.current - c.stream.tokens.length = 0 := by
      have hlt := (List.getElem?_eq_some_iff.1 h).1
      exact Nat.lt_one_iff.1 hlt
    rw [hlast] at h
    exact .inr ⟨List.drop_eq_nil_of_le (Nat.le_of_not_lt hge), (Option.some.inj h).symm⟩

theorem NextIs.head (h : c.NextIs slot) :
    c.rest.tokens.head?.map (·.kind) = slot.kind ∧
      (c.rest.tokens.head?.map (·.span)).getD c.rest.stop = slot.span := by
  rcases h.rest with ⟨t, ht, rfl, _⟩ | ⟨hnil, rfl⟩
  · rw [ht]
    exact ⟨rfl, rfl⟩
  · rw [hnil]
    exact ⟨rfl, rfl⟩

end TokenCursor

/-! ### Readers -/

namespace Reader

open TokenCursor

section Basic

variable {α β : Type} {c c' : TokenCursor} {slot : Slot} {f : α → Reader β} {x : Reader α} {a : α}

theorem bind_value (h : x c = .ok (.ok a, c')) : (x >>= f) c = f a c' := by
  -- Errors of the script are answers of the layer below, so its bind is the one to open.
  show ((x : StateT TokenCursor (Except Fault) (Except ScriptError α)) >>= _ :
    StateT TokenCursor (Except Fault) _) c = _
  simp only [bind, StateT.bind, Except.bind, h]
  rfl

theorem bind_refusal {e : ScriptError} (h : x c = .ok (.error e, c')) :
    (x >>= f) c = .ok (.error e, c') := by
  show ((x : StateT TokenCursor (Except Fault) (Except ScriptError α)) >>= _ :
    StateT TokenCursor (Except Fault) _) c = _
  simp only [bind, StateT.bind, Except.bind, h]
  rfl

theorem get_eq (c : TokenCursor) : (get : Reader TokenCursor) c = .ok (.ok c, c) := rfl

/-- What fails is an answer to who asks for it. -/
theorem lift_eq {result : Except ScriptError α} (h : x c = .ok (result, c')) :
    (ExceptT.lift x.run : Reader (Except ScriptError α)) c = .ok (.ok result, c') := by
  have hrun : ExceptT.run x c = .ok (result, c') := h
  show (Except.ok <$> x.run : StateT TokenCursor (Except Fault) _) c = _
  simp only [Functor.map, StateT.map, Except.bind, bind, hrun]
  rfl

theorem slotAt_eq {i : Nat} (h : c.stream.slots[i]? = some slot) :
    slotAt i c = .ok (.ok slot, c) := by
  unfold slotAt
  rw [bind_value (get_eq c), h]
  rfl

theorem peek_eq (h : c.NextIs slot) : peek c = .ok (.ok slot, c) := by
  unfold peek
  rw [bind_value (get_eq c)]
  exact slotAt_eq h

theorem previous_eq (h : c.LastIs slot) : previous c = .ok (.ok slot, c) := by
  obtain ⟨i, hi, hslot⟩ := h
  unfold previous
  rw [bind_value (get_eq c), hi]
  exact slotAt_eq hslot

theorem moveTo_eq {i : Nat} (h : i ≤ c.stream.tokens.length) :
    moveTo i c = .ok (.ok (), { c with current := i }) := by
  have hlt : i < c.stream.slots.length := by
    rw [c.stream.length_slots]
    exact Nat.lt_succ_of_le h
  unfold moveTo
  rw [bind_value (get_eq c), if_pos hlt]
  rfl

theorem next_lastIs (h : c.NextIs slot) : c.next.LastIs slot := ⟨c.current, rfl, h⟩

/-- **Going over a token** moves the position behind it. -/
theorem advance_eq (h : c.NextIs slot) (hkind : slot.kind ≠ none) :
    advance c = .ok (.ok slot, c.next) ∧ c.Onward c.next ∧
      Parser.advance c.rest = .ok ((), c.next.rest) := by
  obtain ⟨t, htokens, rfl, hlt⟩ | ⟨_, rfl⟩ := h.rest
  · have hend : isAtEnd c = .ok (.ok false, c) := by
      unfold isAtEnd
      rw [bind_value (peek_eq h)]
      rfl
    have hmove : moveTo (c.current + 1) c = .ok (.ok (), c.next) := moveTo_eq hlt
    refine ⟨?_, ⟨rfl, rfl, Nat.le_succ _, hlt⟩, ?_⟩
    · unfold advance
      rw [bind_value hend, if_neg Bool.false_ne_true, bind_value (get_eq c), bind_value hmove]
      exact previous_eq (next_lastIs h)
    · -- What the parser takes off the front is what the position has moved over.
      have htail : c.rest.tokens.tail = c.next.rest.tokens := by
        rw [htokens]
        rfl
      show Except.ok ((), (⟨c.rest.tokens.tail, c.stream.stop⟩ : TokenStream)) = _
      rw [htail]
      rfl
  · -- The end has no kind.
    exact absurd rfl hkind

end Basic

/-! ### Agreement -/

/-- **What a reader comes to agrees with what a parser does** on what is left: both give the same answer and
leave the same tokens, or both give the same error. In either case the cursor has only gone over tokens. -/
inductive Agree {α : Type} (c : TokenCursor) : Except Fault (Except ScriptError α × TokenCursor) →
    Except ScriptError (α × TokenStream) → Prop
  | value {a : α} {c' : TokenCursor} (h : c.Onward c') : Agree c (.ok (.ok a, c')) (.ok (a, c'.rest))
  | refusal {e : ScriptError} {c' : TokenCursor} (h : c.Onward c') :
    Agree c (.ok (.error e, c')) (.error e)

/-- A reader does as a parser does at cursors in bounds that something is known of. -/
def FollowsAt {α : Type} (known : TokenCursor → Prop) (left depth : Nat) (x : Reader α) (y : Parser α) :
    Prop :=
  ∀ c : TokenCursor, c.Within left depth → known c → Agree c (x c) (y c.rest)

/-- **A reader does as a parser does** at all cursors in bounds. -/
abbrev Follows {α : Type} (left depth : Nat) (x : Reader α) (y : Parser α) : Prop :=
  FollowsAt (fun _ => True) left depth x y

/-- A parser that goes over a token whenever it succeeds. -/
def Consumes {α : Type} (y : Parser α) : Prop :=
  ∀ s a s', y s = .ok (a, s') → s'.tokens.length < s.tokens.length

section Steps

variable {α β : Type} {left depth : Nat} {known : TokenCursor → Prop} {slot : Slot}
  {x : Reader α} {y : Parser α} {f : α → Reader β} {g : α → Parser β}
  {r : Reader β} {p : Parser β}

theorem Agree.onward {c c' : TokenCursor} {result : Except Fault (Except ScriptError α × TokenCursor)}
    {outcome : Except ScriptError (α × TokenStream)} (h : c.Onward c')
    (hagree : Agree c' result outcome) : Agree c result outcome := by
  cases hagree with
  | value h' => exact .value (h.trans h')
  | refusal h' => exact .refusal (h.trans h')

theorem Follows.at (h : Follows left depth r p) : FollowsAt known left depth r p :=
  fun c hc _ => h c hc trivial

theorem FollowsAt.fewer (h : FollowsAt known left depth r p) {left' : Nat} (hle : left' ≤ left) :
    FollowsAt known left' depth r p :=
  fun c hc hk => h c (hc.more hle) hk

/-- It can be known what is next. -/
theorem follows_of_next (h : ∀ slot, FollowsAt (NextIs slot) left depth r p) :
    Follows left depth r p := by
  intro c hc _
  obtain ⟨slot, hslot⟩ := hc.nextIs
  exact h slot c hc hslot

theorem parser_bind_value {s s' : TokenStream} {a : α} (h : y s = .ok (a, s')) :
    (y >>= g) s = g a s' := by
  simp only [bind, StateT.bind, Except.bind, h]

theorem parser_bind_refusal {s : TokenStream} {e : ScriptError} (h : y s = .error e) :
    (y >>= g) s = .error e := by
  simp only [bind, StateT.bind, Except.bind, h]

theorem follows_pure {b : β} : FollowsAt known left depth (pure b) (pure b) :=
  fun _ hc _ => .value hc.refl

theorem follows_throw {e : ScriptError} : FollowsAt known left depth (throw e : Reader β) (throw e) :=
  fun _ hc _ => .refusal hc.refl

/-- **One after the other.** What the second does may depend on how many tokens the first has gone over. -/
theorem FollowsAt.bind_of (hx : FollowsAt known left depth x y)
    (hf : ∀ (c c' : TokenCursor) (a : α), c.Within left depth → known c → c.Onward c' →
      y c.rest = .ok (a, c'.rest) → Agree c (f a c') (g a c'.rest)) :
    FollowsAt known left depth (x >>= f) (y >>= g) := by
  intro c hc hk
  -- Both first parts give an answer or both give an error; there is no third way.
  have hagree := hx c hc hk
  generalize hread : x c = result at hagree
  generalize hparse : y c.rest = outcome at hagree
  cases hagree with
  | value hon =>
    rw [bind_value hread, parser_bind_value hparse]
    exact hf c _ _ hc hk hon hparse
  | refusal hon =>
    rw [bind_refusal hread, parser_bind_refusal hparse]
    exact .refusal hon

theorem FollowsAt.bind (hx : FollowsAt known left depth x y)
    (hf : ∀ a, Follows left depth (f a) (g a)) :
    FollowsAt known left depth (x >>= f) (y >>= g) :=
  hx.bind_of fun _ c' a hc _ hon _ => (hf a c' (hc.onward hon) trivial).onward hon

/-- Behind something that goes over a token, fewer tokens are left. -/
theorem FollowsAt.bind_fewer (hx : FollowsAt known left depth x y) (hy : Consumes y)
    (hf : ∀ a, 0 < left → Follows (left - 1) depth (f a) (g a)) :
    FollowsAt known left depth (x >>= f) (y >>= g) := by
  refine hx.bind_of fun c c' a hc _ hon hparse => ?_
  -- The parser says how many tokens it has left, and the cursor is where that many are left.
  have hlt := hy _ _ _ hparse
  rw [length_rest, length_rest, hon.stream] at hlt
  obtain ⟨hleft, hin⟩ := hc.fewer hon (by omega)
  exact (hf a hleft c' hin trivial).onward hon

/-! ### One token -/

theorem follows_peek {f : Slot → Reader β} (h : FollowsAt (NextIs slot) left depth (f slot) p) :
    FollowsAt (NextIs slot) left depth (peek >>= f) p := by
  intro c hc hk
  rw [bind_value (peek_eq hk)]
  exact h c hc hk

/-- A parser may look at what is next. -/
theorem FollowsAt.looked {γ : Type} {y : Parser γ} {found : γ} {g : γ → Parser β}
    (h : FollowsAt (NextIs slot) left depth r (g found))
    (hy : ∀ {c : TokenCursor}, c.NextIs slot → y c.rest = .ok (found, c.rest)) :
    FollowsAt (NextIs slot) left depth r (y >>= g) := by
  intro c hc hk
  rw [parser_bind_value (hy hk)]
  exact h c hc hk

theorem parser_peek_eq {c : TokenCursor} (h : c.NextIs slot) :
    Parser.peek c.rest = .ok (slot.kind, c.rest) := by
  show Except.ok (c.rest.tokens.head?.map (·.kind), c.rest) = _
  rw [h.head.1]

theorem parser_place_eq {c : TokenCursor} (h : c.NextIs slot) :
    Parser.place c.rest = .ok (slot.span, c.rest) := by
  show Except.ok ((c.rest.tokens.head?.map (·.span)).getD c.rest.stop, c.rest) = _
  rw [h.head.2]

theorem follows_parser_peek {g : Option TokenKind → Parser β}
    (h : FollowsAt (NextIs slot) left depth r (g slot.kind)) :
    FollowsAt (NextIs slot) left depth r (Parser.peek >>= g) :=
  h.looked parser_peek_eq

theorem follows_place {g : Span → Parser β}
    (h : FollowsAt (NextIs slot) left depth r (g slot.span)) :
    FollowsAt (NextIs slot) left depth r (Parser.place >>= g) :=
  h.looked parser_place_eq

theorem parser_peekSymbol_eq {c : TokenCursor} (h : c.NextIs slot) :
    Parser.peekSymbol c.rest = .ok (slot.symbol?, c.rest) := by
  unfold Parser.peekSymbol
  rw [parser_bind_value (parser_peek_eq h)]
  unfold Slot.symbol?
  cases hkind : slot.kind with
  | none => rfl
  | some kind => cases kind <;> rfl

theorem follows_peekSymbol {g : Option Symbol → Parser β}
    (h : FollowsAt (NextIs slot) left depth r (g slot.symbol?)) :
    FollowsAt (NextIs slot) left depth r (Parser.peekSymbol >>= g) :=
  h.looked parser_peekSymbol_eq

theorem parser_shown_eq {c : TokenCursor} (h : c.NextIs slot) :
    Parser.shown c.rest = .ok (slot.shown, c.rest) := by
  unfold Parser.shown
  rw [parser_bind_value (parser_peek_eq h)]
  rfl

theorem follows_shown {g : String → Parser β}
    (h : FollowsAt (NextIs slot) left depth r (g slot.shown)) :
    FollowsAt (NextIs slot) left depth r (Parser.shown >>= g) :=
  h.looked parser_shown_eq

theorem follows_previous {f : Slot → Reader β} (h : FollowsAt (LastIs slot) left depth (f slot) p) :
    FollowsAt (LastIs slot) left depth (previous >>= f) p := by
  intro c hc hk
  rw [bind_value (previous_eq hk)]
  exact h c hc hk

/-- **Behind a token** fewer are left, and the token is in front of the position. -/
theorem follows_advance_fewer {f : Slot → Reader β} {g : Unit → Parser β} (hkind : slot.kind ≠ none)
    (h : 0 < left → FollowsAt (LastIs slot) (left - 1) depth (f slot) (g ())) :
    FollowsAt (NextIs slot) left depth (advance >>= f) (Parser.advance >>= g) := by
  intro c hc hk
  obtain ⟨hread, hon, hparse⟩ := advance_eq hk hkind
  rw [bind_value hread, parser_bind_value hparse]
  obtain ⟨hleft, hin⟩ := hc.fewer hon (Nat.lt_succ_self _)
  exact (h hleft c.next hin (next_lastIs hk)).onward hon

theorem follows_advance {f : Slot → Reader β} {g : Unit → Parser β} (hkind : slot.kind ≠ none)
    (h : FollowsAt (LastIs slot) left depth (f slot) (g ())) :
    FollowsAt (NextIs slot) left depth (advance >>= f) (Parser.advance >>= g) :=
  follows_advance_fewer hkind fun _ => h.fewer (Nat.sub_le _ _)

theorem failHere_eq {cause : Cause} {c : TokenCursor} (h : c.NextIs slot) :
    (failHere cause : Reader β) c = .ok (.error (.at_ cause slot.span), c) := by
  rw [failHere, bind_value (peek_eq h)]
  rfl

theorem parser_failHere_eq {cause : Cause} {c : TokenCursor} (h : c.NextIs slot) :
    (Parser.failHere cause : Parser β) c.rest = .error (.at_ cause slot.span) := by
  rw [Parser.failHere, parser_bind_value (parser_place_eq h)]
  rfl

theorem follows_failHere {cause : Cause} :
    Follows left depth (failHere cause : Reader β) (Parser.failHere cause) := by
  refine follows_of_next fun slot c hc hk => ?_
  rw [failHere_eq hk, parser_failHere_eq hk]
  exact .refusal hc.refl

/-- Nothing comes behind a failure, whatever the answers would have been. -/
theorem follows_failExpected_bind {γ δ : Type} {wanted : Expectation} {f : γ → Reader β}
    {g : δ → Parser β} :
    Follows left depth (failExpected wanted >>= f) (Parser.failExpected wanted >>= g) := by
  -- The answers would be of two types, so this is no case of `FollowsAt.bind`.
  refine follows_of_next fun slot c hc hk => ?_
  let e : ScriptError := .at_ (.expectedToken wanted slot.shown) slot.span
  have hread : (failExpected wanted : Reader γ) c = .ok (.error e, c) := by
    rw [failExpected, bind_value (peek_eq hk)]
    exact failHere_eq hk
  have hparse : (Parser.failExpected wanted : Parser δ) c.rest = .error e := by
    rw [Parser.failExpected, parser_bind_value (parser_shown_eq hk)]
    exact parser_failHere_eq hk
  rw [bind_refusal hread, parser_bind_refusal hparse]
  exact .refusal hc.refl

theorem symbol?_kind {s : Symbol} (h : slot.symbol? = some s) : slot.kind = some (.symbol s) := by
  unfold Slot.symbol? at h
  split at h
  case h_1 t ht =>
    rw [ht, Option.some.inj h]
  case h_2 => cases h

theorem kind_ne_none {s : Symbol} (h : slot.symbol? = some s) : slot.kind ≠ none := by
  rw [symbol?_kind h]
  nofun

theorem check_eq {s : Symbol} {c : TokenCursor} (h : c.NextIs slot) :
    check s c = .ok (.ok (decide (slot.symbol? = some s)), c) ∧
      Parser.at_ s c.rest = .ok (decide (slot.symbol? = some s), c.rest) := by
  rw [check, Parser.at_, bind_value (peek_eq h), parser_bind_value (parser_peekSymbol_eq h)]
  exact ⟨rfl, rfl⟩

/-- A symbol that is next is gone over. -/
theorem accept_eq_true {s : Symbol} {c : TokenCursor} (h : c.NextIs slot) (hs : slot.symbol? = some s) :
    accept s c = .ok (.ok true, c.next) ∧ c.Onward c.next ∧
      Parser.accept s c.rest = .ok (true, c.next.rest) := by
  obtain ⟨hread, hparse⟩ := check_eq (s := s) h
  obtain ⟨hadvance, hon, hadvance'⟩ := advance_eq h (kind_ne_none hs)
  rw [accept, Parser.accept, bind_value hread, parser_bind_value hparse, decide_eq_true hs, if_pos rfl,
    if_pos rfl, bind_value hadvance, parser_bind_value hadvance']
  exact ⟨rfl, hon, rfl⟩

/-- Any other one is not. -/
theorem accept_eq_false {s : Symbol} {c : TokenCursor} (h : c.NextIs slot) (hs : slot.symbol? ≠ some s) :
    accept s c = .ok (.ok false, c) ∧ Parser.accept s c.rest = .ok (false, c.rest) := by
  obtain ⟨hread, hparse⟩ := check_eq (s := s) h
  rw [accept, Parser.accept, bind_value hread, parser_bind_value hparse, decide_eq_false hs,
    if_neg Bool.false_ne_true, if_neg Bool.false_ne_true]
  exact ⟨rfl, rfl⟩

/-- Whether a symbol is next. -/
theorem follows_check {s : Symbol} {f : Bool → Reader β} {g : Bool → Parser β}
    (htrue : slot.symbol? = some s → FollowsAt (NextIs slot) left depth (f true) (g true))
    (hfalse : FollowsAt (NextIs slot) left depth (f false) (g false)) :
    FollowsAt (NextIs slot) left depth (check s >>= f) (Parser.at_ s >>= g) := by
  intro c hc hk
  obtain ⟨hread, hparse⟩ := check_eq (s := s) hk
  rw [bind_value hread, parser_bind_value hparse]
  by_cases h : slot.symbol? = some s
  · rw [decide_eq_true h]
    exact htrue h c hc hk
  · rw [decide_eq_false h]
    exact hfalse c hc hk

/-- A symbol that may be next. -/
theorem follows_accept {s : Symbol} {f : Bool → Reader β} {g : Bool → Parser β}
    (htrue : FollowsAt (LastIs slot) left depth (f true) (g true))
    (hfalse : FollowsAt (NextIs slot) left depth (f false) (g false)) :
    FollowsAt (NextIs slot) left depth (accept s >>= f) (Parser.accept s >>= g) := by
  intro c hc hk
  by_cases h : slot.symbol? = some s
  · obtain ⟨hread, hon, hparse⟩ := accept_eq_true hk h
    rw [bind_value hread, parser_bind_value hparse]
    exact (htrue c.next (hc.onward hon) (next_lastIs hk)).onward hon
  · obtain ⟨hread, hparse⟩ := accept_eq_false hk h
    rw [bind_value hread, parser_bind_value hparse]
    exact hfalse c hc hk

/-- A symbol that has to be next. -/
theorem follows_expect {s : Symbol} {wanted : Expectation} {f : Span → Reader β}
    {g : Span → Parser β} (h : ∀ span, Follows left depth (f span) (g span)) :
    Follows left depth (expect s wanted >>= f) (Parser.expect s wanted >>= g) := by
  refine follows_of_next fun slot => ?_
  rw [expect, Parser.expect, bind_assoc, bind_assoc]
  -- The parser notes the place before it looks; the reader takes it from the token it has gone over.
  refine follows_place ?_
  rw [Parser.accept, bind_assoc, bind_assoc]
  refine follows_check (fun hs => ?_) ?_
  · rw [if_pos rfl, if_pos rfl, bind_assoc, bind_assoc]
    refine follows_advance (kind_ne_none hs) ?_
    rw [pure_bind, pure_bind, if_pos rfl, pure_bind]
    exact (h slot.span).at
  · rw [if_neg Bool.false_ne_true, if_neg Bool.false_ne_true, pure_bind, if_neg Bool.false_ne_true]
    exact follows_failExpected_bind.at

/-- A word that has to be next. -/
theorem follows_expectWord_fewer {wanted : Expectation} {f : String → Reader β}
    {g : String × Span → Parser β}
    (h : ∀ name slot, 0 < left → FollowsAt (LastIs slot) (left - 1) depth (f name) (g (name, slot.span))) :
    Follows left depth (expectWord wanted >>= f) (Parser.expectWord wanted >>= g) := by
  refine follows_of_next fun slot => ?_
  rw [expectWord, Parser.expectWord, bind_assoc, bind_assoc]
  refine follows_peek (follows_place ?_)
  rw [bind_assoc]
  refine follows_parser_peek ?_
  obtain ⟨kind, span⟩ := slot
  match kind with
  | some (.word name) =>
    dsimp only
    rw [bind_assoc, bind_assoc]
    refine follows_advance_fewer nofun fun hleft => ?_
    rw [pure_bind, pure_bind]
    exact h name _ hleft
  | none | some (.number _) | some (.text _) | some (.symbol _) | some .newline =>
    exact follows_failExpected_bind.at

theorem follows_expectWord {wanted : Expectation} {f : String → Reader β}
    {g : String × Span → Parser β}
    (h : ∀ name slot, FollowsAt (LastIs slot) left depth (f name) (g (name, slot.span))) :
    Follows left depth (expectWord wanted >>= f) (Parser.expectWord wanted >>= g) :=
  follows_expectWord_fewer fun name slot _ => (h name slot).fewer (Nat.sub_le _ _)

/-! ### Ends of lines and statements -/

/-- **Tokens of a sort are gone over** one by one, as far as there are turns enough. -/
theorem follows_skipWhile {sort : Slot → Bool} {p : Token → Bool}
    (htoken : ∀ t : Token, sort t.slot = p t) (hend : ∀ span, sort ⟨none, span⟩ = false) {turns : Nat} (hturns : left < turns) :
    Follows left depth (skipWhile sort turns)
      (modify fun s => { s with tokens := s.tokens.dropWhile p }) := by
  -- A turn that goes on has gone over a token, so that the turns outlast the tokens.
  induction turns generalizing left with
  | zero => exact absurd hturns (Nat.not_lt_zero _)
  | succ turns ih =>
    refine follows_of_next fun slot c hc hk => ?_
    have hdone (hsort : sort slot = false) :
        skipWhile sort (turns + 1) c = .ok (.ok (), c) := by
      rw [skipWhile, bind_value (peek_eq hk), hsort]
      rfl
    show Agree c _ (.ok ((), (⟨c.rest.tokens.dropWhile p, c.stream.stop⟩ : TokenStream)))
    obtain ⟨t, htokens, rfl, _⟩ | ⟨hnil, rfl⟩ := hk.rest
    · cases hp : p t with
      | false =>
        have hrest : (t :: c.next.rest.tokens).dropWhile p = t :: c.next.rest.tokens := by
          rw [List.dropWhile_cons, hp, if_neg Bool.false_ne_true]
        rw [hdone ((htoken t).trans hp), htokens, hrest, ← htokens]
        exact .value hc.refl
      | true =>
        have hrest : (t :: c.next.rest.tokens).dropWhile p = c.next.rest.tokens.dropWhile p := by
          rw [List.dropWhile_cons, hp, if_pos rfl]
        obtain ⟨hread, hon, _⟩ := advance_eq hk nofun
        obtain ⟨hleft, hin⟩ := hc.fewer hon (Nat.lt_succ_self _)
        rw [skipWhile, bind_value (peek_eq hk), htoken, hp, if_pos rfl, bind_value hread, htokens,
          hrest]
        exact (ih (by omega) c.next hin trivial).onward hon
    · rw [hdone (hend _), hnil]
      have hrest : c.rest = ⟨[], c.stream.stop⟩ := by
        rw [← hnil]
        rfl
      rw [List.dropWhile_nil, ← hrest]
      exact .value hc.refl

theorem follows_skipNewlines {turns : Nat} (hturns : left < turns) :
    Follows left depth (skipNewlines turns) Parser.skipNewlines := by
  refine follows_skipWhile (fun t => ?_) (fun _ => rfl) hturns
  obtain ⟨kind, _, _⟩ := t
  cases kind <;> rfl

theorem follows_skipTerminators {turns : Nat} (hturns : left < turns) :
    Follows left depth (skipTerminators turns) Parser.skipTerminators := by
  refine follows_skipWhile (fun t => ?_) (fun _ => rfl) hturns
  obtain ⟨kind, _, _⟩ := t
  cases kind with
  | symbol s => cases s <;> rfl
  | _ => rfl

theorem parser_atStatementEnd_eq {c : TokenCursor} (h : c.NextIs slot) :
    Parser.atStatementEnd c.rest = .ok (slot.endsStatement, c.rest) := by
  obtain ⟨t, htokens, rfl, _⟩ | ⟨hnil, rfl⟩ := h.rest
  · have hrest : c.rest = ⟨t :: c.next.rest.tokens, c.stream.stop⟩ := by
      rw [← htokens]
      rfl
    obtain ⟨kind, span, lexeme⟩ := t
    rw [hrest]
    cases kind with
    | symbol s => cases s <;> rfl
    | _ => rfl
  · have hrest : c.rest = ⟨[], c.stream.stop⟩ := by
      rw [← hnil]
      rfl
    rw [hrest]
    rfl

theorem follows_atStatementEnd {f : Slot → Reader β} {g : Bool → Parser β}
    (h : FollowsAt (NextIs slot) left depth (f slot) (g slot.endsStatement)) :
    FollowsAt (NextIs slot) left depth (peek >>= f) (Parser.atStatementEnd >>= g) := by
  intro c hc hk
  rw [bind_value (peek_eq hk), parser_bind_value (parser_atStatementEnd_eq hk)]
  exact h c hc hk

theorem follows_endStatement {turns : Nat} (hturns : left < turns) :
    Follows left depth (endStatement turns) Parser.endStatement := by
  refine follows_of_next fun slot => ?_
  rw [endStatement, Parser.endStatement]
  refine follows_atStatementEnd ?_
  cases slot.endsStatement with
  | true =>
    rw [if_pos rfl, if_pos rfl]
    exact (follows_skipTerminators hturns).at
  | false =>
    rw [if_neg Bool.false_ne_true, if_neg Bool.false_ne_true]
    exact follows_peek (follows_shown follows_failHere.at)

/-! ### Levels -/

/-- **A level that may be opened** is closed again, with an answer and with an error alike. -/
theorem follows_nested (h : Follows left (depth + 1) x y) (hdepth : depth < maxNesting) :
    Follows left depth (nested x) y := by
  intro c hc _
  let inside : TokenCursor := { c with depth := c.depth + 1 }
  have henter : enter c = .ok (.ok ⟨⟩, inside) := by
    have hlt : ¬ maxNesting ≤ c.depth := by
      rw [hc.depth]
      exact Nat.not_le_of_lt hdepth
    rw [enter, bind_value (get_eq c), if_neg hlt]
    rfl
  have hleave {c' : TokenCursor} (hon : inside.Onward c') :
      leave c' = .ok (.ok ⟨⟩, { c' with depth := c.depth }) := by
    rw [leave, bind_value (get_eq c'), hon.depth]
    rfl
  have hback {c' : TokenCursor} (hon : inside.Onward c') : c.Onward { c' with depth := c.depth } :=
    ⟨hon.stream, rfl, hon.current, hon.bound⟩
  -- Inside, the same tokens are left, and only the count of levels is another.
  have hagree := h inside ⟨hc.current, hc.left, congrArg (· + 1) hc.depth⟩ trivial
  have hrest : inside.rest = c.rest := rfl
  rw [hrest] at hagree
  unfold nested
  rw [bind_value henter]
  generalize hread : x inside = result at hagree
  generalize y c.rest = outcome at hagree
  cases hagree with
  | value hon =>
    rw [bind_value (lift_eq hread), bind_value (hleave hon)]
    exact .value (hback hon)
  | refusal hon =>
    rw [bind_value (lift_eq hread), bind_value (hleave hon)]
    exact .refusal (hback hon)

/-- No level is opened beyond the deepest. -/
theorem follows_nested_deepest :
    Follows left maxNesting (nested x) (Parser.failHere (.limitExceeded .nesting) : Parser α) := by
  refine follows_of_next fun slot c hc hk => ?_
  have henter : enter c = .ok (.error (.at_ (.limitExceeded .nesting) slot.span), c) := by
    rw [enter, bind_value (get_eq c), if_pos (Nat.le_of_eq hc.depth.symm)]
    exact failHere_eq hk
  unfold nested
  rw [bind_refusal henter, parser_failHere_eq hk]
  exact .refusal hc.refl

end Steps

end Reader

end DeployScript
