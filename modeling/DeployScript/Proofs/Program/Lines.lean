import DeployScript.Proofs.Program.Faithful

/-!
# Sources one behind another

A source is cut into tokens from its front, and no token and no gap that has an end goes over the end of
the last line. So the tokens of a source come first among those of a source that has more lines, whatever
these are; and what a token is does not depend on where it stands.

* `NextLine` — what may stand behind a source.
* `skipGap_append`, `scanToken_append` — gaps and tokens with more behind them.
* `scanFrom_append`, `scanFrom_behind` — sources with more behind them, and behind others.
* `TokenStream.ofSource_append` — the tokens of two sources, one behind the other.
-/

namespace DeployScript

/-- What may stand behind a source: nothing, or a line feed and more. -/
def NextLine (rest : List Char) : Prop := ∀ c cs, rest = c :: cs → c = '\n'

variable {p q : Position} {cs ds rest : List Char}

/-! ### Gaps -/

/-- Two gaps are read alike, wherever a comment was opened. -/
inductive GapMode.Like : GapMode → GapMode → Prop
  | blank : Like .blank .blank
  | line : Like .line .line
  | block (opened opened' : Position) : Like (.block opened) (.block opened')

/-- The next character of a text with more behind it. -/
theorem NextLine.of_append_eq_cons (hd : NextLine ds) {c : Char} {after : List Char}
    (h : cs ++ ds = c :: after) (hc : c ≠ '\n') : ∃ rest, cs = c :: rest ∧ rest ++ ds = after := by
  cases cs with
  | nil => exact absurd (hd c after h) hc
  | cons d rest =>
    cases h
    exact ⟨rest, rfl, rfl⟩

/-- **A gap** ends where it ended. -/
theorem skipGap_append {mode mode' : GapMode} (h : skipGap mode p cs = .ok (q, rest))
    (hm : mode.Like mode') (hd : NextLine ds) (p' : Position) :
    ∃ q', skipGap mode' p' (cs ++ ds) = .ok (q', rest ++ ds) := by
  -- In each case the text behind has to be kept from making a `//`, a `/*` or a `*/` with the last
  -- character: it begins with a line feed.
  fun_induction skipGap mode p cs generalizing mode' p' with
  | case1 p rest' ih =>
    cases hm
    exact ih h .line _
  | case2 p rest' ih =>
    cases hm
    exact ih h (.block _ _) _
  | case3 p c rest' hline hblock hc ih =>
    cases hm
    rw [List.cons_append, skipGap, if_pos hc]
    · exact ih h .blank _
    · intro after he hr
      obtain ⟨_, rfl, -⟩ := hd.of_append_eq_cons hr (by decide)
      exact hline _ he rfl
    · intro after he hr
      obtain ⟨_, rfl, -⟩ := hd.of_append_eq_cons hr (by decide)
      exact hblock _ he rfl
  | case4 p c rest' hline hblock hc =>
    cases hm
    cases h
    refine ⟨p', ?_⟩
    rw [List.cons_append, skipGap, if_neg hc]
    · intro after he hr
      obtain ⟨_, rfl, -⟩ := hd.of_append_eq_cons hr (by decide)
      exact hline _ he rfl
    · intro after he hr
      obtain ⟨_, rfl, -⟩ := hd.of_append_eq_cons hr (by decide)
      exact hblock _ he rfl
  | case5 p =>
    cases hm
    cases h
    refine ⟨p', ?_⟩
    cases ds with
    | nil => rfl
    | cons c ds =>
      obtain rfl := hd c ds rfl
      rfl
  | case6 p rest' =>
    cases hm
    cases h
    exact ⟨p', rfl⟩
  | case7 p c rest' hc ih =>
    cases hm
    rw [List.cons_append, skipGap, if_neg hc]
    exact ih h .line _
  | case8 p =>
    cases hm
    cases h
    refine ⟨p', ?_⟩
    cases ds with
    | nil => rfl
    | cons c ds =>
      obtain rfl := hd c ds rfl
      rfl
  | case9 opened p rest' ih =>
    cases hm
    exact ih h .blank _
  | case10 opened p rest' hend ih =>
    cases hm
    rw [List.cons_append, skipGap, if_pos rfl]
    · exact ih h (.block _ _) _
    · intro after he
      cases he
  | case11 opened p c rest' hend hc ih =>
    cases hm
    rw [List.cons_append, skipGap, if_neg hc]
    · exact ih h (.block _ _) _
    · intro after he hr
      obtain ⟨_, rfl, -⟩ := hd.of_append_eq_cons hr (by decide)
      exact hend _ he rfl
  | case12 => cases h

/-! ### Tokens -/

/-- Reading a token has come to the same. -/
structure Scanned.Like (ds : List Char) (s s' : Scanned) : Prop where
  kind : s'.kind = s.kind
  rest : s'.rest = s.rest ++ ds

/-- What reading does not take for an escape begins with no backslash. -/
theorem ne_backslash {c : Char} {rest : List Char}
    (hescape : ∀ d rest', c = '\\' → rest = d :: rest' → False)
    (hend : c = '\\' → rest = [] → False) : c ≠ '\\' := by
  intro he
  cases rest with
  | nil => exact hend he rfl
  | cons d rest' => exact hescape d rest' he rfl

theorem scanString_append (ds : List Char) {quote : Char} {value lexeme : String} {s : Scanned}
    (h : scanString quote p value lexeme cs = .ok s) (p' : Position) (lexeme' : String) :
    ∃ s', scanString quote p' value lexeme' (cs ++ ds) = .ok s' ∧ s.Like ds s' := by
  fun_induction scanString quote p value lexeme cs generalizing p' lexeme' with
  | case1 p value lexeme c rest' ih => exact ih h _ _
  | case2 => cases h
  | case3 p value lexeme rest' hescape hend =>
    cases h
    rw [List.cons_append, scanString, if_pos rfl]
    · exact ⟨_, rfl, rfl, rfl⟩
    · exact fun _ _ he _ => ne_backslash hescape hend he
    · exact fun he _ => ne_backslash hescape hend he
  | case4 p value lexeme rest' hescape hend hquote ih =>
    rw [List.cons_append, scanString, if_neg hquote, if_pos rfl]
    · exact ih h _ _
    · intro c after he
      cases he
    · intro he
      cases he
  | case5 p value lexeme c rest' hescape hend hquote hc ih =>
    rw [List.cons_append, scanString, if_neg hquote, if_neg hc]
    · exact ih h _ _
    · exact fun _ _ he _ => ne_backslash hescape hend he
    · exact fun he _ => ne_backslash hescape hend he
  | case6 => cases h

/-- Characters of a kind that a line feed is not of. -/
theorem NextLine.span_append (hd : NextLine ds) {f : Char → Bool} (hf : f '\n' = false) (cs : List Char) :
    (cs ++ ds).takeWhile f = cs.takeWhile f ∧ (cs ++ ds).dropWhile f = cs.dropWhile f ++ ds := by
  induction cs with
  | nil =>
    cases ds with
    | nil => exact ⟨rfl, rfl⟩
    | cons c ds =>
      obtain rfl := hd c ds rfl
      simp [hf]
  | cons c cs ih =>
    cases hc : f c with
    | true => simpa [hc] using ih
    | false => simp [hc]

theorem takeNumber_append (hd : NextLine ds) (cs : List Char) :
    takeNumber (cs ++ ds) = ((takeNumber cs).1, (takeNumber cs).2 ++ ds) := by
  obtain ⟨htake, hdrop⟩ := hd.span_append (f := Char.isDigit) (by decide) cs
  unfold takeNumber
  simp only [htake, hdrop]
  generalize cs.takeWhile Char.isDigit = whole
  generalize cs.dropWhile Char.isDigit = rest
  split
  case h_1 d after hrest =>
    -- A point that ends the source has no digit behind it on the next line either.
    obtain ⟨rest, rfl, hafter⟩ := hd.of_append_eq_cons hrest (by decide)
    cases rest with
    | nil =>
      obtain rfl : ds = d :: after := hafter
      obtain rfl := hd d after rfl
      rw [if_neg (by decide)]
      rfl
    | cons e rest =>
      obtain ⟨rfl, rfl⟩ := List.cons.inj hafter
      obtain ⟨htake, hdrop⟩ := hd.span_append (f := Char.isDigit) (by decide) (e :: rest)
      rw [List.cons_append] at htake hdrop
      simp only [List.append_eq, htake, hdrop]
      split <;> rfl
  case h_2 hrest =>
    split
    case h_1 d after => exact absurd rfl (hrest d (after ++ ds))
    case h_2 => rfl

/-- A spelling does not go over the end of a line. -/
theorem NextLine.isPrefixOf_append (hd : NextLine ds) {spelling : List Char} (hs : '\n' ∉ spelling)
    (cs : List Char) : spelling.isPrefixOf (cs ++ ds) = spelling.isPrefixOf cs := by
  induction spelling generalizing cs with
  | nil => simp
  | cons c spelling ih =>
    have hc : c ≠ '\n' := fun he => hs (he ▸ List.mem_cons_self)
    cases cs with
    | nil =>
      cases ds with
      | nil => rfl
      | cons d ds =>
        obtain rfl := hd d ds rfl
        rw [List.nil_append, List.isPrefixOf_cons_cons, beq_false_of_ne hc, Bool.false_and]
        rfl
    | cons d cs =>
      rw [List.cons_append, List.isPrefixOf_cons_cons, List.isPrefixOf_cons_cons,
        ih (fun hmem => hs (List.mem_cons_of_mem _ hmem))]

theorem takeSymbol?_append (hd : NextLine ds) {taken : List Char} {s : Symbol}
    (h : takeSymbol? cs = some (taken, s, rest)) :
    takeSymbol? (cs ++ ds) = some (taken, s, rest ++ ds) := by
  have hlines : ∀ x ∈ Symbol.spellings, '\n' ∉ x.1 := by decide
  unfold takeSymbol? at h ⊢
  generalize Symbol.spellings = spellings at h hlines
  induction spellings with
  | nil => cases h
  | cons x spellings ih =>
    obtain ⟨spelling, t⟩ := x
    rw [List.findSome?_cons] at h ⊢
    simp only [hd.isPrefixOf_append (hlines _ List.mem_cons_self)]
    cases hp : spelling.isPrefixOf cs with
    | true =>
      simp only [hp, if_true, Option.some.injEq, Prod.mk.injEq] at h ⊢
      obtain ⟨rfl, rfl, rfl⟩ := h
      rw [List.drop_append_of_le_length (List.isPrefixOf_iff_prefix.1 hp).length_le]
      exact ⟨rfl, rfl, rfl⟩
    | false =>
      simp only [hp, Bool.false_eq_true, if_false] at h ⊢
      exact ih h fun y hy => hlines y (List.mem_cons_of_mem _ hy)

/-- **A token** is the same one, wherever it stands and whatever is on the next line. -/
theorem scanToken_append (hd : NextLine ds) {c : Char} {s : Scanned} (h : scanToken p c cs = .ok s)
    (p' : Position) : ∃ s', scanToken p' c (cs ++ ds) = .ok s' ∧ s.Like ds s' := by
  -- One split for each kind of token; what decides it is read before the appended text begins.
  unfold scanToken at h ⊢
  split at h
  case isTrue hc =>
    cases h
    rw [if_pos hc]
    exact ⟨_, rfl, rfl, rfl⟩
  rw [if_neg ‹_›]
  split at h
  case isTrue hc =>
    rw [if_pos hc]
    cases hs : scanString c (p.step c) "" (String.singleton c) cs with
    | error stop =>
      rw [hs] at h
      cases h
    | ok scanned =>
      rw [hs] at h
      cases h
      obtain ⟨s', hs', hlike⟩ := scanString_append ds hs (p'.step c) (String.singleton c)
      rw [hs']
      exact ⟨s', rfl, hlike⟩
  rw [if_neg ‹_›]
  split at h
  case isTrue hc =>
    rw [if_pos hc]
    rw [takeNumber_append hd]
    dsimp only at h ⊢
    cases hv : Number.read? (String.ofList (c :: (takeNumber cs).1)) with
    | none =>
      rw [hv] at h
      cases h
    | some value =>
      rw [hv] at h
      cases h
      exact ⟨_, rfl, rfl, rfl⟩
  rw [if_neg ‹_›]
  split at h
  case isTrue hc =>
    obtain ⟨htake, hdrop⟩ := hd.span_append (f := continuesWord) (by decide) cs
    cases h
    rw [if_pos hc]
    simp only [htake, hdrop]
    exact ⟨_, rfl, rfl, rfl⟩
  case isFalse hc =>
    rw [if_neg hc]
    cases hs : takeSymbol? (c :: cs) with
    | none =>
      rw [hs] at h
      cases h
    | some found =>
      obtain ⟨taken, s, rest⟩ := found
      rw [hs] at h
      cases h
      have hs' := takeSymbol?_append hd hs
      rw [List.cons_append] at hs'
      rw [hs']
      exact ⟨_, rfl, rfl, rfl⟩

/-! ### Sources -/

theorem scanFrom_of_gap {tokens : Array Token} (hg : skipGap .blank p cs = .ok (q, [])) :
    scanFrom p cs tokens = .ok { tokens := tokens.toList, stop := q.here } := by
  rw [scanFrom]
  split
  case h_1 he => rw [hg] at he; cases he
  case h_2 he => rw [hg] at he; cases he; rfl
  case h_3 he => rw [hg] at he; cases he

theorem scanFrom_of_token {tokens : Array Token} {c : Char} {s : Scanned}
    (hg : skipGap .blank p cs = .ok (q, c :: rest)) (hs : scanToken q c rest = .ok s) :
    scanFrom p cs tokens = scanFrom s.position s.rest (tokens.push
      { kind := s.kind, span := q.through s.position, lexeme := s.lexeme }) := by
  rw [scanFrom]
  split
  case h_1 he => rw [hg] at he; cases he
  case h_2 he => rw [hg] at he; cases he
  case h_3 he =>
    rw [hg] at he
    cases he
    split
    case h_1 he => rw [hs] at he; cases he
    case h_2 he => rw [hs] at he; cases he; rfl

theorem scanFrom_of_refusal {tokens : Array Token} {c : Char} {e : ScriptError}
    (hg : skipGap .blank p cs = .ok (q, c :: rest)) (hs : scanToken q c rest = .error e) :
    scanFrom p cs tokens = .error e := by
  rw [scanFrom]
  split
  case h_1 he => rw [hg] at he; cases he
  case h_2 he => rw [hg] at he; cases he
  case h_3 he =>
    rw [hg] at he
    cases he
    split
    case h_1 he => rw [hs] at he; cases he; rfl
    case h_2 he => rw [hs] at he; cases he

/-- **The tokens of a source** come first among those of a source that has more lines. -/
theorem scanFrom_append {tokens tokens' : Array Token} {s : TokenStream}
    (h : scanFrom p cs tokens = .ok s) (p' : Position)
    (hsame : tokens'.toList.map (·.kind) = tokens.toList.map (·.kind)) (ds : List Char) :
    ∃ q tokens'', scanFrom p' (cs ++ '\n' :: ds) tokens' = scanFrom q ds tokens'' ∧
      tokens''.toList.map (·.kind) = s.kinds ++ [.newline] := by
  have hd : NextLine ('\n' :: ds) := fun c cs h => (List.cons.inj h).1.symm
  fun_induction scanFrom p cs tokens generalizing p' tokens' with
  | case1 => cases h
  | case2 p cs tokens q hg =>
    cases h
    obtain ⟨q', hg'⟩ := skipGap_append hg .blank hd p'
    refine ⟨_, _, scanFrom_of_token hg' rfl, ?_⟩
    simp [hsame, TokenStream.kinds]
  | case3 => cases h
  | case4 p cs tokens q c rest hg scanned hs ih =>
    obtain ⟨q', hg'⟩ := skipGap_append hg .blank hd p'
    obtain ⟨scanned', hs', hlike⟩ := scanToken_append hd hs q'
    rw [scanFrom_of_token hg' hs', hlike.rest]
    exact ih h _ (by simp [hsame, hlike.kind])

/-- The tokens of a source do not depend on where it stands. -/
theorem scanFrom_behind {tokens tokens' : Array Token} {s : TokenStream} {front : List TokenKind}
    (h : scanFrom p cs tokens = .ok s) (p' : Position)
    (hsame : tokens'.toList.map (·.kind) = front ++ tokens.toList.map (·.kind)) :
    ∃ s', scanFrom p' cs tokens' = .ok s' ∧ s'.kinds = front ++ s.kinds := by
  have hd : NextLine [] := nofun
  fun_induction scanFrom p cs tokens generalizing p' tokens' with
  | case1 => cases h
  | case2 p cs tokens q hg =>
    cases h
    obtain ⟨q', hg'⟩ := skipGap_append hg .blank hd p'
    rw [List.append_nil] at hg'
    exact ⟨_, scanFrom_of_gap hg', hsame⟩
  | case3 => cases h
  | case4 p cs tokens q c rest hg scanned hs ih =>
    obtain ⟨q', hg'⟩ := skipGap_append hg .blank hd p'
    obtain ⟨scanned', hs', hlike⟩ := scanToken_append hd hs q'
    have hrest := hlike.rest
    simp only [List.append_nil] at hg' hs' hrest
    rw [scanFrom_of_token hg' hs', hrest]
    exact ih h _ (by simp [hsame, hlike.kind])

/-- **Two sources one behind another** have the tokens of both, and the end of a line between. -/
theorem TokenStream.ofSource_append {a b : String} {s t : TokenStream}
    (ha : TokenStream.ofSource a = .ok s) (hb : TokenStream.ofSource b = .ok t) :
    ∃ u, TokenStream.ofSource (a ++ "\n" ++ b) = .ok u ∧
      u.kinds = s.kinds ++ .newline :: t.kinds := by
  obtain ⟨q, tokens, hq, htokens⟩ := scanFrom_append ha .start (Eq.refl (#[].toList.map _)) b.toList
  obtain ⟨u, hu, hkinds⟩ := scanFrom_behind hb q (htokens.trans (List.append_nil _).symm)
  have hlist : (a ++ "\n" ++ b).toList = a.toList ++ '\n' :: b.toList := by simp
  refine ⟨u, ?_, by rw [hkinds, List.append_assoc]; rfl⟩
  rw [TokenStream.ofSource, hlist, hq, hu]

end DeployScript
