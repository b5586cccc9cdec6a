import DeployScript.Proofs.Program.Tiling

/-!
# String literals

A literal ends at the first quote behind it that is not escaped, and without one it has no end. A backslash
escapes the character behind it, whatever that is, so that of several backslashes in a row every second one is
escaped itself.

* `Escaped`, `FirstCloses` — which characters are escaped, and which quote closes a literal.
* `decoded` — what the text between the quotes stands for.
* `literal` — a text written between quotes, so that it is read back (`decoded_withEscapes`).
* `LiteralRead` — what is read of a literal, wherever it stands.
-/

namespace DeployScript

open String (utf8Len utf8Len_nil utf8Len_cons utf8Len_append utf8Len_toList)

/-! ### Which quote closes a literal -/

/-- **A character is escaped** by a backslash in front of it that is not escaped itself. -/
def Escaped (cs : List Char) : Nat → Prop
  | 0 => False
  | i + 1 => cs[i]? = some '\\' ∧ ¬ Escaped cs i

/-- **A quote that is not escaped** stands at an index. -/
def ClosesAt (quote : Char) (cs : List Char) (i : Nat) : Prop :=
  cs[i]? = some quote ∧ ¬ Escaped cs i

/-- **The first quote** that is not escaped stands at an index. -/
def FirstCloses (quote : Char) (cs : List Char) (i : Nat) : Prop :=
  ClosesAt quote cs i ∧ ∀ j < i, ¬ ClosesAt quote cs j

variable {quote c : Char} {cs rest : List Char} {i : Nat}

theorem escaped_succ (i : Nat) : Escaped cs (i + 1) ↔ cs[i]? = some '\\' ∧ ¬ Escaped cs i := Iff.rfl

/-- Only a backslash bears on what comes behind it. -/
theorem escaped_cons (hc : c ≠ '\\') (i : Nat) : Escaped (c :: cs) (i + 1) ↔ Escaped cs i := by
  induction i with
  | zero =>
    rw [escaped_succ]
    exact iff_of_false (fun h => hc (Option.some.inj h.1)) id
  | succ i ih => rw [escaped_succ, ih, List.getElem?_cons_succ, ← escaped_succ]

/-- A backslash takes one character with it. -/
theorem escaped_pair (i : Nat) : Escaped ('\\' :: c :: cs) (i + 2) ↔ Escaped cs i := by
  induction i with
  | zero => exact iff_of_false (fun h => h.2 ⟨rfl, id⟩) id
  | succ i ih =>
    rw [escaped_succ, ih, List.getElem?_cons_succ, List.getElem?_cons_succ, ← escaped_succ]

theorem closesAt_zero : ClosesAt quote (c :: cs) 0 ↔ c = quote := by
  refine ⟨fun h => Option.some.inj h.1, ?_⟩
  rintro rfl
  exact ⟨rfl, id⟩

theorem closesAt_cons (hc : c ≠ '\\') (i : Nat) : ClosesAt quote (c :: cs) (i + 1) ↔ ClosesAt quote cs i := by
  unfold ClosesAt
  rw [escaped_cons hc, List.getElem?_cons_succ]

theorem closesAt_pair (i : Nat) : ClosesAt quote ('\\' :: c :: cs) (i + 2) ↔ ClosesAt quote cs i := by
  unfold ClosesAt
  rw [escaped_pair, List.getElem?_cons_succ, List.getElem?_cons_succ]

theorem not_closesAt_one : ¬ ClosesAt quote ('\\' :: c :: cs) 1 :=
  fun h => h.2 ⟨rfl, id⟩

theorem not_closesAt_nil (i : Nat) : ¬ ClosesAt quote [] i :=
  fun h => by cases h.1

theorem firstCloses_quote : FirstCloses quote (quote :: cs) i ↔ i = 0 := by
  have hzero : ClosesAt quote (quote :: cs) 0 := closesAt_zero.2 rfl
  constructor
  · rintro ⟨-, hfirst⟩
    exact Nat.eq_zero_of_not_pos fun hpos => hfirst 0 hpos hzero
  · rintro rfl
    exact ⟨hzero, fun _ hj => absurd hj (Nat.not_lt_zero _)⟩

/-- Where no quote closes the literal at the beginning, the first that does is one of the rest. -/
theorem firstCloses_behind {cs' : List Char} {n : Nat} (hfront : ∀ j < n, ¬ ClosesAt quote cs' j)
    (hbehind : ∀ j, ClosesAt quote cs' (j + n) ↔ ClosesAt quote cs j) :
    FirstCloses quote cs' i ↔ ∃ k, i = k + n ∧ FirstCloses quote cs k := by
  constructor
  · rintro ⟨hcloses, hfirst⟩
    have hle : n ≤ i := Nat.le_of_not_lt fun hlt => hfront i hlt hcloses
    obtain ⟨k, rfl⟩ := Nat.exists_eq_add_of_le' hle
    refine ⟨k, rfl, (hbehind k).1 hcloses, fun j hj hclose => ?_⟩
    exact hfirst (j + n) (Nat.add_lt_add_right hj n) ((hbehind j).2 hclose)
  · rintro ⟨k, rfl, hcloses, hfirst⟩
    refine ⟨(hbehind k).2 hcloses, fun j hj hclose => ?_⟩
    by_cases hlt : j < n
    · exact hfront j hlt hclose
    · obtain ⟨m, rfl⟩ := Nat.exists_eq_add_of_le' (Nat.le_of_not_lt hlt)
      exact hfirst m (Nat.lt_of_add_lt_add_right hj) ((hbehind m).1 hclose)

theorem firstCloses_cons (hc : c ≠ '\\') (hne : c ≠ quote) :
    FirstCloses quote (c :: cs) i ↔ ∃ k, i = k + 1 ∧ FirstCloses quote cs k := by
  refine firstCloses_behind (fun j hj hclose => ?_) (closesAt_cons hc)
  obtain rfl := Nat.lt_one_iff.1 hj
  exact hne (closesAt_zero.1 hclose)

theorem firstCloses_pair (hq : quote ≠ '\\') :
    FirstCloses quote ('\\' :: c :: cs) i ↔ ∃ k, i = k + 2 ∧ FirstCloses quote cs k := by
  refine firstCloses_behind (fun j hj hclose => ?_) closesAt_pair
  match j with
  | 0 => exact hq (closesAt_zero.1 hclose).symm
  | 1 => exact not_closesAt_one hclose

/-- Where a quote closes a literal, one of them is the first. -/
theorem exists_firstCloses (h : ClosesAt quote cs i) : ∃ k, FirstCloses quote cs k := by
  classical
  exact ⟨Nat.find ⟨i, h⟩, Nat.find_spec ⟨i, h⟩, fun _ hj => Nat.find_min ⟨i, h⟩ hj⟩

/-! ### Reading up to the quote -/

/-- **What stands for what:** a backslash and a character for one character, and all else for itself. -/
def decoded : List Char → List Char
  | '\\' :: c :: rest => unescape c :: decoded rest
  | c :: rest => c :: decoded rest
  | [] => []

theorem decoded_cons (hc : c ≠ '\\') (cs : List Char) : decoded (c :: cs) = c :: decoded cs := by
  rw [decoded]
  exact fun _ _ he => absurd he hc

theorem push_append_ofList (s : String) (c : Char) (cs : List Char) :
    s.push c ++ String.ofList cs = s ++ String.ofList (c :: cs) := by
  rw [← String.toList_inj]
  simp

variable {p : Position} {value lexeme : String}

/-- **With a quote that closes it,** a literal is read up to that quote. -/
theorem scanString_closed (hq : quote ≠ '\\') (h : FirstCloses quote cs i) :
    ∃ s, scanString quote p value lexeme cs = .ok s ∧
      s.kind = .text (value ++ String.ofList (decoded (cs.take i))) ∧ s.rest = cs.drop (i + 1) := by
  fun_induction scanString quote p value lexeme cs generalizing i with
  | case1 p value lexeme c rest ih =>
    obtain ⟨k, rfl, hfirst⟩ := (firstCloses_pair hq).1 h
    obtain ⟨s, hs, hkind, hrest⟩ := ih hfirst
    refine ⟨s, hs, ?_, hrest⟩
    rw [hkind, push_append_ofList, List.take_succ_cons, List.take_succ_cons, decoded]
  | case2 p value lexeme =>
    cases i with
    | zero => exact absurd (closesAt_zero.1 h.1).symm hq
    | succ i => cases h.1.1
  | case3 p value lexeme rest hescape hend =>
    obtain rfl := firstCloses_quote.1 h
    exact ⟨_, rfl, by simp [decoded], rfl⟩
  | case4 p value lexeme rest hescape hend hquote ih =>
    obtain ⟨k, rfl, hfirst⟩ := (firstCloses_cons (by decide) hquote).1 h
    obtain ⟨s, hs, hkind, hrest⟩ := ih hfirst
    refine ⟨s, hs, ?_, hrest⟩
    rw [hkind, push_append_ofList, List.take_succ_cons, decoded_cons (by decide)]
  | case5 p value lexeme c rest hescape hend hquote hc ih =>
    have hne := ne_backslash hescape hend
    obtain ⟨k, rfl, hfirst⟩ := (firstCloses_cons hne hquote).1 h
    obtain ⟨s, hs, hkind, hrest⟩ := ih hfirst
    refine ⟨s, hs, ?_, hrest⟩
    rw [hkind, push_append_ofList, List.take_succ_cons, decoded_cons hne]
  | case6 => exact absurd h.1 (not_closesAt_nil i)

/-- **Without one,** it is read up to the end of the text. -/
theorem scanString_open (h : ∀ i, ¬ ClosesAt quote cs i) :
    ∃ stop, scanString quote p value lexeme cs = .error stop ∧
      stop.offset = p.offset + utf8Len cs := by
  fun_induction scanString quote p value lexeme cs with
  | case1 p value lexeme c rest ih =>
    obtain ⟨stop, hs, hoffset⟩ := ih fun i hi => h (i + 2) ((closesAt_pair i).2 hi)
    refine ⟨stop, hs, ?_⟩
    rw [hoffset, utf8Len_cons, utf8Len_cons]
    simp only [Position.step]
    omega
  | case2 p value lexeme => exact ⟨_, rfl, rfl⟩
  | case3 p value lexeme rest hescape hend => exact absurd (closesAt_zero.2 rfl) (h 0)
  | case4 p value lexeme rest hescape hend hquote ih =>
    obtain ⟨stop, hs, hoffset⟩ := ih fun i hi => h (i + 1) ((closesAt_cons (by decide) i).2 hi)
    refine ⟨stop, hs, ?_⟩
    have hsize : '\n'.utf8Size = 1 := rfl
    rw [hoffset, utf8Len_cons, hsize]
    simp only [Position.newline]
    omega
  | case5 p value lexeme c rest hescape hend hquote hc ih =>
    have hne := ne_backslash hescape hend
    obtain ⟨stop, hs, hoffset⟩ := ih fun i hi => h (i + 1) ((closesAt_cons hne i).2 hi)
    refine ⟨stop, hs, ?_⟩
    rw [hoffset, utf8Len_cons]
    simp only [Position.step]
    omega
  | case6 => exact ⟨_, rfl, rfl⟩

/-! ### Tokens -/

/-- **What is read of a literal** that begins with a quote at a position: a token up to the quote that closes
it, or an error if there is none. -/
structure LiteralRead (quote : Char) (p : Position) (cs : List Char) : Prop where
  unterminated : (∃ span, scanToken p quote cs = .error (.at_ .unterminatedString span)) ↔
    ∀ i, ¬ ClosesAt quote cs i
  token : ∀ i, FirstCloses quote cs i → ∃ q : Position,
    q.offset = p.offset + utf8Len (quote :: cs.take (i + 1)) ∧
    scanToken p quote cs = .ok
      { kind := .text (String.ofList (decoded (cs.take i)))
        lexeme := String.ofList (quote :: cs.take (i + 1))
        position := q
        rest := cs.drop (i + 1) }

/-- A quote begins a literal. -/
theorem scanToken_quote (hquote : quote = '"' ∨ quote = '\'') (p : Position) (cs : List Char) :
    scanToken p quote cs =
      (scanString quote (p.step quote) "" (String.singleton quote) cs).mapError
        fun stop => .at_ .unterminatedString (p.through stop) := by
  have hline : quote ≠ '\n' := by
    rcases hquote with rfl | rfl <;> decide
  rw [scanToken, if_neg hline, if_pos hquote]
  cases scanString quote (p.step quote) "" (String.singleton quote) cs with
  | ok s => rfl
  | error stop => rfl

theorem scanToken_closed (hquote : quote = '"' ∨ quote = '\'') (p : Position)
    (h : FirstCloses quote cs i) : ∃ q : Position,
      q.offset = p.offset + utf8Len (quote :: cs.take (i + 1)) ∧
      scanToken p quote cs = .ok
        { kind := .text (String.ofList (decoded (cs.take i)))
          lexeme := String.ofList (quote :: cs.take (i + 1))
          position := q
          rest := cs.drop (i + 1) } := by
  have hq : quote ≠ '\\' := by
    rcases hquote with rfl | rfl <;> decide
  obtain ⟨s, hs, hkind, hrest⟩ := scanString_closed hq h
  have hscan : scanToken p quote cs = .ok s := by
    rw [scanToken_quote hquote, hs]
    rfl
  obtain ⟨htext, hposition⟩ := scanToken_past hscan
  -- The text of the token is what is not left.
  have hlexeme : s.lexeme.toList = quote :: cs.take (i + 1) := by
    have hall : s.lexeme.toList ++ s.rest = quote :: cs.take (i + 1) ++ s.rest := by
      rw [← htext, hrest, List.cons_append, List.take_append_drop]
    exact List.append_cancel_right hall
  refine ⟨s.position, ?_, ?_⟩
  · rw [hposition, Position.offset_past, TokenKind.utf8Len_counted, hlexeme]
  · obtain ⟨kind, lexeme, position, rest⟩ := s
    rw [hscan]
    simp only at hkind hrest hlexeme
    rw [hkind, hrest, ← hlexeme, String.ofList_toList, String.empty_append]

theorem scanToken_open (hquote : quote = '"' ∨ quote = '\'') (p : Position)
    (h : ∀ i, ¬ ClosesAt quote cs i) :
    scanToken p quote cs = .error (.at_ .unterminatedString
      { start := p.offset, stop := p.offset + utf8Len (quote :: cs), line := p.line,
        column := p.column }) := by
  obtain ⟨stop, hs, hoffset⟩ :
      ∃ stop, scanString quote (p.step quote) "" (String.singleton quote) cs = .error stop ∧
        stop.offset = (p.step quote).offset + utf8Len cs := scanString_open h
  have hstop : p.offset + utf8Len (quote :: cs) = stop.offset := by
    rw [hoffset, utf8Len_cons]
    simp only [Position.step]
    omega
  rw [scanToken_quote hquote, hs, hstop]
  rfl

theorem literalRead (hquote : quote = '"' ∨ quote = '\'') (p : Position) (cs : List Char) :
    LiteralRead quote p cs := by
  refine ⟨⟨?_, fun h => ⟨_, scanToken_open hquote p h⟩⟩, fun i h => scanToken_closed hquote p h⟩
  rintro ⟨span, herror⟩ i hcloses
  obtain ⟨k, hfirst⟩ := exists_firstCloses hcloses
  obtain ⟨q, -, hok⟩ := scanToken_closed hquote p hfirst
  rw [herror] at hok
  cases hok

/-! ### Whole sources -/

/-- No gap begins with a quote. -/
theorem skipGap_quote (hquote : quote = '"' ∨ quote = '\'') (p : Position) (cs : List Char) :
    skipGap .blank p (quote :: cs) = .ok (p, quote :: cs) := by
  rcases hquote with rfl | rfl <;> simp [skipGap]

/-- **A source that begins with a literal** has it as its first token, if a quote closes it. -/
theorem ofSource_closed {source : String} (hquote : quote = '"' ∨ quote = '\'')
    (hsource : source.toList = quote :: cs) (h : FirstCloses quote cs i) :
    ∃ q : Position, q.offset = utf8Len (quote :: cs.take (i + 1)) ∧
      TokenStream.ofSource source = scanFrom q (cs.drop (i + 1)) #[
        { kind := .text (String.ofList (decoded (cs.take i)))
          span := { start := 0, stop := q.offset, line := 1, column := 1 }
          lexeme := String.ofList (quote :: cs.take (i + 1)) }] := by
  obtain ⟨q, hq, hscan⟩ := scanToken_closed hquote .start h
  refine ⟨q, hq.trans (Nat.zero_add _), ?_⟩
  rw [TokenStream.ofSource, hsource, scanFrom_of_token (skipGap_quote hquote .start cs) hscan]
  rfl

/-- A source that begins with a literal is not read if no quote closes it. -/
theorem ofSource_open {source : String} (hquote : quote = '"' ∨ quote = '\'')
    (hsource : source.toList = quote :: cs) (h : ∀ i, ¬ ClosesAt quote cs i) :
    TokenStream.ofSource source = .error (.at_ .unterminatedString
      { start := 0, stop := source.utf8ByteSize, line := 1, column := 1 }) := by
  have hscan := scanToken_open hquote .start h
  have hgap : skipGap .blank .start source.toList = .ok (.start, quote :: cs) := by
    rw [hsource, skipGap_quote hquote]
  have hsize : source.utf8ByteSize = 0 + utf8Len (quote :: cs) := by
    rw [← utf8Len_toList, hsource, Nat.zero_add]
  rw [TokenStream.ofSource, scanFrom_of_refusal hgap hscan, hsize]
  rfl

/-! ### Writing literals -/

/-- A text with a backslash in front of each backslash and of each quote. -/
def withEscapes (quote : Char) (text : List Char) : List Char :=
  text.flatMap fun c => if c = '\\' ∨ c = quote then ['\\', c] else [c]

/-- **A text between quotes.** -/
def literal (quote : Char) (text : String) : String :=
  String.ofList (quote :: (withEscapes quote text.toList ++ [quote]))

theorem withEscapes_special (hc : c = '\\' ∨ c = quote) (text : List Char) :
    withEscapes quote (c :: text) = '\\' :: c :: withEscapes quote text := by
  rw [withEscapes, List.flatMap_cons, if_pos hc]
  rfl

theorem withEscapes_plain (hc : ¬ (c = '\\' ∨ c = quote)) (text : List Char) :
    withEscapes quote (c :: text) = c :: withEscapes quote text := by
  rw [withEscapes, List.flatMap_cons, if_neg hc]
  rfl

/-- **A text is closed** by the quote behind it. -/
theorem firstCloses_withEscapes (hq : quote ≠ '\\') (text rest : List Char) :
    FirstCloses quote (withEscapes quote text ++ quote :: rest) (withEscapes quote text).length := by
  induction text with
  | nil => exact firstCloses_quote.2 rfl
  | cons c text ih =>
    by_cases hc : c = '\\' ∨ c = quote
    · rw [withEscapes_special hc]
      exact (firstCloses_pair hq).2 ⟨_, rfl, ih⟩
    · rw [withEscapes_plain hc]
      rw [not_or] at hc
      exact (firstCloses_cons hc.1 hc.2).2 ⟨_, rfl, ih⟩

/-- **A text is what it is decoded to.** -/
theorem decoded_withEscapes (hquote : quote = '"' ∨ quote = '\'') (text : List Char) :
    decoded (withEscapes quote text) = text := by
  have hself : ∀ c, c = '\\' ∨ c = quote → unescape c = c := by
    rintro c (rfl | rfl)
    · rfl
    · rcases hquote with rfl | rfl <;> rfl
  induction text with
  | nil => rfl
  | cons c text ih =>
    by_cases hc : c = '\\' ∨ c = quote
    · rw [withEscapes_special hc, decoded, ih, hself c hc]
    · rw [withEscapes_plain hc, decoded_cons (not_or.1 hc).1, ih]

/-- No line feed of a literal is escaped, so that all of them count. -/
theorem joinEscaped_withEscapes (hline : quote ≠ '\n') (text rest : List Char) :
    joinEscaped (withEscapes quote text ++ rest) = withEscapes quote text ++ joinEscaped rest := by
  induction text with
  | nil => rfl
  | cons c text ih =>
    by_cases hc : c = '\\' ∨ c = quote
    · have hne : c ≠ '\n' := by
        rintro rfl
        rcases hc with hc | hc
        · revert hc
          decide
        · exact hline hc.symm
      rw [withEscapes_special hc, List.cons_append, List.cons_append, joinEscaped, if_neg hne, ih]
      rfl
    · rw [withEscapes_plain hc, List.cons_append, joinEscaped_cons (not_or.1 hc).1, ih]
      rfl

theorem toList_literal (quote : Char) (text : String) :
    (literal quote text).toList = quote :: (withEscapes quote text.toList ++ [quote]) :=
  String.toList_ofList

/-- **A literal is read as one token** with the text that it was made of, and nothing comes behind it. -/
theorem ofSource_literal (hquote : quote = '"' ∨ quote = '\'') (text : String) :
    TokenStream.ofSource (literal quote text) = .ok
      { tokens := [
          { kind := .text text
            span := { start := 0, stop := (literal quote text).utf8ByteSize, line := 1, column := 1 }
            lexeme := literal quote text }]
        stop := (Position.after (literal quote text).toList).here } := by
  have hq : quote ≠ '\\' ∧ quote ≠ '\n' := by
    rcases hquote with rfl | rfl <;> decide
  have hlist := toList_literal quote text
  -- The quote at the end is what closes the literal, so that all of it is taken.
  have hfirst := firstCloses_withEscapes hq.1 text.toList []
  have hlength : (withEscapes quote text.toList ++ [quote]).length
      ≤ (withEscapes quote text.toList).length + 1 := by
    rw [List.length_append, List.length_singleton]
  obtain ⟨q, -, hscan⟩ := scanToken_closed hquote .start hfirst
  rw [List.take_left, List.take_of_length_le hlength, List.drop_of_length_le hlength,
    decoded_withEscapes hquote, String.ofList_toList, ← literal] at hscan
  have hposition : q = Position.after (literal quote text).toList := by
    have hpast := (scanToken_past hscan).2
    rw [TokenKind.counted, hlist, joinEscaped_cons hq.1, joinEscaped_withEscapes hq.2, joinEscaped_cons hq.1,
      joinEscaped, ← hlist, Position.start_past] at hpast
    exact hpast
  have hsize : (literal quote text).utf8ByteSize = q.offset := by
    rw [hposition, ← Position.start_past, Position.offset_past, utf8Len_toList]
    exact (Nat.zero_add _).symm
  rw [hsize, ← hposition, TokenStream.ofSource, hlist,
    scanFrom_of_token (skipGap_quote hquote .start _) hscan, scanFrom_of_gap rfl]
  rfl

/-- **String literals are read as they are written.** A text between quotes is one token, which spans the
source. Wherever a literal stands, it is read up to the first quote that is not escaped, and there is an error
if and only if none is; a source that begins with it has it as its first token. -/
theorem string_literals_read {quote : Char} (hquote : quote = '"' ∨ quote = '\'') :
    (∀ text : String, TokenStream.ofSource (literal quote text) = .ok
      { tokens := [
          { kind := .text text
            span := { start := 0, stop := (literal quote text).utf8ByteSize, line := 1, column := 1 }
            lexeme := literal quote text }]
        stop := (Position.after (literal quote text).toList).here }) ∧
      (∀ p cs, LiteralRead quote p cs) ∧
      ∀ (source : String) (cs : List Char), source.toList = quote :: cs →
        ((∀ i, ¬ ClosesAt quote cs i) → TokenStream.ofSource source = .error (.at_ .unterminatedString
          { start := 0, stop := source.utf8ByteSize, line := 1, column := 1 })) ∧
        ∀ i, FirstCloses quote cs i → ∃ q : Position, q.offset = utf8Len (quote :: cs.take (i + 1)) ∧
          TokenStream.ofSource source = scanFrom q (cs.drop (i + 1)) #[
            { kind := .text (String.ofList (decoded (cs.take i)))
              span := { start := 0, stop := q.offset, line := 1, column := 1 }
              lexeme := String.ofList (quote :: cs.take (i + 1)) }] :=
  ⟨ofSource_literal hquote, literalRead hquote, fun _ _ hsource =>
    ⟨ofSource_open hquote hsource, fun _ => ofSource_closed hquote hsource⟩⟩

/-- A text with a quote and a backslash in it, and a literal whose last quote is escaped. -/
theorem literals_with_backslashes :
    ('\'' = '"' ∨ '\'' = '\'') ∧
      (∃ s, TokenStream.ofSource "'it\\'s\\\\'" = .ok s ∧
        s.tokens.map (·.kind) = [.text "it's\\"] ∧ s.stop.start = 9) ∧
      ∃ span, scanToken .start '\'' ['\\', '\''] = .error (.at_ .unterminatedString span) := by
  have hquote : '\'' = '"' ∨ '\'' = '\'' := .inr rfl
  have hliteral : literal '\'' "it's\\" = "'it\\'s\\\\'" := by decide
  have hopen : ∀ i, ¬ ClosesAt '\'' ['\\', '\''] i := by
    intro i
    match i with
    | 0 => exact fun h => absurd (closesAt_zero.1 h) (by decide)
    | 1 => exact not_closesAt_one
    | i + 2 => exact fun h => not_closesAt_nil i ((closesAt_pair i).1 h)
  have hread := string_literals_read hquote
  refine ⟨hquote, ⟨_, hliteral ▸ hread.1 "it's\\", rfl, ?_⟩, (hread.2.1 .start _).unterminated.2 hopen⟩
  decide

end DeployScript
