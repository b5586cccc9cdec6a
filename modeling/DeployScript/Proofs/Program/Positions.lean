import DeployScript.Proofs.Program.Lines

/-!
# Where tokens stand

A position is kept up while a source is read: the line goes up behind a line feed, and the column behind
any other character. Here positions are read off the source instead, from the text before them, and the two
are compared.

They agree on each token of a source and on its end, with one exception (`TokenStream.exact_iff`). A string
may hold a line feed behind a backslash, which reading goes over as over any other character, so that the
rest of the source counts as lying on the same line.

* `Position.after` — the position behind a text; `Position.past` — the same, one character at a time.
* `Token.counted` — the text of a token with the line feeds of that kind made blanks.
* `Cut` — a source in gaps and tokens, and where each of these stands.
* `TokenStream.Exact` — each token, and the end, stands where the source before it ends.
-/

namespace DeployScript

/-! ### Positions -/

namespace Position

/-- **The position behind a text.** -/
def after (text : List Char) : Position where
  offset := (text.map Char.utf8Size).sum
  line := 1 + text.count '\n'
  column := 1 + (text.reverse.takeWhile (· != '\n')).length

/-- Past characters of any kind. -/
def past (p : Position) (cs : List Char) : Position :=
  cs.foldl (fun p c => if c = '\n' then p.newline else p.step c) p

theorem past_cons_of_ne (p : Position) {c : Char} (hc : c ≠ '\n') (cs : List Char) :
    p.past (c :: cs) = (p.step c).past cs := by
  rw [past, List.foldl_cons, if_neg hc, ← past]

theorem past_newline_cons (p : Position) (cs : List Char) :
    p.past ('\n' :: cs) = p.newline.past cs := rfl

theorem past_append (p : Position) (cs ds : List Char) : p.past (cs ++ ds) = (p.past cs).past ds :=
  List.foldl_append

theorem past_eq_steps (p : Position) {cs : List Char} (hcs : '\n' ∉ cs) : p.past cs = p.steps cs := by
  induction cs generalizing p with
  | nil => rfl
  | cons c cs ih =>
    rw [List.mem_cons, not_or] at hcs
    rw [past_cons_of_ne p (Ne.symm hcs.1), ih _ hcs.2]
    rfl

/-- **A position kept up** from the start of a text is the one behind the text. -/
theorem start_past (text : List Char) : start.past text = after text := by
  -- The column looks back to the last line feed, so the text is taken from its end.
  induction text using List.reverseRecOn with
  | nil => rfl
  | append_singleton text c ih =>
    rw [past_append, ih]
    by_cases hc : c = '\n'
    · subst hc
      have hsize : '\n'.utf8Size = 1 := rfl
      simp [past, after, newline, hsize, Nat.add_assoc]
    · simp [past, after, step, hc, Nat.add_comm]

theorem after_past (before cs : List Char) : (after before).past cs = after (before ++ cs) := by
  rw [← start_past, ← start_past, past_append]

end Position

variable {p q : Position} {cs rest : List Char}

/-! ### Gaps -/

/-- **A gap** ends where its text ends. -/
theorem skipGap_past {mode : GapMode} (h : skipGap mode p cs = .ok (q, rest)) :
    ∃ gap, cs = gap ++ rest ∧ q = p.past gap := by
  fun_induction skipGap mode p cs with
  | case1 p rest' ih =>
    obtain ⟨gap, rfl, rfl⟩ := ih h
    exact ⟨'/' :: '/' :: gap, rfl, rfl⟩
  | case2 p rest' ih =>
    obtain ⟨gap, rfl, rfl⟩ := ih h
    exact ⟨'/' :: '*' :: gap, rfl, rfl⟩
  | case3 p c rest' hline hblock hc ih =>
    obtain ⟨gap, rfl, rfl⟩ := ih h
    have hne : c ≠ '\n' := by
      rintro rfl
      revert hc
      decide
    exact ⟨c :: gap, rfl, (p.past_cons_of_ne hne gap).symm⟩
  | case9 opened p rest' ih =>
    obtain ⟨gap, rfl, rfl⟩ := ih h
    exact ⟨'*' :: '/' :: gap, rfl, rfl⟩
  | case7 p c rest' hc ih | case11 opened p c rest' hend hc ih =>
    obtain ⟨gap, rfl, rfl⟩ := ih h
    exact ⟨c :: gap, rfl, (p.past_cons_of_ne hc gap).symm⟩
  | case10 opened p rest' hend ih =>
    obtain ⟨gap, rfl, rfl⟩ := ih h
    exact ⟨'\n' :: gap, rfl, (p.past_newline_cons gap).symm⟩
  | case4 | case5 | case6 | case8 =>
    cases h
    exact ⟨[], rfl, rfl⟩
  | case12 => cases h

/-! ### Tokens -/

/-- The text of a string with each line feed behind a backslash made a blank. A backslash takes the next
character with it, so that one that is taken itself takes none. -/
def joinEscaped : List Char → List Char
  | '\\' :: c :: rest => '\\' :: (if c = '\n' then ' ' else c) :: joinEscaped rest
  | c :: rest => c :: joinEscaped rest
  | [] => []

theorem joinEscaped_cons {c : Char} (hc : c ≠ '\\') (cs : List Char) :
    joinEscaped (c :: cs) = c :: joinEscaped cs := by
  rw [joinEscaped]
  exact fun _ _ he => absurd he hc

/-- A string without such a line feed is as it was, and any other one has fewer line feeds. -/
theorem joinEscaped_eq_or_count_lt (cs : List Char) :
    joinEscaped cs = cs ∨ (joinEscaped cs).count '\n' < cs.count '\n' := by
  fun_induction joinEscaped cs with
  | case1 c rest ih =>
    have hle : (joinEscaped rest).count '\n' ≤ rest.count '\n' := by
      rcases ih with he | hlt
      · rw [he]
      · exact Nat.le_of_lt hlt
    by_cases hc : c = '\n'
    · subst hc
      refine Or.inr ?_
      simpa using Nat.lt_succ_of_le hle
    · simpa [hc] using ih
  | case2 c rest hescape ih =>
    rw [List.count_cons, List.count_cons]
    exact ih.imp (fun he => by rw [he]) fun hlt => Nat.add_lt_add_right hlt _
  | case3 => exact Or.inl rfl

/-- The text of a token of a kind, as far as positions go. -/
def TokenKind.counted (kind : TokenKind) (lexeme : String) : List Char :=
  match kind with
  | .text _ => joinEscaped lexeme.toList
  | _ => lexeme.toList

/-- **The text of a token** as far as positions go. -/
def Token.counted (t : Token) : List Char := t.kind.counted t.lexeme

/-- Behind a token that is no string and has no line feed. -/
theorem TokenKind.past_counted {kind : TokenKind} (hkind : ∀ value, kind ≠ .text value)
    {taken : List Char} (hlines : '\n' ∉ taken) :
    p.past (kind.counted (String.ofList taken)) = p.steps taken := by
  rw [counted, String.toList_ofList, Position.past_eq_steps p hlines]
  exact hkind

theorem Token.counted_eq_or_count_lt (t : Token) :
    t.counted = t.lexeme.toList ∨ t.counted.count '\n' < t.lexeme.toList.count '\n' := by
  unfold Token.counted TokenKind.counted
  split
  · exact joinEscaped_eq_or_count_lt _
  · exact Or.inl rfl

/-- **A string** ends where its text ends. -/
theorem scanString_past {quote : Char} {value lexeme : String} {s : Scanned} (hq : quote ≠ '\n')
    (h : scanString quote p value lexeme cs = .ok s) :
    ∃ taken, cs = taken ++ s.rest ∧ s.lexeme = lexeme ++ String.ofList taken ∧
      s.position = p.past (joinEscaped taken) ∧ ∃ value, s.kind = .text value := by
  fun_induction scanString quote p value lexeme cs with
  | case1 p value lexeme c rest' ih =>
    -- The only case where a line feed is gone over as any other character is.
    obtain ⟨taken, rfl, hlexeme, hposition, hkind⟩ := ih h
    refine ⟨'\\' :: c :: taken, rfl, ?_, ?_, hkind⟩
    · rw [hlexeme, ← String.toList_inj]
      simp
    · rw [hposition, joinEscaped, Position.past_cons_of_ne _ (by decide)]
      split
      case isTrue hc => rw [Position.past_cons_of_ne _ (by decide), hc]; rfl
      case isFalse hc => rw [Position.past_cons_of_ne _ hc]
  | case2 => cases h
  | case3 p value lexeme rest' hescape hend =>
    cases h
    refine ⟨[quote], rfl, ?_, ?_, value, rfl⟩
    · rw [← String.toList_inj]
      simp
    · rw [joinEscaped_cons (ne_backslash hescape hend), Position.past_cons_of_ne _ hq]
      rfl
  | case4 p value lexeme rest' hescape hend hquote ih =>
    obtain ⟨taken, rfl, hlexeme, hposition, hkind⟩ := ih h
    refine ⟨'\n' :: taken, rfl, ?_, ?_, hkind⟩
    · rw [hlexeme, ← String.toList_inj]
      simp
    · rw [hposition, joinEscaped_cons (by decide)]
      rfl
  | case5 p value lexeme c rest' hescape hend hquote hc ih =>
    obtain ⟨taken, rfl, hlexeme, hposition, hkind⟩ := ih h
    refine ⟨c :: taken, rfl, ?_, ?_, hkind⟩
    · rw [hlexeme, ← String.toList_inj]
      simp
    · rw [hposition, joinEscaped_cons (ne_backslash hescape hend), Position.past_cons_of_ne _ hc]
  | case6 => cases h

/-- A number is made of characters that are no line feeds. -/
theorem takeNumber_spec (cs : List Char) :
    (takeNumber cs).1 ++ (takeNumber cs).2 = cs ∧ '\n' ∉ (takeNumber cs).1 := by
  have hdigits : ∀ ds : List Char, '\n' ∉ ds.takeWhile Char.isDigit := by
    intro ds hmem
    exact absurd (List.mem_takeWhile_imp hmem) (by decide)
  have hcs := List.takeWhile_append_dropWhile (p := Char.isDigit) (l := cs)
  unfold takeNumber
  split
  case h_1 d rest hd =>
    rw [hd] at hcs
    split
    case isTrue =>
      refine ⟨?_, ?_⟩
      · calc _ = cs.takeWhile Char.isDigit ++ '.' :: (d :: rest) := by
              rw [List.append_assoc, List.cons_append, List.takeWhile_append_dropWhile]
          _ = cs := hcs
      · rw [List.mem_append, List.mem_cons, not_or, not_or]
        exact ⟨hdigits _, by decide, hdigits _⟩
    case isFalse => exact ⟨hcs, hdigits _⟩
  case h_2 => exact ⟨hcs, hdigits _⟩

/-- A spelling is what the text begins with, and no spelling has a line feed. -/
theorem takeSymbol?_spec {taken : List Char} {s : Symbol}
    (h : takeSymbol? cs = some (taken, s, rest)) : taken ++ rest = cs ∧ '\n' ∉ taken := by
  have hlines : ∀ x ∈ Symbol.spellings, '\n' ∉ x.1 := by decide
  obtain ⟨⟨spelling, t⟩, hmem, hsome⟩ := List.exists_of_findSome?_eq_some h
  by_cases hp : spelling.isPrefixOf cs
  · simp only [hp, if_true, Option.some.injEq, Prod.mk.injEq] at hsome
    obtain ⟨rfl, rfl, rfl⟩ := hsome
    exact ⟨List.prefix_iff_eq_append.1 (List.isPrefixOf_iff_prefix.1 hp), hlines _ hmem⟩
  · simp [hp] at hsome

/-- **A token** is a piece of the source, and reading goes on behind it. -/
theorem scanToken_past {c : Char} {s : Scanned} (h : scanToken p c cs = .ok s) :
    c :: cs = s.lexeme.toList ++ s.rest ∧ s.position = p.past (s.kind.counted s.lexeme) := by
  unfold scanToken at h
  -- The end of a line, a string, a number, a word, and else a symbol.
  split at h
  case isTrue hc =>
    cases h
    subst hc
    exact ⟨by simp, by simp [TokenKind.counted, Position.past]⟩
  split at h
  case isTrue hnl hc =>
    cases hs : scanString c (p.step c) "" (String.singleton c) cs with
    | error stop =>
      rw [hs] at h
      cases h
    | ok scanned =>
      rw [hs] at h
      cases h
      obtain ⟨taken, rfl, hlexeme, hposition, value, hkind⟩ := scanString_past hnl hs
      have hlist : s.lexeme.toList = c :: taken := by
        rw [hlexeme]
        simp
      have hne : c ≠ '\\' := by
        rintro rfl
        revert hc
        decide
      refine ⟨by rw [hlist]; rfl, ?_⟩
      rw [hposition, hkind]
      unfold TokenKind.counted
      rw [hlist, joinEscaped_cons hne, Position.past_cons_of_ne _ hnl]
  split at h
  case isTrue hnl _ hc =>
    obtain ⟨htaken, hlines⟩ := takeNumber_spec cs
    dsimp only at h
    split at h
    case h_1 value hv =>
      cases h
      refine ⟨?_, ?_⟩
      · rw [String.toList_ofList, List.cons_append, htaken]
      · refine (TokenKind.past_counted (by rintro _ ⟨⟩) ?_).symm
        rw [List.mem_cons, not_or]
        exact ⟨Ne.symm hnl, hlines⟩
    case h_2 => cases h
  split at h
  case isTrue hnl _ _ hc =>
    have hlines : '\n' ∉ c :: cs.takeWhile continuesWord := by
      rw [List.mem_cons, not_or]
      exact ⟨Ne.symm hnl, fun hmem => absurd (List.mem_takeWhile_imp hmem) (by decide)⟩
    cases h
    refine ⟨?_, ?_⟩
    · rw [String.toList_ofList, List.cons_append, List.takeWhile_append_dropWhile]
    · refine (TokenKind.past_counted ?_ hlines).symm
      dsimp only
      split <;> rintro _ ⟨⟩
  case isFalse =>
    split at h
    case h_1 taken t rest' hs =>
      obtain ⟨htaken, hlines⟩ := takeSymbol?_spec hs
      cases h
      refine ⟨?_, ?_⟩
      · rw [String.toList_ofList, htaken]
      · exact (TokenKind.past_counted (by rintro _ ⟨⟩) hlines).symm
    case h_2 => cases h

/-! ### Sources -/

/-- **A text cut up,** behind what counts of the text before it: gaps and tokens take turns, and each
token, and the end, stands where what counts of the text before it ends. -/
inductive Cut : List Char → List Char → List Token → Span → Prop
  | stop {before gap : List Char} : Cut before gap [] (Position.after (before ++ gap)).here
  | token {before gap rest : List Char} {t : Token} {tokens : List Token} {stop : Span}
      (hspan : t.span = (Position.after (before ++ gap)).through
        (.after (before ++ gap ++ t.counted)))
      (hrest : Cut (before ++ gap ++ t.counted) rest tokens stop) :
      Cut before (gap ++ (t.lexeme.toList ++ rest)) (t :: tokens) stop

/-- Each token of a source, and its end, stands where the source before it ends. -/
structure TokenStream.Exact (source : String) (s : TokenStream) : Prop where
  tokens : ∀ t ∈ s.tokens, ∃ before after, source.toList = before ++ (t.lexeme.toList ++ after) ∧
    t.span = (Position.after before).through (.after (before ++ t.lexeme.toList))
  stop : s.stop = (Position.after source.toList).here

variable {before : List Char} {tokens : List Token} {stop : Span}

/-- **Reading cuts a text up.** -/
theorem scanFrom_cut {done : Array Token} {s : TokenStream}
    (h : scanFrom (.after before) cs done = .ok s) :
    ∃ tokens, s.tokens = done.toList ++ tokens ∧ Cut before cs tokens s.stop := by
  -- The induction is over the positions that are kept up; each stays the one behind what counts.
  generalize hp : Position.after before = p at h
  fun_induction scanFrom p cs done generalizing before with
  | case1 => cases h
  | case2 p cs done q hg =>
    cases h
    subst hp
    obtain ⟨gap, rfl, rfl⟩ := skipGap_past hg
    rw [List.append_nil, Position.after_past]
    exact ⟨[], (List.append_nil _).symm, .stop⟩
  | case3 => cases h
  | case4 p cs done q c rest hg scanned hs ih =>
    obtain ⟨gap, rfl, hq⟩ := skipGap_past hg
    obtain ⟨hcut, hposition⟩ := scanToken_past hs
    rw [← hp, Position.after_past] at hq
    rw [hq, Position.after_past] at hposition
    obtain ⟨tokens, htokens, hrest⟩ := ih hposition.symm h
    let t : Token := { kind := scanned.kind, span := q.through scanned.position, lexeme := scanned.lexeme }
    have hspan : t.span = (Position.after (before ++ gap)).through
        (.after (before ++ gap ++ t.counted)) := by
      rw [← hq]
      exact congrArg q.through hposition
    refine ⟨t :: tokens, ?_, ?_⟩
    · rw [htokens, Array.toList_push, List.append_assoc, List.singleton_append]
    · rw [hcut]
      exact Cut.token hspan hrest

/-- A text without a line feed behind a backslash in a string counts as a whole. -/
theorem Cut.exact (h : Cut before cs tokens stop)
    (hall : ∀ t ∈ tokens, t.counted = t.lexeme.toList) :
    (∀ t ∈ tokens, ∃ front after, before ++ cs = front ++ (t.lexeme.toList ++ after) ∧
      t.span = (Position.after front).through (.after (front ++ t.lexeme.toList))) ∧
      stop = (Position.after (before ++ cs)).here := by
  induction h with
  | stop => exact ⟨fun t ht => (nomatch ht), rfl⟩
  | @token before gap rest t tokens stop hspan _ ih =>
    have hcounted := hall t List.mem_cons_self
    obtain ⟨htokens, hstop⟩ := ih fun u hu => hall u (List.mem_cons_of_mem _ hu)
    have htext : before ++ gap ++ t.counted ++ rest = before ++ (gap ++ (t.lexeme.toList ++ rest)) := by
      rw [hcounted, List.append_assoc, List.append_assoc]
    rw [htext] at htokens hstop
    refine ⟨fun u hu => ?_, hstop⟩
    rcases List.mem_cons.1 hu with rfl | hu
    · refine ⟨before ++ gap, rest, (List.append_assoc ..).symm, ?_⟩
      rw [hspan, hcounted]
    · exact htokens u hu

/-- The end is on the line that the line feeds of the text tell only if all of them count. -/
theorem Cut.line_stop (h : Cut before cs tokens stop) :
    stop.line ≤ 1 + (before ++ cs).count '\n' ∧
      (stop.line = 1 + (before ++ cs).count '\n' → ∀ t ∈ tokens, t.counted = t.lexeme.toList) := by
  induction h with
  | stop => exact ⟨Nat.le_refl _, fun _ t ht => (nomatch ht)⟩
  | @token before gap rest t tokens stop hspan _ ih =>
    obtain ⟨hle, heq⟩ := ih
    simp only [List.count_append] at hle heq ⊢
    rcases t.counted_eq_or_count_lt with hcounted | hlt
    · rw [hcounted] at hle heq
      refine ⟨by omega, fun hstop u hu => ?_⟩
      rcases List.mem_cons.1 hu with rfl | hu
      · exact hcounted
      · exact heq (by omega) u hu
    · -- Once a line feed has not counted, the end stays behind.
      exact ⟨by omega, fun hstop => absurd hstop (by omega)⟩

/-- **Positions are exact** on each token and on the end if and only if no string holds a line feed behind
a backslash; such a line feed counts as a blank for all that follows it. -/
theorem TokenStream.exact_iff {source : String} {s : TokenStream}
    (h : TokenStream.ofSource source = .ok s) :
    Cut [] source.toList s.tokens s.stop ∧
      (s.Exact source ↔ ∀ t ∈ s.tokens, t.counted = t.lexeme.toList) := by
  have hscan : scanFrom (.after []) source.toList #[] = .ok s := h
  obtain ⟨tokens, htokens, hcut⟩ := scanFrom_cut hscan
  obtain rfl : s.tokens = tokens := htokens
  refine ⟨hcut, fun hexact => ?_, fun hall => ?_⟩
  · -- The line of the end alone tells whether each line feed has counted.
    refine hcut.line_stop.2 ?_
    rw [hexact.stop]
    rfl
  · obtain ⟨heach, hstop⟩ := hcut.exact hall
    exact ⟨heach, hstop⟩

/-- A comment and a string that go over lines. -/
theorem TokenStream.exact_over_lines :
    ∃ s, TokenStream.ofSource "/*\n*/ \"é\n\"\n;" = .ok s ∧ s.Exact "/*\n*/ \"é\n\"\n;" := by
  have hrun : (TokenStream.ofSource "/*\n*/ \"é\n\"\n;").toOption.map
      (fun s => s.tokens.all fun t => t.counted == t.lexeme.toList) = some true := by
    decide +kernel
  cases hs : TokenStream.ofSource "/*\n*/ \"é\n\"\n;" with
  | error e =>
    rw [hs] at hrun
    cases hrun
  | ok s =>
    rw [hs] at hrun
    refine ⟨s, rfl, (TokenStream.exact_iff hs).2.2 fun t ht => ?_⟩
    exact eq_of_beq (List.all_eq_true.1 (Option.some.inj hrun) t ht)

/-- A string with a backslash and a line feed: what follows is on the second line, and its place says the
first. -/
theorem TokenStream.line_lost_behind_backslash :
    ∃ s, TokenStream.ofSource "\"\\\n\";" = .ok s ∧
      s.tokens.map (·.span) = [⟨0, 4, 1, 1⟩, ⟨4, 5, 1, 5⟩] ∧ s.stop = ⟨5, 5, 1, 6⟩ ∧
      ¬ s.Exact "\"\\\n\";" := by
  have hrun : (TokenStream.ofSource "\"\\\n\";").toOption.map
      (fun s => (s.tokens.map (·.span), s.stop))
        = some ([⟨0, 4, 1, 1⟩, ⟨4, 5, 1, 5⟩], ⟨5, 5, 1, 6⟩) := by
    decide +kernel
  cases hs : TokenStream.ofSource "\"\\\n\";" with
  | error e =>
    rw [hs] at hrun
    cases hrun
  | ok s =>
    rw [hs] at hrun
    obtain ⟨hspans, hstop⟩ := Prod.mk.inj (Option.some.inj hrun)
    refine ⟨s, rfl, hspans, hstop, fun hexact => ?_⟩
    have hline := congrArg Span.line (hstop.symm.trans hexact.stop)
    revert hline
    decide

end DeployScript
