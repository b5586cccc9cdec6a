import DeployScript.Proofs.Program.Positions
import Mathlib.Data.String.Basic

/-!
# Tokens tile a source

What reading a source makes of it leaves nothing out: the tokens are pieces of the source, one behind the
other, and between them lies only what says nothing. The pieces are told by byte offsets, which lie between
characters whatever these are.

* `Gap` — blanks and complete comments, said of the text and of what follows it.
* `Piece` — the text between two offsets of a source.
* `Tiled` — a text as gaps and tokens in turns, with the offsets of the tokens; what reading keeps up.
* `Tiles` — the same of a source, said by its pieces: the tokens, and the gaps in the stretches between them.
* `TokenStream.tiles_source` — the tokens of a source tile it.
-/

namespace DeployScript

open String (utf8Len utf8Len_nil utf8Len_cons utf8Len_append utf8Len_toList)

/-! ### Gaps -/

/-- **A gap** in front of a text: spaces, tabs, carriage returns and comments. A comment over lines goes on up to
the first mark that can close it, and any other one up to the end of its line. -/
inductive Gap : (gap after : List Char) → Prop
  | nil (after : List Char) : Gap [] after
  | blank {c : Char} {gap after : List Char} (hc : c = ' ' ∨ c = '\t' ∨ c = '\r') (hrest : Gap gap after) :
    Gap (c :: gap) after
  | line {body after : List Char} (hbody : '\n' ∉ body) (hafter : ∀ c ∈ after.head?, c = '\n') :
    Gap ('/' :: '/' :: body) after
  | block {body gap after : List Char} (hbody : ¬ ['*', '/'] <:+: body) (hrest : Gap gap after) :
    Gap ('/' :: '*' :: (body ++ '*' :: '/' :: gap)) after

/-- What is still to come of a gap, from where reading is in it. -/
def GapMode.Covers : GapMode → (gap after : List Char) → Prop
  | .blank, gap, after => Gap gap after
  | .line, gap, after => '\n' ∉ gap ∧ ∀ c ∈ after.head?, c = '\n'
  | .block _, gap, after => ∃ body rest, gap = body ++ '*' :: '/' :: rest ∧
      ¬ ['*', '/'] <:+: body ∧ Gap rest after

variable {p q : Position} {cs rest : List Char}

/-- A character in front of a comment makes no closing mark if what follows does not end it. -/
theorem not_infix_cons {c : Char} {body tail : List Char} (hbody : ¬ ['*', '/'] <:+: body)
    (hend : ∀ rest, c = '*' → body ++ tail = '/' :: rest → False) : ¬ ['*', '/'] <:+: c :: body := by
  rw [List.infix_cons_iff]
  rintro (hfront | hwithin)
  · -- The mark would begin at the character itself.
    obtain ⟨rest, hrest⟩ := hfront
    obtain ⟨rfl, hslash⟩ := List.cons.inj hrest
    refine hend (rest ++ tail) rfl ?_
    rw [← hslash]
    rfl
  · exact hbody hwithin

/-- **Going over a gap** goes over nothing else. -/
theorem skipGap_covers {mode : GapMode} (h : skipGap mode p cs = .ok (q, rest)) :
    ∃ gap, cs = gap ++ rest ∧ mode.Covers gap rest := by
  fun_induction skipGap mode p cs with
  | case1 p rest' ih =>
    obtain ⟨gap, rfl, hbody, hafter⟩ := ih h
    exact ⟨'/' :: '/' :: gap, rfl, .line hbody hafter⟩
  | case2 p rest' ih =>
    obtain ⟨gap, rfl, body, gap', rfl, hbody, hgap⟩ := ih h
    exact ⟨'/' :: '*' :: (body ++ '*' :: '/' :: gap'), rfl, .block hbody hgap⟩
  | case3 p c rest' hline hblock hc ih =>
    obtain ⟨gap, rfl, hgap⟩ := ih h
    exact ⟨c :: gap, rfl, .blank hc hgap⟩
  | case4 | case5 =>
    cases h
    exact ⟨[], rfl, .nil _⟩
  | case6 p rest' =>
    cases h
    exact ⟨[], rfl, List.not_mem_nil, by rintro c ⟨⟩; rfl⟩
  | case7 p c rest' hc ih =>
    obtain ⟨gap, rfl, hbody, hafter⟩ := ih h
    refine ⟨c :: gap, rfl, ?_, hafter⟩
    rw [List.mem_cons, not_or]
    exact ⟨Ne.symm hc, hbody⟩
  | case8 =>
    cases h
    refine ⟨[], rfl, List.not_mem_nil, ?_⟩
    intro c hc
    cases hc
  | case9 opened p rest' ih =>
    obtain ⟨gap, rfl, hgap⟩ := ih h
    refine ⟨'*' :: '/' :: gap, rfl, [], gap, rfl, ?_, hgap⟩
    rw [List.infix_nil]
    exact List.cons_ne_nil _ _
  | case10 opened p rest' hend ih | case11 opened p c rest' hend hc ih =>
    obtain ⟨_, rfl, body, gap, rfl, hbody, hgap⟩ := ih h
    refine ⟨_ :: (body ++ '*' :: '/' :: gap), rfl, _ :: body, gap, rfl, ?_, hgap⟩
    rw [List.append_assoc] at hend
    exact not_infix_cons hbody hend
  | case12 => cases h

/-! ### Sizes -/

theorem Position.offset_past (p : Position) (cs : List Char) :
    (p.past cs).offset = p.offset + utf8Len cs := by
  induction cs generalizing p with
  | nil => rfl
  | cons c cs ih =>
    -- The offset goes up by the size of a character, whether a line ends there or not.
    rw [utf8Len_cons, Nat.add_comm (utf8Len cs), ← Nat.add_assoc]
    by_cases hc : c = '\n'
    · subst hc
      exact ih p.newline
    · rw [past_cons_of_ne p hc]
      exact ih (p.step c)

/-- What counts of the text of a token has the size of the text. -/
theorem TokenKind.utf8Len_counted (kind : TokenKind) (lexeme : String) :
    utf8Len (kind.counted lexeme) = utf8Len lexeme.toList := by
  have hjoin : ∀ cs, utf8Len (joinEscaped cs) = utf8Len cs := by
    intro cs
    fun_induction joinEscaped cs with
    | case1 c rest ih =>
      -- A line feed and the blank in its place take one byte each.
      by_cases hc : c = '\n'
      · subst hc
        simp [ih]
        rfl
      · simp [hc, ih]
    | case2 c rest _ ih => rw [utf8Len_cons, utf8Len_cons, ih]
    | case3 => rfl
  unfold TokenKind.counted
  split
  · exact hjoin _
  · rfl

/-! ### Pieces of a source -/

/-- **The piece of a source** between two byte offsets, both on the boundaries of characters. -/
def Piece (source : String) (start stop : Nat) (text : String) : Prop :=
  ∃ first last : source.Pos, first.offset.byteIdx = start ∧ last.offset.byteIdx = stop ∧
    first ≤ last ∧ String.extract first last = text

theorem piece_append (before text after : String) :
    Piece (before ++ text ++ after) before.utf8ByteSize (before ++ text).utf8ByteSize text := by
  have hfirst : before.rawEndPos.IsValid (before ++ text ++ after) :=
    String.Pos.Raw.isValid_iff_exists_append.2 ⟨before, text ++ after, String.append_assoc .., rfl⟩
  have hlast : (before ++ text).rawEndPos.IsValid (before ++ text ++ after) :=
    String.Pos.Raw.isValid_iff_exists_append.2 ⟨before ++ text, after, rfl, rfl⟩
  have hle : before.utf8ByteSize ≤ (before ++ text).utf8ByteSize := by
    rw [String.utf8ByteSize_append]
    exact Nat.le_add_right _ _
  refine ⟨⟨_, hfirst⟩, ⟨_, hlast⟩, rfl, rfl, hle, ?_⟩
  -- A piece is told by its bytes.
  rw [← String.toByteArray_inj, String.toByteArray_extract]
  have hsize : before.utf8ByteSize = before.toByteArray.size := String.size_toByteArray.symm
  calc (before ++ text ++ after).toByteArray.extract before.utf8ByteSize (before ++ text).utf8ByteSize
      = (before.toByteArray ++ (text.toByteArray ++ after.toByteArray)).extract
          (before.utf8ByteSize + 0) (before.utf8ByteSize + text.utf8ByteSize) := by
        rw [String.append_assoc, String.toByteArray_append, String.toByteArray_append,
          String.utf8ByteSize_append, Nat.add_zero]
    _ = (text.toByteArray ++ after.toByteArray).extract 0 text.utf8ByteSize :=
        ByteArray.extract_append_size_add' hsize
    _ = text.toByteArray := ByteArray.extract_append_eq_left String.size_toByteArray.symm

variable {source : String} {before text after : List Char}

/-- A piece, with the characters around it. -/
theorem piece_of_toList (hsource : source.toList = before ++ (text ++ after)) :
    Piece source (utf8Len before) (utf8Len before + utf8Len text) (String.ofList text) := by
  have hparts : source = String.ofList before ++ String.ofList text ++ String.ofList after := by
    rw [← String.toList_inj, hsource]
    simp
  have hpiece := piece_append (String.ofList before) (String.ofList text) (String.ofList after)
  rwa [← hparts, String.utf8ByteSize_append, String.utf8ByteSize_ofList, String.utf8ByteSize_ofList] at hpiece

/-! ### Tilings -/

/-- **A text in gaps and tokens,** which take turns. It begins at a byte offset of the source, and each token
says where it begins and ends. -/
inductive Tiled : (offset : Nat) → List Char → List Token → Span → Prop
  | stop {offset : Nat} {gap : List Char} {stop : Span} (hgap : Gap gap [])
      (hstart : stop.start = offset + utf8Len gap) (hstop : stop.stop = stop.start) :
    Tiled offset gap [] stop
  | token {offset : Nat} {gap rest : List Char} {t : Token} {tokens : List Token} {stop : Span}
      (hgap : Gap gap (t.lexeme.toList ++ rest)) (hlexeme : t.lexeme.toList ≠ [])
      (hstart : t.span.start = offset + utf8Len gap)
      (hstop : t.span.stop = t.span.start + utf8Len t.lexeme.toList)
      (hrest : Tiled t.span.stop rest tokens stop) :
    Tiled offset (gap ++ (t.lexeme.toList ++ rest)) (t :: tokens) stop

/-- A gap between tokens, and the offset behind it. -/
theorem skipGap_spec (h : skipGap .blank p cs = .ok (q, rest)) :
    ∃ gap, cs = gap ++ rest ∧ q.offset = p.offset + utf8Len gap ∧ Gap gap rest := by
  obtain ⟨gap, hcs, hq⟩ := skipGap_past h
  obtain ⟨gap', hcs', hgap⟩ := skipGap_covers h
  obtain rfl : gap' = gap := List.append_cancel_right (hcs'.symm.trans hcs)
  refine ⟨gap', hcs, ?_, hgap⟩
  rw [hq]
  exact Position.offset_past p gap'

/-- **Reading tiles a text.** -/
theorem scanFrom_tiled {done : Array Token} {s : TokenStream} (h : scanFrom p cs done = .ok s) :
    ∃ tokens, s.tokens = done.toList ++ tokens ∧ Tiled p.offset cs tokens s.stop := by
  fun_induction scanFrom p cs done with
  | case1 => cases h
  | case2 p cs done q hg =>
    cases h
    obtain ⟨gap, rfl, hq, hgap⟩ := skipGap_spec hg
    refine ⟨[], (List.append_nil _).symm, ?_⟩
    rw [List.append_nil]
    exact .stop hgap hq rfl
  | case3 => cases h
  | case4 p cs done q c rest hg scanned hs ih =>
    obtain ⟨tokens, htokens, hrest⟩ := ih h
    obtain ⟨gap, rfl, hq, hgap⟩ := skipGap_spec hg
    obtain ⟨hlexeme, hposition⟩ := scanToken_past hs
    have hnonempty : scanned.lexeme.toList ≠ [] := by
      intro hnil
      have hlt := length_scanToken_lt hs
      rw [hlexeme, hnil] at hlt
      exact Nat.lt_irrefl _ hlt
    let t : Token := { kind := scanned.kind, span := q.through scanned.position, lexeme := scanned.lexeme }
    have hstop : t.span.stop = t.span.start + utf8Len t.lexeme.toList := by
      show scanned.position.offset = q.offset + utf8Len scanned.lexeme.toList
      rw [hposition, Position.offset_past, TokenKind.utf8Len_counted]
    refine ⟨t :: tokens, ?_, ?_⟩
    · rw [htokens, Array.toList_push, List.append_assoc, List.singleton_append]
    · rw [hlexeme] at hgap ⊢
      have hstart : t.span.start = p.offset + utf8Len gap := hq
      have hnext : Tiled t.span.stop scanned.rest tokens s.stop := hrest
      show Tiled p.offset (gap ++ (t.lexeme.toList ++ scanned.rest)) (t :: tokens) s.stop
      exact .token hgap hnonempty hstart hstop hnext

/-! ### What a tiling says -/

/-- Gaps and lexemes in turns, a gap going first. -/
def weave : (gaps lexemes : List String) → List String
  | gap :: gaps, lexeme :: lexemes => gap :: lexeme :: weave gaps lexemes
  | gaps, _ => gaps

/-- **What lies between tokens**, each with its two ends: before the first token, between any two that follow
each other, and after the last. -/
def stretches (start : Nat) : List Token → (stop : Span) → List (Nat × Nat)
  | [], stop => [(start, stop.start)]
  | t :: tokens, stop => (start, t.span.start) :: stretches t.span.stop tokens stop

/-- A gap of a source is a piece of it, and a gap in front of what follows it there. -/
def GapOf (source : String) (ends : Nat × Nat) (gap : String) : Prop :=
  Piece source ends.1 ends.2 gap ∧
    ∃ after, Piece source ends.2 source.utf8ByteSize after ∧ Gap gap.toList after.toList

/-- **Tokens tile a source** from an offset on, with the given gaps between them. -/
structure Tiles (source : String) (start : Nat) (gaps : List String) (tokens : List Token)
    (stop : Span) : Prop where
  /-- Each token takes room, and is what the source has there. -/
  lexemes : ∀ t ∈ tokens, t.span.start < t.span.stop ∧
    Piece source t.span.start t.span.stop t.lexeme
  /-- A token begins at the end of the one before it or behind that. -/
  ordered : tokens.Pairwise fun t u => t.span.stop ≤ u.span.start
  /-- No token begins in front of the offset. -/
  behind : ∀ t ∈ tokens, start ≤ t.span.start
  /-- Only what says nothing lies between them. -/
  between : List.Forall₂ (GapOf source) (stretches start tokens stop) gaps
  /-- The end is the end of the source. -/
  stop : stop.start = source.utf8ByteSize ∧ stop.stop = source.utf8ByteSize

/-- A gap and a token in front of a tiling. -/
theorem Tiles.cons {offset : Nat} {gap : String} {gaps : List String} {t : Token} {tokens : List Token}
    {stop : Span} (hgap : GapOf source (offset, t.span.start) gap) (hle : offset ≤ t.span.start)
    (hroom : t.span.start < t.span.stop) (hpiece : Piece source t.span.start t.span.stop t.lexeme)
    (h : Tiles source t.span.stop gaps tokens stop) :
    Tiles source offset (gap :: gaps) (t :: tokens) stop := by
  refine ⟨?_, .cons h.behind h.ordered, ?_, .cons hgap h.between, h.stop⟩
  · intro u hu
    rcases List.mem_cons.1 hu with rfl | hu
    · exact ⟨hroom, hpiece⟩
    · exact h.lexemes u hu
  · intro u hu
    rcases List.mem_cons.1 hu with rfl | hu
    · exact hle
    · have hbehind := h.behind u hu
      omega

/-- A tiling of what is left of a source is one of the source from there on. -/
theorem Tiled.tiles {offset : Nat} {tokens : List Token} {stop : Span}
    (h : Tiled offset text tokens stop) (hoffset : offset = utf8Len before)
    (hsource : source.toList = before ++ text) :
    ∃ gaps, Tiles source offset gaps tokens stop ∧
      (String.join (weave gaps (tokens.map (·.lexeme)))).toList = text := by
  -- What is in front of the text takes up a gap and a token at each step.
  induction h generalizing before with
  | @stop offset gap stop hgap hstart hstop =>
    subst hoffset
    have hsize : source.utf8ByteSize = utf8Len before + utf8Len gap := by
      rw [← utf8Len_toList, hsource, utf8Len_append]
    have hparts : source.toList = before ++ (gap ++ []) := by
      rw [hsource, List.append_nil]
    have hend : source.toList = before ++ gap ++ ([] ++ []) := by
      rw [hsource, List.append_nil, List.append_nil]
    have hpiece := piece_of_toList hparts
    have hafter := piece_of_toList hend
    rw [utf8Len_append, utf8Len_nil, Nat.add_zero] at hafter
    refine ⟨[String.ofList gap], ⟨nofun, .nil, nofun, ?_, ?_⟩, ?_⟩
    · refine .cons ?_ .nil
      unfold GapOf
      rw [hstart, hsize, String.toList_ofList]
      exact ⟨hpiece, _, hafter, by rwa [String.toList_ofList]⟩
    · rw [hstop, hstart, hsize]
      exact ⟨rfl, rfl⟩
    · simp [weave, String.join]
  | @token offset gap rest t tokens stop hgap hlexeme hstart hstop hrest ih =>
    subst hoffset
    have hsize : source.utf8ByteSize
        = utf8Len (before ++ gap) + utf8Len (t.lexeme.toList ++ rest) := by
      rw [← utf8Len_toList, hsource, ← utf8Len_append, List.append_assoc]
    have hbehind : source.toList = before ++ gap ++ (t.lexeme.toList ++ rest) := by
      rw [hsource, List.append_assoc]
    have hend : source.toList = before ++ gap ++ (t.lexeme.toList ++ rest ++ []) := by
      rw [hbehind, List.append_nil]
    have hgapPiece := piece_of_toList hsource
    have hlexemePiece := piece_of_toList hbehind
    have hafter := piece_of_toList hend
    rw [← hsize] at hafter
    rw [utf8Len_append, ← hstart] at hafter hlexemePiece
    rw [← hstart] at hgapPiece
    rw [← hstop, String.ofList_toList] at hlexemePiece
    have hgapOf : GapOf source (utf8Len before, t.span.start) (String.ofList gap) := by
      refine ⟨hgapPiece, _, hafter, ?_⟩
      rw [String.toList_ofList, String.toList_ofList]
      exact hgap
    have hle : utf8Len before ≤ t.span.start := by
      rw [hstart]
      exact Nat.le_add_right _ _
    have hroom : t.span.start < t.span.stop := by
      have hpos : 0 < utf8Len t.lexeme.toList :=
        Nat.pos_of_ne_zero fun hzero => hlexeme (String.utf8Len_eq_zero.1 hzero)
      omega
    have hnext : t.span.stop = utf8Len (before ++ (gap ++ t.lexeme.toList)) := by
      rw [utf8Len_append, utf8Len_append, hstop, hstart, Nat.add_assoc]
    have hleft : source.toList = before ++ (gap ++ t.lexeme.toList) ++ rest := by
      rw [hsource, List.append_assoc, List.append_assoc]
    obtain ⟨gaps, htiles, htext⟩ := ih hnext hleft
    refine ⟨String.ofList gap :: gaps, htiles.cons hgapOf hle hroom hlexemePiece, ?_⟩
    -- A gap and a token come off the front, and the rest is the text behind them.
    calc (String.join (weave (String.ofList gap :: gaps) ((t :: tokens).map (·.lexeme)))).toList
        = gap ++ (t.lexeme.toList ++ (String.join (weave gaps (tokens.map (·.lexeme)))).toList) := by
          rw [List.map_cons, weave, String.join_cons, String.join_cons, String.toList_append,
            String.toList_append, String.toList_ofList]
      _ = gap ++ (t.lexeme.toList ++ rest) := by rw [htext]

/-- **The tokens of a source tile it.** -/
theorem TokenStream.tiles_source {s : TokenStream} (h : TokenStream.ofSource source = .ok s) :
    ∃ gaps, Tiles source 0 gaps s.tokens s.stop ∧
      String.join (weave gaps (s.tokens.map (·.lexeme))) = source := by
  have hscan : scanFrom Position.start source.toList #[] = .ok s := h
  obtain ⟨tokens, htokens, htiled⟩ := scanFrom_tiled hscan
  obtain rfl : s.tokens = tokens := htokens
  have hsource : source.toList = [] ++ source.toList := rfl
  obtain ⟨gaps, htiles, htext⟩ := htiled.tiles utf8Len_nil.symm hsource
  exact ⟨gaps, htiles, String.toList_inj.1 htext⟩

/-- A source with a comment of each kind and characters of several bytes. -/
theorem TokenStream.tiles_over_comments :
    ∃ s gaps, TokenStream.ofSource "/* é */x/**/=\"日\"// ñ" = .ok s ∧
      Tiles "/* é */x/**/=\"日\"// ñ" 0 gaps s.tokens s.stop ∧
      stretches 0 s.tokens s.stop = [(0, 8), (9, 13), (14, 14), (19, 24)] := by
  have hrun : (TokenStream.ofSource "/* é */x/**/=\"日\"// ñ").toOption.map
      (fun s => stretches 0 s.tokens s.stop) = some [(0, 8), (9, 13), (14, 14), (19, 24)] := by
    decide +kernel
  cases hs : TokenStream.ofSource "/* é */x/**/=\"日\"// ñ" with
  | error e =>
    rw [hs] at hrun
    cases hrun
  | ok s =>
    rw [hs] at hrun
    obtain ⟨gaps, htiles, _⟩ := TokenStream.tiles_source hs
    exact ⟨s, gaps, rfl, htiles, Option.some.inj hrun⟩

end DeployScript
