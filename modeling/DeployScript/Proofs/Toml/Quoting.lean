import DeployScript.Toml.Reader
import DeployScript.Toml.Text
import Mathlib.Data.List.Infix

/-!
# Strings are read back

Whatever the form in which a text is written, TOML reads the text.

* `Toml.Faithful` says this of a way to write strings. What stands behind the string does not matter,
  unless it starts with a quote.
* `Form.read_write` is the fact for one form, `Toml.faithful_quote` for the form that `quote` picks.
-/

namespace DeployScript.Toml

/-- **A way to write strings from which TOML reads the text.** -/
def Faithful (quote : String → String) : Prop :=
  ∀ text rest, rest.head? ≠ some '"' → rest.head? ≠ some '\'' →
    text? ((quote text).toList ++ rest) = some (text, rest)

variable {isLong : Bool} {quotes fuel : Nat} {c : Char} {cs rest : List Char} {out : String}

/-! ### Characters -/

theorem isPlain_of_not_isControl (h : isControl c = false) (hc : c ≠ '\n') : isPlain c = true := by
  simp only [isControl, isPlain, Bool.or_eq_false_iff, Bool.and_eq_false_iff, decide_eq_false_iff_not,
    Bool.or_eq_true, Bool.and_eq_true, decide_eq_true_eq] at h ⊢
  grind

/-- Digits to base 16 are read back, as far as control characters go. -/
theorem codePoint?_fourDigits : ∀ n : Fin 128, (fourDigits n).toList.length = 4 ∧
    codePoint? (fourDigits n).toList = some (Char.ofNat n) := by
  decide +kernel

theorem escaped?_letter {d : Char} (hu : d ≠ 'u') (hU : d ≠ 'U') (h : shortEscape? d = some c)
    (rest : List Char) : escaped? (d :: rest) = some (c, rest) := by
  unfold escaped?
  split
  · next he => exact absurd (List.cons.inj he).1 hu
  · next he => exact absurd (List.cons.inj he).1 hU
  · next he =>
    obtain ⟨rfl, rfl⟩ := List.cons.inj he
    rw [h]
    rfl
  · next he => cases he

/-- **An escape** starts with a backslash and a letter, and stands for what it was made of. -/
structure IsEscape (isLong : Bool) (c : Char) (e : String) (d : Char) (es : List Char) : Prop where
  text : e.toList = '\\' :: d :: es
  sameLine : ∀ rest, newline? (skipBlanks (d :: rest)) = none
  stands : ∀ rest, escaped? (d :: (es ++ rest)) = some (c, rest)

theorem exists_isEscape {e : String} (h : escape? isLong c = some e) :
    ∃ d es, IsEscape isLong c e d es := by
  have hletter (d : Char) (hu : d ≠ 'u') (hU : d ≠ 'U') (hd : shortEscape? d = some c)
      (hline : ∀ rest, newline? (skipBlanks (d :: rest)) = none) (he : e.toList = ['\\', d]) :
      ∃ d es, IsEscape isLong c e d es :=
    ⟨d, [], he, hline, escaped?_letter hu hU hd⟩
  unfold escape? at h
  split_ifs at h with hb ht hn _ hf hr hs hcontrol
  all_goals cases h
  · exact hletter 'b' (by decide) (by decide) (by rw [hb]; rfl) (fun _ => rfl) rfl
  · exact hletter 't' (by decide) (by decide) (by rw [ht]; rfl) (fun _ => rfl) rfl
  · exact hletter 'n' (by decide) (by decide) (by rw [hn]; rfl) (fun _ => rfl) rfl
  · exact hletter 'f' (by decide) (by decide) (by rw [hf]; rfl) (fun _ => rfl) rfl
  · exact hletter 'r' (by decide) (by decide) (by rw [hr]; rfl) (fun _ => rfl) rfl
  · exact hletter '\\' (by decide) (by decide) (by rw [hs]; rfl) (fun _ => rfl) rfl
  · have hlow : c.toNat < 128 := by
      simp only [isControl, Bool.or_eq_true, Bool.and_eq_true, decide_eq_true_eq] at hcontrol
      omega
    obtain ⟨hlength, hpoint⟩ := codePoint?_fourDigits ⟨c.toNat, hlow⟩
    obtain ⟨d₁, d₂, d₃, d₄, hdigits⟩ := List.length_eq_four.1 hlength
    rw [hdigits, Char.ofNat_toNat] at hpoint
    refine ⟨'u', [d₁, d₂, d₃, d₄], ?_, fun _ => rfl, fun rest => ?_⟩
    · rw [String.toList_append, hdigits]
      rfl
    · rw [List.cons_append, List.cons_append, List.cons_append, List.singleton_append, escaped?, hpoint]
      rfl

/-- What is not escaped can stand in a string. -/
theorem escape?_none (h : escape? isLong c = none) :
    c ≠ '\\' ∧ (isPlain c = true ∨ isLong = true ∧ c = '\n') := by
  unfold escape? at h
  split_ifs at h with hb ht hn hlong hf hr hs hcontrol
  · exact ⟨by rw [hn]; decide, .inr ⟨hlong, hn⟩⟩
  · exact ⟨hs, .inl (isPlain_of_not_isControl (by simpa using hcontrol) hn)⟩

/-! ### Writing character by character -/

theorem toList_escaped (isLong : Bool) (quotes : Nat) (cs : List Char) (out : String) :
    (escaped isLong quotes cs out).toList = out.toList ++ (escaped isLong quotes cs "").toList := by
  -- Each character puts something behind the text so far, which is therefore in front all the way.
  induction cs generalizing quotes out with
  | nil => simp [escaped]
  | cons c cs ih =>
    have hpush (quotes : Nat) : (escaped isLong quotes cs (out.push c)).toList =
        out.toList ++ (escaped isLong quotes cs ("".push c)).toList := by
      rw [ih _ (out.push c), ih _ ("".push c)]
      simp
    have happend (e : String) : (escaped isLong 0 cs (out ++ e)).toList =
        out.toList ++ (escaped isLong 0 cs ("" ++ e)).toList := by
      rw [ih _ (out ++ e), ih _ ("" ++ e)]
      simp
    unfold escaped
    by_cases hc : c = '"'
    · rw [if_pos hc, if_pos hc]
      by_cases hquotes : quotes < (if isLong then 2 else 0)
      · rw [if_pos hquotes, if_pos hquotes]
        exact hpush _
      · rw [if_neg hquotes, if_neg hquotes]
        exact happend _
    · rw [if_neg hc, if_neg hc]
      cases escape? isLong c with
      | some e => exact happend e
      | none => exact hpush 0

/-- What is between the quotes of a string with escapes. -/
def inside (isLong : Bool) (quotes : Nat) (cs : List Char) : List Char :=
  (escaped isLong quotes cs "").toList

@[simp] theorem inside_nil : inside isLong quotes [] = [] := rfl

/-- On several lines, up to two double quotes stand for themselves. -/
theorem inside_quote (h : quotes < 2) :
    inside true quotes ('"' :: cs) = '"' :: inside true (quotes + 1) cs := by
  have hlimit : quotes < (if true then 2 else 0) := h
  rw [inside, escaped, if_pos rfl, if_pos hlimit, toList_escaped, String.toList_push]
  rfl

/-- Other double quotes are escaped. -/
theorem inside_escaped_quote (h : isLong = true → 2 ≤ quotes) :
    inside isLong quotes ('"' :: cs) = '\\' :: '"' :: inside isLong 0 cs := by
  have hlimit : ¬quotes < (if isLong then 2 else 0) := by
    split
    · next hlong => exact Nat.not_lt.2 (h hlong)
    · exact Nat.not_lt_zero _
  rw [inside, escaped, if_pos rfl, if_neg hlimit, toList_escaped]
  rfl

theorem inside_escape {e : String} (hc : c ≠ '"') (he : escape? isLong c = some e) :
    inside isLong quotes (c :: cs) = e.toList ++ inside isLong 0 cs := by
  rw [inside, escaped, if_neg hc, he, toList_escaped]
  rfl

theorem inside_plain (hc : c ≠ '"') (he : escape? isLong c = none) :
    inside isLong quotes (c :: cs) = c :: inside isLong 0 cs := by
  simp only [inside, escaped, if_neg hc, he]
  rw [toList_escaped, String.toList_push]
  rfl

/-- **What a character becomes** starts with a backslash or is the character. -/
theorem exists_inside_cons (isLong : Bool) (quotes : Nat) (c : Char) (cs : List Char) :
    ∃ d es quotes', inside isLong quotes (c :: cs) = d :: (es ++ inside isLong quotes' cs) ∧
      (d = '\\' ∨ d = c ∧ (c = '"' → isLong = true ∧ quotes < 2) ∧
        (c ≠ '"' → isPlain c = true ∨ c = '\n')) := by
  by_cases hc : c = '"'
  · subst hc
    by_cases hquotes : isLong = true ∧ quotes < 2
    · obtain ⟨rfl, hlt⟩ := hquotes
      exact ⟨'"', [], quotes + 1, inside_quote hlt, .inr ⟨rfl, fun _ => ⟨rfl, hlt⟩, by simp⟩⟩
    · refine ⟨'\\', ['"'], 0, inside_escaped_quote fun hlong => ?_, .inl rfl⟩
      exact Nat.le_of_not_lt fun hlt => hquotes ⟨hlong, hlt⟩
  · cases he : escape? isLong c with
    | some e =>
      obtain ⟨d, es, hescape⟩ := exists_isEscape he
      exact ⟨'\\', d :: es, 0, by rw [inside_escape hc he, hescape.text]; rfl, .inl rfl⟩
    | none =>
      exact ⟨c, [], 0, inside_plain hc he,
        .inr ⟨rfl, fun h => absurd h hc, fun _ => (escape?_none he).2.imp_right And.right⟩⟩

theorem length_le_inside (isLong : Bool) (quotes : Nat) (cs : List Char) :
    cs.length ≤ (inside isLong quotes cs).length := by
  induction cs generalizing quotes with
  | nil => exact Nat.zero_le _
  | cons c cs ih =>
    obtain ⟨d, es, quotes', h, -⟩ := exists_inside_cons isLong quotes c cs
    have hrest := ih quotes'
    rw [h, List.length_cons, List.length_cons, List.length_append]
    omega

/-- The first character is a quote only if that can stand for itself. -/
theorem head?_inside_ne_quote (isLong : Bool) (quotes : Nat) (cs : List Char)
    (h : isLong = true → cs.head? = some '"' → 2 ≤ quotes) :
    (inside isLong quotes cs).head? ≠ some '"' := by
  cases cs with
  | nil => simp
  | cons c cs =>
    obtain ⟨d, es, quotes', heq, hd⟩ := exists_inside_cons isLong quotes c cs
    rw [heq, List.head?_cons, Ne, Option.some.injEq]
    rintro rfl
    obtain hd | ⟨rfl, hlong, -⟩ := hd
    · cases hd
    · obtain ⟨hlong, hlt⟩ := hlong rfl
      exact absurd (h hlong rfl) (Nat.not_le.2 hlt)

theorem append_ofList_cons (out : String) (c : Char) (cs : List Char) :
    out ++ String.ofList (c :: cs) = out.push c ++ String.ofList cs :=
  String.toList_injective (by simp)

/-! ### One line -/

/-- **A string with escapes on one line** is read back. -/
theorem basic?_inside (hfuel : cs.length < fuel) :
    basic? fuel out (inside false 0 cs ++ '"' :: rest) = some (out ++ String.ofList cs, rest) := by
  -- What is read of one character is the character, and costs one unit of fuel.
  induction cs generalizing fuel out with
  | nil =>
    obtain ⟨fuel, rfl⟩ := Nat.exists_eq_succ_of_ne_zero (Nat.ne_zero_of_lt hfuel)
    simp [basic?]
  | cons c cs ih =>
    obtain ⟨fuel, rfl⟩ := Nat.exists_eq_succ_of_ne_zero (Nat.ne_zero_of_lt hfuel)
    have hrest (out) : basic? fuel out (inside false 0 cs ++ '"' :: rest) =
        some (out ++ String.ofList cs, rest) :=
      ih (Nat.lt_of_succ_lt_succ hfuel)
    rw [append_ofList_cons, ← hrest]
    by_cases hc : c = '"'
    · subst hc
      rw [inside_escaped_quote (by simp), List.cons_append, List.cons_append, basic?]
      simp only [escaped?_letter (c := '"') (by decide) (by decide) rfl]
      rfl
    · cases he : escape? false c with
      | some e =>
        obtain ⟨d, es, hescape⟩ := exists_isEscape he
        rw [inside_escape hc he, hescape.text, List.append_assoc, List.cons_append, List.cons_append, basic?]
        simp only [hescape.stands]
        rfl
      | none =>
        obtain ⟨hs, hplain⟩ := escape?_none he
        rw [inside_plain hc he, List.cons_append, basic?, if_neg hc, if_neg hs,
          if_pos (hplain.resolve_right (by simp))]

/-- **A string without escapes on one line** is read back. -/
theorem literal?_append (h : ∀ c ∈ cs, c ≠ '\'' ∧ isPlain c = true) :
    literal? out (cs ++ '\'' :: rest) = some (out ++ String.ofList cs, rest) := by
  induction cs generalizing out with
  | nil => simp [literal?]
  | cons c cs ih =>
    obtain ⟨⟨hc, hplain⟩, hcs⟩ := List.forall_mem_cons.1 h
    rw [append_ofList_cons, ← ih hcs, List.cons_append, literal?, if_neg hc, if_pos hplain]

/-! ### Several lines -/

theorem long?_close (q : Char) (out : String) (more : List Char) :
    long? q (fuel + 1) out (q :: q :: q :: more) = some (closeLong q out more) := by
  rw [long?, if_pos rfl, if_pos ⟨rfl, rfl⟩]

theorem closeLong_of_head? {q : Char} (hrest : rest.head? ≠ some q) (out : String) :
    closeLong q out rest = (out, rest) ∧ closeLong q out (q :: rest) = (out.push q, rest) := by
  cases rest with
  | nil => simp [closeLong]
  | cons d rest =>
    have hd : d ≠ q := fun e => hrest (by rw [e]; rfl)
    simp [closeLong, hd]

/-- **A quote inside** stands for itself, also before the quotes at the end. What follows it does not start
with two more. -/
theorem long?_quote {q : Char} {body : List Char} (hrest : rest.head? ≠ some q)
    (hbody : ¬[q, q] <+: body) (hfuel : 0 < fuel) :
    long? q (fuel + 1) out (q :: (body ++ q :: q :: q :: rest)) =
      long? q fuel (out.push q) (body ++ q :: q :: q :: rest) := by
  obtain ⟨fuel, rfl⟩ := Nat.exists_eq_succ_of_ne_zero (Nat.ne_of_gt hfuel)
  obtain ⟨hnone, hone⟩ := closeLong_of_head? hrest (out.push q)
  -- Behind fewer than two characters the reader is at the quotes of the end, and takes one too many of them in.
  match body with
  | [] => rw [List.nil_append, long?_close, long?_close, (closeLong_of_head? hrest out).2, hnone]
  | [d] =>
    by_cases hd : d = q
    · subst hd
      rw [List.singleton_append, long?_close, long?_close, hone]
      simp [closeLong]
    · rw [List.singleton_append, long?, if_pos rfl]
      simp only [hd, false_and, if_false]
  | d :: e :: body =>
    have hboth : ¬(d = q ∧ e = q) := by
      rintro ⟨rfl, rfl⟩
      exact hbody ⟨body, rfl⟩
    rw [List.cons_append, List.cons_append, long?, if_pos rfl, if_neg hboth]

/-- A character that stands for itself. -/
theorem long?_plain {q : Char} (hc : c ≠ q) (hs : ¬(c = '\\' ∧ q = '"'))
    (hplain : isPlain c = true ∨ c = '\n') :
    long? q (fuel + 1) out (c :: rest) = long? q fuel (out.push c) rest := by
  conv_lhs => unfold long?
  rw [if_neg hc, if_neg hs]
  rcases hplain with hplain | rfl
  · rw [if_pos hplain]
  · rw [if_neg (by decide)]
    rfl

theorem long?_escape {d : Char} (es : List Char) (hline : ∀ rest, newline? (skipBlanks (d :: rest)) = none)
    (hstands : ∀ rest, escaped? (d :: (es ++ rest)) = some (c, rest)) :
    long? '"' (fuel + 1) out ('\\' :: d :: (es ++ rest)) = long? '"' fuel (out.push c) rest := by
  conv_lhs => unfold long?
  rw [if_neg (by decide), if_pos ⟨rfl, rfl⟩, hline, hstands]
  rfl

/-- Behind one double quote, there are not two more that stand for themselves. -/
theorem not_two_prefix_inside : ¬['"', '"'] <+: inside true (quotes + 1) cs := by
  rintro ⟨tail, htail⟩
  cases cs with
  | nil => cases htail
  | cons c cs =>
    by_cases hc : c = '"' ∧ quotes + 1 < 2
    · obtain ⟨rfl, hquotes⟩ := hc
      rw [inside_quote hquotes] at htail
      refine head?_inside_ne_quote true (quotes + 1 + 1) cs (fun _ _ => by omega) ?_
      rw [← (List.cons.inj htail).2]
      rfl
    · refine head?_inside_ne_quote true (quotes + 1) (c :: cs) (fun _ h => ?_) ?_
      · by_contra hlt
        exact hc ⟨Option.some.inj h, by omega⟩
      · rw [← htail]
        rfl

/-- **A string with escapes on several lines** is read back. -/
theorem long?_inside (hrest : rest.head? ≠ some '"') (hfuel : cs.length < fuel) :
    long? '"' fuel out (inside true quotes cs ++ '"' :: '"' :: '"' :: rest) =
      some (out ++ String.ofList cs, rest) := by
  induction cs generalizing fuel out quotes with
  | nil =>
    obtain ⟨fuel, rfl⟩ := Nat.exists_eq_succ_of_ne_zero (Nat.ne_zero_of_lt hfuel)
    rw [inside_nil, List.nil_append, long?_close, (closeLong_of_head? hrest out).1]
    simp
  | cons c cs ih =>
    obtain ⟨fuel, rfl⟩ := Nat.exists_eq_succ_of_ne_zero (Nat.ne_zero_of_lt hfuel)
    have hless : cs.length < fuel := Nat.lt_of_succ_lt_succ hfuel
    rw [append_ofList_cons]
    by_cases hc : c = '"'
    · subst hc
      by_cases hquotes : quotes < 2
      · -- At most one more quote follows before an escaped one, so this is not the end of the string.
        rw [inside_quote hquotes, List.cons_append,
          long?_quote hrest not_two_prefix_inside (Nat.zero_lt_of_lt hless), ih hless]
      · rw [inside_escaped_quote fun _ => Nat.le_of_not_lt hquotes, List.cons_append, List.cons_append]
        refine (long?_escape (c := '"') [] (fun _ => rfl) ?_).trans (ih hless)
        exact escaped?_letter (by decide) (by decide) rfl
    · cases he : escape? true c with
      | some e =>
        obtain ⟨d, es, hescape⟩ := exists_isEscape he
        rw [inside_escape hc he, hescape.text, List.append_assoc, List.cons_append, List.cons_append,
          long?_escape es hescape.sameLine hescape.stands, ih hless]
      | none =>
        obtain ⟨hs, hplain⟩ := escape?_none he
        rw [inside_plain hc he, List.cons_append,
          long?_plain hc (fun h => hs h.1) (hplain.imp_right And.right), ih hless]

/-- **A string without escapes on several lines** is read back, if there are not three quotes in a row. -/
theorem long?_append (hrest : rest.head? ≠ some '\'') (hfuel : cs.length < fuel)
    (h : ∀ c ∈ cs, isPlain c = true ∨ c = '\n') (hruns : ¬List.replicate 3 '\'' <:+: cs) :
    long? '\'' fuel out (cs ++ '\'' :: '\'' :: '\'' :: rest) = some (out ++ String.ofList cs, rest) := by
  induction cs generalizing fuel out with
  | nil =>
    obtain ⟨fuel, rfl⟩ := Nat.exists_eq_succ_of_ne_zero (Nat.ne_zero_of_lt hfuel)
    rw [List.nil_append, long?_close, (closeLong_of_head? hrest out).1]
    simp
  | cons c cs ih =>
    obtain ⟨fuel, rfl⟩ := Nat.exists_eq_succ_of_ne_zero (Nat.ne_zero_of_lt hfuel)
    have hless : cs.length < fuel := Nat.lt_of_succ_lt_succ hfuel
    obtain ⟨hplain, hcs⟩ := List.forall_mem_cons.1 h
    have hrest' : ¬List.replicate 3 '\'' <:+: cs := fun hin => hruns (hin.trans (List.suffix_cons c cs).isInfix)
    rw [append_ofList_cons, ← ih hless hcs hrest', List.cons_append]
    by_cases hc : c = '\''
    · subst hc
      refine long?_quote hrest (fun hp => hruns ?_) (Nat.zero_lt_of_lt hless)
      exact (List.cons_prefix_cons.2 ⟨rfl, hp⟩).isInfix
    · exact long?_plain hc (by simp) hplain

/-! ### Runs -/

theorem countRun_le (state : Nat × Nat) (d : Char) :
    state.2 ≤ (countRun c state d).2 ∧ (state.1 ≤ state.2 → (countRun c state d).1 ≤ (countRun c state d).2) := by
  unfold countRun
  split
  · dsimp only
    omega
  · exact ⟨Nat.le_refl _, fun _ => Nat.zero_le _⟩

theorem foldl_countRun_le (cs : List Char) (state : Nat × Nat) :
    state.2 ≤ (cs.foldl (countRun c) state).2 ∧
      (state.1 ≤ state.2 → (cs.foldl (countRun c) state).1 ≤ (cs.foldl (countRun c) state).2) := by
  induction cs generalizing state with
  | nil => exact ⟨Nat.le_refl _, id⟩
  | cons d cs ih =>
    obtain ⟨hgrows, hkeeps⟩ := countRun_le (c := c) state d
    obtain ⟨hgrows', hkeeps'⟩ := ih (countRun c state d)
    exact ⟨hgrows.trans hgrows', fun h => hkeeps' (hkeeps h)⟩

theorem foldl_countRun_replicate (n : Nat) (state : Nat × Nat) :
    ((List.replicate n c).foldl (countRun c) state).1 = state.1 + n := by
  induction n generalizing state with
  | zero => rfl
  | succ n ih =>
    rw [List.replicate_succ, List.foldl_cons, ih, countRun, if_pos rfl]
    omega

/-- **No run is longer than the longest.** -/
theorem le_longestRun {n : Nat} (h : List.replicate n c <:+: cs) : n ≤ longestRun c cs := by
  obtain ⟨before, after, rfl⟩ := h
  unfold longestRun
  -- The count is up by `n` at the end of the run, and the longest so far is never below the count.
  rw [List.foldl_append, List.foldl_append]
  have hbefore := (foldl_countRun_le (c := c) before (0, 0)).2 (Nat.le_refl _)
  generalize before.foldl (countRun c) (0, 0) = state at hbefore
  have hrun := (foldl_countRun_le (c := c) (List.replicate n c) state).2 hbefore
  rw [foldl_countRun_replicate] at hrun
  exact ((Nat.le_add_left n state.1).trans hrun).trans (foldl_countRun_le after _).1

/-! ### Forms -/

/-- What a form asks of a text. The forms with escapes ask nothing. -/
def Form.Shows (cs : List Char) : Form → Prop
  | basic | longBasic => True
  | literal => ∀ c ∈ cs, c ≠ '\'' ∧ isPlain c = true
  | longLiteral => (∀ c ∈ cs, isPlain c = true ∨ c = '\n') ∧ ¬List.replicate 3 '\'' <:+: cs

theorem text?_of_short {s : List Char} (hd : ∀ more, s ≠ '"' :: '"' :: '"' :: more)
    (hs : ∀ more, s ≠ '\'' :: '\'' :: '\'' :: more) : text? s = short? s := by
  unfold text?
  split
  · exact absurd rfl (hd _)
  · exact absurd rfl (hs _)
  · rfl

theorem newline?_of_plain (h : isPlain c = true) : newline? (c :: rest) = none := by
  unfold newline?
  split
  · next he =>
    rw [(List.cons.inj he).1] at h
    cases h
  · next he =>
    rw [(List.cons.inj he).1] at h
    cases h
  · rfl

/-- The line feed that is put before a text on several lines is skipped, and no other one. -/
theorem skipFirst_eq {text : String} {body : List Char}
    (hbody : '\n' ∉ text.toList → newline? body = none) :
    skipFirst ((if text.toList.contains '\n' then "\n" else "").toList ++ body) = body := by
  split
  · rfl
  · next h =>
    have hempty : "".toList ++ body = body := rfl
    rw [skipFirst, hempty, hbody (by simpa using h)]
    rfl

/-- **A text in a form that suits it** is read back. -/
theorem Form.read_write {form : Form} {text : String} (h : form.Shows text.toList)
    (hd : rest.head? ≠ some '"') (hs : rest.head? ≠ some '\'') :
    text? ((write form text).toList ++ rest) = some (text, rest) := by
  have htext : "" ++ String.ofList text.toList = text := String.toList_injective (by simp)
  -- A form of one line must not look like one of several: its text does not start with two more quotes.
  -- In a form of several lines, a line feed at the start of the text must not be taken for the one in front.
  cases form with
  | basic =>
    have hwritten : (write basic text).toList ++ rest = '"' :: (inside false 0 text.toList ++ '"' :: rest) := by
      simp [write, delimiter, isLong, hasEscapes, inside]
    have hshort : ∀ more, inside false 0 text.toList ++ '"' :: rest ≠ '"' :: '"' :: more := by
      intro more he
      have hhead := head?_inside_ne_quote false 0 text.toList (by simp)
      cases hin : inside false 0 text.toList with
      | nil =>
        rw [hin, List.nil_append] at he
        exact hd (by rw [(List.cons.inj he).2]; rfl)
      | cons d tail =>
        rw [hin, List.cons_append] at he
        exact hhead (by rw [hin, (List.cons.inj he).1]; rfl)
    rw [hwritten, text?_of_short (fun more he => hshort more (List.cons.inj he).2) (by simp)]
    have hlength := length_le_inside false 0 text.toList
    rw [short?, basic?_inside (by simp; omega), htext]
  | literal =>
    have hwritten : (write literal text).toList ++ rest = '\'' :: (text.toList ++ '\'' :: rest) := by
      simp [write, delimiter, isLong, hasEscapes]
    have hshort : ∀ more, text.toList ++ '\'' :: rest ≠ '\'' :: '\'' :: more := by
      intro more he
      cases hin : text.toList with
      | nil =>
        rw [hin, List.nil_append] at he
        exact hs (by rw [(List.cons.inj he).2]; rfl)
      | cons d tail =>
        rw [hin, List.cons_append] at he
        exact (h d (by rw [hin]; exact List.mem_cons_self)).1 (List.cons.inj he).1
    rw [hwritten, text?_of_short (by simp) (fun more he => hshort more (List.cons.inj he).2), short?,
      literal?_append h, htext]
  | longBasic =>
    have hwritten : (write longBasic text).toList ++ rest = '"' :: '"' :: '"' ::
        ((if text.toList.contains '\n' then "\n" else "").toList ++
          (inside true 0 text.toList ++ '"' :: '"' :: '"' :: rest)) := by
      simp [write, delimiter, isLong, hasEscapes, inside]
    have hline (hn : '\n' ∉ text.toList) :
        newline? (inside true 0 text.toList ++ '"' :: '"' :: '"' :: rest) = none := by
      cases hin : text.toList with
      | nil => rfl
      | cons c cs =>
        obtain ⟨d, es, quotes', heq, hfirst⟩ := exists_inside_cons true 0 c cs
        have hc : c ≠ '\n' := fun e => hn (by rw [hin, e]; exact List.mem_cons_self)
        rw [heq]
        refine newline?_of_plain ?_
        obtain rfl | ⟨rfl, -, hplain⟩ := hfirst
        · rfl
        · by_cases hq : d = '"'
          · rw [hq]
            rfl
          · exact (hplain hq).resolve_right hc
    have hlength := length_le_inside true 0 text.toList
    rw [hwritten, text?, skipFirst_eq hline, long?_inside hd (by simp; omega), htext]
  | longLiteral =>
    have hwritten : (write longLiteral text).toList ++ rest = '\'' :: '\'' :: '\'' ::
        ((if text.toList.contains '\n' then "\n" else "").toList ++
          (text.toList ++ '\'' :: '\'' :: '\'' :: rest)) := by
      simp [write, delimiter, isLong, hasEscapes]
    have hline (hn : '\n' ∉ text.toList) :
        newline? (text.toList ++ '\'' :: '\'' :: '\'' :: rest) = none := by
      cases hin : text.toList with
      | nil => rfl
      | cons c cs =>
        have hmem : c ∈ text.toList := by rw [hin]; exact List.mem_cons_self
        exact newline?_of_plain ((h.1 c hmem).resolve_right fun e => hn (e ▸ hmem))
    rw [hwritten, text?, skipFirst_eq hline, long?_append hs (by simp; omega) h.1 h.2, htext]

/-- **The form that is picked** suits the text. -/
theorem Form.shows_ofTraits (cs : List Char) : (Form.ofTraits (traits cs)).Shows cs := by
  have hplain (hcontrol : cs.any isControl = false) : ∀ c ∈ cs, isPlain c = true ∨ c = '\n' := by
    intro c hc
    by_cases hn : c = '\n'
    · exact .inr hn
    · exact .inl (isPlain_of_not_isControl (by simpa using List.any_eq_false.1 hcontrol c hc) hn)
  have hsuits (form : Form) (h : Form.suits (traits cs) form = true) : form.Shows cs := by
    cases form with
    | basic => trivial
    | longBasic => trivial
    | literal =>
      simp only [suits, traits, Bool.and_eq_true, Bool.not_eq_true'] at h
      obtain ⟨⟨hcontrol, hquotes⟩, hn⟩ := h
      intro c hc
      have hne : c ≠ '\n' := by
        rintro rfl
        simp [hc] at hn
      refine ⟨?_, (hplain hcontrol c hc).resolve_right hne⟩
      rintro rfl
      have hone : List.replicate 1 '\'' <:+: cs := by simpa [List.singleton_infix_iff] using hc
      exact absurd (le_longestRun hone) (by rw [of_decide_eq_true hquotes]; decide)
    | longLiteral =>
      simp only [suits, traits, Bool.and_eq_true, Bool.not_eq_true'] at h
      have hquotes : longestRun '\'' cs ≤ 2 := of_decide_eq_true h.2
      exact ⟨hplain h.1, fun hin => absurd (le_longestRun hin) (Nat.not_le.2 (Nat.lt_succ_of_le hquotes))⟩
  -- If none of the preferred forms suits, one with escapes is taken.
  unfold ofTraits
  cases hfind : preferred.find? (suits (traits cs)) with
  | some form => exact hsuits form (List.find?_some hfind)
  | none =>
    dsimp only
    split <;> trivial

/-- **Strings are read back** however they are written. -/
theorem faithful_quote : Faithful quote :=
  fun text _ hd hs => Form.read_write (Form.shows_ofTraits text.toList) hd hs

end DeployScript.Toml
