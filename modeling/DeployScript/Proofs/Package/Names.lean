import DeployScript.Package.CrateName
import Mathlib.Data.List.Infix

/-!
# Names of packages are well formed

Whatever text a name is made of, words of lower-case letters, digits and underscores come out, with single
hyphens between them.

* `WellFormed` — what a name has to look like, said of its characters.
* `Hyphened` — the same of words of which the first may start with a digit, said by how they are put together.
* `pass` — the words of a text in one pass, which neither looks at what it has written nor trims it;
  `words_eq_pass` says that they are the same.
* `ofText_of_wellFormed` — a well-formed name stays as it is, so that a name made of a name is that name.
-/

namespace DeployScript.CrateName

/-- **A character of a word in a name:** a lower-case ASCII letter, a digit or an underscore. -/
def IsNameChar (c : Char) : Prop := ('a' ≤ c ∧ c ≤ 'z') ∨ ('0' ≤ c ∧ c ≤ '9') ∨ c = '_'

/-- **A well-formed name.** -/
structure WellFormed (name : String) : Prop where
  nonempty : name ≠ ""
  chars : ∀ c ∈ name.toList, IsNameChar c ∨ c = '-'
  /-- It starts with a letter or an underscore. -/
  first : ∀ c ∈ name.toList.head?, ('a' ≤ c ∧ c ≤ 'z') ∨ c = '_'
  leading : name.toList.head? ≠ some '-'
  trailing : name.toList.getLast? ≠ some '-'
  doubled : ¬ ['-', '-'] <:+: name.toList

/-- **Words** with single hyphens between them. -/
inductive Hyphened : List Char → Prop
  | single {c : Char} (hc : IsNameChar c) : Hyphened [c]
  | next {c : Char} {cs : List Char} (hc : IsNameChar c) (hcs : Hyphened cs) : Hyphened (c :: cs)
  | hyphen {c : Char} {cs : List Char} (hc : IsNameChar c) (hcs : Hyphened cs) :
    Hyphened (c :: '-' :: cs)

/-! ### Characters -/

/-- What is kept of a text are the characters of names, and capital letters. -/
theorem isWordChar_iff {c : Char} : isWordChar c = true ↔ ('A' ≤ c ∧ c ≤ 'Z') ∨ IsNameChar c := by
  unfold isWordChar IsNameChar Char.isAlphanum Char.isAlpha Char.isUpper Char.isLower Char.isDigit
  simp only [Bool.or_eq_true, Bool.and_eq_true, decide_eq_true_eq, Char.le_def, ge_iff_le, or_assoc]

theorem toLower_of_capital {c : Char} (hc : 'A' ≤ c ∧ c ≤ 'Z') :
    'a' ≤ c.toLower ∧ c.toLower ≤ 'z' := by
  have hval : c.val ≥ 'A'.val ∧ c.val ≤ 'Z'.val := hc
  have hlower : c.toLower.val = c.val + ('a'.val - 'A'.val) := congrArg Char.val (dif_pos hval)
  simp only [ge_iff_le, Char.le_def, hlower, UInt32.le_iff_toNat_le, UInt32.toNat_add] at hval ⊢
  simp at hval ⊢
  omega

theorem toLower_of_not_capital {c : Char} (hc : ¬ ('A' ≤ c ∧ c ≤ 'Z')) : c.toLower = c := by
  have hval : ¬ (c.val ≥ 'A'.val ∧ c.val ≤ 'Z'.val) := hc
  exact dif_neg hval

/-- What is kept of a text is a character of names in lower case. -/
theorem isNameChar_toLower {c : Char} (hc : isWordChar c = true) : IsNameChar c.toLower := by
  by_cases hcapital : 'A' ≤ c ∧ c ≤ 'Z'
  · exact .inl (toLower_of_capital hcapital)
  · rw [toLower_of_not_capital hcapital]
    exact (isWordChar_iff.1 hc).resolve_left hcapital

theorem isDigit_iff {c : Char} : c.isDigit = true ↔ '0' ≤ c ∧ c ≤ '9' := by
  simp only [Char.isDigit, Bool.and_eq_true, decide_eq_true_eq, Char.le_def, ge_iff_le]

namespace IsNameChar

variable {c : Char}

theorem ne_hyphen (hc : IsNameChar c) : c ≠ '-' := by
  rintro rfl
  revert hc
  unfold IsNameChar
  decide

theorem not_capital (hc : IsNameChar c) : ¬ ('A' ≤ c ∧ c ≤ 'Z') := by
  rintro ⟨hlow, hhigh⟩
  rcases hc with ⟨hletter, -⟩ | ⟨-, hdigit⟩ | rfl
  · exact absurd (Char.le_trans hletter hhigh) (by decide)
  · exact absurd (Char.le_trans hlow hdigit) (by decide)
  · exact absurd hhigh (by decide)

/-- A character of names is kept as it is. -/
theorem kept (hc : IsNameChar c) : isWordChar c = true ∧ c.toLower = c :=
  ⟨isWordChar_iff.2 (.inr hc), toLower_of_not_capital hc.not_capital⟩

/-- A character of names that is no digit is a letter or an underscore. -/
theorem starts (hc : IsNameChar c) (hdigit : ¬ c.isDigit = true) :
    ('a' ≤ c ∧ c ≤ 'z') ∨ c = '_' :=
  hc.imp_right fun h => h.resolve_left fun hd => hdigit (isDigit_iff.2 hd)

end IsNameChar

theorem not_isDigit_of_starts {c : Char} (hc : ('a' ≤ c ∧ c ≤ 'z') ∨ c = '_') :
    ¬ c.isDigit = true := by
  rw [isDigit_iff]
  rintro ⟨-, hhigh⟩
  rcases hc with ⟨hletter, -⟩ | rfl
  · exact absurd (Char.le_trans hletter hhigh) (by decide)
  · exact absurd hhigh (by decide)

/-! ### Words -/

/-- What may come behind a character of a word: nothing, more of the word, or a hyphen and words. -/
def Follows (cs : List Char) : Prop :=
  cs = [] ∨ Hyphened cs ∨ ∃ rest, cs = '-' :: rest ∧ Hyphened rest

variable {c : Char} {cs : List Char}

theorem Follows.hyphened (h : Follows cs) (hc : IsNameChar c) : Hyphened (c :: cs) := by
  rcases h with rfl | hcs | ⟨rest, rfl, hrest⟩
  · exact .single hc
  · exact .next hc hcs
  · exact .hyphen hc hrest

/-- The words of a text in one pass. `started` says whether a character has been kept, `pending` whether
one has been left out since. -/
def pass : List Char → (started pending : Bool) → List Char
  | [], _, _ => []
  | c :: rest, started, pending =>
    if isWordChar c then
      (if started && pending then ['-', c.toLower] else [c.toLower]) ++ pass rest true false
    else pass rest started true

theorem pass_follows (cs : List Char) (pending : Bool) : Follows (pass cs true pending) := by
  induction cs generalizing pending with
  | nil => exact .inl rfl
  | cons c cs ih =>
    rw [pass]
    split
    case isTrue hc =>
      have hword := (ih false).hyphened (isNameChar_toLower hc)
      cases pending with
      | false => exact .inr (.inl hword)
      | true => exact .inr (.inr ⟨_, rfl, hword⟩)
    case isFalse => exact ih true

/-- **A text becomes words,** or nothing. -/
theorem pass_hyphened (cs : List Char) (pending : Bool) :
    pass cs false pending = [] ∨ Hyphened (pass cs false pending) := by
  induction cs generalizing pending with
  | nil => exact .inl rfl
  | cons c cs ih =>
    rw [pass]
    split
    case isTrue hc => exact .inr ((pass_follows cs false).hyphened (isNameChar_toLower hc))
    case isFalse => exact ih true

/-- A character of names is kept, behind a hyphen if one is due. -/
theorem pass_cons (hc : IsNameChar c) (cs : List Char) (started pending : Bool) :
    pass (c :: cs) started pending =
      (if started && pending then ['-', c] else [c]) ++ pass cs true false := by
  obtain ⟨hword, hlower⟩ := hc.kept
  rw [pass, if_pos hword, hlower]

namespace Hyphened

/-- **Words stay as they are,** behind a hyphen if one is due. -/
theorem pass_eq (h : Hyphened cs) (started pending : Bool) :
    pass cs started pending = (if started && pending then ['-'] else []) ++ cs := by
  induction h generalizing started pending with
  | single hc =>
    rw [pass_cons hc]
    cases started <;> cases pending <;> rfl
  | next hc _ ih =>
    rw [pass_cons hc, ih]
    cases started <;> cases pending <;> rfl
  | hyphen hc _ ih =>
    have hskip : isWordChar '-' = false := rfl
    rw [pass_cons hc, pass, hskip, if_neg Bool.false_ne_true, ih]
    cases started <;> cases pending <;> rfl

theorem head (h : Hyphened cs) : ∃ c rest, cs = c :: rest ∧ IsNameChar c := by
  cases h with
  | single hc | next hc _ | hyphen hc _ => exact ⟨_, _, rfl, hc⟩

theorem chars (h : Hyphened cs) : ∀ c ∈ cs, IsNameChar c ∨ c = '-' := by
  induction h with
  | single hc => simpa using .inl hc
  | next hc _ ih => exact List.forall_mem_cons.2 ⟨.inl hc, ih⟩
  | hyphen hc _ ih => exact List.forall_mem_cons.2 ⟨.inl hc, List.forall_mem_cons.2 ⟨.inr rfl, ih⟩⟩

theorem getLast?_ne (h : Hyphened cs) : cs.getLast? ≠ some '-' := by
  induction h with
  | single hc => simpa using hc.ne_hyphen
  | @next c cs hc hcs ih =>
    obtain ⟨d, rest, rfl, -⟩ := hcs.head
    rwa [List.getLast?_cons_cons]
  | @hyphen c cs hc hcs ih =>
    obtain ⟨d, rest, rfl, -⟩ := hcs.head
    rwa [List.getLast?_cons_cons, List.getLast?_cons_cons]

theorem not_doubled (h : Hyphened cs) : ¬ ['-', '-'] <:+: cs := by
  induction h with
  | single hc => exact fun hin => absurd hin.length_le (Nat.not_le.2 (Nat.lt_succ_self 1))
  | next hc _ ih =>
    rw [List.infix_cons_iff, List.cons_prefix_cons]
    rintro (⟨heq, -⟩ | hin)
    · exact hc.ne_hyphen heq.symm
    · exact ih hin
  | hyphen hc hcs ih =>
    obtain ⟨d, rest, rfl, hd⟩ := hcs.head
    rw [List.infix_cons_iff, List.infix_cons_iff]
    simp only [List.cons_prefix_cons]
    rintro (⟨heq, -⟩ | ⟨-, heq, -⟩ | hin)
    · exact hc.ne_hyphen heq.symm
    · exact hd.ne_hyphen heq.symm
    · exact ih hin

end Hyphened

/-! ### Looking at what has been written -/

/-- A hyphen, or none. -/
def hyphenIf (pending : Bool) : List Char := if pending then ['-'] else []

theorem getLast?_hyphenIf {front : List Char} {d : Char} (hlast : front.getLast? = some d) (hd : d ≠ '-')
    (pending : Bool) : (front ++ hyphenIf pending).getLast? = some '-' ↔ pending = true := by
  cases pending with
  | true => simp [hyphenIf]
  | false => simpa [hyphenIf, hlast] using hd

/-- Once a word has been started, the pass goes on where the text does. What is written has a hyphen more at
the end if one is due. -/
theorem foldl_add_started (cs : List Char) {out : String} {front : List Char} {d : Char} {pending : Bool}
    (hout : out.toList = front ++ hyphenIf pending) (hlast : front.getLast? = some d) (hd : d ≠ '-') :
    ∃ due, (cs.foldl add out).toList = front ++ pass cs true pending ++ hyphenIf due := by
  induction cs generalizing out front d pending with
  | nil => exact ⟨pending, by rw [pass, List.append_nil]; exact hout⟩
  | cons c cs ih =>
    rw [List.foldl_cons, add, pass]
    by_cases hc : isWordChar c = true
    · -- A hyphen that was due is behind a word now, and what is written ends in no other one.
      rw [if_pos hc, if_pos hc]
      have hpushed : (out.push c.toLower).toList =
          front ++ hyphenIf pending ++ [c.toLower] ++ hyphenIf false := by
        simp [hout, hyphenIf]
      obtain ⟨due, hdue⟩ := ih hpushed List.getLast?_concat (isNameChar_toLower hc).ne_hyphen
      refine ⟨due, hdue.trans ?_⟩
      cases pending <;> simp [hyphenIf]
    · -- Whether a hyphen is due is what the loop reads off the last character.
      rw [if_neg hc, if_neg hc, hout]
      by_cases hpending : pending = true
      · rw [if_pos ((getLast?_hyphenIf hlast hd pending).2 hpending)]
        subst hpending
        exact ih hout hlast hd
      · rw [if_neg (mt (getLast?_hyphenIf hlast hd pending).1 hpending)]
        rw [Bool.not_eq_true] at hpending
        subst hpending
        exact ih (by simp [hout, hyphenIf]) hlast hd

/-- What is written has a hyphen more at the beginning if the text does not start with a word. -/
theorem foldl_add (cs : List Char) {out : String} {pending : Bool} (hout : out.toList = hyphenIf pending) :
    ∃ before due, (cs.foldl add out).toList = hyphenIf before ++ pass cs false pending ++ hyphenIf due := by
  induction cs generalizing out pending with
  | nil => exact ⟨pending, false, by simp [hout, pass, hyphenIf]⟩
  | cons c cs ih =>
    rw [List.foldl_cons, add, pass]
    by_cases hc : isWordChar c = true
    · rw [if_pos hc, if_pos hc]
      have hpushed : (out.push c.toLower).toList = hyphenIf pending ++ [c.toLower] ++ hyphenIf false := by
        simp [hout, hyphenIf]
      obtain ⟨due, hdue⟩ :=
        foldl_add_started cs hpushed List.getLast?_concat (isNameChar_toLower hc).ne_hyphen
      exact ⟨pending, due, hdue.trans (by simp)⟩
    · rw [if_neg hc, if_neg hc]
      cases pending with
      | true => rw [if_pos (by rw [hout]; rfl)]; exact ih hout
      | false => rw [if_neg (by rw [hout]; simp [hyphenIf])]; exact ih (by simp [hout, hyphenIf])

/-- Only the hyphens that are too many are taken off. -/
theorem trim_hyphens (before due : Bool) (h : cs = [] ∨ Hyphened cs) :
    trim (hyphenIf before ++ cs ++ hyphenIf due) = cs := by
  rcases h with rfl | h
  · cases before <;> cases due <;> rfl
  · -- Words start and end in other characters, so both ends are trimmed up to them.
    have hfront : (hyphenIf before ++ cs ++ hyphenIf due).dropWhile (· = '-') = cs ++ hyphenIf due := by
      obtain ⟨c, rest, rfl, hc⟩ := h.head
      cases before <;> simp [hyphenIf, hc.ne_hyphen]
    have hback : (cs ++ hyphenIf due).reverse.dropWhile (· = '-') = cs.reverse := by
      have hne : cs ≠ [] := by
        obtain ⟨c, rest, rfl, -⟩ := h.head
        exact List.cons_ne_nil c rest
      obtain ⟨init, c, rfl⟩ := (List.eq_nil_or_concat' cs).resolve_left hne
      have hc : c ≠ '-' := by
        have := h.getLast?_ne
        simpa using this
      cases due <;> simp [hyphenIf, hc]
    rw [trim, hfront, hback, List.reverse_reverse]

/-- **Trimming what is written gives the words of the pass.** -/
theorem words_eq_pass (text : String) : words text = pass text.toList false false := by
  have hempty : "".toList = hyphenIf false := rfl
  obtain ⟨before, due, h⟩ := foldl_add text.toList hempty
  rw [words, h, trim_hyphens before due (pass_hyphened text.toList false)]

/-- **Characters of names with single hyphens between them** are words. -/
theorem hyphened_of : ∀ cs : List Char, cs ≠ [] → (∀ c ∈ cs, IsNameChar c ∨ c = '-') →
    cs.head? ≠ some '-' → cs.getLast? ≠ some '-' → ¬ ['-', '-'] <:+: cs → Hyphened cs
  | [], hne, _, _, _, _ => absurd rfl hne
  | [c], _, hchars, hhead, _, _ =>
    .single ((hchars c List.mem_cons_self).resolve_right fun he => hhead (congrArg some he))
  | c :: d :: rest, _, hchars, hhead, hlast, hdoubled => by
    obtain ⟨hc, hchars⟩ := List.forall_mem_cons.1 hchars
    have hc : IsNameChar c := hc.resolve_right fun he => hhead (congrArg some he)
    rw [List.getLast?_cons_cons] at hlast
    have hdoubled : ¬ ['-', '-'] <:+: d :: rest := fun hin => hdoubled (List.infix_cons hin)
    by_cases hd : d = '-'
    · -- Words follow the hyphen: it is not the last character, and no second one follows it.
      subst hd
      rw [List.infix_cons_iff, not_or] at hdoubled
      cases rest with
      | nil => exact absurd rfl hlast
      | cons e rest =>
        rw [List.getLast?_cons_cons] at hlast
        have hhead : (e :: rest).head? ≠ some '-' := by
          intro he
          obtain rfl : e = '-' := Option.some.inj he
          exact hdoubled.1 ⟨rest, rfl⟩
        exact .hyphen hc (hyphened_of (e :: rest) (List.cons_ne_nil _ _)
          (List.forall_mem_cons.1 hchars).2 hhead hlast hdoubled.2)
    · exact .next hc (hyphened_of (d :: rest) (List.cons_ne_nil _ _) hchars
        (fun he => hd (Option.some.inj he)) hlast hdoubled)

/-! ### Names -/

/-- Words make a name if the first of them does not start with a digit. -/
theorem Hyphened.wellFormed (h : Hyphened (c :: cs)) (hdigit : ¬ c.isDigit = true) :
    WellFormed (String.ofList (c :: cs)) := by
  obtain ⟨_, _, ⟨⟩, hc⟩ := h.head
  have hlist : (String.ofList (c :: cs)).toList = c :: cs := String.toList_ofList
  refine ⟨fun he => ?_, ?_, ?_, ?_, ?_, ?_⟩
  · rw [he] at hlist
    cases hlist
  · rw [hlist]
    exact h.chars
  · rw [hlist]
    rintro _ ⟨⟩
    exact hc.starts hdigit
  · rw [hlist]
    exact fun he => hc.ne_hyphen (Option.some.inj he)
  · rw [hlist]
    exact h.getLast?_ne
  · rw [hlist]
    exact h.not_doubled

/-- The name where a text has no words is made of words. -/
theorem hyphened_fallback : Hyphened fallback.toList := by
  have hpass : pass fallback.toList false false = fallback.toList := by decide
  have hnonempty : fallback.toList ≠ [] := by decide
  rw [← hpass]
  exact (pass_hyphened fallback.toList false).resolve_left (hpass ▸ hnonempty)

theorem wellFormed_startWithLetter (h : cs = [] ∨ Hyphened cs) : WellFormed (startWithLetter cs) := by
  unfold startWithLetter
  split
  case h_1 =>
    have hlist : fallback.toList = 'g' :: "script-artifact".toList := by decide
    have hname := hyphened_fallback
    rw [hlist] at hname
    rw [← String.ofList_toList (s := fallback), hlist]
    exact hname.wellFormed (by decide)
  case h_2 c rest =>
    have hcs := h.resolve_left (List.cons_ne_nil c rest)
    split
    case isTrue =>
      have hname : Hyphened ('g' :: 's' :: '-' :: c :: rest) :=
        .next (.inl (by decide)) (.hyphen (.inl (by decide)) hcs)
      have htext : "gs-" ++ String.ofList (c :: rest) =
          String.ofList ('g' :: 's' :: '-' :: c :: rest) := by
        rw [← String.toList_inj]
        simp
      rw [htext]
      exact hname.wellFormed (by decide)
    case isFalse hdigit => exact hcs.wellFormed hdigit

/-- **A well-formed name stays as it is.** -/
theorem ofText_of_wellFormed {name : String} (h : WellFormed name) : ofText name = name := by
  have hne : name.toList ≠ [] := fun he => h.nonempty (String.toList_inj.1 (by simpa using he))
  have hcs := hyphened_of name.toList hne h.chars h.leading h.trailing h.doubled
  obtain ⟨c, rest, hlist, -⟩ := hcs.head
  have hdigit : ¬ c.isDigit = true := not_isDigit_of_starts (h.first c (by rw [hlist]; rfl))
  rw [ofText, words_eq_pass, hcs.pass_eq]
  rw [hlist]
  show startWithLetter (c :: rest) = name
  rw [startWithLetter, if_neg hdigit, ← hlist, String.ofList_toList]

/-- **Names are well formed,** whatever text they are made of. A text stays as it is if and only if it is a
well-formed name, and so does a name. -/
theorem names_wellFormed (text : String) :
    WellFormed (ofText text) ∧ ofText (ofText text) = ofText text ∧
      (ofText text = text ↔ WellFormed text) := by
  have h : WellFormed (ofText text) := by
    rw [ofText, words_eq_pass]
    exact wellFormed_startWithLetter (pass_hyphened _ _)
  exact ⟨h, ofText_of_wellFormed h, fun he => he ▸ h, ofText_of_wellFormed⟩

end DeployScript.CrateName
