import DeployScript.Host.Builtin
import DeployScript.Package.Basic
import Mathlib.Tactic.SplitIfs

/-!
# Reading a generated program back

What the text of `Package.program` says: its builtins, the constant and the file of each asset, and
the table from names to constants. The text is read line by line, without looking at how it was
made.

* `Generated.literal?` reads a string literal. It undoes `Text.quoted` (`Generated.string?_quoted`).
* `Generated.read?` reads a program, and `Generated.load?` fills the table of assets as the program
  does when it starts.
* `Generated.read?_program` and `Generated.load?_eq` are the results.
-/

namespace DeployScript

/-! ### Literals -/

namespace Generated

/-- The value of a lower-case digit to base 16. -/
def digitValue (c : Char) : Nat :=
  if c.isDigit then c.toNat - '0'.toNat else c.toNat - 'a'.toNat + 10

/-- The number that digits to base 16 write. -/
def numberOf (digits : List Char) : Nat := digits.foldl (fun n c => 16 * n + digitValue c) 0

/-- What a letter behind a backslash stands for. -/
def escaped? : Char → Option Char
  | '0' => some '\x00'
  | 't' => some '\t'
  | 'r' => some '\r'
  | 'n' => some '\n'
  | '\\' => some '\\'
  | '"' => some '"'
  | '\'' => some '\''
  | _ => none

/-- Reads a string literal behind its first quote: its characters, and what follows the last
quote. -/
@[grind]
def literal? : List Char → Option (List Char × List Char)
  | [] => none
  | '"' :: rest => some ([], rest)
  | '\\' :: 'u' :: '\x7b' :: rest =>
    match (literal? ((rest.dropWhile (· != '\x7d')).drop 1)) with
    | some (text, after) =>
      some (Char.ofNat (numberOf (rest.takeWhile (· != '\x7d'))) :: text, after)
    | none => none
  | '\\' :: c :: rest =>
    match escaped? c, literal? rest with
    | some c, some (text, after) => some (c :: text, after)
    | _, _ => none
  | c :: rest =>
    match literal? rest with
    | some (text, after) => some (c :: text, after)
    | none => none
termination_by cs => cs.length
decreasing_by
  · have := (List.dropWhile_sublist (l := rest) (· != '\x7d')).length_le
    simp only [List.length_drop, List.length_cons]
    omega
  · simp only [List.length_cons]
    omega
  · simp only [List.length_cons]
    omega

section Until

variable {α : Type} [BEq α] [LawfulBEq α] {a : α} {before : List α}

/-- What stands in front of the first of its kind. -/
theorem takeWhile_until (h : a ∉ before) (rest : List α) :
    (before ++ a :: rest).takeWhile (· != a) = before := by
  have hne : ∀ x ∈ before, (x != a) = true := fun x hx => by
    simpa using fun e : x = a => h (e ▸ hx)
  rw [List.takeWhile_append_of_pos hne]
  simp

@[inherit_doc takeWhile_until]
theorem dropWhile_until (h : a ∉ before) (rest : List α) :
    (before ++ a :: rest).dropWhile (· != a) = a :: rest := by
  have hne : ∀ x ∈ before, (x != a) = true := fun x hx => by
    simpa using fun e : x = a => h (e ▸ hx)
  rw [List.dropWhile_append_of_pos hne]
  simp

end Until

theorem numberOf_toDigits (n : Nat) : numberOf (Nat.toDigits 16 n) = n := by
  have hdigit : ∀ d < 16, digitValue (Nat.digitChar d) = d := by decide
  induction n using Nat.strongRecOn with
  | ind n ih =>
    rw [Nat.toDigits_eq_if (by decide)]
    split
    · next h => simpa [numberOf] using hdigit n h
    · next h =>
      rw [numberOf, List.foldl_append, ← numberOf, ih (n / 16) (by omega)]
      simp only [List.foldl_cons, List.foldl_nil, hdigit (n % 16) (Nat.mod_lt n (by decide))]
      exact Nat.div_add_mod n 16

theorem mem_toDigits {c : Char} {n : Nat} (h : c ∈ Nat.toDigits 16 n) :
    ∃ d < 16, c = Nat.digitChar d := by
  induction n using Nat.strongRecOn with
  | ind n ih =>
    rw [Nat.toDigits_eq_if (by decide)] at h
    split at h
    · next hn => exact ⟨n, hn, List.mem_singleton.1 h⟩
    · rcases List.mem_append.1 h with h | h
      · exact ih (n / 16) (by omega) h
      · exact ⟨n % 16, Nat.mod_lt n (by decide), List.mem_singleton.1 h⟩

/-- A digit is none of the characters that have a meaning of their own. -/
theorem not_mem_toDigits {c : Char} (h : c.isAlphanum = false) (n : Nat) :
    c ∉ Nat.toDigits 16 n := by
  intro hmem
  obtain ⟨d, hd, rfl⟩ := mem_toDigits hmem
  have halpha : ∀ d < 16, (Nat.digitChar d).isAlphanum = true := by decide
  rw [halpha d hd] at h
  cases h

theorem literal?_escaped {c d : Char} (h : escaped? c = some d) (rest : List Char) :
    literal? ('\\' :: c :: rest) = (literal? rest).map fun x => (d :: x.1, x.2) := by
  have hu : c ≠ 'u' := by
    rintro rfl
    cases h
  rw [literal?, h]
  · cases literal? rest <;> rfl
  · intro _ hc
    exact absurd hc hu

theorem literal?_number (n : Nat) (rest : List Char) :
    literal? ('\\' :: 'u' :: '\x7b' :: (Nat.toDigits 16 n ++ '\x7d' :: rest)) =
      (literal? rest).map fun x => (Char.ofNat n :: x.1, x.2) := by
  have hdigits : '\x7d' ∉ Nat.toDigits 16 n := not_mem_toDigits (by decide) n
  rw [literal?, takeWhile_until hdigits, dropWhile_until hdigits, numberOf_toDigits]
  simp only [List.drop_succ_cons, List.drop_zero]
  cases literal? rest <;> rfl

theorem literal?_self {c : Char} (hb : c ≠ '\\') (hq : c ≠ '"') (rest : List Char) :
    literal? (c :: rest) = (literal? rest).map fun x => (c :: x.1, x.2) := by
  rw [literal?]
  · cases literal? rest <;> rfl
  · exact fun h => hq h
  · exact fun _ h => absurd h hb
  · exact fun _ _ h => absurd h hb

/-- A character as it is quoted is read as that character. -/
theorem literal?_quotedChar (c : Char) (rest : List Char) :
    literal? ((Text.quotedChar c).toList ++ rest) =
      (literal? rest).map fun x => (c :: x.1, x.2) := by
  unfold Text.quotedChar
  split_ifs with h₁ h₂ h₃ h₄ h₅ h₆ h₇
  · exact h₁ ▸ literal?_escaped (by rfl) rest
  · exact h₂ ▸ literal?_escaped (by rfl) rest
  · exact h₃ ▸ literal?_escaped (by rfl) rest
  · exact h₄ ▸ literal?_escaped (by rfl) rest
  · exact h₅ ▸ literal?_escaped (by rfl) rest
  · exact h₆ ▸ literal?_escaped (by rfl) rest
  · have htext : ("\\u\x7b" ++ Text.hexadecimal c.toNat ++ "\x7d").toList ++ rest =
        '\\' :: 'u' :: '\x7b' :: (Nat.toDigits 16 c.toNat ++ '\x7d' :: rest) := by
      simp [Text.hexadecimal, String.toList_append]
    rw [htext, literal?_number, Char.ofNat_toNat]
  · rw [String.toList_singleton]
    exact literal?_self h₅ h₆ rest

/-- The characters of a text as they are quoted. -/
theorem toList_quoted (s : String) :
    (Text.quoted s).toList =
      '"' :: (s.toList.flatMap fun c => (Text.quotedChar c).toList) ++ ['"'] := by
  have hfold (cs : List Char) (out : String) :
      (cs.foldl (fun out c => out ++ Text.quotedChar c) out).toList =
        out.toList ++ cs.flatMap fun c => (Text.quotedChar c).toList := by
    induction cs generalizing out with
    | nil => simp
    | cons c cs ih => simp [ih, String.toList_append, List.append_assoc]
  simp [Text.quoted, String.toList_append, String.foldl_eq_foldl_toList, hfold]

theorem literal?_flatMap (cs rest : List Char) :
    literal? ((cs.flatMap fun c => (Text.quotedChar c).toList) ++ '"' :: rest) =
      some (cs, rest) := by
  induction cs with
  | nil => simp [literal?]
  | cons c cs ih => rw [List.flatMap_cons, List.append_assoc, literal?_quotedChar, ih]; rfl

/-! ### Lines -/

/-- What follows a fixed text. -/
def after? (fixed : String) (cs : List Char) : Option (List Char) :=
  if fixed.toList.isPrefixOf cs then some (cs.drop fixed.toList.length) else none

/-- Reads a string literal. -/
def string? (cs : List Char) : Option (String × List Char) := do
  let (text, rest) ← literal? (← after? "\"" cs)
  return (String.ofList text, rest)

theorem length_literal? {cs text rest : List Char} (h : literal? cs = some (text, rest)) :
    rest.length < cs.length := by
  fun_induction literal? cs generalizing text with
  | case1 => cases h
  | case2 rest' => cases h; simp
  | case3 rest' text' after he ih =>
    cases h
    have := ih he
    have hdrop := (List.dropWhile_sublist (l := rest') (· != '\x7d')).length_le
    simp at this ⊢
    omega
  | case4 => cases h
  | case5 =>
    rename_i hl _ ih
    cases h
    have := ih hl
    simp
    omega
  | case6 => cases h
  | case7 c rest' _ _ _ text' after he ih =>
    cases h
    have := ih he
    simp
    omega
  | case8 => cases h

theorem length_after? {fixed : String} {cs rest : List Char} (h : after? fixed cs = some rest) :
    rest.length ≤ cs.length := by
  unfold after? at h
  split at h
  · cases h
    simp
  · cases h

theorem length_string? {cs rest : List Char} {text : String}
    (h : string? cs = some (text, rest)) : rest.length < cs.length := by
  unfold string? at h
  cases hq : after? "\"" cs with
  | none => simp [hq] at h
  | some inner =>
    cases hl : literal? inner with
    | none => simp [hq, hl] at h
    | some x =>
      simp only [hq, hl, Option.bind_eq_bind, Option.bind_some, Option.pure_def,
        Option.some.injEq, Prod.mk.injEq] at h
      have := length_after? hq
      have := length_literal? hl
      rw [← h.2]
      omega

/-- Reads string literals with commas between them up to the end of an array. -/
def elements? (cs : List Char) : Option (List String) :=
  if cs = "];".toList then some []
  else
    match _hs : string? cs with
    | none => none
    | some (name, rest) =>
      if rest = "];".toList then some [name]
      else
        match _hr : after? ", " rest with
        | none => none
        | some next => (elements? next).map (name :: ·)
termination_by cs.length
decreasing_by
  have := length_string? _hs
  have := length_after? _hr
  omega

/-- The builtins of a program. -/
def builtins? (line : List Char) : Option (List String) := do
  elements? (← after? "const BUILTINS: &[&str] = &[" line)

/-- The constant of an asset and the file that it holds. -/
def constant? (line : List Char) : Option (String × String) := do
  let cs ← after? "const " line
  let name := cs.takeWhile (· != ':')
  let (file, rest) ← string? (← after? ": &[u8] = include_bytes!(" (cs.drop name.length))
  if rest = ");".toList then some (String.ofList name, file) else none

/-- The name of an asset in the table, and its constant. -/
def row? (line : List Char) : Option (String × String) := do
  let (name, rest) ← string? (← after? "    (" line)
  let cs ← after? ", " rest
  let constant := cs.takeWhile (· != ')')
  if cs.drop constant.length = "),".toList then some (name, String.ofList constant) else none

theorem after?_append (fixed : String) (cs : List Char) :
    after? fixed (fixed.toList ++ cs) = some cs := by
  simp [after?]

theorem after?_of_getElem? {fixed : String} {cs : List Char} {i : Nat} {a b : Char}
    (hf : fixed.toList[i]? = some a) (hc : cs[i]? = some b) (h : a ≠ b) : after? fixed cs = none := by
  unfold after?
  rw [if_neg]
  intro hp
  obtain ⟨rest, rfl⟩ := List.isPrefixOf_iff_prefix.1 hp
  have hi : i < fixed.toList.length := (List.getElem?_eq_some_iff.1 hf).1
  rw [List.getElem?_append_left hi, hf] at hc
  exact h (Option.some.inj hc)

/-- **A quoted text** is read as that text. -/
theorem string?_quoted (s : String) (rest : List Char) :
    string? ((Text.quoted s).toList ++ rest) = some (s, rest) := by
  have htext : (Text.quoted s).toList ++ rest = "\"".toList ++
      ((s.toList.flatMap fun c => (Text.quotedChar c).toList) ++ '"' :: rest) := by
    simp [toList_quoted]
  rw [string?, htext, after?_append]
  simp [literal?_flatMap]

theorem elements?_last {cs : List Char} {name : String} (hne : cs ≠ "];".toList)
    (h : string? cs = some (name, "];".toList)) : elements? cs = some [name] := by
  rw [elements?, if_neg hne]
  split
  · next hs => rw [h] at hs; cases hs
  · next hs =>
    rw [h, Option.some.injEq, Prod.mk.injEq] at hs
    rw [← hs.1, ← hs.2, if_pos rfl]

theorem elements?_cons {cs next : List Char} {name : String} (hne : cs ≠ "];".toList)
    (h : string? cs = some (name, ", ".toList ++ next)) :
    elements? cs = (elements? next).map (name :: ·) := by
  rw [elements?, if_neg hne]
  split
  · next hs => rw [h] at hs; cases hs
  · next hs =>
    rw [h, Option.some.injEq, Prod.mk.injEq] at hs
    obtain ⟨rfl, rfl⟩ := hs
    rw [if_neg (by simp)]
    split
    · next hr => rw [after?_append] at hr; cases hr
    · next hr =>
      rw [after?_append, Option.some.injEq] at hr
      rw [hr]

theorem elements?_intercalate (names : List String) :
    elements? ((", ".intercalate (names.map Text.quoted)).toList ++ "];".toList) =
      some names := by
  induction names with
  | nil => simp [elements?]
  | cons name names ih =>
    have hquote (rest : List Char) : (Text.quoted name).toList ++ rest ≠ "];".toList := by
      simp [toList_quoted]
    cases names with
    | nil =>
      rw [List.map_singleton, String.intercalate_singleton]
      exact elements?_last (hquote _) (string?_quoted _ _)
    | cons next names =>
      have htext : (", ".intercalate ((name :: next :: names).map Text.quoted)).toList ++
          "];".toList = (Text.quoted name).toList ++ (", ".toList ++
            ((", ".intercalate ((next :: names).map Text.quoted)).toList ++ "];".toList)) := by
        simp only [List.map_cons, String.intercalate_cons_cons, String.toList_append,
          List.append_assoc]
      rw [htext, elements?_cons (hquote _) (string?_quoted _ _), ih]
      rfl

/-- The line of a constant gives its name and its file. -/
theorem constant?_constantLine (e : Embedded) (h : ':' ∉ e.constant.toList) :
    constant? (Package.constantLine e).toList = some (e.constant, "../" ++ e.file) := by
  have htext : (Package.constantLine e).toList = "const ".toList ++ (e.constant.toList ++
      (": &[u8] = include_bytes!(".toList ++ ((Text.quoted ("../" ++ e.file)).toList ++
        ");".toList))) := by
    simp only [Package.constantLine, String.toList_append, List.append_assoc]
  have hname (rest : List Char) :
      (e.constant.toList ++ (": &[u8] = include_bytes!(".toList ++ rest)).takeWhile (· != ':') =
        e.constant.toList := takeWhile_until h _
  rw [htext, constant?, after?_append]
  simp only [Option.bind_eq_bind, Option.bind_some, hname, List.drop_left, after?_append,
    string?_quoted, if_true, String.ofList_toList]

/-- The line of the table gives the name of an asset and its constant. -/
theorem row?_tableLine (e : Embedded) (h : ')' ∉ e.constant.toList) :
    row? (Package.tableLine e).toList = some (e.name, e.constant) := by
  have htext : (Package.tableLine e).toList = "    (".toList ++ ((Text.quoted e.name).toList ++
      (", ".toList ++ (e.constant.toList ++ "),".toList))) := by
    simp only [Package.tableLine, String.toList_append, List.append_assoc]
  have hname : (e.constant.toList ++ "),".toList).takeWhile (· != ')') = e.constant.toList :=
    takeWhile_until h _
  rw [htext, row?, after?_append]
  simp only [Option.bind_eq_bind, Option.bind_some, string?_quoted, after?_append, hname,
    List.drop_left, if_true, String.ofList_toList]

end Generated

/-! ### Programs -/

/-- What a program says of its builtins and its assets. -/
structure Generated where
  builtins : List String
  constants : List (String × String)
  table : List (String × String)

namespace Generated

/-- The line in front of the table of assets. -/
def tableHead : List Char := "const ASSETS: &[(&str, &[u8])] = &[".toList

/-- The line behind the table of assets. -/
def tableEnd : List Char := "];".toList

/-- **Reads a program.** Every line of the table has to be an asset with its constant. -/
def read? (text : String) : Option Generated := do
  let lines := text.toList.splitOn '\n'
  let builtins ← lines.findSome? builtins?
  let table ← (((lines.dropWhile (· != tableHead)).drop 1).takeWhile (· != tableEnd)).mapM row?
  return { builtins, constants := lines.filterMap constant?, table }

/-- The lines of a program. -/
def lines (p : Package) : List String :=
  p.programHead ++ p.embedded.map Package.constantLine ++
    ["", "const ASSETS: &[(&str, &[u8])] = &["] ++ p.embedded.map Package.tableLine ++ ["];"] ++
    p.programBody

theorem program_eq (p : Package) : p.program = String.join ((lines p).map (· ++ "\n")) := rfl

theorem splitOn_join {ls : List String} (h : ∀ l ∈ ls, '\n' ∉ l.toList) :
    (String.join (ls.map (· ++ "\n"))).toList.splitOn '\n' = ls.map String.toList ++ [[]] := by
  induction ls with
  | nil => rfl
  | cons l ls ih =>
    rw [List.forall_mem_cons] at h
    have htext : (String.join ((l :: ls).map (· ++ "\n"))).toList =
        l.toList ++ '\n' :: (String.join (ls.map (· ++ "\n"))).toList := by
      simp [String.toList_join, String.toList_append]
    rw [htext, List.splitOn_append_cons_self_of_not_mem h.1, ih h.2]
    rfl

/-- A line that says nothing of builtins or assets. -/
def Silent (line : List Char) : Prop :=
  '\n' ∉ line ∧ builtins? line = none ∧ constant? line = none ∧ line ≠ tableHead

instance (line : List Char) : Decidable (Silent line) :=
  inferInstanceAs (Decidable (_ ∧ _ ∧ _ ∧ _))

/-! ### The lines of a program -/

theorem newline_not_mem_quoted (s : String) : '\n' ∉ (Text.quoted s).toList := by
  have hchar (c : Char) : '\n' ∉ (Text.quotedChar c).toList := by
    unfold Text.quotedChar
    split_ifs with h₁ h₂ h₃ h₄ h₅ h₆ h₇
    iterate 6 decide
    · have := not_mem_toDigits (c := '\n') (by decide) c.toNat
      simp [Text.hexadecimal, this]
    · simpa using Ne.symm h₄
  rw [toList_quoted]
  simp [hchar]

theorem toList_between (before text after : String) :
    (before ++ text ++ after).toList = before.toList ++ (text.toList ++ after.toList) := by
  rw [String.toList_append, String.toList_append, List.append_assoc]

theorem ne_tableHead {cs : List Char} {i : Nat} {a b : Char} (ht : tableHead[i]? = some a)
    (hc : cs[i]? = some b) (h : a ≠ b) : cs ≠ tableHead := by
  rintro rfl
  exact h (Option.some.inj (ht.symm.trans hc))

/-- A line that starts with a blank says nothing. -/
theorem silent_of_blank {line : List Char} (h : '\n' ∉ line) : Silent (' ' :: line) := by
  refine ⟨by simpa using h, ?_, ?_, ?_⟩
  · rw [builtins?, after?_of_getElem? (i := 0) (a := 'c') (by decide) rfl (by decide)]
    rfl
  · rw [constant?, after?_of_getElem? (i := 0) (a := 'c') (by decide) rfl (by decide)]
    rfl
  · exact ne_tableHead (i := 0) (a := 'c') (by decide) rfl (by decide)

/-- The lines in front of the builtins. -/
def headLines : List String := (Package.programHead default).take 13

/-- The line of the builtins. -/
def builtinsLine (p : Package) : String :=
  "const BUILTINS: &[&str] = &[" ++ p.builtinNames ++ "];"

/-- The lines behind the table of assets, up to the one that names the package. -/
def bodyLines : List String := (Package.programBody default).take 24

/-- The line that names the package. -/
def infoLine (p : Package) : String :=
  "    info!(completed = ?report.completed, " ++ Text.quoted (p.name ++ " finished") ++ ");"

theorem programHead_eq (p : Package) : p.programHead = headLines ++ [builtinsLine p, ""] := rfl

theorem programBody_eq (p : Package) :
    p.programBody = bodyLines ++ [infoLine p, "    Ok(())", "\x7d"] := rfl

theorem silent_headLines : ∀ l ∈ headLines, Silent l.toList := by decide

theorem silent_programBody (p : Package) : ∀ l ∈ p.programBody, Silent l.toList := by
  have hbody : ∀ l ∈ bodyLines, Silent l.toList := by decide
  have hinfo : Silent (infoLine p).toList := by
    have hstart : "    info!(completed = ?report.completed, ".toList =
        ' ' :: "   info!(completed = ?report.completed, ".toList := by decide
    rw [show (infoLine p).toList = _ from toList_between _ _ _, hstart, List.cons_append]
    refine silent_of_blank ?_
    rw [List.mem_append, List.mem_append]
    rintro (h | h | h)
    · exact absurd h (by decide)
    · exact newline_not_mem_quoted _ h
    · exact absurd h (by decide)
  have hend : Silent "    Ok(())".toList ∧ Silent "\x7d".toList := by decide
  rw [programBody_eq]
  intro l hl
  simp only [List.mem_append, List.mem_cons, List.not_mem_nil, or_false] at hl
  rcases hl with hl | rfl | rfl | rfl
  · exact hbody l hl
  · exact hinfo
  · exact hend.1
  · exact hend.2

/-- The line of the builtins gives the builtins. -/
theorem builtins?_builtinsLine (p : Package) :
    builtins? (builtinsLine p).toList = some p.builtins := by
  have htext : (builtinsLine p).toList = "const BUILTINS: &[&str] = &[".toList ++
      (p.builtinNames.toList ++ "];".toList) := toList_between _ _ _
  rw [htext, builtins?, after?_append]
  exact elements?_intercalate p.builtins

theorem builtinsLine_other (p : Package) : '\n' ∉ (builtinsLine p).toList ∧
    constant? (builtinsLine p).toList = none ∧ (builtinsLine p).toList ≠ tableHead := by
  have hnames (names : List String) :
      '\n' ∉ (", ".intercalate (names.map Text.quoted)).toList := by
    induction names with
    | nil => simp
    | cons name names ih =>
      cases names with
      | nil => simpa using newline_not_mem_quoted name
      | cons next names =>
        simp only [List.map_cons, String.intercalate_cons_cons, String.toList_append,
          List.mem_append, not_or]
        exact ⟨⟨newline_not_mem_quoted name, by simp⟩, ih⟩
  have htext : (builtinsLine p).toList = "const BUILTINS: &[&str] = &[".toList ++
      (p.builtinNames.toList ++ "];".toList) := toList_between _ _ _
  refine ⟨?_, ?_, ?_⟩
  · have := hnames p.builtins
    rw [htext, Package.builtinNames, List.mem_append, List.mem_append]
    rintro (h | h | h)
    · exact absurd h (by decide)
    · exact this h
    · exact absurd h (by decide)
  · have hsplit : "const BUILTINS: &[&str] = &[".toList = "const ".toList ++
        ("BUILTINS".toList ++ ':' :: " &[&str] = &[".toList) := by decide
    rw [htext, hsplit, List.append_assoc, List.append_assoc, constant?, after?_append]
    simp only [Option.bind_eq_bind, Option.bind_some, List.cons_append]
    rw [takeWhile_until (by decide), List.drop_left,
      after?_of_getElem? (i := 4) (a := 'u') (b := '&') (by decide) rfl (by decide)]
    rfl
  · rw [htext]
    exact ne_tableHead (i := 6) (a := 'A') (b := 'B') (by decide) rfl (by decide)

section Embedded

variable {e : Embedded} {p : Package}

/-- The constant and the file of an asset are what `Package.embed` makes them. -/
theorem exists_embed (h : e ∈ p.embedded) :
    ∃ asset index, p.assets[index]? = some asset ∧ e = Package.embed asset index := by
  obtain ⟨⟨asset, index⟩, hmem, rfl⟩ := List.mem_map.1 h
  exact ⟨asset, index, List.mem_zipIdx_iff_getElem?.1 hmem, rfl⟩

theorem toList_constant (asset : Asset) (index : Nat) :
    (Package.embed asset index).constant.toList = "ASSET_".toList ++ Nat.toDigits 10 index := by
  rw [Package.embed, String.toList_append, Nat.toString_eq_ofList_toDigits,
    String.toList_ofList (l := Nat.toDigits 10 index)]

theorem not_mem_constant {c : Char} (h : c.isAlphanum = false) (hc : c ≠ '_')
    (he : e ∈ p.embedded) : c ∉ e.constant.toList := by
  obtain ⟨asset, index, -, rfl⟩ := exists_embed he
  rw [toList_constant, List.mem_append]
  rintro (hm | hm)
  · have hall : "ASSET_".toList.all (fun c => c.isAlphanum || c == '_') = true := by
      decide
    have hletter := List.all_eq_true.1 hall c hm
    simp [h, hc] at hletter
  · have := Nat.isDigit_of_mem_toDigits (by decide) (by decide) hm
    rw [Char.isAlphanum, this, Bool.or_true] at h
    cases h

/-- The line of a constant says nothing of builtins. -/
theorem constantLine_other (he : e ∈ p.embedded) :
    '\n' ∉ (Package.constantLine e).toList ∧ builtins? (Package.constantLine e).toList = none ∧
      (Package.constantLine e).toList ≠ tableHead := by
  obtain ⟨asset, index, -, he'⟩ := exists_embed he
  have htext : (Package.constantLine e).toList = "const ".toList ++ (e.constant.toList ++
      (": &[u8] = include_bytes!(".toList ++ ((Text.quoted ("../" ++ e.file)).toList ++
        ");".toList))) := by
    simp only [Package.constantLine, String.toList_append, List.append_assoc]
  have hstart : ∃ rest, (Package.constantLine e).toList = "const ASSET_".toList ++ rest := by
    have hsplit : "const ASSET_".toList = "const ".toList ++ "ASSET_".toList := by decide
    rw [htext, hsplit, he', toList_constant]
    exact ⟨_, by rw [List.append_assoc, List.append_assoc]⟩
  refine ⟨?_, ?_, ?_⟩
  · simp only [htext, List.mem_append, not_or]
    exact ⟨by decide, not_mem_constant (by decide) (by decide) he, by decide +kernel,
      newline_not_mem_quoted _, by decide⟩
  · obtain ⟨rest, h⟩ := hstart
    rw [h, builtins?,
      after?_of_getElem? (i := 6) (a := 'B') (b := 'A') (by decide) rfl (by decide)]
    rfl
  · obtain ⟨rest, h⟩ := hstart
    rw [h]
    exact ne_tableHead (i := 11) (a := 'S') (b := '_') (by decide) rfl (by decide)

/-- The line of the table says nothing outside the table, and does not end it. -/
theorem tableLine_other (he : e ∈ p.embedded) : Silent (Package.tableLine e).toList ∧
    (Package.tableLine e).toList ≠ tableEnd := by
  have htext : (Package.tableLine e).toList = "    (".toList ++ ((Text.quoted e.name).toList ++
      (", ".toList ++ (e.constant.toList ++ "),".toList))) := by
    simp only [Package.tableLine, String.toList_append, List.append_assoc]
  have hblank : "    (".toList = ' ' :: "   (".toList := by decide
  rw [htext, hblank, List.cons_append]
  refine ⟨silent_of_blank ?_, ?_⟩
  · simp only [List.mem_append, not_or]
    exact ⟨by decide, newline_not_mem_quoted _, by decide +kernel,
      not_mem_constant (by decide) (by decide) he, by decide⟩
  · intro h
    have : tableEnd.head? = some ' ' := by rw [← h]; rfl
    exact absurd this (by decide)

end Embedded

/-! ### The whole program -/

theorem findSome?_eq_none {ls : List String} (h : ∀ l ∈ ls, Silent l.toList) :
    (ls.map String.toList).findSome? builtins? = none := by
  rw [List.findSome?_eq_none_iff]
  intro line hline
  obtain ⟨l, hl, rfl⟩ := List.mem_map.1 hline
  exact (h l hl).2.1

theorem filterMap_eq_nil {ls : List String} (h : ∀ l ∈ ls, Silent l.toList) :
    (ls.map String.toList).filterMap constant? = [] := by
  rw [List.filterMap_eq_nil_iff]
  intro line hline
  obtain ⟨l, hl, rfl⟩ := List.mem_map.1 hline
  exact (h l hl).2.2.1

theorem mapM_row? {es : List Embedded} (h : ∀ e ∈ es, ')' ∉ e.constant.toList) :
    (es.map fun e => (Package.tableLine e).toList).mapM row? =
      some (es.map fun e => (e.name, e.constant)) := by
  induction es with
  | nil => rfl
  | cons e es ih =>
    rw [List.forall_mem_cons] at h
    simp [List.mapM_cons, row?_tableLine e h.1, ih h.2]

theorem filterMap_constantLine {es : List Embedded} (h : ∀ e ∈ es, ':' ∉ e.constant.toList) :
    (es.map fun e => (Package.constantLine e).toList).filterMap constant? =
      es.map fun e => (e.constant, "../" ++ e.file) := by
  induction es with
  | nil => rfl
  | cons e es ih =>
    rw [List.forall_mem_cons] at h
    simp [constant?_constantLine e h.1, ih h.2]

/-- **A program says** what its builtins are, which file each constant holds, and which constant
stands for each asset. -/
theorem read?_program (p : Package) :
    read? p.program = some
      { builtins := p.builtins
        constants := p.embedded.map fun e => (e.constant, "../" ++ e.file)
        table := p.embedded.map fun e => (e.name, e.constant) } := by
  -- The program as lines: its head, the builtins, a line for each constant, the table, the rest.
  have hlines : (lines p).map String.toList =
      headLines.map String.toList ++ (builtinsLine p).toList :: [] ::
        ((p.embedded.map fun e => (Package.constantLine e).toList) ++ [] :: tableHead ::
          ((p.embedded.map fun e => (Package.tableLine e).toList) ++ tableEnd ::
            p.programBody.map String.toList)) := by
    simp only [lines, programHead_eq, List.map_append, List.map_cons, List.map_map,
      List.append_assoc, List.cons_append, List.nil_append]
    rfl
  have hplain : '\n' ∉ tableHead ∧ '\n' ∉ tableEnd := by decide
  have hnewline : ∀ line ∈ (lines p).map String.toList, '\n' ∉ line := by
    rw [hlines]
    simp only [List.forall_mem_append, List.forall_mem_cons, List.forall_mem_map]
    exact ⟨fun l hl => (silent_headLines l hl).1, (builtinsLine_other p).1, by simp,
      fun e he => (constantLine_other he).1, by simp, hplain.1,
      fun e he => (tableLine_other he).1.1, hplain.2, fun l hl => (silent_programBody p l hl).1⟩
  -- The table is found by the line that begins it, which no line before it may equal.
  have hbefore : tableHead ∉ headLines.map String.toList ++ (builtinsLine p).toList :: [] ::
      ((p.embedded.map fun e => (Package.constantLine e).toList) ++ [[]]) := by
    simp only [List.mem_append, List.mem_cons, List.mem_map, not_or, List.not_mem_nil]
    refine ⟨?_, (builtinsLine_other p).2.2.symm, by decide, ?_, by decide +kernel, id⟩
    · rintro ⟨l, hl, h⟩
      exact (silent_headLines l hl).2.2.2 h
    · rintro ⟨e, he, h⟩
      exact (constantLine_other he).2.2 h
  have hrows : tableEnd ∉ p.embedded.map fun e => (Package.tableLine e).toList := by
    simp only [List.mem_map, not_exists, not_and]
    exact fun e he h => (tableLine_other he).2 h
  have hnames : ∀ e ∈ p.embedded, ')' ∉ e.constant.toList ∧ ':' ∉ e.constant.toList :=
    fun e he => ⟨not_mem_constant (by decide) (by decide) he,
      not_mem_constant (by decide) (by decide) he⟩
  -- The text ends in a newline, which leaves an empty line behind it.
  have hsplit : p.program.toList.splitOn '\n' = (lines p).map String.toList ++ [[]] := by
    rw [program_eq]
    exact splitOn_join fun l hl => hnewline _ (List.mem_map_of_mem hl)
  have hbuiltins : ((lines p).map String.toList ++ [[]]).findSome? builtins? =
      some p.builtins := by
    rw [hlines, List.append_assoc, List.findSome?_append, findSome?_eq_none silent_headLines,
      Option.none_or, List.cons_append, List.findSome?_cons, builtins?_builtinsLine]
  have htable : (((((lines p).map String.toList ++ [[]]).dropWhile (· != tableHead)).drop
      1).takeWhile (· != tableEnd)).mapM row? =
        some (p.embedded.map fun e => (e.name, e.constant)) := by
    have hassoc : (lines p).map String.toList ++ [[]] =
        (headLines.map String.toList ++ (builtinsLine p).toList :: [] ::
          ((p.embedded.map fun e => (Package.constantLine e).toList) ++ [[]])) ++ tableHead ::
            ((p.embedded.map fun e => (Package.tableLine e).toList) ++ tableEnd ::
              (p.programBody.map String.toList ++ [[]])) := by
      rw [hlines]
      simp only [List.append_assoc, List.cons_append, List.nil_append]
    rw [hassoc, dropWhile_until hbefore, List.drop_succ_cons, List.drop_zero,
      takeWhile_until hrows, mapM_row? fun e he => (hnames e he).1]
  have hconstants : ((lines p).map String.toList ++ [[]]).filterMap constant? =
      p.embedded.map fun e => (e.constant, "../" ++ e.file) := by
    have hempty : constant? [] = none ∧ constant? tableHead = none ∧ constant? tableEnd = none := by
      decide
    have hrest : (p.embedded.map fun e => (Package.tableLine e).toList).filterMap constant? = [] := by
      rw [List.filterMap_eq_nil_iff]
      intro line hline
      obtain ⟨e, he, rfl⟩ := List.mem_map.1 hline
      exact (tableLine_other he).1.2.2.1
    rw [hlines]
    simp only [List.filterMap_append, List.filterMap_cons, List.filterMap_nil,
      filterMap_eq_nil silent_headLines, (builtinsLine_other p).2.1, hempty, hrest,
      filterMap_constantLine fun e he => (hnames e he).2,
      filterMap_eq_nil (silent_programBody p), List.nil_append, List.append_nil]
  unfold read?
  simp only [hsplit, hbuiltins, htable, hconstants, Option.bind_eq_bind, Option.bind_some,
    Option.pure_def]

/-! ### Loading the assets -/

/-- **Fills the table of assets** as the program does: each name gets the bytes of the file that
its constant holds. -/
def load? (g : Generated) (include? : String → Option (List UInt8)) : Option Assets :=
  g.table.foldlM (fun (assets : Assets) (row : String × String) => do
    let file ← g.constants.lookup row.2
    let bytes ← include? file
    return assets.insert row.1 bytes) {}

/-- A key that stands for one entry only is looked up as that entry. -/
theorem lookup_map {α : Type} {k v : α → String} {xs : List α} {x : α} (hx : x ∈ xs)
    (h : ∀ y ∈ xs, k y = k x → y = x) :
    (xs.map fun y => (k y, v y)).lookup (k x) = some (v x) := by
  induction xs with
  | nil => cases hx
  | cons y xs ih =>
    rw [List.forall_mem_cons] at h
    rw [List.map_cons, List.lookup_cons]
    by_cases he : k x = k y
    · rw [h.1 he.symm]
      simp
    · have hne : (k x == k y) = false := by simpa using he
      rw [hne]
      refine ih ((List.mem_cons.1 hx).resolve_left ?_) h.2
      rintro rfl
      exact he rfl

theorem constant_injective {a b : Asset} {i j : Nat}
    (h : (Package.embed a i).constant = (Package.embed b j).constant) : i = j := by
  have htext := congrArg String.toList h
  rw [toList_constant, toList_constant, List.append_cancel_left_eq] at htext
  simpa using congrArg (fun ds => Nat.ofDigitChars 10 ds 0) htext

/-- Row by row, each name gets the bytes of its own file. -/
theorem foldlM_insert {constants : List (String × String)} {include? : String → Option (List UInt8)}
    {xs : List (Asset × Nat)}
    (h : ∀ x ∈ xs, ∃ file, constants.lookup (Package.embed x.1 x.2).constant = some file ∧
      include? file = some x.1.bytes) (hnodup : (xs.map (·.1.name)).Nodup) (start : Assets) :
    ∃ assets, (xs.map fun x => (x.1.name, (Package.embed x.1 x.2).constant)).foldlM
        (fun (assets : Assets) (row : String × String) => do
          let file ← constants.lookup row.2
          let bytes ← include? file
          return assets.insert row.1 bytes) start = some assets ∧
      (∀ x ∈ xs, assets[x.1.name]? = some x.1.bytes) ∧
      ∀ name, (∀ x ∈ xs, x.1.name ≠ name) → assets[name]? = start[name]? := by
  induction xs generalizing start with
  | nil => exact ⟨start, rfl, by simp, fun _ _ => rfl⟩
  | cons x xs ih =>
    rw [List.forall_mem_cons] at h
    rw [List.map_cons, List.nodup_cons] at hnodup
    obtain ⟨⟨file, hlookup, hinclude⟩, hrest⟩ := h
    obtain ⟨assets, hfold, hin, hout⟩ := ih hrest hnodup.2 (start.insert x.1.name x.1.bytes)
    have hinsert (name : String) : (start.insert x.1.name x.1.bytes)[name]? =
        if name = x.1.name then some x.1.bytes else start[name]? := by
      rw [Std.TreeMap.getElem?_insert]
      by_cases he : name = x.1.name
      · simp [he]
      · have hne : ¬compare x.1.name name = .eq := fun e => he (Std.LawfulEqCmp.eq_of_compare e).symm
        simp [he, hne]
    refine ⟨assets, ?_, List.forall_mem_cons.2 ⟨?_, hin⟩, fun name hname => ?_⟩
    · rw [List.map_cons, List.foldlM_cons]
      simp only [hlookup, hinclude, Option.bind_eq_bind, Option.bind_some, Option.pure_def]
      exact hfold
    · rw [hout, hinsert, if_pos rfl]
      exact fun y hy e => hnodup.1 (e ▸ List.mem_map_of_mem hy)
    · rw [List.forall_mem_cons] at hname
      rw [hout name hname.2, hinsert, if_neg (Ne.symm hname.1)]

/-- **Every asset is found by its name**, and nothing else is. -/
theorem load?_eq {p : Package} {g : Generated} (hg : read? p.program = some g)
    {include? : String → Option (List UInt8)} (hnodup : (p.assets.map Asset.name).Nodup)
    (hinclude : ∀ asset index, p.assets[index]? = some asset →
      include? ("../" ++ (Package.embed asset index).file) = some asset.bytes) :
    ∃ assets, g.load? include? = some assets ∧
      (∀ asset ∈ p.assets, assets[asset.name]? = some asset.bytes) ∧
      ∀ name, (∀ asset ∈ p.assets, asset.name ≠ name) → assets[name]? = none := by
  rw [read?_program, Option.some.injEq] at hg
  subst hg
  have hmem {x : Asset × Nat} (hx : x ∈ p.assets.zipIdx) : p.assets[x.2]? = some x.1 :=
    List.mem_zipIdx_iff_getElem?.1 hx
  have hfiles : ∀ x ∈ p.assets.zipIdx, ∃ file,
      (p.embedded.map fun e => (e.constant, "../" ++ e.file)).lookup
        (Package.embed x.1 x.2).constant = some file ∧ include? file = some x.1.bytes := by
    intro x hx
    refine ⟨_, ?_, hinclude x.1 x.2 (hmem hx)⟩
    rw [Package.embedded, List.map_map]
    refine lookup_map (k := fun x : Asset × Nat => (Package.embed x.1 x.2).constant)
      (v := fun x => "../" ++ (Package.embed x.1 x.2).file) hx fun y hy he => ?_
    have hindex := constant_injective he
    have hsame := (hmem hy).symm.trans (hindex ▸ hmem hx)
    exact Prod.ext (Option.some.inj hsame) hindex
  have hnames : (p.assets.zipIdx.map (·.1.name)).Nodup := by
    have hfst : p.assets.zipIdx.map (·.1.name) = (p.assets.zipIdx.map Prod.fst).map Asset.name := by
      rw [List.map_map]
      rfl
    rwa [hfst, List.zipIdx_map_fst]
  obtain ⟨assets, hfold, hin, hout⟩ := foldlM_insert hfiles hnames {}
  refine ⟨assets, ?_, fun asset ha => ?_, fun name hname => ?_⟩
  · have htable : (p.embedded.map fun e => (e.name, e.constant)) =
        p.assets.zipIdx.map fun x => (x.1.name, (Package.embed x.1 x.2).constant) := by
      rw [Package.embedded, List.map_map]
      rfl
    rw [load?, htable]
    exact hfold
  · obtain ⟨i, hi⟩ := List.mem_iff_getElem?.1 ha
    exact hin (asset, i) (List.mem_zipIdx_iff_getElem?.2 hi)
  · rw [hout name fun x hx => hname x.1 (List.fst_mem_of_mem_zipIdx hx)]
    simp

end Generated

end DeployScript
