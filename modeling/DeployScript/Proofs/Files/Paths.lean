import DeployScript.Files.Tree
import Mathlib.Data.List.Basic

/-!
# Paths and their names

What taking a path apart and putting two together do to the names in it.

* A name is `Proper` if it stands for itself in a path: it is neither empty nor `.` nor `..`, and
  there is no slash in it.
* `Path.namesOf_join` and `Path.parent?_join` say what a name behind a path adds, and that
  `Path.parent?` takes it away again from a path that ends in a proper name (`Path.Tidy`).
* `Path.exists_namesOf_eq` takes a path apart at its last name. What `Path.parent?` leaves has the
  names before it, less some that are `.` (`Path.namesOf_parent?`).
-/

namespace DeployScript.Path

/-- A name that stands for itself. -/
structure Proper (name : String) : Prop where
  ne_empty : name ≠ ""
  ne_dot : name ≠ "."
  ne_dots : name ≠ ".."
  noSlash : '/' ∉ name.toList

variable {path name root : String} {cs ds : List Char} {ns : List String}

/-! ### Parts -/

theorem parts_append_slash (cs ds : List Char) :
    parts (cs ++ '/' :: ds) = parts cs ++ parts ds := by
  simp [parts, List.splitOn_append_cons_self]

theorem parts_slash (cs : List Char) : parts ('/' :: cs) = "" :: parts cs :=
  parts_append_slash [] cs

theorem parts_of_noSlash (h : '/' ∉ cs) : parts cs = [String.ofList cs] := by
  simp [parts, List.splitOn_eq_singleton h]

theorem parts_toList (h : '/' ∉ name.toList) : parts name.toList = [name] := by
  rw [parts_of_noSlash h, String.ofList_toList]

/-- Parts with slashes between them are the text again. -/
theorem intercalate_parts (cs : List Char) : "/".intercalate (parts cs) = String.ofList cs := by
  have h : (parts cs).map String.toList = cs.splitOn '/' := by
    simp [parts, Function.comp_def]
  apply String.toList_injective
  rw [String.toList_intercalate, h, String.toList_ofList (l := cs)]
  exact List.intercalate_splitOn '/'

/-- Names without slashes are the parts of the text that has slashes between them. -/
theorem parts_intercalate (hne : ns ≠ []) (h : ∀ n ∈ ns, '/' ∉ n.toList) :
    parts ("/".intercalate ns).toList = ns := by
  induction ns with
  | nil => exact absurd rfl hne
  | cons n ns ih =>
    cases ns with
    | nil => simpa using parts_toList (h n (by simp))
    | cons m ns =>
      have htext : ("/".intercalate (n :: m :: ns)).toList =
          n.toList ++ '/' :: ("/".intercalate (m :: ns)).toList := by
        simp [String.intercalate_cons_cons, String.toList_append]
      rw [htext, parts_append_slash, parts_toList (h n (by simp)),
        ih (by simp) fun k hk => h k (List.mem_cons_of_mem n hk)]
      rfl

/-- The names of a text that is put together of names are these, less the empty ones. -/
theorem filter_parts_intercalate (h : ∀ n ∈ ns, '/' ∉ n.toList) :
    (parts ("/".intercalate ns).toList).filter (· ≠ "") = ns.filter (· ≠ "") := by
  cases ns with
  | nil => rfl
  | cons n ns => rw [parts_intercalate (List.cons_ne_nil n ns) h]

/-- No part has a slash in it. -/
theorem noSlash_of_mem_parts : ∀ cs : List Char, ∀ n ∈ parts cs, '/' ∉ n.toList := by
  intro cs
  induction h : cs.length using Nat.strongRecOn generalizing cs with
  | ind length ih =>
    intro n hn
    by_cases hs : '/' ∈ cs
    · obtain ⟨before, after, rfl⟩ := List.append_of_mem hs
      rw [parts_append_slash, List.mem_append] at hn
      rcases hn with hn | hn
      · exact ih before.length (by simp [← h]) before rfl n hn
      · exact ih after.length (by simp [← h]; omega) after rfl n hn
    · rw [parts_of_noSlash hs, List.mem_singleton] at hn
      rwa [hn, String.toList_ofList]

/-! ### Names -/

theorem names_of_slash (h : path.toList = '/' :: cs) : names path = ("/", parts cs) := by
  simp [names, h]

theorem names_of_noSlash (h : path.toList.head? ≠ some '/') :
    names path = ("", parts path.toList) := by
  unfold names
  split
  next cs hc => exact absurd (by simp [hc]) h
  next => rfl

/-- The names with the slash of the root are the path. -/
theorem names_text (path : String) : (names path).1 ++ "/".intercalate (names path).2 = path := by
  unfold names
  split
  next cs h =>
    rw [intercalate_parts]
    apply String.toList_injective
    simp [h]
  next => simp [intercalate_parts]

theorem names_fst (path : String) : (names path).1 = if isAbsolute path then "/" else "" := by
  unfold names isAbsolute
  split
  next cs h => simp [h]
  next h =>
    cases hc : path.toList with
    | nil => simp
    | cons c cs =>
      have : c ≠ '/' := fun e => h cs (by rw [hc, e])
      simp [this]

theorem namesOf_eq (path : String) : Files.namesOf path = (names path).2.filter (· ≠ "") := by
  unfold names Files.namesOf
  split
  next cs h => simp [h, parts_slash]
  next => rfl

theorem noSlash_of_mem_names (h : name ∈ (names path).2) : '/' ∉ name.toList := by
  unfold names at h
  split at h
  all_goals exact noSlash_of_mem_parts _ _ h

/-- A path without names is one of slashes. -/
theorem isAbsolute_of_namesOf_eq_nil (hp : path ≠ "") (h : Files.namesOf path = []) :
    isAbsolute path = true := by
  by_contra habs
  have htext := names_text path
  rw [names_fst, if_neg habs, String.empty_append] at htext
  rw [namesOf_eq, List.filter_eq_nil_iff] at h
  match hn : (names path).2 with
  | [] =>
    rw [hn] at htext
    exact hp htext.symm
  | [n] =>
    have hempty : n = "" := by simpa using h n (by simp [hn])
    rw [hn, hempty] at htext
    exact hp htext.symm
  | n :: m :: ns =>
    have hempty : n = "" := by simpa using h n (by simp [hn])
    rw [hn, hempty, String.intercalate_cons_cons, String.empty_append] at htext
    rw [← htext, isAbsolute, String.toList_append] at habs
    exact habs rfl

/-! ### Joining -/

/-- A path that ends in a proper name. -/
def Tidy (path : String) : Prop := ∃ ns n, (names path).2 = ns ++ [n] ∧ Proper n

theorem isAbsolute_append (hn : name ≠ "") (hs : '/' ∉ name.toList) (rest : String) :
    isAbsolute (name ++ rest) = false := by
  cases hl : name.toList with
  | nil => exact absurd (String.toList_eq_nil_iff.1 hl) hn
  | cons c cs =>
    have : c ≠ '/' := fun e => hs (by simp [hl, e])
    simp [isAbsolute, String.toList_append, hl, this]

theorem isAbsolute_of_noSlash (hs : '/' ∉ name.toList) : isAbsolute name = false := by
  by_cases hn : name = ""
  · rw [hn]
    rfl
  · rw [← String.append_empty (s := name)]
    exact isAbsolute_append hn hs ""

/-- What a path and a name behind it have in common: a slash between two texts. -/
theorem toList_join (hp : path ≠ "") (hn : '/' ∉ name.toList) :
    ∃ cs, (join path name).toList = cs ++ '/' :: name.toList ∧
      (path.toList = cs ∧ cs ≠ [] ∨ path.toList = cs ++ ['/']) := by
  have habs := isAbsolute_of_noSlash hn
  have hp' : path.toList ≠ [] := fun h => hp (String.toList_eq_nil_iff.1 h)
  by_cases hs : endsInSlash path
  · obtain ⟨cs, hcs⟩ : ∃ cs, path.toList = cs ++ ['/'] := by
      rw [endsInSlash, beq_iff_eq, List.getLast?_eq_some_iff] at hs
      exact hs
    exact ⟨cs, by simp [join, habs, hs, hcs], .inr hcs⟩
  · exact ⟨path.toList, by simp [join, habs, hs, hp], .inl ⟨rfl, hp'⟩⟩

/-- **A name behind a path** is its last one. The names in front of it are those of the path, less
the empty one that stands behind a slash at the end. -/
theorem names_join (hp : path ≠ "") (hn : '/' ∉ name.toList) :
    ∃ ns, names (join path name) = ((names path).1, ns ++ [name]) ∧
      ((names path).2 = ns ∨ (names path).2 = ns ++ [""]) := by
  obtain ⟨cs, hcs, h⟩ := toList_join hp hn
  -- The text up to the slash starts at the root or it does not; that slash is no part of it.
  cases cs with
  | nil =>
    have hp : path.toList = ['/'] := by simpa using h
    refine ⟨[], ?_, .inr ?_⟩
    · rw [names_of_slash hcs, names_of_slash hp, parts_toList hn]
      rfl
    · rw [names_of_slash hp]
      rfl
  | cons c cs =>
    by_cases hc : c = '/'
    · subst hc
      refine ⟨parts cs, ?_, ?_⟩
      · rw [names_of_slash hcs, ← parts_toList hn, ← parts_append_slash]
        rcases h with ⟨h, -⟩ | h
        all_goals rw [names_of_slash h]; rfl
      · rcases h with ⟨h, -⟩ | h
        · exact .inl (by rw [names_of_slash h])
        · exact .inr (by rw [names_of_slash h]; exact parts_append_slash cs [])
    · refine ⟨parts (c :: cs), ?_, ?_⟩
      · rw [names_of_noSlash (by simp [hcs, hc]), hcs, parts_append_slash, parts_toList hn]
        rcases h with ⟨h, -⟩ | h
        all_goals rw [names_of_noSlash (by simp [h, hc])]
      · rcases h with ⟨h, -⟩ | h
        · exact .inl (by rw [names_of_noSlash (by simp [h, hc]), h])
        · exact .inr (by
            rw [names_of_noSlash (by simp [h, hc]), h]
            exact parts_append_slash (c :: cs) [])

/-- A proper name behind a path is one more name. -/
theorem namesOf_join (hp : path ≠ "") (hn : Proper name) :
    Files.namesOf (join path name) = Files.namesOf path ++ [name] := by
  obtain ⟨ns, h, hns⟩ := names_join hp hn.noSlash
  rw [namesOf_eq, namesOf_eq, h]
  rcases hns with hns | hns
  all_goals simp [hns, hn.ne_empty]

theorem isAbsolute_join (hp : path ≠ "") (hn : '/' ∉ name.toList) :
    isAbsolute (join path name) = isAbsolute path := by
  obtain ⟨ns, h, -⟩ := names_join hp hn
  have h' := congrArg Prod.fst h
  simp only [names_fst] at h'
  grind

theorem join_ne_empty (hp : path ≠ "") (hn : '/' ∉ name.toList) : join path name ≠ "" := by
  obtain ⟨cs, h, -⟩ := toList_join hp hn
  intro e
  simp [e] at h

theorem tidy_join (hp : path ≠ "") (hn : Proper name) : Tidy (join path name) := by
  obtain ⟨ns, h, -⟩ := names_join hp hn.noSlash
  exact ⟨ns, name, by rw [h], hn⟩

theorem Tidy.ne_empty (h : Tidy path) : path ≠ "" := by
  rintro rfl
  obtain ⟨ns, n, hns, hn⟩ := h
  have : [] ++ [""] = ns ++ [n] := hns
  exact hn.ne_empty (by simpa using (List.append_inj' this rfl).2.symm)

/-- A path that ends in a proper name does not end in a slash. -/
theorem Tidy.endsInSlash (h : Tidy path) : endsInSlash path = false := by
  rw [Bool.eq_false_iff]
  intro hs
  obtain ⟨cs, hcs⟩ : ∃ cs, path.toList = cs ++ ['/'] := by
    rw [Path.endsInSlash, beq_iff_eq, List.getLast?_eq_some_iff] at hs
    exact hs
  obtain ⟨ns, hlast⟩ : ∃ ns, (names path).2 = ns ++ [""] := by
    cases cs with
    | nil => exact ⟨[], by rw [names_of_slash hcs]; rfl⟩
    | cons c cs =>
      by_cases hc : c = '/'
      · subst hc
        exact ⟨parts cs, by rw [names_of_slash hcs]; exact parts_append_slash cs []⟩
      · exact ⟨parts (c :: cs), by
          rw [names_of_noSlash (by simp [hcs, hc]), hcs]
          exact parts_append_slash (c :: cs) []⟩
  obtain ⟨ms, m, hm, hp⟩ := h
  rw [hm] at hlast
  exact hp.ne_empty (by simpa using (List.append_inj' hlast rfl).2)

theorem Tidy.join_eq {other : String} (h : Tidy path) (ho : isAbsolute other = false) :
    join path other = path ++ "/" ++ other := by
  simp [join, ho, h.ne_empty, h.endsInSlash]

/-- Two names behind a path, one by one and together. -/
theorem Tidy.join_join {second : String} (h : Tidy path) (hn : Proper name)
    (hs : '/' ∉ second.toList) :
    join path (name ++ "/" ++ second) = join (join path name) second := by
  have htext : isAbsolute (name ++ "/" ++ second) = false := by
    rw [String.append_assoc]
    exact isAbsolute_append hn.ne_empty hn.noSlash _
  rw [h.join_eq htext, (tidy_join h.ne_empty hn).join_eq (isAbsolute_of_noSlash hs),
    h.join_eq (isAbsolute_of_noSlash hn.noSlash)]
  simp [String.append_assoc]

theorem Tidy.names_join (h : Tidy path) (hn : '/' ∉ name.toList) :
    names (join path name) = ((names path).1, (names path).2 ++ [name]) := by
  obtain ⟨ns, hj, hns⟩ := Path.names_join h.ne_empty hn
  obtain ⟨ms, m, hm, hp⟩ := h
  rcases hns with hns | hns
  · rw [hj, hns]
  · rw [hm] at hns
    exact absurd (by simpa using (List.append_inj' hns rfl).2) hp.ne_empty

/-! ### Taking the last name away -/

theorem trimReversed_of_proper (hn : Proper name) (root : String) (ns : List String) :
    trimReversed root (name :: ns) = name :: ns := by
  simp [trimReversed, hn.ne_empty, hn.ne_dot]

/-- What is dropped counts for nothing. -/
theorem trimReversed_eq (root : String) (ns : List String) :
    ∃ dropped, ns = dropped ++ trimReversed root ns ∧ ∀ n ∈ dropped, n = "" ∨ n = "." := by
  induction ns with
  | nil => exact ⟨[], rfl, by simp⟩
  | cons n ns ih =>
    obtain ⟨dropped, h, hd⟩ := ih
    unfold trimReversed
    split
    · next e =>
      exact ⟨n :: dropped, by rw [List.cons_append, ← h], List.forall_mem_cons.2 ⟨.inl e, hd⟩⟩
    · split
      · next e =>
        exact ⟨n :: dropped, by rw [List.cons_append, ← h],
          List.forall_mem_cons.2 ⟨.inr e.1, hd⟩⟩
      · exact ⟨[], rfl, by simp⟩

theorem ne_empty_of_trimReversed {before : List String}
    (h : trimReversed root ns = name :: before) : name ≠ "" := by
  induction ns with
  | nil => simp [trimReversed] at h
  | cons n ns ih =>
    unfold trimReversed at h
    split at h
    · exact ih h
    · split at h
      · exact ih h
      · next e _ => exact fun e' => e ((List.cons.inj h).1.trans e')

/-- **The path in front of a name.** A path that ends in a proper name is what `parent?` makes of
it with a proper name behind it. -/
theorem parent?_join (h : Tidy path) (hn : Proper name) : parent? (join path name) = some path := by
  have hnames := h.names_join hn.noSlash
  obtain ⟨ns, n, hns, hproper⟩ := h
  have htrim : trimReversed (names path).1 (names path).2.reverse = (names path).2.reverse := by
    rw [hns, List.reverse_append]
    exact trimReversed_of_proper hproper _ _
  unfold parent? namesReversed
  rw [hnames]
  simp only [List.reverse_append, List.reverse_singleton, List.singleton_append,
    trimReversed_of_proper hn, htrim, List.reverse_reverse]
  rw [names_text]

/-- **A path taken apart at its last name**, if that is not `.`. -/
theorem exists_namesOf_eq (h : (Files.namesOf path).getLast? = some name) (hdot : name ≠ ".") :
    ∃ before, namesReversed path = ((names path).1, name :: before) ∧
      Files.namesOf path = before.reverse.filter (· ≠ "") ++ [name] := by
  obtain ⟨dropped, hd, hall⟩ := trimReversed_eq (names path).1 (names path).2.reverse
  have hnames : (names path).2 =
      (trimReversed (names path).1 (names path).2.reverse).reverse ++ dropped.reverse := by
    rw [← List.reverse_append, ← hd, List.reverse_reverse]
  -- Behind the last name that counts, there is no `.` either: it would be the last of all.
  have hempty : dropped.reverse.filter (· ≠ "") = [] := by
    by_contra hne
    have hlast := List.getLast_mem hne
    rw [namesOf_eq, hnames, List.filter_append, List.getLast?_append,
      List.getLast?_eq_some_getLast hne] at h
    have hname := Option.some.inj h
    rw [hname] at hlast
    obtain ⟨hmem, hne'⟩ := List.mem_filter.1 hlast
    rcases hall name (List.mem_reverse.1 hmem) with e | e
    · simp [e] at hne'
    · exact hdot e
  rw [namesOf_eq, hnames, List.filter_append, hempty, List.append_nil] at h
  cases htrim : trimReversed (names path).1 (names path).2.reverse with
  | nil => simp [htrim] at h
  | cons n before =>
    have hn : n ≠ "" := ne_empty_of_trimReversed htrim
    rw [htrim, List.reverse_cons, List.filter_append] at h
    have hname : n = name := by simpa [hn] using h
    subst hname
    refine ⟨before, by simp only [namesReversed, htrim], ?_⟩
    rw [namesOf_eq, hnames, List.filter_append, hempty, htrim]
    simp [hn]

/-- **What `parent?` leaves is the beginning of the path,** of its names as of its text. -/
theorem parent?_beginning {parent : String} (hp : parent? path = some parent) :
    ∃ name before rest, namesReversed path = ((names path).1, name :: before) ∧
      (names path).2 = (trimReversed (names path).1 before).reverse ++ rest ∧ rest ≠ [] ∧
      parent = (names path).1 ++ "/".intercalate (trimReversed (names path).1 before).reverse := by
  obtain ⟨dropped, hd, -⟩ := trimReversed_eq (names path).1 (names path).2.reverse
  cases hb : trimReversed (names path).1 (names path).2.reverse with
  | nil => simp [parent?, namesReversed, hb] at hp
  | cons name before =>
    have hrev : namesReversed path = ((names path).1, name :: before) := by
      simp only [namesReversed, hb]
    obtain ⟨dropped', hd', -⟩ := trimReversed_eq (names path).1 before
    refine ⟨name, before, dropped'.reverse ++ [name] ++ dropped.reverse, hrev, ?_, by simp, ?_⟩
    · rw [← List.reverse_reverse (names path).2, hd, hb]
      conv_lhs => rw [hd']
      simp
    · simp only [parent?, hrev, Option.some.injEq] at hp
      exact hp.symm

/-- The names of a path put together from names. -/
theorem namesOf_root_intercalate (path : String) {kept : List String}
    (hslash : ∀ n ∈ kept, '/' ∉ n.toList) :
    Files.namesOf ((names path).1 ++ "/".intercalate kept) = kept.filter (· ≠ "") := by
  rw [← filter_parts_intercalate hslash, Files.namesOf, names_fst]
  split
  · rw [String.toList_append]
    exact (congrArg _ (parts_slash _)).trans (List.filter_cons_of_neg (by simp))
  · rw [String.empty_append]

/-- **What `parent?` leaves has the first names of the path,** starts where the path does, and its text
is the beginning of the path's. -/
theorem namesOf_beginning {parent : String} (hp : parent? path = some parent) :
    (∃ rest, Files.namesOf path = Files.namesOf parent ++ rest) ∧
      isAbsolute parent = isAbsolute path ∧ ∃ rest, path = parent ++ rest := by
  obtain ⟨name, before, rest, -, hnames, hrest, htext⟩ := parent?_beginning hp
  set kept := (trimReversed (names path).1 before).reverse with hkept
  have hslash : ∀ n ∈ kept, '/' ∉ n.toList := fun n hn =>
    noSlash_of_mem_names (by rw [hnames]; exact List.mem_append_left _ hn)
  obtain ⟨tail, htail⟩ : ∃ tail, path = parent ++ tail := by
    by_cases hk : kept = []
    · refine ⟨"/".intercalate rest, ?_⟩
      rw [htext, hk]
      conv_lhs => rw [← names_text path, hnames, hk, List.nil_append]
      simp
    · refine ⟨"/" ++ "/".intercalate rest, ?_⟩
      have hall : "/".intercalate (names path).2 = "/".intercalate kept ++ ("/" ++ "/".intercalate rest) := by
        rw [hnames, String.intercalate_append_of_ne_nil hk hrest, String.append_assoc]
      rw [htext, String.append_assoc, ← hall, names_text]
  refine ⟨⟨rest.filter (· ≠ ""), ?names⟩, ?absolute, tail, htail⟩
  case names => rw [namesOf_eq, hnames, List.filter_append, htext, namesOf_root_intercalate path hslash]
  case absolute =>
    by_cases hne : parent.toList = []
    · -- Nothing is left of a path that does not start at the root.
      have hempty : parent = "" := String.toList_eq_nil_iff.1 hne
      have hroot := names_fst path
      rw [hempty] at htext
      cases habs : isAbsolute path with
      | false => rw [hempty]; rfl
      | true =>
        rw [hroot, if_pos habs] at htext
        have := congrArg String.toList htext
        simp at this
    · conv_rhs => rw [htail, isAbsolute, String.toList_append, List.head?_append_of_ne_nil _ hne]
      rfl

/-- **What stands in front of the last name** has the other names, less some that are `.`, and
starts where the path does. -/
theorem namesOf_parent? {parent : String} (h : (Files.namesOf path).getLast? = some name)
    (hdot : name ≠ ".") (hp : parent? path = some parent) :
    ∃ dots, (∀ n ∈ dots, n = ".") ∧
      Files.namesOf path = Files.namesOf parent ++ dots ++ [name] ∧
      isAbsolute parent = isAbsolute path := by
  obtain ⟨before, hb, hnames⟩ := exists_namesOf_eq h hdot
  obtain ⟨name', before', rest, hb', hkept, -, htext⟩ := parent?_beginning hp
  obtain ⟨rfl, rfl⟩ : name = name' ∧ before = before' := by simpa [hb] using hb'
  obtain ⟨dropped, hd, hall⟩ := trimReversed_eq (names path).1 before
  set kept := trimReversed (names path).1 before
  have hslash : ∀ n ∈ kept.reverse, '/' ∉ n.toList := fun n hn =>
    noSlash_of_mem_names (by rw [hkept]; exact List.mem_append_left _ hn)
  have hbefore : before.reverse.filter (· ≠ "") =
      kept.reverse.filter (· ≠ "") ++ dropped.reverse.filter (· ≠ "") := by
    rw [hd, List.reverse_append, List.filter_append]
  refine ⟨dropped.reverse.filter (· ≠ ""), ?_, ?_, (namesOf_beginning hp).2.1⟩
  · intro n hn
    obtain ⟨hmem, hne⟩ := List.mem_filter.1 hn
    exact (hall n (List.mem_reverse.1 hmem)).resolve_left (by simpa using hne)
  · rw [hnames, hbefore, htext, namesOf_root_intercalate path hslash]

/-- The last name of a path is its file name, if it is proper. -/
theorem fileName?_eq (h : (Files.namesOf path).getLast? = some name) (hn : Proper name) :
    fileName? path = some name := by
  obtain ⟨before, hb, -⟩ := exists_namesOf_eq h hn.ne_dot
  unfold fileName?
  rw [hb]
  split
  · next e => cases e
  · next e => exact absurd (List.cons.inj e).1 hn.ne_dot
  · next e => exact absurd (List.cons.inj e).1 hn.ne_dots
  · next e => rw [(List.cons.inj e).1]

end DeployScript.Path
