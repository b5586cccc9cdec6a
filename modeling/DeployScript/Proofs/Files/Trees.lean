import DeployScript.Proofs.Files.Paths
import Mathlib.Data.List.Induction

/-!
# Entries and places

What each operation on a tree does to the entries, and what following a path says of the place that
it leads to.

* A tree is `Files.WellFormed` if the directory that relative paths start from is there and every
  entry stands in a directory.
* `Files.locate_cases`: a path leads to a directory or to a place in one.
* `Files.locate_mono`: a path leads to the same place after a change that keeps all directories.
* `Files.locate_join`: a proper name behind the path of a directory leads into it.
* `Files.makeDirectory_ok`, `Files.change_ok` and `Files.rename_ok` say what an operation has found
  and done if it succeeds, and `Files.WellFormed.put` that the tree stays well-formed.
-/

namespace DeployScript.Files

variable {files files' : Files} {place p q : Location} {entry : Entry} {path name : String}
  {names : List String} {spot : Spot}

/-! ### Entries -/

@[simp] theorem at?_nil (files : Files) : files.at? [] = some .directory := rfl

@[simp] theorem current_put (files : Files) (place : Location) (entry : Entry) :
    (files.put place entry).current = files.current := rfl

@[simp] theorem current_removeAll (files : Files) (place : Location) :
    (files.removeAll place).current = files.current := rfl

theorem at?_put (hp : place ≠ []) :
    (files.put place entry).at? q = if q = place then some entry else files.at? q := by
  by_cases hq : q = []
  · subst hq
    simp [Ne.symm hp]
  · simp only [at?, hq, if_false, put, Std.TreeMap.getElem?_insert]
    by_cases h : q = place
    · simp [h]
    · have h' : ¬compare place q = .eq := fun e => h (Std.LawfulEqCmp.eq_of_compare e).symm
      simp [h, h']

theorem at?_removeAll (hp : place ≠ []) :
    (files.removeAll place).at? q = if place <+: q then none else files.at? q := by
  by_cases hq : q = []
  · subst hq
    simp [hp]
  · simp only [at?, hq, if_false, removeAll, Std.TreeMap.getElem?_filter',
      ← List.isPrefixOf_iff_prefix]
    cases files.entries[q]? <;> cases place.isPrefixOf q <;> rfl

theorem mem_below {x : Location × Entry} :
    x ∈ files.below place ↔ files.at? x.1 = some x.2 ∧ place <+: x.1 ∧ x.1 ≠ place := by
  obtain ⟨q, e⟩ := x
  have hkey : place.length < q.length ∧ place <+: q ↔ place <+: q ∧ q ≠ place := by
    constructor
    · rintro ⟨hl, hp⟩
      exact ⟨hp, fun h => by simp [h] at hl⟩
    · rintro ⟨hp, hne⟩
      exact ⟨Nat.lt_of_le_of_ne hp.length_le fun hl => hne (hp.eq_of_length hl).symm, hp⟩
  by_cases hq : q = []
  · subst hq
    simp [below]
  · simp only [below, List.mem_filter, Std.TreeMap.mem_toList_iff_getElem?_eq_some, at?, hq,
      if_false, Bool.and_eq_true, decide_eq_true_eq, List.isPrefixOf_iff_prefix, hkey]

/-! ### Well-formed trees -/

/-- Every entry stands in a directory and has a name that is not too long, and the directory that
relative paths start from is there. -/
structure WellFormed (files : Files) : Prop where
  current : files.at? files.current = some .directory
  parent : ∀ place name entry, files.at? (place ++ [name]) = some entry →
    files.at? place = some .directory
  short : ∀ place name entry, files.at? (place ++ [name]) = some entry →
    name.utf8ByteSize ≤ maxName

/-- A tree is well-formed if each of its entries is where one can be. -/
theorem wellFormed_of_entries (hc : files.at? files.current = some .directory)
    (h : ∀ e ∈ files.entries.toList, files.at? e.1.dropLast = some .directory ∧
      (e.1.getLast?.getD "").utf8ByteSize ≤ maxName) : files.WellFormed := by
  have hentry (p : Location) (name : String) (entry : Entry)
      (he : files.at? (p ++ [name]) = some entry) : (p ++ [name], entry) ∈ files.entries.toList := by
    rw [at?, if_neg (by simp)] at he
    rwa [Std.TreeMap.mem_toList_iff_getElem?_eq_some]
  refine ⟨hc, fun p name entry he => ?_, fun p name entry he => ?_⟩
  · simpa using (h _ (hentry p name entry he)).1
  · simpa using (h _ (hentry p name entry he)).2

/-- What stands above an entry is a directory. -/
theorem WellFormed.above (h : files.WellFormed) (hq : q ≠ [])
    (hp : files.at? (p ++ q) = some entry) : files.at? p = some .directory := by
  -- The law is about the last name of a place, so the names below `p` are taken off from the end.
  induction q using List.reverseRecOn generalizing entry with
  | nil => exact absurd rfl hq
  | append_singleton q name ih =>
    rw [← List.append_assoc] at hp
    have hd := h.parent _ _ _ hp
    by_cases he : q = []
    · rwa [he, List.append_nil] at hd
    · exact ih he hd

theorem WellFormed.dropLast (h : files.WellFormed) (hp : files.at? p = some .directory) :
    files.at? p.dropLast = some .directory := by
  cases p using List.reverseRecOn with
  | nil => rfl
  | append_singleton p name =>
    rw [List.dropLast_concat]
    exact h.parent _ _ _ hp

/-- There is nothing below a place where there is nothing. -/
theorem WellFormed.none_of_prefix (h : files.WellFormed) (hp : files.at? p = none)
    (hpq : p <+: q) : files.at? q = none := by
  obtain ⟨rest, rfl⟩ := hpq
  cases hq : files.at? (p ++ rest) with
  | none => rfl
  | some entry =>
    by_cases hr : rest = []
    · rw [hr, List.append_nil, hp] at hq
      cases hq
    · rw [h.above hr hq] at hp
      cases hp

/-- A tree stays well-formed if an entry is set in a directory, unless a directory becomes a
file. -/
theorem WellFormed.put (h : files.WellFormed) (hp : files.at? p = some .directory)
    (hshort : name.utf8ByteSize ≤ maxName)
    (hold : files.at? (p ++ [name]) ≠ some .directory ∨ entry = .directory) :
    (files.put (p ++ [name]) entry).WellFormed := by
  have hne : p ++ [name] ≠ [] := by simp
  have hdir : ∀ q, files.at? q = some .directory →
      (files.put (p ++ [name]) entry).at? q = some .directory := by
    intro q hq
    rw [at?_put hne]
    split
    · next e =>
      rw [hold.resolve_left fun h' => h' (by rw [← e, hq])]
    · exact hq
  -- An entry of the new tree is the one that was set, and stands in `p`, or was there before.
  refine ⟨hdir _ h.current, fun q m e hq => ?_, fun q m e hq => ?_⟩
  all_goals
    rw [at?_put hne] at hq
    split at hq
  next e => exact hdir _ (by rwa [(List.append_inj' e rfl).1])
  next => exact hdir _ (h.parent q m e hq)
  next e => rwa [List.singleton_inj.1 (List.append_inj' e rfl).2]
  next => exact h.short q m e hq

/-! ### Following names -/

@[simp] theorem follow_nil (files : Files) (p : Location) :
    files.follow p [] = .ok { place := p, entry := files.at? p } := rfl

theorem follow_cons_cons (files : Files) (p : Location) (name next : String)
    (names : List String) :
    files.follow p (name :: next :: names) = (do
      let place ← placeIn p name
      match files.at? place with
      | some .directory => files.follow place (next :: names)
      | some (.file _) => throw .notDirectory
      | none => throw .noEntry) := rfl

/-- One name is followed from a directory, and the others from where it leads. -/
theorem follow_cons_ok (h : files.follow p (name :: names) = .ok spot) :
    ∃ q, placeIn p name = .ok q ∧ files.follow q names = .ok spot ∧
      (names ≠ [] → files.at? q = some .directory) := by
  cases names with
  | nil =>
    cases hq : placeIn p name with
    | error e => simp [follow, hq, bind, Except.bind] at h
    | ok q => exact ⟨q, rfl, by simpa [follow, hq, bind, Except.bind, pure, Except.pure] using h,
        by simp⟩
  | cons next names =>
    rw [follow_cons_cons] at h
    cases hq : placeIn p name with
    | error e => simp [hq, bind, Except.bind] at h
    | ok q =>
      simp only [hq, bind, Except.bind] at h
      split at h
      next hd => exact ⟨q, rfl, h, fun _ => hd⟩
      next => cases h
      next => cases h

theorem follow_cons (hq : placeIn p name = .ok q) (hd : files.at? q = some .directory) :
    files.follow p (name :: names) = files.follow q names := by
  cases names with
  | nil => simp [follow, hq, bind, Except.bind, pure, Except.pure]
  | cons next names =>
    rw [follow_cons_cons, hq]
    simp [bind, Except.bind, hd]

theorem placeIn_ok (h : placeIn p name = .ok q) :
    name = "." ∧ q = p ∨ name = ".." ∧ q = p.dropLast ∨
      (name ≠ "." ∧ name ≠ ".." ∧ name.utf8ByteSize ≤ maxName ∧ q = p ++ [name]) := by
  unfold placeIn at h
  split at h
  · next e => exact .inl ⟨e, by cases h; rfl⟩
  · split at h
    · next e => exact .inr (.inl ⟨e, by cases h; rfl⟩)
    · split at h
      · cases h
      · next h₁ h₂ h₃ => exact .inr (.inr ⟨h₁, h₂, Nat.le_of_not_lt h₃, by cases h; rfl⟩)

/-- What is found is what is there. -/
theorem follow_entry (h : files.follow p names = .ok spot) :
    spot.entry = files.at? spot.place := by
  induction names generalizing p with
  | nil => cases h; rfl
  | cons name names ih =>
    obtain ⟨q, -, hf, -⟩ := follow_cons_ok h
    exact ih hf

/-- **Names lead from a directory** to a directory or, if the last one stands for itself, to a place
of this name in one. -/
theorem follow_cases (hw : files.WellFormed) (hp : files.at? p = some .directory)
    (h : files.follow p names = .ok spot) :
    spot.entry = some .directory ∨ ∃ q name, names.getLast? = some name ∧ name ≠ "." ∧
      name ≠ ".." ∧ name.utf8ByteSize ≤ maxName ∧ spot.place = q ++ [name] ∧
      files.at? q = some .directory := by
  induction names generalizing p with
  | nil =>
    cases h
    exact .inl hp
  | cons name names ih =>
    obtain ⟨q, hq, hf, hd⟩ := follow_cons_ok h
    rcases names with - | ⟨next, names⟩
    · -- The last name: only one that stands for itself can lead to a place where there is no directory.
      cases hf
      rcases placeIn_ok hq with ⟨-, rfl⟩ | ⟨-, rfl⟩ | ⟨hdot, hdots, hshort, rfl⟩
      · exact .inl hp
      · exact .inl (hw.dropLast hp)
      · exact .inr ⟨p, name, rfl, hdot, hdots, hshort, rfl, hp⟩
    · rcases ih (hd (by simp)) hf with hs | ⟨r, last, hlast, hr⟩
      · exact .inl hs
      · exact .inr ⟨r, last, by rw [List.getLast?_cons_cons, hlast], hr⟩

/-- Names behind names that lead to a directory are followed from there. -/
theorem follow_append {rest : List String}
    (h : files.follow p names = .ok ⟨q, some .directory⟩) :
    files.follow p (names ++ rest) = files.follow q rest := by
  induction names generalizing p with
  | nil =>
    rw [follow_nil, Except.ok.injEq, Spot.mk.injEq] at h
    rw [h.1, List.nil_append]
  | cons name names ih =>
    obtain ⟨r, hr, hf, hd⟩ := follow_cons_ok h
    have hdir : files.at? r = some .directory := by
      rcases names with - | ⟨next, names⟩
      · injection hf with hf
        injection hf with hplace hentry
      · exact hd (by simp)
    rw [List.cons_append, follow_cons hr hdir, ih hf]

/-- The name `.` leads nowhere else. -/
theorem follow_dots (hp : files.at? p = some .directory) (h : ∀ n ∈ names, n = ".") :
    files.follow p names = .ok ⟨p, some .directory⟩ := by
  induction names with
  | nil => rw [follow_nil, hp]
  | cons name names ih =>
    have hname : placeIn p name = .ok p := by simp [placeIn, h name (by simp)]
    rw [follow_cons hname hp]
    exact ih fun n hn => h n (List.mem_cons_of_mem _ hn)

/-- A change that keeps all directories. -/
def Keeps (files files' : Files) : Prop :=
  ∀ p, files.at? p = some .directory → files'.at? p = some .directory

/-- Names lead to the same place after a change that keeps all directories. -/
theorem follow_mono (hk : Keeps files files') (h : files.follow p names = .ok spot) :
    files'.follow p names = .ok ⟨spot.place, files'.at? spot.place⟩ := by
  induction names generalizing p with
  | nil => cases h; rfl
  | cons name names ih =>
    obtain ⟨q, hq, hf, hd⟩ := follow_cons_ok h
    rcases names with - | ⟨next, names⟩
    · cases hf
      simp [follow, hq, bind, Except.bind, pure, Except.pure]
    · rw [follow_cons hq (hk q (hd (by simp)))]
      exact ih hf

/-! ### Following paths -/

/-- Where following a path starts. -/
def start (files : Files) (path : String) : Location :=
  if Path.isAbsolute path then [] else files.current

theorem WellFormed.start (h : files.WellFormed) (path : String) :
    files.at? (files.start path) = some .directory := by
  unfold Files.start
  split
  · rfl
  · exact h.current

/-- What a path has to be in every tree. -/
structure Fits (path : String) : Prop where
  ne_empty : path ≠ ""
  noNul : '\x00' ∉ path.toList
  length : path.utf8ByteSize ≤ maxPath

theorem locate_of_fits (h : Fits path) :
    files.locate path = files.follow (files.start path) (namesOf path) >>= fun spot =>
      match spot.entry with
      | some (.file _) => if Path.endsInSlash path then throw .notDirectory else return spot
      | _ => return spot := by
  have hnul : ¬path.toList.contains '\x00' := by simpa using h.noNul
  unfold locate
  simp only [if_neg h.ne_empty, if_neg hnul, if_neg (Nat.not_lt.2 h.length)]
  rfl

/-- A path that does not fit leads nowhere. That is not for want of an entry. -/
theorem locate_of_not_fits (files : Files) (hp : path ≠ "") (h : ¬Fits path) :
    ∃ e, e ≠ .noEntry ∧ files.locate path = .error e := by
  by_cases hnul : '\x00' ∈ path.toList
  · exact ⟨.nulInName, by simp, by simp [locate, hp, hnul, bind, Except.bind, throw,
      throwThe, MonadExceptOf.throw]⟩
  · have hlong : maxPath < path.utf8ByteSize :=
      Nat.lt_of_not_le fun hle => h ⟨hp, hnul, hle⟩
    exact ⟨.nameTooLong, by simp, by simp [locate, hp, hnul, hlong, bind, Except.bind, throw,
      throwThe, MonadExceptOf.throw]⟩

theorem locate_eq_ok : files.locate path = .ok spot ↔
    Fits path ∧ files.follow (files.start path) (namesOf path) = .ok spot ∧
      ∀ bytes, spot.entry = some (.file bytes) → Path.endsInSlash path = false := by
  by_cases h : Fits path
  · rw [locate_of_fits h]
    cases hf : files.follow (files.start path) (namesOf path) with
    | error e => simp [bind, Except.bind]
    | ok found =>
      simp only [bind, Except.bind, h, true_and, Except.ok.injEq]
      split
      next bytes hb =>
        split
        next hs =>
          simp only [throw, throwThe, MonadExceptOf.throw, reduceCtorEq, false_iff]
          rintro ⟨rfl, hall⟩
          rw [hall bytes hb] at hs
          cases hs
        next hs =>
          simp only [pure, Except.pure, Except.ok.injEq, iff_self_and]
          exact fun _ _ _ => by simpa using hs
      next hnot =>
        simp only [pure, Except.pure, Except.ok.injEq, iff_self_and]
        rintro rfl bytes hb
        exact absurd hb (hnot bytes)
  · simp only [h, false_and, iff_false]
    by_cases hp : path = ""
    · simp [locate, hp, bind, Except.bind, throw, throwThe, MonadExceptOf.throw]
    · obtain ⟨e, -, he⟩ := locate_of_not_fits files hp h
      simp [he]

theorem locate_entry (h : files.locate path = .ok spot) : spot.entry = files.at? spot.place :=
  follow_entry (locate_eq_ok.1 h).2.1

/-- **A path leads** to a directory or, if its last name stands for itself, to a place of this name
in one. -/
theorem locate_cases (hw : files.WellFormed) (h : files.locate path = .ok spot) :
    spot.entry = some .directory ∨ ∃ q name, (namesOf path).getLast? = some name ∧ name ≠ "." ∧
      name ≠ ".." ∧ name.utf8ByteSize ≤ maxName ∧ spot.place = q ++ [name] ∧
      files.at? q = some .directory :=
  follow_cases hw (hw.start path) (locate_eq_ok.1 h).2.1

/-- **A path leads to the same place** after a change that keeps all directories, if there is no
file then. -/
theorem locate_mono (hk : Keeps files files') (hc : files'.current = files.current)
    (h : files.locate path = .ok spot)
    (hfile : ∀ bytes, files'.at? spot.place = some (.file bytes) →
      Path.endsInSlash path = false) :
    files'.locate path = .ok ⟨spot.place, files'.at? spot.place⟩ := by
  obtain ⟨hfits, hf, -⟩ := locate_eq_ok.1 h
  have hstart : files'.start path = files.start path := by simp [start, hc]
  exact locate_eq_ok.2 ⟨hfits, hstart ▸ follow_mono hk hf, hfile⟩

theorem locate_directory_mono (hk : Keeps files files') (hc : files'.current = files.current)
    (h : files.locate path = .ok ⟨place, some .directory⟩) :
    files'.locate path = .ok ⟨place, some .directory⟩ := by
  have hd : files'.at? place = some .directory := hk place (locate_entry h).symm
  rw [locate_mono hk hc h (by simp [hd]), hd]

/-- The first ones of names that lead to a directory lead to one. -/
theorem follow_beginning {rest : List String} (hp : files.at? p = some .directory)
    (h : files.follow p (names ++ rest) = .ok ⟨q, some .directory⟩) :
    ∃ r, files.follow p names = .ok ⟨r, some .directory⟩ := by
  induction names generalizing p with
  | nil => exact ⟨p, by rw [follow_nil, hp]⟩
  | cons name names ih =>
    obtain ⟨r, hr, hf, hd⟩ := follow_cons_ok h
    by_cases hlast : names ++ rest = []
    · obtain ⟨rfl, rfl⟩ := List.append_eq_nil_iff.1 hlast
      exact ⟨q, h⟩
    · obtain ⟨found, hfound⟩ := ih (hd hlast) hf
      exact ⟨found, by rw [follow_cons hr (hd hlast), hfound]⟩

/-- **What stands in front of the path of a directory** leads to a directory. -/
theorem locate_parent? {parent : String} (hw : files.WellFormed)
    (h : files.locate path = .ok ⟨place, some .directory⟩) (hp : Path.parent? path = some parent)
    (hne : parent ≠ "") : ∃ q, files.locate parent = .ok ⟨q, some .directory⟩ := by
  obtain ⟨⟨-, hnul, hlength⟩, hfollow, -⟩ := locate_eq_ok.1 h
  obtain ⟨⟨rest, hnames⟩, habsolute, tail, rfl⟩ := Path.namesOf_beginning hp
  -- The names of the parent are the first ones of the path, and both start at the same place.
  have hstart : files.start (parent ++ tail) = files.start parent := by simp only [start, habsolute]
  rw [hnames, hstart] at hfollow
  obtain ⟨q, hq⟩ := follow_beginning (hw.start parent) hfollow
  have hfits : Fits parent := by
    refine ⟨hne, fun hmem => hnul ?_, ?_⟩
    · rw [String.toList_append]
      exact List.mem_append_left _ hmem
    · rw [String.utf8ByteSize_append] at hlength
      omega
  exact ⟨q, locate_eq_ok.2 ⟨hfits, hq, by simp⟩⟩

section Join

variable (h : files.locate path = .ok ⟨place, some .directory⟩) (hn : Path.Proper name)

include h hn

theorem follow_join :
    files.follow (files.start (Path.join path name)) (namesOf (Path.join path name)) =
      files.follow place [name] := by
  obtain ⟨hfits, hf, -⟩ := locate_eq_ok.1 h
  have hstart : files.start (Path.join path name) = files.start path := by
    simp [start, Path.isAbsolute_join hfits.ne_empty hn.noSlash]
  rw [hstart, Path.namesOf_join hfits.ne_empty hn, follow_append hf]

/-- **A proper name behind the path of a directory** leads into it. -/
theorem locate_join (hs : files.locate (Path.join path name) = .ok spot) :
    spot = ⟨place ++ [name], files.at? (place ++ [name])⟩ ∧ name.utf8ByteSize ≤ maxName := by
  have hf := (locate_eq_ok.1 hs).2.1
  rw [follow_join h hn] at hf
  obtain ⟨q, hq, hf, -⟩ := follow_cons_ok hf
  rcases placeIn_ok hq with ⟨e, -⟩ | ⟨e, -⟩ | ⟨-, -, hshort, rfl⟩
  · exact absurd e hn.ne_dot
  · exact absurd e hn.ne_dots
  · cases hf
    exact ⟨rfl, hshort⟩

end Join

/-! ### Operations -/

theorem isDirectory_iff : files.isDirectory path = true ↔
    ∃ place, files.locate path = .ok ⟨place, some .directory⟩ := by
  unfold isDirectory
  split
  next place h => simp [h]
  next hnot => simpa using fun place h => hnot place h

/-- A directory is made where there is nothing. -/
theorem makeDirectory_ok (h : files.makeDirectory path = .ok files') :
    ∃ place, files.locate path = .ok ⟨place, none⟩ ∧ files' = files.put place .directory := by
  unfold makeDirectory at h
  cases hl : files.locate path with
  | error e => simp [hl, bind, Except.bind] at h
  | ok spot =>
    obtain ⟨place, entry⟩ := spot
    cases entry with
    | none => exact ⟨place, rfl, by simpa [hl, bind, Except.bind, pure, Except.pure] using h.symm⟩
    | some entry =>
      simp [hl, bind, Except.bind, throw, throwThe, MonadExceptOf.throw] at h

/-- A file is written where there is one or nothing. -/
theorem change_ok {f : List UInt8 → List UInt8} (h : files.change path f = .ok files') :
    ∃ spot, files.locate path = .ok spot ∧ spot.entry ≠ some .directory ∧
      ∃ bytes, files' = files.put spot.place (.file (f bytes)) := by
  unfold change at h
  cases hl : files.locate path with
  | error e => simp [hl, bind, Except.bind] at h
  | ok spot =>
    obtain ⟨place, entry⟩ := spot
    refine ⟨_, rfl, ?_⟩
    simp only [hl, bind, Except.bind] at h
    match entry with
    | some (.file bytes) => exact ⟨by simp, bytes, by simpa [pure, Except.pure] using h.symm⟩
    | some .directory => cases h
    | none =>
      dsimp only at h
      split at h
      · cases h
      · exact ⟨by simp, [], by simpa [pure, Except.pure] using h.symm⟩

/-! ### Moving -/

@[simp] theorem current_foldl_put (l : List (Location × Entry)) (files : Files) :
    (l.foldl (fun files e => files.put e.1 e.2) files).current = files.current := by
  induction l generalizing files with
  | nil => rfl
  | cons x l ih => simp [ih]

theorem at?_foldl_put_of_not_mem {l : List (Location × Entry)} (hne : ∀ x ∈ l, x.1 ≠ [])
    (hq : ∀ x ∈ l, x.1 ≠ q) :
    (l.foldl (fun files e => files.put e.1 e.2) files).at? q = files.at? q := by
  induction l generalizing files with
  | nil => rfl
  | cons x l ih =>
    rw [List.forall_mem_cons] at hne hq
    rw [List.foldl_cons, ih hne.2 hq.2, at?_put hne.1, if_neg (Ne.symm hq.1)]

theorem at?_foldl_put_of_mem {l : List (Location × Entry)} (hne : ∀ x ∈ l, x.1 ≠ [])
    (hq : (q, entry) ∈ l) (hunique : ∀ e, (q, e) ∈ l → e = entry) :
    (l.foldl (fun files e => files.put e.1 e.2) files).at? q = some entry := by
  induction l generalizing files with
  | nil => cases hq
  | cons x l ih =>
    rw [List.forall_mem_cons] at hne
    rw [List.foldl_cons]
    by_cases hl : (q, entry) ∈ l
    · exact ih hne.2 hl fun e he => hunique e (List.mem_cons_of_mem x he)
    · obtain rfl : (q, entry) = x := (List.mem_cons.1 hq).resolve_right hl
      rw [at?_foldl_put_of_not_mem hne.2, at?_put hne.1, if_pos rfl]
      rintro ⟨q', e⟩ he rfl
      exact hl (hunique e (List.mem_cons_of_mem _ he) ▸ he)

/-- What stands at a place and below it, at another place, where it is no longer at the first. -/
def moved (files : Files) (old new : Location) (entry : Entry) : Files :=
  ((files.below old).map fun e => (new ++ e.1.drop old.length, e.2)).foldl
    (fun files e => files.put e.1 e.2) ((files.removeAll old).put new entry)

/-- A move finds something, and a place that is the same one, or where there is nothing but possibly an empty
directory. -/
theorem rename_ok {source target : String} (h : files.rename source target = .ok files') :
    ∃ old new entry found, files.locate source = .ok ⟨old, some entry⟩ ∧
      files.locate target = .ok ⟨new, found⟩ ∧
      (namesOf target).getLast? ≠ some "." ∧ (namesOf target).getLast? ≠ some ".." ∧
      (old ≠ new → (∀ bytes, found ≠ some (.file bytes)) ∧ (found.isSome → files.below new = []) ∧
        files' = files.moved old new entry) := by
  unfold rename at h
  cases hs : files.locate source with
  | error e => simp [hs, bind, Except.bind] at h
  | ok old =>
    cases ht : files.locate target with
    | error e => simp [hs, ht, bind, Except.bind] at h
    | ok new =>
      obtain ⟨old, oldEntry⟩ := old
      obtain ⟨new, found⟩ := new
      simp only [hs, ht, bind, Except.bind] at h
      split at h
      · cases h
      · cases h
      · next hdot hdots =>
        match oldEntry, found with
        | none, _ => cases h
        | some _, some (.file _) => cases h
        | some entry, none =>
          refine ⟨old, new, entry, none, rfl, rfl, hdot, hdots, fun hne => ⟨by simp, by simp, ?_⟩⟩
          simpa [hne, pure, Except.pure, moved] using h.symm
        | some entry, some .directory =>
          refine ⟨old, new, entry, _, rfl, rfl, hdot, hdots, fun hne => ?_⟩
          by_cases hb : files.below new = []
          · refine ⟨by simp, fun _ => hb, ?_⟩
            simpa [hne, hb, pure, Except.pure, moved] using h.symm
          · simp [hne, hb, throw, throwThe, MonadExceptOf.throw] at h

/-- **What a move does**: what stood at the old place stands at the new one. -/
theorem at?_moved (files : Files) {old new : Location} (hold : old ≠ []) (hnew : new ≠ [])
    (he : files.at? old = some entry)
    (hempty : ∀ q, new <+: q → q ≠ new → files.at? q = none) (q : Location) :
    (files.moved old new entry).at? q =
      if new <+: q then files.at? (old ++ q.drop new.length)
      else if old <+: q then none else files.at? q := by
  have hkeys : ∀ x ∈ (files.below old).map fun e => (new ++ e.1.drop old.length, e.2),
      ∃ rest, rest ≠ [] ∧ x.1 = new ++ rest ∧ files.at? (old ++ rest) = some x.2 := by
    intro x hx
    obtain ⟨⟨p, e⟩, hp, rfl⟩ := List.mem_map.1 hx
    obtain ⟨hpe, ⟨rest, rfl⟩, hne⟩ := mem_below.1 hp
    refine ⟨rest, fun h => hne (by rw [h, List.append_nil]), by simp, hpe⟩
  have hne : ∀ x ∈ (files.below old).map fun e => (new ++ e.1.drop old.length, e.2),
      x.1 ≠ [] := by
    intro x hx
    obtain ⟨rest, -, h, -⟩ := hkeys x hx
    simp [h, hnew]
  unfold moved
  by_cases hq : new <+: q
  · obtain ⟨rest, rfl⟩ := hq
    simp only [List.prefix_append, if_true, List.drop_left]
    by_cases hrest : rest = []
    · subst hrest
      rw [at?_foldl_put_of_not_mem hne, at?_put hnew, if_pos (List.append_nil new),
        List.append_nil, he]
      rintro x hx hxe
      obtain ⟨rest, hr, h, -⟩ := hkeys x hx
      rw [h] at hxe
      exact hr (List.append_cancel_left hxe)
    · cases hmove : files.at? (old ++ rest) with
      | some e =>
        refine at?_foldl_put_of_mem hne ?_ fun e' he' => ?_
        · exact List.mem_map.2 ⟨(old ++ rest, e),
            mem_below.2 ⟨hmove, List.prefix_append _ _, by simpa using hrest⟩, by simp⟩
        · obtain ⟨rest', -, h, hr'⟩ := hkeys _ he'
          rw [← List.append_cancel_left h, hmove] at hr'
          exact (Option.some.inj hr').symm
      | none =>
        have hout : new ++ rest ≠ new := by simpa using hrest
        rw [at?_foldl_put_of_not_mem hne, at?_put hnew, if_neg hout, at?_removeAll hold,
          hempty _ (List.prefix_append _ _) hout, ite_self]
        rintro x hx hxe
        obtain ⟨rest', -, h, hr'⟩ := hkeys x hx
        rw [h] at hxe
        rw [List.append_cancel_left hxe, hmove] at hr'
        cases hr'
  · rw [if_neg hq, at?_foldl_put_of_not_mem hne, at?_put hnew,
      if_neg fun h : q = new => hq (h ▸ List.prefix_rfl), at?_removeAll hold]
    rintro x hx rfl
    obtain ⟨rest, -, h, -⟩ := hkeys x hx
    exact hq (h ▸ List.prefix_append _ _)

end DeployScript.Files
