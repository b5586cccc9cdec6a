import DeployScript.Package.Build
import DeployScript.Proofs.Files.Directories

/-!
# Writing files into a directory

What writing the files of a package into a staging directory leaves there, whether it succeeds or
fails on the way, and whatever the system refuses or cuts short.

* `Files.Below` says that nothing has changed outside a directory.
* `laid` is what files lie at their places below a directory, with the directories that they need.
* `writeFile_stages` is the step and `writeFiles_stages` the run: outside nothing changes, and
  without an error exactly these files are there.
-/

namespace DeployScript

open Files

/-! ### Files below a directory -/

/-- Files with their places below a directory, and the directories that they need. -/
def laid (contents : List (Location × List UInt8)) (rel : Location) : Option Entry :=
  match contents.find? (·.1 = rel) with
  | some f => some (.file f.2)
  | none => if rel = [] ∨ ∃ f ∈ contents, rel <+: f.1 then some .directory else none

variable {contents : List (Location × List UInt8)} {rel target : Location} {bytes : List UInt8}

/-- One more file needs the directories above it. -/
theorem laid_append (hnew : target ∉ contents.map Prod.fst)
    (habove : ∀ rel, rel <+: target → rel ≠ target → ∀ b, laid contents rel ≠ some (.file b)) :
    laid (contents ++ [(target, bytes)]) rel =
      if rel = target then some (.file bytes)
      else if rel <+: target then some .directory else laid contents rel := by
  have hown : contents.find? (·.1 = target) = none := by
    rw [List.find?_eq_none]
    intro f hf
    simp only [decide_eq_true_eq]
    exact fun e => hnew (e ▸ List.mem_map_of_mem hf)
  unfold laid
  rw [List.find?_append]
  by_cases he : rel = target
  · subst he
    simp [hown]
  · simp only [List.find?_singleton, Ne.symm he, decide_false, Bool.false_eq_true, if_false,
      Option.or_none, List.mem_append, List.mem_singleton, or_and_right, exists_or,
      exists_eq_left]
    by_cases hp : rel <+: target
    · have hnone : contents.find? (·.1 = rel) = none := by
        cases hf : contents.find? (·.1 = rel) with
        | none => rfl
        | some f => exact absurd (by rw [laid, hf]) (habove rel hp he f.2)
      simp [hnone, hp, he]
    · simp only [hp, he, if_false, or_false]

/-! ### One file -/

/-- **Nothing has changed outside a directory**, which is still where its path leads. -/
structure Below (path : String) (place : Location) (files files' : Files) : Prop where
  wellFormed : files'.WellFormed
  current : files'.current = files.current
  outside : ∀ q, ¬place <+: q → files'.at? q = files.at? q
  located : files'.locate path = .ok ⟨place, some .directory⟩

variable {files files' files'' : Files} {path name : String} {place : Location} {entry : Entry}

theorem Below.refl (hw : files.WellFormed)
    (hl : files.locate path = .ok ⟨place, some .directory⟩) : Below path place files files :=
  ⟨hw, rfl, fun _ _ => rfl, hl⟩

theorem Below.trans (h₁ : Below path place files files') (h₂ : Below path place files' files'') :
    Below path place files files'' :=
  ⟨h₂.wellFormed, h₂.current.trans h₁.current,
    fun q hq => (h₂.outside q hq).trans (h₁.outside q hq), h₂.located⟩

/-- A directory in the directory can take its place. -/
theorem Below.of_inner {inner : String} (h : Below inner (place ++ [name]) files files')
    (hl : files.locate path = .ok ⟨place, some .directory⟩) (hk : Files.Keeps files files') :
    Below path place files files' :=
  ⟨h.wellFormed, h.current,
    fun q hq => h.outside q fun hp => hq ((List.prefix_append place [name]).trans hp),
    locate_directory_mono hk h.current hl⟩

/-- Setting an entry in the directory, where there is no directory or another one. -/
theorem Below.put (h : Below path place files files') (hshort : name.utf8ByteSize ≤ maxName)
    (hold : files'.at? (place ++ [name]) ≠ some .directory ∨ entry = .directory) :
    Below path place files (files'.put (place ++ [name]) entry) ∧
      Files.Keeps files' (files'.put (place ++ [name]) entry) := by
  have hd : files'.at? place = some .directory := (locate_entry h.located).symm
  have hk : Files.Keeps files' (files'.put (place ++ [name]) entry) := by
    intro q hq
    rw [at?_put (by simp)]
    split
    · next e => rw [hold.resolve_left fun hne => hne (by rw [← e, hq])]
    · exact hq
  refine ⟨⟨h.wellFormed.put hd hshort hold, h.current, fun q hq => ?_,
    locate_directory_mono hk rfl h.located⟩, hk⟩
  rw [at?_put (by simp), if_neg, h.outside q hq]
  rintro rfl
  exact hq (List.prefix_append _ _)

theorem at?_put_below {rel target : Location} (ht : target ≠ []) :
    (files.put (place ++ target) entry).at? (place ++ rel) =
      if rel = target then some entry else files.at? (place ++ rel) := by
  rw [at?_put (by simp [ht])]
  by_cases he : rel = target
  · simp [he]
  · rw [if_neg fun h => he (List.append_cancel_left h), if_neg he]

variable {system : System} {outcome : Except PackageError Unit} {made : Files}

/-- Nothing happens where the directory is there. -/
theorem provideDirectory_stays (system : System) (hw : files.WellFormed)
    (hl : files.locate path = .ok ⟨place, some .directory⟩) :
    (provideDirectory system path files).2 = files :=
  System.makeDirectories_stays system hw hl

/-- **A file in the directory.** Nothing changes outside the directory, and without an error the file is
there. -/
theorem write_in (bytes : List UInt8) (hw : files.WellFormed)
    (hl : files.locate path = .ok ⟨place, some .directory⟩) (hn : Path.Proper name)
    (h : (BuildStep.write (Path.join path name)).run (system.write files (Path.join path name) bytes) =
      (outcome, made)) :
    Below path place files made ∧ Files.Keeps files made ∧
      (outcome = .ok () → made = files.put (place ++ [name]) (.file bytes)) := by
  obtain ⟨rfl, rfl⟩ := Prod.mk.inj h
  rcases system.change_cases (.write (Path.join path name) bytes) files bytes
      (files.write (Path.join path name)) with ⟨e, he⟩ | ⟨result, kept, written, hwritten, he, hkept⟩
  · rw [System.write, he]
    exact ⟨.refl hw hl, fun _ h => h, by simp [Except.mapError]⟩
  · -- A part of the bytes is put in the same place as all of them.
    obtain ⟨spot, hs, hne, -, rfl⟩ := change_ok hwritten
    obtain ⟨rfl, hshort⟩ := locate_join hl hn hs
    obtain ⟨hbelow, hkeeps⟩ : Below path place files (files.put (place ++ [name]) (.file kept)) ∧
        Files.Keeps files (files.put (place ++ [name]) (.file kept)) :=
      (Below.refl hw hl).put hshort (.inl hne)
    rw [System.write, he]
    refine ⟨hbelow, hkeeps, fun hok => ?_⟩
    cases result with
    | ok _ => rw [hkept rfl]
    | error e => simp [Except.mapError] at hok

/-- **A directory in the directory,** made if it is missing. -/
theorem provideDirectory_in (hw : files.WellFormed)
    (hl : files.locate path = .ok ⟨place, some .directory⟩) (ht : Path.Tidy path) (hn : Path.Proper name)
    (h : provideDirectory system (Path.join path name) files = (outcome, made)) :
    Below path place files made ∧
      (outcome = .ok () → made.locate (Path.join path name) = .ok ⟨place ++ [name], some .directory⟩ ∧
        (∀ b, files.at? (place ++ [name]) ≠ some (.file b)) ∧
        ∀ rel, made.at? (place ++ rel) =
          if rel = [name] then some .directory else files.at? (place ++ rel)) := by
  obtain ⟨rfl, rfl⟩ := Prod.mk.inj h
  have hprovides := System.makeDirectories_provides system hw (Path.join path name)
  rcases System.makeDirectories_cases system hw (Path.parent?_join ht hn) hl with hsame | hm
  · rw [hsame]
    refine ⟨.refl hw hl, fun hok => ?_⟩
    have hsuccess : (system.makeDirectories files (Path.join path name)).1 = .ok () := by
      generalize (system.makeDirectories files (Path.join path name)).1 = result at hok
      cases result with
      | ok _ => rfl
      | error e => cases hok
    obtain ⟨q, hq⟩ := hprovides.provided hsuccess (Path.join_ne_empty ht.ne_empty hn.noSlash)
    rw [hsame] at hq
    obtain ⟨rfl, hdir⟩ := Files.Spot.mk.inj (locate_join hl hn hq).1
    refine ⟨hq, by simp [← hdir], fun rel => ?_⟩
    split
    · next he => rw [he, hdir]
    · rfl
  · obtain ⟨-, -, q, hq, he, hloc⟩ := makeDirectory_grown hw hm
    obtain ⟨hspot, hshort⟩ := locate_join hl hn hq
    obtain ⟨rfl, hnone⟩ := Files.Spot.mk.inj hspot
    rw [he] at hloc ⊢
    exact ⟨((Below.refl hw hl).put hshort (.inr rfl)).1, fun _ => ⟨hloc, by simp [← hnone],
      fun rel => at?_put_below (by simp)⟩⟩

/-- A place that a file of a package can have: in the directory itself, or one further down. -/
inductive Shallow : Location → Prop
  | here {name : String} (hn : Path.Proper name) : Shallow [name]
  | below {directory name : String} (hd : Path.Proper directory) (hn : Path.Proper name) :
      Shallow [directory, name]

/-- **One file:** nothing changes outside the directory, and without an error one more file lies
there, with the directory that it needs. -/
theorem writeFile_stages (bytes : List UInt8) (hw : files.WellFormed)
    (hl : files.locate path = .ok ⟨place, some .directory⟩) (ht : Path.Tidy path)
    (hinside : ∀ rel, files.at? (place ++ rel) = laid contents rel)
    (hs : Shallow target) (hnew : target ∉ contents.map Prod.fst)
    (h : writeFile system (Path.join path ("/".intercalate target)) bytes files = (outcome, made)) :
    Below path place files made ∧
      (outcome = .ok () → ∀ rel, made.at? (place ++ rel) = laid (contents ++ [(target, bytes)]) rel) := by
  have hroot : laid contents [] = some .directory := by
    rw [← hinside, List.append_nil, ← locate_entry hl]
  cases hs with
  | @here name hn =>
    have habove : ∀ rel, rel <+: [name] → rel ≠ [name] → rel = [] := by
      simp [List.prefix_cons_iff]
    rw [String.intercalate_singleton, writeFile, Path.parent?_join ht hn, Option.getD_some] at h
    cases hprovide : provideDirectory system path files with
    | mk first found =>
      obtain rfl : files = found := by rw [← provideDirectory_stays system hw hl, hprovide]
      rw [hprovide] at h
      cases first with
      | error e =>
        obtain ⟨rfl, rfl⟩ := Prod.mk.inj h
        exact ⟨.refl hw hl, by simp⟩
      | ok _ =>
        obtain ⟨hbelow, -, hput⟩ := write_in bytes hw hl hn h
        refine ⟨hbelow, fun hok rel => ?_⟩
        rw [hput hok, laid_append hnew fun rel hp hr => by simp [habove rel hp hr, hroot],
          at?_put_below (by simp), hinside]
        grind
  | @below directory name hd hn =>
    -- The path is the same one, whether it is joined in one piece or directory by directory.
    have htext : Path.join path ("/".intercalate [directory, name]) =
        Path.join (Path.join path directory) name := by
      rw [← ht.join_join hd hn.noSlash]
      rfl
    have hinner := Path.tidy_join ht.ne_empty hd
    have habove : ∀ rel, rel <+: [directory, name] → rel ≠ [directory, name] →
        rel = [] ∨ rel = [directory] := by
      simp [List.prefix_cons_iff]
      grind
    rw [htext, writeFile, Path.parent?_join hinner hn, Option.getD_some] at h
    cases hprovide : provideDirectory system (Path.join path directory) files with
    | mk first found =>
      obtain ⟨hfound, hthere⟩ := provideDirectory_in hw hl ht hd hprovide
      rw [hprovide] at h
      cases first with
      | error e =>
        obtain ⟨rfl, rfl⟩ := Prod.mk.inj h
        exact ⟨hfound, by simp⟩
      | ok _ =>
        obtain ⟨hloc, hfile, hdirectory⟩ := hthere rfl
        obtain ⟨hbelow, hkeeps, hput⟩ := write_in bytes hfound.wellFormed hloc hn h
        refine ⟨hfound.trans (hbelow.of_inner hfound.located hkeeps), fun hok rel => ?_⟩
        rw [hput hok, laid_append hnew fun rel hp hr => ?above, List.append_assoc,
          at?_put_below (by simp), hdirectory, hinside]
        case above =>
          rcases habove rel hp hr with rfl | rfl
          · simp [hroot]
          · rw [← hinside]
            exact hfile
        grind

/-! ### All files -/

/-- **All files:** nothing changes outside the directory, and without an error exactly these files
lie there, with the directories that they need. -/
theorem writeFiles_stages (hw : files.WellFormed)
    (hl : files.locate path = .ok ⟨place, some .directory⟩) (ht : Path.Tidy path)
    (hinside : ∀ rel, files.at? (place ++ rel) = laid contents rel)
    (rest : List (Location × List UInt8)) (hs : ∀ f ∈ rest, Shallow f.1)
    (hnodup : ((contents ++ rest).map Prod.fst).Nodup)
    (h : writeFiles system path (rest.map fun f => ("/".intercalate f.1, f.2)) files = (outcome, made)) :
    Below path place files made ∧
      (outcome = .ok () → ∀ rel, made.at? (place ++ rel) = laid (contents ++ rest) rel) := by
  -- Each file joins the contents that the rest is written beside.
  induction rest generalizing files contents with
  | nil =>
    obtain ⟨rfl, rfl⟩ := Prod.mk.inj h
    exact ⟨.refl hw hl, fun _ rel => by rw [List.append_nil]; exact hinside rel⟩
  | cons f rest ih =>
    obtain ⟨target, bytes⟩ := f
    rw [List.forall_mem_cons] at hs
    have hnew : target ∉ contents.map Prod.fst := by
      simp only [List.map_append, List.map_cons, List.nodup_append, List.mem_cons] at hnodup
      exact fun hmem => hnodup.2.2 _ hmem _ (.inl rfl) rfl
    rw [List.map_cons, writeFiles] at h
    cases hone : writeFile system (Path.join path ("/".intercalate target)) bytes files with
    | mk first found =>
      obtain ⟨hbelow, hinside'⟩ := writeFile_stages bytes hw hl ht hinside hs.1 hnew hone
      rw [hone] at h
      cases first with
      | error e =>
        obtain ⟨rfl, rfl⟩ := Prod.mk.inj h
        exact ⟨hbelow, by simp⟩
      | ok _ =>
        have hrest := ih hbelow.wellFormed hbelow.located (hinside' rfl) hs.2 (by simpa using hnodup) h
        rw [List.append_assoc, List.singleton_append] at hrest
        exact ⟨hbelow.trans hrest.1, hrest.2⟩

end DeployScript
