import DeployScript.Files.Directory
import DeployScript.Proofs.Files.Trees
import Mathlib.Logic.Relation

/-!
# Making directories

`System.makeDirectories` adds directories where there was nothing, at the places of its path and of
the paths above that, and changes nothing else. What it has added before it fails stays. All this
holds whatever the system refuses.

* `Path.AtOrAbove` and `Path.Above`: what `Path.parent?` leaves of a path.
* `Files.Grown` says that nothing but directories has been added, and where.
* `System.makeDirectories_provides`: the tree has grown, and has the directory unless there is an
  error.
* `System.makeDirectories_stays` and `System.makeDirectories_cases`: nothing happens if the directory
  is there, and no other directory is made if the one above it is there.
-/

namespace DeployScript

/-- A path, or what `parent?` leaves of it. -/
def Path.AtOrAbove (q path : String) : Prop :=
  Relation.ReflTransGen (fun p q => Path.parent? p = some q) path q

/-- What `parent?` leaves of a path. -/
def Path.Above (q path : String) : Prop :=
  Relation.TransGen (fun p q => Path.parent? p = some q) path q

theorem Path.AtOrAbove.above {q parent path : String} (h : Path.AtOrAbove q parent)
    (hp : Path.parent? path = some parent) : Path.Above q path :=
  Relation.TransGen.head' hp h

theorem Path.AtOrAbove.of_parent? {q parent path : String} (h : Path.AtOrAbove q parent)
    (hp : Path.parent? path = some parent) : Path.AtOrAbove q path :=
  Relation.ReflTransGen.head hp h

namespace Files

variable {files files' files'' : Files} {P Q : String → Prop} {path : String}

/-- **A tree has grown** if nothing has happened to it but that directories have been added, at the
places of paths of a kind. -/
structure Grown (P : String → Prop) (files files' : Files) : Prop where
  current : files'.current = files.current
  entry : ∀ place, files'.at? place = files.at? place ∨
    files.at? place = none ∧ files'.at? place = some .directory ∧
      ∃ path, P path ∧ files'.locate path = .ok ⟨place, some .directory⟩

theorem Grown.refl (P : String → Prop) (files : Files) : Grown P files files :=
  ⟨rfl, fun _ => .inl rfl⟩

theorem Grown.keeps (h : Grown P files files') : Keeps files files' := by
  intro place hd
  rcases h.entry place with he | ⟨-, he, -⟩
  · rw [he, hd]
  · exact he

theorem Grown.mono (h : Grown P files files') (hpq : ∀ path, P path → Q path) :
    Grown Q files files' := by
  refine ⟨h.current, fun place => ?_⟩
  rcases h.entry place with he | ⟨hn, he, path, hp, hl⟩
  · exact .inl he
  · exact .inr ⟨hn, he, path, hpq path hp, hl⟩

theorem Grown.trans (h₁ : Grown P files files') (h₂ : Grown P files' files'') :
    Grown P files files'' := by
  refine ⟨h₂.current.trans h₁.current, fun place => ?_⟩
  -- A directory that the first step has added stays one, and its path still leads to it.
  rcases h₁.entry place with e₁ | ⟨n₁, e₁, path, hp, hl⟩
  · rcases h₂.entry place with e₂ | ⟨n₂, e₂, he⟩
    · exact .inl (e₂.trans e₁)
    · exact .inr ⟨e₁ ▸ n₂, e₂, he⟩
  · exact .inr ⟨n₁, h₂.keeps _ e₁, path, hp, locate_directory_mono h₂.keeps h₂.current hl⟩

/-- A directory of a path has been made, or the reason why there is none is known. -/
structure Provides (P : String → Prop) (path : String) (files : Files)
    (result : Except FileError Unit × Files) : Prop where
  grown : Grown P files result.2
  wellFormed : result.2.WellFormed
  provided : result.1 = .ok () → path ≠ "" →
    ∃ place, result.2.locate path = .ok ⟨place, some .directory⟩

theorem Provides.error {e : FileError} (hw : files.WellFormed) :
    Provides P path files (.error e, files) :=
  ⟨.refl P files, hw, by simp⟩

/-- Making one directory adds it, and nothing else. -/
theorem makeDirectory_grown (hw : files.WellFormed) (h : files.makeDirectory path = .ok files') :
    Grown (· = path) files files' ∧ files'.WellFormed ∧
      ∃ place, files.locate path = .ok ⟨place, none⟩ ∧ files' = files.put place .directory ∧
        files'.locate path = .ok ⟨place, some .directory⟩ := by
  obtain ⟨place, hl, rfl⟩ := makeDirectory_ok h
  have hnone : files.at? place = none := (locate_entry hl).symm
  obtain hd | ⟨q, name, -, -, -, hshort, hplace, hq⟩ := locate_cases hw hl
  · cases hd
  dsimp only at hplace
  subst hplace
  have hput (p) : (files.put (q ++ [name]) .directory).at? p =
      if p = q ++ [name] then some .directory else files.at? p := at?_put (by simp)
  have hkeeps : Keeps files (files.put (q ++ [name]) .directory) := by
    intro p hp
    rw [hput]
    split
    · rfl
    · exact hp
  have hloc : (files.put (q ++ [name]) .directory).locate path =
      .ok ⟨q ++ [name], some .directory⟩ := by
    have he : (files.put (q ++ [name]) .directory).at? (q ++ [name]) = some .directory := by
      rw [hput, if_pos rfl]
    rw [locate_mono hkeeps rfl hl (by simp [he])]
    simp [he]
  refine ⟨⟨rfl, fun p => ?_⟩, hw.put hq hshort (.inr rfl), _, hl, rfl, hloc⟩
  rw [hput]
  split
  · next e => exact .inr ⟨e ▸ hnone, rfl, path, rfl, e ▸ hloc⟩
  · exact .inl rfl

end Files

namespace System

open Files

variable {system : System} {files files' : Files} {path parent : String} {place : Location}

/-! ### Requests -/

/-- **A request that changes nothing if it fails** is refused, or fails, or is carried out. -/
theorem atomic_answer (system : System) (request : FileRequest) (files : Files)
    (result : Except FileError Files) :
    (∃ e, atomic files (system.answer request files result) = (.error e, files)) ∨
      ∃ made, result = .ok made ∧ atomic files (system.answer request files result) = (.ok (), made) := by
  unfold answer
  split
  · cases result with
    | error e => exact .inl ⟨e, rfl⟩
    | ok made => exact .inr ⟨made, rfl, rfl⟩
  · exact .inl ⟨_, rfl⟩
  · exact .inl ⟨_, rfl⟩

/-- **A change of a file** that does not come about leaves the tree as it is or has put a beginning of
the bytes there. -/
theorem change_cases (system : System) (request : FileRequest) (files : Files) (bytes : List UInt8)
    (result : List UInt8 → Except FileError Files) :
    (∃ e, system.change request files bytes result = (.error e, files)) ∨
      ∃ outcome kept made, result kept = .ok made ∧
        system.change request files bytes result = (outcome, made) ∧ (outcome = .ok () → kept = bytes) := by
  unfold change
  split
  · cases hr : result bytes with
    | error e => exact .inl ⟨e, rfl⟩
    | ok made => exact .inr ⟨_, bytes, made, hr, rfl, fun _ => rfl⟩
  · exact .inl ⟨_, rfl⟩
  · next length e _ =>
    cases hr : result (bytes.take length) with
    | error e => exact .inl ⟨e, rfl⟩
    | ok made => exact .inr ⟨_, _, made, hr, rfl, by simp⟩

theorem of_isDirectory (h : system.isDirectory files path = true) :
    ∃ place, files.locate path = .ok ⟨place, some .directory⟩ :=
  isDirectory_iff.1 (Bool.and_eq_true_iff.1 h).2

theorem of_read {bytes : List UInt8} (h : system.read files path = .ok bytes) :
    files.read path = .ok bytes := by
  unfold read answer at h
  split at h
  · exact h
  · cases h
  · cases h

theorem of_readText {text : String} (h : system.readText files path = .ok text) :
    files.readText path = .ok text := by
  unfold readText answer at h
  split at h
  · exact h
  · cases h
  · cases h

/-! ### Directories -/

theorem makeDirectory_provides (system : System) (hw : files.WellFormed) (path : String) :
    Provides (· = path) path files (system.makeDirectory files path) := by
  rcases atomic_answer system (.makeDirectory path) files (files.makeDirectory path)
    with ⟨e, he⟩ | ⟨made, hm, he⟩
  · rw [makeDirectory, he]
    exact .error hw
  · obtain ⟨hg, hw', place, -, -, hl⟩ := makeDirectory_grown hw hm
    rw [makeDirectory, he]
    exact ⟨hg, hw', fun _ _ => ⟨place, hl⟩⟩

/-- A directory that is there already is as good as one that is made. -/
theorem settled_provides (system : System) {P : String → Prop} {result : Except FileError Unit × Files}
    (h : Provides P path files result) : Provides P path files (system.settled path result) := by
  obtain ⟨outcome, made⟩ := result
  cases outcome with
  | ok _ => exact h
  | error e =>
    refine ⟨h.grown, h.wellFormed, fun hok _ => of_isDirectory (?_ : system.isDirectory made path = true)⟩
    by_contra hd
    simp [settled, hd] at hok

/-- **Making a directory with those above it** adds directories at the places of these paths, and
nothing else. Without an error the directory is there. -/
theorem makeDirectoriesWithin_provides (system : System) (hw : files.WellFormed) (fuel : Nat)
    (path : String) :
    Provides (Path.AtOrAbove · path) path files (system.makeDirectoriesWithin fuel files path) := by
  induction fuel generalizing files path with
  | zero => exact .error hw
  | succ fuel ih =>
    have own {files} (hw : files.WellFormed) :
        Provides (Path.AtOrAbove · path) path files (system.makeDirectory files path) := by
      have h := makeDirectory_provides system hw path
      exact ⟨h.grown.mono fun _ e => e ▸ Relation.ReflTransGen.refl, h.wellFormed, h.provided⟩
    have hfirst := own hw
    unfold makeDirectoriesWithin
    split
    · next e => exact ⟨.refl _ files, hw, fun _ hne => absurd e hne⟩
    · split
      · next found he =>
        -- There is no entry above: the parent is made first, and then the directory is tried again.
        rw [he] at hfirst
        split
        · exact ⟨hfirst.grown, hfirst.wellFormed, by simp⟩
        · next parent hp =>
          have habove := ih hfirst.wellFormed parent
          have hgrown := hfirst.grown.trans (habove.grown.mono fun _ h => Path.AtOrAbove.of_parent? h hp)
          split
          · next made hm =>
            simp only [hm] at habove hgrown
            have hlast := settled_provides system (own habove.wellFormed)
            exact ⟨hgrown.trans hlast.grown, hlast.wellFormed, hlast.provided⟩
          · next e made hm =>
            simp only [hm] at habove hgrown
            exact ⟨hgrown, habove.wellFormed, by simp⟩
      · exact settled_provides system hfirst

@[inherit_doc makeDirectoriesWithin_provides]
theorem makeDirectories_provides (system : System) (hw : files.WellFormed) (path : String) :
    Provides (Path.AtOrAbove · path) path files (system.makeDirectories files path) :=
  makeDirectoriesWithin_provides system hw _ path

/-! ### Directories that are there -/

@[simp] theorem settled_snd (result : Except FileError Unit × Files) :
    (system.settled path result).2 = result.2 := by
  obtain ⟨outcome, made⟩ := result
  cases outcome <;> rfl

/-- No directory is made where there is one. -/
theorem makeDirectory_stays (system : System) (hl : files.locate path = .ok ⟨place, some .directory⟩) :
    (system.makeDirectory files path).2 = files := by
  rcases atomic_answer system (.makeDirectory path) files (files.makeDirectory path)
    with ⟨e, he⟩ | ⟨made, hm, -⟩
  · rw [makeDirectory, he]
  · obtain ⟨q, hq, -⟩ := makeDirectory_ok hm
    rw [hl] at hq
    cases hq

/-- **Nothing happens if the directory is there:** then those above it are there too. -/
theorem makeDirectoriesWithin_stays (system : System) (hw : files.WellFormed) (fuel : Nat)
    (hl : path ≠ "" → ∃ place, files.locate path = .ok ⟨place, some .directory⟩) :
    (system.makeDirectoriesWithin fuel files path).2 = files := by
  induction fuel generalizing path with
  | zero => rfl
  | succ fuel ih =>
    unfold makeDirectoriesWithin
    split
    · rfl
    · next hne =>
      -- The first attempt may be refused as if there were no entry; those above are then there as well.
      obtain ⟨place, hplace⟩ := hl hne
      have hstays := makeDirectory_stays system hplace
      split
      · next found he =>
        rw [he] at hstays
        subst hstays
        split
        · rfl
        · next parent hp =>
          have habove := ih fun hne => locate_parent? hw hplace hp hne
          split
          · next made hm =>
            rw [hm] at habove
            subst habove
            rw [settled_snd, makeDirectory_stays system hplace]
          · next e made hm => rwa [hm] at habove
      · rw [settled_snd, hstays]

@[inherit_doc makeDirectoriesWithin_stays]
theorem makeDirectories_stays (system : System) (hw : files.WellFormed)
    (hl : files.locate path = .ok ⟨place, some .directory⟩) :
    (system.makeDirectories files path).2 = files :=
  makeDirectoriesWithin_stays system hw _ fun _ => ⟨place, hl⟩

/-- **No other directory is made** if the one above it is there. -/
theorem makeDirectories_cases (system : System) (hw : files.WellFormed) (hp : Path.parent? path = some parent)
    (hl : files.locate parent = .ok ⟨place, some .directory⟩) :
    (system.makeDirectories files path).2 = files ∨
      files.makeDirectory path = .ok (system.makeDirectories files path).2 := by
  have hone : (system.makeDirectory files path).2 = files ∨
      files.makeDirectory path = .ok (system.makeDirectory files path).2 := by
    rcases atomic_answer system (.makeDirectory path) files (files.makeDirectory path)
      with ⟨e, he⟩ | ⟨made, hm, he⟩
    · exact .inl (by rw [makeDirectory, he])
    · exact .inr (by rw [makeDirectory, he, hm])
  unfold makeDirectories makeDirectoriesWithin
  split
  · exact .inl rfl
  · split
    · next found he =>
      have hfound : found = files := by
        rcases atomic_answer system (.makeDirectory path) files (files.makeDirectory path)
          with ⟨e, he'⟩ | ⟨made, -, he'⟩
        · exact (Prod.mk.inj (he.symm.trans he')).2
        · cases (Prod.mk.inj (he.symm.trans he')).1
      subst hfound
      rw [hp]
      have habove : (system.makeDirectoriesWithin path.utf8ByteSize found parent).2 = found :=
        makeDirectoriesWithin_stays system hw _ fun _ => ⟨place, hl⟩
      dsimp only
      split
      · next made hm =>
        rw [hm] at habove
        subst habove
        rw [settled_snd]
        exact hone
      · next e made hm =>
        rw [hm] at habove
        exact .inl habove
    · rw [settled_snd]
      exact hone

end System

end DeployScript
