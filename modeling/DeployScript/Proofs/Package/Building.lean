import DeployScript.Proofs.Package.Contents
import DeployScript.Proofs.Package.Tools

/-!
# Building leaves nothing behind

What `Job.build` does to a tree of files, whether it succeeds or fails, with a system that may refuse any
operation and cut any write short.

A package is put together in a staging directory beside its place. `Staged` says what is known once
that directory has been made: nothing was there before, so dropping it takes away whatever has been
written into it (`Staged.dropped`), and moving it to its place leaves nothing behind either
(`Staged.installed`, `Staged.gone`).

* `Package.Installed` says what a package in its place is.
* `Package.install_error`: after an error nothing has been added but directories above the place.
* `Package.install_ok`: without an error the package is in its place.
* `Job.build_error` and `Job.build_installed` say the same of a job.
-/

namespace DeployScript

open Files

variable {files files' : Files} {path target name : String} {place : Location} {entry : Entry}
  {p : Package}

/-! ### The directory of a package -/

/-- Making the directory of a package adds directories above the package, and nothing else. -/
theorem provides_directoryOf (system : System) (hw : files.WellFormed) (target : String) :
    Provides (Path.Above · target) (directoryOf target) files
      (system.makeDirectories files (directoryOf target)) := by
  have hcurrent : Provides (Path.Above · target) "." files (system.makeDirectories files ".") := by
    have hl : files.locate "." = .ok ⟨files.current, some .directory⟩ := by
      refine locate_eq_ok.2 ⟨⟨by decide, by decide, by decide⟩, ?_, by simp⟩
      exact follow_dots hw.current (by decide)
    have hstays := System.makeDirectories_stays system hw hl
    refine ⟨?_, ?_, fun _ _ => ⟨files.current, ?_⟩⟩
    all_goals rw [hstays]
    · exact .refl _ files
    · exact hw
    · exact hl
  unfold directoryOf
  split
  · exact hcurrent
  · exact hcurrent
  · next parent _ hp =>
    obtain ⟨hgrown, hw', hprovided⟩ := System.makeDirectories_provides system hw parent
    exact ⟨hgrown.mono fun q hq => hq.above hp, hw', hprovided⟩

theorem directoryOf_ne_empty (target : String) : directoryOf target ≠ "" := by
  unfold directoryOf
  split
  · simp
  · simp
  · next h _ => exact h

/-- **The place of a package** is in its directory, under its last name. -/
theorem follow_target {last : String} (hw : files.WellFormed)
    (hd : files.locate (directoryOf target) = .ok ⟨place, some .directory⟩)
    (hlast : (namesOf target).getLast? = some last) (hdot : last ≠ ".") :
    files.follow (files.start target) (namesOf target) = files.follow place [last] := by
  obtain ⟨hfits, hf, -⟩ := locate_eq_ok.1 hd
  obtain ⟨before, hb, -⟩ := Path.exists_namesOf_eq hlast hdot
  obtain ⟨parent, hp⟩ : ∃ parent, Path.parent? target = some parent := by
    simp [Path.parent?, hb]
  obtain ⟨dots, hdots, hnames, habs⟩ := Path.namesOf_parent? hlast hdot hp
  have hstart : files.start parent = files.start target := by simp [start, habs]
  -- A path of one name has the empty parent; its directory is then `.`, the one that relative paths start from.
  have hparent : files.follow (files.start target) (namesOf parent) =
      .ok ⟨place, some .directory⟩ := by
    unfold directoryOf at hf
    rw [hp] at hf
    split at hf
    · contradiction
    · next he =>
      obtain rfl : parent = "" := Option.some.inj he
      rw [← hf, ← hstart]
      have : files.follow files.current ["."] = .ok ⟨files.current, some .directory⟩ :=
        follow_dots hw.current (by simp)
      exact (congrArg Except.ok (congrArg _ hw.current)).trans this.symm
    · next he =>
      obtain rfl := Option.some.inj he
      rw [← hstart]
      exact hf
  have hdir : files.at? place = some .directory := (locate_entry hd).symm
  rw [hnames, List.append_assoc, follow_append hparent, follow_append (follow_dots hdir hdots)]

/-! ### Staging -/

/-- **A staging directory:** it lies in the directory of the package, nothing was there before, and
nothing has changed outside it. Its path starts from a base that leads to that directory. -/
structure Staged (directory base : String) (place : Location) (stage : String)
    (before files : Files) : Prop where
  wellFormed : before.WellFormed
  located : before.locate directory = .ok ⟨place, some .directory⟩
  based : before.locate base = .ok ⟨place, some .directory⟩
  proper : Path.Proper stage
  fresh : before.at? (place ++ [stage]) = none
  below : Below (Path.join base stage) (place ++ [stage]) before files

variable {directory base stage : String} {before : Files} {tools : Tools}

theorem Staged.none_below (h : Staged directory base place stage before files) {q : Location}
    (hq : place ++ [stage] <+: q) : before.at? q = none :=
  h.wellFormed.none_of_prefix h.fresh hq

theorem Staged.keeps (h : Staged directory base place stage before files) :
    Files.Keeps before files := by
  intro q hq
  rw [h.below.outside q, hq]
  intro hp
  rw [h.none_below hp] at hq
  cases hq

/-- **Dropping the staging directory** takes away all that has been written. -/
theorem Staged.dropped (h : Staged directory base place stage before files)
    (hstaging : tools.staging.Lawful) {P : String → Prop} (hgrown : Grown P files' before) :
    Grown P files' (tools.staging.drop (Path.join base stage) files) := by
  rw [hstaging.dropped h.below.located]
  refine hgrown.trans ⟨h.below.current, fun q => .inl ?_⟩
  rw [at?_removeAll (by simp)]
  split
  · next hq => rw [h.none_below hq]
  · next hq => exact h.below.outside q hq

/-- Making a staging directory. -/
theorem staged_of_makeDirectory (hw : before.WellFormed)
    (hd : before.locate directory = .ok ⟨place, some .directory⟩)
    (hb : before.locate base = before.locate directory) (hn : Path.Proper stage)
    (hm : before.makeDirectory (Path.join base stage) = .ok files) :
    Staged directory base place stage before files ∧
      ∀ rel, files.at? (place ++ [stage] ++ rel) = laid [] rel := by
  rw [hd] at hb
  -- The new directory is the only change, and there was nothing below a place where there was nothing.
  obtain ⟨-, hw', q, hq, rfl, hl⟩ := makeDirectory_grown hw hm
  obtain ⟨hspot, hshort⟩ := locate_join hb hn hq
  obtain ⟨rfl, hnone⟩ := Files.Spot.mk.inj hspot
  refine ⟨⟨hw, hd, hb, hn, hnone.symm, hw', rfl, fun q hq => ?_, hl⟩, fun rel => ?_⟩
  · rw [at?_put (by simp), if_neg]
    rintro rfl
    exact hq List.prefix_rfl
  · by_cases hr : rel = []
    · simp [hr, at?_put, laid]
    · have hne : place ++ [stage] ++ rel ≠ place ++ [stage] := by simpa using hr
      rw [at?_put (by simp), if_neg hne,
        hw.none_of_prefix hnone.symm (List.prefix_append _ _)]
      simp [laid, hr]

/-! ### The package in its place -/

/-- There is nothing at a place but possibly an empty directory. -/
structure Files.Vacant (files : Files) (place : Location) : Prop where
  noFile : ∀ bytes, files.at? place ≠ some (.file bytes)
  empty : ∀ q, place <+: q → q ≠ place → files.at? q = none

/-- **A package in its place.** There was nothing but possibly an empty directory before. The files
of the package lie there and no others, and nothing else has changed but that directories above the
package have been added. -/
structure Package.Installed (p : Package) (quote : String → String) (target : String)
    (place : Location) (files files' : Files) : Prop where
  located : files'.locate target = .ok ⟨place, some .directory⟩
  vacant : files.Vacant place
  contents : ∀ rel, files'.at? (place ++ rel) = laid (p.placed quote) rel
  current : files'.current = files.current
  elsewhere : ∀ q, ¬place <+: q → files'.at? q = files.at? q ∨
    files.at? q = none ∧ files'.at? q = some .directory ∧
      ∃ path, Path.Above path target ∧ files'.locate path = .ok ⟨q, some .directory⟩
  wellFormed : files'.WellFormed

/-- What stood in the staging directory stands in the place of the package, where there was nothing
but possibly an empty directory, and nothing else has changed. -/
structure Moved (place : Location) (stage last : String) (before files result : Files) : Prop where
  vacant : before.Vacant (place ++ [last])
  inside : ∀ rel, result.at? (place ++ [last] ++ rel) = files.at? (place ++ [stage] ++ rel)
  outside : ∀ q, ¬place ++ [last] <+: q → result.at? q = before.at? q
  current : result.current = before.current
  short : last.utf8ByteSize ≤ maxName

variable {last : String} {result : Files}

/-- **Moving the staging directory** to the place of the package, which is another one beside it. -/
theorem Staged.moved (h : Staged directory base place stage before files) (hother : last ≠ stage)
    (hfile : ∀ bytes, files.at? (place ++ [last]) ≠ some (.file bytes))
    (hempty : (files.at? (place ++ [last])).isSome → files.below (place ++ [last]) = [])
    (hshort : last.utf8ByteSize ≤ maxName) :
    Moved place stage last before files
      (files.moved (place ++ [stage]) (place ++ [last]) .directory) := by
  -- The two places are different ones in the same directory, so nothing lies below both.
  have hapart : ∀ q, place ++ [last] <+: q → ¬place ++ [stage] <+: q := by
    intro q hl hs
    have he := (List.prefix_of_prefix_length_le hl hs (by simp)).eq_of_length (by simp)
    exact hother (List.singleton_inj.1 (List.append_cancel_left he))
  have hvacant : files.Vacant (place ++ [last]) := by
    refine ⟨hfile, fun q hq hne => ?_⟩
    cases hfound : files.at? (place ++ [last]) with
    | none => exact h.below.wellFormed.none_of_prefix hfound hq
    | some entry =>
      cases he : files.at? q with
      | none => rfl
      | some e =>
        have hmem := mem_below (x := (q, e)).2 ⟨he, hq, hne⟩
        rw [hempty (by simp [hfound])] at hmem
        cases hmem
  have hentry := at?_moved files (by simp) (by simp)
    (locate_entry h.below.located).symm hvacant.empty
  have hsame (q) (hq : place ++ [last] <+: q) := h.below.outside q (hapart q hq)
  refine ⟨⟨hsame _ List.prefix_rfl ▸ hvacant.noFile,
    fun q hq hne => hsame q hq ▸ hvacant.empty q hq hne⟩, fun rel => ?_, fun q hq => ?_, ?_, hshort⟩
  · rw [hentry, if_pos (List.prefix_append _ _), List.drop_left]
  · rw [hentry, if_neg hq]
    split
    · next hs => rw [h.none_below hs]
    · next hs => exact h.below.outside q hs
  · simp [Files.moved, h.below.current]

theorem Moved.keeps (h : Moved place stage last before files result)
    (hs : Staged directory base place stage before files) : Files.Keeps before result := by
  intro q hq
  by_cases hp : place ++ [last] <+: q
  · -- The place itself was a directory at most, and is one now. Below it there was nothing.
    by_cases he : q = place ++ [last]
    · have hroot := h.inside []
      rw [List.append_nil, List.append_nil, ← locate_entry hs.below.located] at hroot
      rw [he, hroot]
    · rw [h.vacant.empty q hp he] at hq
      cases hq
  · rw [h.outside q hp, hq]

/-- What stands in the tree stands in the package, is its place, or was there before. -/
theorem Moved.wellFormed (h : Moved place stage last before files result)
    (hs : Staged directory base place stage before files) : result.WellFormed := by
  have hkeeps := h.keeps hs
  -- Both laws of a tree are about an entry and its name, so each is shown for the three origins of the entry.
  have hcases (q : Location) (name : String) (e : Entry)
      (he : result.at? (q ++ [name]) = some e) :
      (∃ rel, q = place ++ [last] ++ rel ∧
        files.at? (place ++ [stage] ++ rel ++ [name]) = some e) ∨
      (q = place ∧ name = last) ∨ before.at? (q ++ [name]) = some e := by
    by_cases hp : place ++ [last] <+: q ++ [name]
    · rcases List.prefix_concat_iff.1 hp with he' | ⟨rel, rfl⟩
      · obtain ⟨rfl, hn⟩ := List.append_inj' he' rfl
        exact .inr (.inl ⟨rfl, (List.singleton_inj.1 hn).symm⟩)
      · rw [List.append_assoc, h.inside, ← List.append_assoc] at he
        exact .inl ⟨rel, rfl, he⟩
    · exact .inr (.inr (h.outside _ hp ▸ he))
  refine ⟨h.current ▸ hkeeps _ hs.wellFormed.current, fun q name e he => ?_,
    fun q name e he => ?_⟩
  · rcases hcases q name e he with ⟨rel, rfl, hf⟩ | ⟨rfl, -⟩ | hb
    · rw [h.inside]
      exact hs.below.wellFormed.parent _ _ _ hf
    · exact hkeeps _ (locate_entry hs.located).symm
    · exact hkeeps _ (hs.wellFormed.parent _ _ _ hb)
  · rcases hcases q name e he with ⟨rel, rfl, hf⟩ | ⟨-, rfl⟩ | hb
    · exact hs.below.wellFormed.short _ _ _ hf
    · exact h.short
    · exact hs.wellFormed.short _ _ _ hb

/-- After the move, the path of the staging directory leads nowhere. -/
theorem Moved.gone (h : Moved place stage last before files result)
    (hs : Staged directory base place stage before files) (hother : last ≠ stage) :
    result.exists? (Path.join base stage) = false := by
  have hbase := locate_directory_mono (h.keeps hs) h.current hs.based
  have hnone : result.at? (place ++ [stage]) = none := by
    rw [h.outside _ fun hp => ?_, hs.fresh]
    exact hother (List.singleton_inj.1 (List.append_cancel_left (hp.eq_of_length (by simp))))
  unfold Files.exists?
  cases hl : result.locate (Path.join base stage) with
  | error e => rfl
  | ok spot => rw [(locate_join hbase hs.proper hl).1, hnone]; rfl

/-- The place of a package, where the staging directory has been moved to, has a name of its own: it is not
the root, which is not empty. -/
theorem Staged.last_of_rename (h : Staged (directoryOf target) base place stage before files)
    (hr : files.rename (Path.join base stage) target = .ok result)
    (havoids : Path.fileName? (Path.join base stage) ≠ Path.fileName? target) :
    ∃ last, (namesOf target).getLast? = some last ∧ last ≠ "." ∧ last ≠ ".." ∧ last ≠ stage ∧
      last.utf8ByteSize ≤ maxName ∧ (∀ bytes, files.at? (place ++ [last]) ≠ some (.file bytes)) ∧
      ((files.at? (place ++ [last])).isSome → files.below (place ++ [last]) = []) ∧
      result = files.moved (place ++ [stage]) (place ++ [last]) .directory := by
  obtain ⟨old, new, entry, found, hs, ht, hdot, hdots, hmoved⟩ := rename_ok hr
  rw [h.below.located, Except.ok.injEq, Files.Spot.mk.injEq, Option.some.injEq] at hs
  obtain ⟨rfl, rfl⟩ := hs
  have hstaging : files.at? (place ++ [stage]) = some .directory := (locate_entry h.below.located).symm
  obtain ⟨hfits, hfollow, -⟩ := locate_eq_ok.1 ht
  cases hlast : (namesOf target).getLast? with
  | none =>
    -- A path without names is the root. It has the staging directory below it, so it is not empty.
    rw [List.getLast?_eq_none_iff] at hlast
    rw [hlast, follow_nil, Except.ok.injEq, Files.Spot.mk.injEq] at hfollow
    obtain ⟨rfl, rfl⟩ := hfollow
    have hroot : files.start target = [] := by
      rw [start, Path.isAbsolute_of_namesOf_eq_nil hfits.ne_empty hlast, if_pos rfl]
    rw [hroot] at hmoved
    obtain ⟨-, hempty, -⟩ := hmoved (by simp)
    have hmem := mem_below (x := (place ++ [stage], _)).2 ⟨hstaging, List.nil_prefix, by simp⟩
    rw [hempty rfl] at hmem
    cases hmem
  | some last =>
    rw [hlast, Ne, Option.some.injEq] at hdot hdots
    have hdir : files.locate (directoryOf target) = .ok ⟨place, some .directory⟩ :=
      locate_directory_mono h.keeps h.below.current h.located
    rw [follow_target h.below.wellFormed hdir hlast hdot] at hfollow
    obtain ⟨q, hq, hspot, -⟩ := follow_cons_ok hfollow
    obtain ⟨e, -⟩ | ⟨e, -⟩ | ⟨-, -, hshort, rfl⟩ := placeIn_ok hq
    · exact absurd e hdot
    · exact absurd e hdots
    rw [follow_nil, Except.ok.injEq, Files.Spot.mk.injEq] at hspot
    obtain ⟨rfl, rfl⟩ := hspot
    -- This is what the names that are drawn have to avoid: the move would be one of a directory to itself.
    have hother : last ≠ stage := by
      rintro rfl
      rw [Path.fileName?_eq (getLast?_namesOf_join base h.proper) h.proper,
        Path.fileName?_eq hlast h.proper] at havoids
      exact havoids rfl
    obtain ⟨hfile, hempty, rfl⟩ := hmoved fun e =>
      hother (List.singleton_inj.1 (List.append_cancel_left e)).symm
    exact ⟨last, rfl, hdot, hdots, hother, hshort, hfile, hempty, rfl⟩

/-- **Moving the staging directory** puts the package in its place, and nothing is left where it was. -/
theorem Staged.installed (h : Staged (directoryOf target) base place stage before files)
    (hcontents : ∀ rel, files.at? (place ++ [stage] ++ rel) = laid (p.placed tools.quote) rel)
    (hgrown : Grown (Path.Above · target) files' before)
    (havoids : Path.fileName? (Path.join base stage) ≠ Path.fileName? target)
    (hr : files.rename (Path.join base stage) target = .ok result) :
    result.exists? (Path.join base stage) = false ∧
      ∃ place, p.Installed tools.quote target place files' result := by
  have hfits : Fits target := by
    obtain ⟨old, new, entry, found, -, ht, -⟩ := rename_ok hr
    exact (locate_eq_ok.1 ht).1
  obtain ⟨last, hlast, hdot, hdots, hother, hshort, hfile, hempty, rfl⟩ := h.last_of_rename hr havoids
  have hm := h.moved hother hfile hempty hshort
  generalize files.moved (place ++ [stage]) (place ++ [last]) .directory = result at hm ⊢
  have hkeeps := hm.keeps h
  have hroot : result.at? (place ++ [last]) = some .directory := by
    have := hm.inside []
    rwa [List.append_nil, List.append_nil, ← locate_entry h.below.located] at this
  have hq : placeIn place last = .ok (place ++ [last]) := by
    simp [placeIn, hdot, hdots, Nat.not_lt.2 hshort]
  have hlocated : result.locate target = .ok ⟨place ++ [last], some .directory⟩ := by
    refine locate_eq_ok.2 ⟨hfits, ?_, by simp⟩
    have hdir' := locate_directory_mono hkeeps hm.current h.located
    rw [follow_target (hm.wellFormed h) hdir' hlast hdot, follow_cons hq hroot, follow_nil, hroot]
  -- The tree has grown by directories above the package only, so what is missing behind them was missing before.
  have hbefore : ∀ q, before.at? q = none → files'.at? q = none := by
    intro q hq
    rcases hgrown.entry q with he | ⟨hn, -⟩
    · rw [← he, hq]
    · exact hn
  refine ⟨hm.gone h hother, place ++ [last], hlocated, ⟨fun bytes hb => ?_, fun q hq hne =>
    hbefore q (hm.vacant.empty q hq hne)⟩, fun rel => by rw [hm.inside, hcontents],
    hm.current.trans hgrown.current, fun q hq => ?_, hm.wellFormed h⟩
  · rcases hgrown.entry (place ++ [last]) with he | ⟨hn, -⟩
    · exact hm.vacant.noFile bytes (he.trans hb)
    · rw [hn] at hb
      cases hb
  · rw [hm.outside q hq]
    rcases hgrown.entry q with he | ⟨hn, he, path, hp, hl⟩
    · exact .inl he
    · exact .inr ⟨hn, he, path, hp, locate_directory_mono hkeeps hm.current hl⟩

/-! ### Writing a package -/

variable {outcome : Except PackageError Unit}

/-- **Filling the staging directory and moving it.** After an error it is still there, and otherwise the
package is in its place. -/
theorem Staged.package (h : Staged (directoryOf target) base place stage before files)
    (hroot : ∀ rel, files.at? (place ++ [stage] ++ rel) = laid [] rel)
    (hslash : ∀ asset ∈ p.assets, '/' ∉ asset.name.toList)
    (hgrown : Grown (Path.Above · target) files' before)
    (hstage : p.stage (Path.join base stage) target tools files = (outcome, result)) :
    (∀ e, outcome = .error e → Staged (directoryOf target) base place stage before result) ∧
    (outcome = .ok () → Path.fileName? (Path.join base stage) ≠ Path.fileName? target →
      result.exists? (Path.join base stage) = false ∧
        ∃ place, p.Installed tools.quote target place files' result) := by
  have hbase := (locate_eq_ok.1 h.based).1.ne_empty
  unfold Package.stage at hstage
  cases hfiles : writeFiles tools.system (Path.join base stage) (p.files tools.quote) files with
  | mk first filled =>
    rw [hfiles] at hstage
    rw [Package.files_eq] at hfiles
    obtain ⟨hbelow, hcontents⟩ := writeFiles_stages h.below.wellFormed h.below.located
      (Path.tidy_join hbase h.proper) hroot (p.placed tools.quote)
      (Package.shallow_placed hslash tools.quote) (p.nodup_placed tools.quote) hfiles
    have hstaged : Staged (directoryOf target) base place stage before filled :=
      { h with below := h.below.trans hbelow }
    cases first with
    | error e =>
      -- Whatever has been written when the error comes is in the staging directory.
      obtain ⟨rfl, rfl⟩ := Prod.mk.inj hstage
      exact ⟨fun _ _ => hstaged, by simp⟩
    | ok _ =>
      simp only [andThen, BuildStep.run, Prod.mk.injEq] at hstage
      obtain ⟨rfl, rfl⟩ := hstage
      rcases tools.system.atomic_answer (.rename (Path.join base stage) target) filled
          (filled.rename (Path.join base stage) target) with ⟨e, he⟩ | ⟨moved, hr, he⟩
      · rw [System.rename, he]
        exact ⟨fun _ _ => hstaged, by simp [Except.mapError]⟩
      · rw [System.rename, he]
        exact ⟨by simp [Except.mapError],
          fun _ havoids => hstaged.installed (hcontents rfl) hgrown havoids hr⟩

/-- **Writing a package.** After an error nothing has been added but directories above its place.
Without one the package is there. -/
theorem Package.install_spec (p : Package) (target : String) (hstaging : tools.staging.Lawful)
    (hw : files.WellFormed) (hslash : ∀ asset ∈ p.assets, '/' ∉ asset.name.toList)
    (h : p.install target tools files = (outcome, result)) :
    (∀ e, outcome = .error e → Grown (Path.Above · target) files result) ∧
    (outcome = .ok () → tools.staging.Avoids target →
      ∃ place, p.Installed tools.quote target place files result) := by
  have hdirectory := provides_directoryOf tools.system hw target
  dsimp only [Package.install, provideDirectory, BuildStep.run] at h
  generalize tools.system.makeDirectories files (directoryOf target) = provided at h hdirectory
  obtain ⟨first, before⟩ := provided
  obtain ⟨hgrown, hbefore, hprovided⟩ := hdirectory
  cases first with
  | error e =>
    obtain ⟨rfl, rfl⟩ := Prod.mk.inj h
    exact ⟨fun _ _ => hgrown, by simp [Except.mapError]⟩
  | ok _ =>
    obtain ⟨place, hd⟩ := hprovided rfl (directoryOf_ne_empty target)
    dsimp only [Except.mapError, andThen] at h
    cases hmake : tools.staging.make stageBeginning (directoryOf target) before with
    | mk drawn made =>
      rw [hmake] at h
      cases drawn with
      | error e =>
        obtain ⟨rfl, rfl⟩ := Prod.mk.inj h
        rw [hstaging.failed hmake]
        exact ⟨fun _ _ => hgrown, by simp⟩
      | ok staging =>
        obtain ⟨base, rest, rfl, hrest, hbase, hm⟩ := hstaging.made hmake
        obtain ⟨hstaged, hroot⟩ := staged_of_makeDirectory hbefore hd hbase (proper_stage hrest) hm
        cases hstage : p.stage (Path.join base (stageBeginning ++ rest)) target tools made with
        | mk second filled =>
          obtain ⟨herror, hok⟩ := hstaged.package hroot hslash hgrown hstage
          dsimp only at h
          rw [hstage] at h
          obtain ⟨rfl, rfl⟩ := Prod.mk.inj h
          -- The staging directory is dropped in either case. After the move there is nothing left to drop.
          refine ⟨fun e he => (herror e he).dropped hstaging hgrown, fun he havoids => ?_⟩
          obtain ⟨hgone, hinstalled⟩ := hok he (havoids hmake)
          rwa [hstaging.gone hgone]

/-- A result whose error, if there is one, is that of a step. -/
def FailsInStep (result : Except PackageError Unit × Files) : Prop :=
  ∀ e, result.1 = .error e → ∃ step error, e = .failedStep step error

theorem BuildStep.run_failsInStep (step : BuildStep) (operation : Except FileError Unit × Files) :
    FailsInStep (step.run operation) := by
  intro e he
  obtain ⟨outcome, files⟩ := operation
  cases outcome with
  | error error => exact ⟨step, error, by simpa [run, Except.mapError] using he.symm⟩
  | ok _ => simp [run, Except.mapError] at he

theorem FailsInStep.andThen {first : Except PackageError Unit × Files}
    {second : Files → Except PackageError Unit × Files} (h₁ : FailsInStep first)
    (h₂ : ∀ files, FailsInStep (second files)) : FailsInStep (andThen first second) := by
  obtain ⟨outcome, files⟩ := first
  cases outcome with
  | error e => exact h₁
  | ok _ => exact h₂ files

theorem writeFiles_failsInStep (system : System) (root : String)
    (contents : List (String × List UInt8)) (files : Files) :
    FailsInStep (writeFiles system root contents files) := by
  induction contents generalizing files with
  | nil => simp [FailsInStep, writeFiles]
  | cons f rest ih =>
    refine .andThen (.andThen (BuildStep.run_failsInStep _ _) fun files => ?_) ih
    exact BuildStep.run_failsInStep _ _

theorem Package.install_failsInStep (p : Package) (target : String) (tools : Tools) (files : Files) :
    FailsInStep (p.install target tools files) := by
  refine .andThen (BuildStep.run_failsInStep _ _) fun files => ?_
  split
  · intro e he
    exact ⟨_, _, (Except.error.inj he).symm⟩
  · next staging made _ =>
    have hstage : FailsInStep (p.stage staging target tools made) :=
      .andThen (writeFiles_failsInStep _ _ _ _) fun _ => BuildStep.run_failsInStep _ _
    exact fun e he => hstage e he

/-! ### Building -/

variable {job : Job}

/-- **A failed job leaves nothing behind** but directories above the place of the package, which it
makes right before it starts to write: any other error leaves the tree as it is. -/
theorem Job.build_error {e : PackageError} (hstaging : tools.staging.Lawful) (hw : files.WellFormed)
    (h : job.build files tools = (.error e, files')) :
    Grown (Path.Above · job.output) files files' ∧
      ((∀ step error, e ≠ .failedStep step error) → files' = files) := by
  unfold build at h
  cases hp : job.package tools.system files with
  | error e' =>
    rw [hp, Prod.mk.injEq] at h
    obtain ⟨-, rfl⟩ := h
    exact ⟨.refl _ files, fun _ => rfl⟩
  | ok p =>
    simp only [hp] at h
    split at h
    · obtain ⟨-, rfl⟩ := Prod.mk.inj h
      exact ⟨.refl _ files, fun _ => rfl⟩
    · cases hinstall : p.install job.output tools files with
      | mk outcome left =>
        have hgrown := (p.install_spec job.output hstaging hw ((package_ok hp).noSlash hw) hinstall).1
        have hstep := p.install_failsInStep job.output tools files
        rw [hinstall] at h hstep
        cases outcome with
        | ok _ => simp [Except.map] at h
        | error e' =>
          obtain ⟨he, rfl⟩ := Prod.mk.inj h
          refine ⟨hgrown e' rfl, fun hne => ?_⟩
          obtain ⟨step, error, rfl⟩ := hstep e' rfl
          exact absurd (Except.error.inj he).symm (hne step error)

/-- **A job that succeeds** puts the package that it reads in its place. -/
theorem Job.build_installed (hstaging : tools.staging.Lawful) (havoids : tools.staging.Avoids job.output)
    (hw : files.WellFormed) (h : job.build files tools = (.ok p, files')) :
    job.Reads files p ∧ tools.system.exists? files job.output = false ∧
      ∃ place, p.Installed tools.quote job.output place files files' := by
  unfold build at h
  cases hp : job.package tools.system files with
  | error e' => simp [hp] at h
  | ok p' =>
    simp only [hp] at h
    split at h
    · simp at h
    · next hfree =>
      rw [Bool.not_eq_true] at hfree
      cases hinstall : p'.install job.output tools files with
      | mk outcome left =>
        have hinstalled := (p'.install_spec job.output hstaging hw ((package_ok hp).noSlash hw) hinstall).2
        rw [hinstall] at h
        cases outcome with
        | error e => simp [Except.map] at h
        | ok _ =>
          obtain ⟨he, rfl⟩ := Prod.mk.inj h
          obtain rfl := Except.ok.inj he
          exact ⟨package_ok hp, hfree, hinstalled rfl havoids⟩

/-! ### Some jobs -/

/-- A tree with a script and an empty directory. -/
def scriptFiles : Files :=
  (Files.empty.put ["tmp", "work", "deploy.gs"] (.file (Text.encode "fn Deploy() {}"))).put
    ["tmp", "work", "old"] .directory

theorem scriptFiles_wellFormed : scriptFiles.WellFormed :=
  wellFormed_of_entries (by decide +kernel) (by decide +kernel)

/-- A job for the script whose package goes to a path. -/
def scriptJob (output : String) : Job :=
  { script := "deploy.gs", name := "Agent", output, resources := ["deploy.gs"],
    runtime := .registry version }

/-- A disk that is full when the program of a package is written. -/
def fullDisk : Tools where
  system request _ :=
    match request with
    | .write path _ => if Path.fileName? path = some "main.rs" then .cutShort 20 .noSpace else .granted
    | _ => .granted

/-- The last file of a package is cut short. The directory above the package stays, and nothing else: the
staging directory with what has been written there is gone. -/
theorem Job.build_on_full_disk : ∃ e files',
    (scriptJob "new/agent").build scriptFiles fullDisk = (.error e, files') ∧
      e.message = "cannot write new/.gscript-stage-100000/src/main.rs: No space left on device (os error 28)" ∧
      files'.exists? "new" = true ∧ files'.exists? "new/.gscript-stage-100000" = false ∧
      Grown (Path.Above · "new/agent") scriptFiles files' := by
  have hresult : (((scriptJob "new/agent").build scriptFiles fullDisk).1.map fun _ => ()).mapError
        PackageError.message =
      .error "cannot write new/.gscript-stage-100000/src/main.rs: No space left on device (os error 28)" ∧
      ((scriptJob "new/agent").build scriptFiles fullDisk).2.exists? "new" = true ∧
      ((scriptJob "new/agent").build scriptFiles fullDisk).2.exists? "new/.gscript-stage-100000" = false := by
    decide +kernel
  match h : (scriptJob "new/agent").build scriptFiles fullDisk with
  | (.error e, files') =>
    rw [h] at hresult
    obtain ⟨hmessage, hnew, hstaging⟩ := hresult
    have hgrown := (Job.build_error Staging.numbered_lawful scriptFiles_wellFormed h).1
    exact ⟨e, files', rfl, Except.error.inj hmessage, hnew, hstaging, hgrown⟩
  | (.ok p, files') =>
    rw [h] at hresult
    cases hresult.1

/-- A job that fails may leave directories. -/
theorem Job.failure_leaves_directory :
    ¬∀ (job : Job) (e : PackageError) (files files' : Files), files.WellFormed →
      job.build files = (.error e, files') → ∀ place, files'.at? place = files.at? place := by
  intro hall
  have hdirectory : ((scriptJob "new/../deploy.gs/agent").build scriptFiles).1.isOk = false ∧
      ((scriptJob "new/../deploy.gs/agent").build scriptFiles).2.at? ["tmp", "work", "new"] ≠
        scriptFiles.at? ["tmp", "work", "new"] := by
    decide +kernel
  match h : (scriptJob "new/../deploy.gs/agent").build scriptFiles with
  | (.error e, files') =>
    rw [h] at hdirectory
    exact hdirectory.2 (hall _ e _ _ scriptFiles_wellFormed h _)
  | (.ok p, files') =>
    rw [h] at hdirectory
    cases hdirectory.1

end DeployScript
