import DeployScript.Package.Build
import DeployScript.Proofs.Files.Trees
import DeployScript.Proofs.Toml.Quoting

/-!
# What packages rely on

What is asked of the tools that packages are built with, and that the tools at hand are such ones.
Nothing is asked of the system: it may refuse what it likes.

* `Staging.Lawful` — a staging directory is a new one in the directory that was asked for, with a name that
  starts as told. Dropping it removes it with all that is in it, and does nothing if it is gone.
* `Staging.Avoids` — no staging directory gets the name of a package.
* `Staging.numbered_lawful`, `Toml.faithful_quote` — the tools at hand.
-/

namespace DeployScript

open Files

variable {staging : Staging} {files files' : Files} {beginning directory path target name rest : String}

/-- **What is asked of a provider of staging directories.** The path of a directory may start from another
base that leads to the same place. -/
structure Staging.Lawful (staging : Staging) : Prop where
  made : ∀ {beginning directory path : String} {files files' : Files},
    staging.make beginning directory files = (.ok path, files') →
      ∃ base rest, path = Path.join base (beginning ++ rest) ∧ (∀ c ∈ rest.toList, c.isAlphanum = true) ∧
        files.locate base = files.locate directory ∧ files.makeDirectory path = .ok files'
  failed : ∀ {beginning directory : String} {e : FileError} {files files' : Files},
    staging.make beginning directory files = (.error e, files') → files' = files
  dropped : ∀ {path : String} {place : Location} {files : Files},
    files.locate path = .ok ⟨place, some .directory⟩ → staging.drop path files = files.removeAll place
  gone : ∀ {path : String} {files : Files}, files.exists? path = false → staging.drop path files = files

/-- **No staging directory gets the name of a package** that is to be moved to a path. -/
def Staging.Avoids (staging : Staging) (target : String) : Prop :=
  ∀ {directory path : String} {files files' : Files},
    staging.make stageBeginning directory files = (.ok path, files') →
      Path.fileName? path ≠ Path.fileName? target

/-! ### Names -/

/-- The name of a staging directory is proper. -/
theorem proper_stage (h : ∀ c ∈ rest.toList, c.isAlphanum = true) :
    Path.Proper (stageBeginning ++ rest) := by
  have htext : (stageBeginning ++ rest).toList = stageBeginning.toList ++ rest.toList :=
    String.toList_append
  have hmem : 'g' ∈ (stageBeginning ++ rest).toList := by
    rw [htext]
    exact List.mem_append_left _ (by decide)
  refine ⟨?_, ?_, ?_, ?_⟩
  · rintro e; simp [e] at hmem
  · rintro e; simp [e] at hmem
  · rintro e; simp [e] at hmem
  · rw [htext, List.mem_append]
    rintro (hs | hr)
    · exact absurd hs (by decide)
    · exact absurd (h _ hr) (by decide)

/-- A proper name is the last one of a path that it is put behind. -/
theorem getLast?_namesOf_join (base : String) (hn : Path.Proper name) :
    (namesOf (Path.join base name)).getLast? = some name := by
  by_cases hb : base = ""
  · have hjoin : Path.join base name = name := by
      simp [Path.join, hb, Path.isAbsolute_of_noSlash hn.noSlash]
    rw [hjoin, namesOf, Path.parts_toList hn.noSlash, List.filter_cons_of_pos (by simpa using hn.ne_empty)]
    rfl
  · rw [Path.namesOf_join hb hn, List.getLast?_concat]

/-- A package whose name does not start with a dot is not in the way. -/
theorem Staging.Lawful.avoids (h : staging.Lawful)
    (ht : (Path.fileName? target).bind (·.toList.head?) ≠ some '.') : staging.Avoids target := by
  intro directory path files files' hm he
  obtain ⟨base, rest, rfl, hrest, -, -⟩ := h.made hm
  have hn := proper_stage hrest
  rw [Path.fileName?_eq (getLast?_namesOf_join base hn) hn] at he
  rw [← he, Option.bind_some, String.toList_append] at ht
  exact ht rfl

/-! ### The tools at hand -/

theorem isAlphanum_toString (n : Nat) : ∀ c ∈ (toString n).toList, c.isAlphanum = true := by
  intro c hc
  have hdigits : (toString n).toList = Nat.toDigits 10 n := by
    rw [Nat.toString_eq_ofList_toDigits, String.toList_ofList]
  rw [hdigits] at hc
  have hdigit := Nat.isDigit_of_mem_toDigits (by decide) (by decide) hc
  simp [Char.isAlphanum, hdigit]

/-- **Numbers will do for names.** -/
theorem Staging.numbered_lawful : numbered.Lawful where
  made := by
    intro beginning directory path files files' h
    dsimp only [numbered] at h
    split at h
    · next made hm =>
      obtain ⟨hpath, rfl⟩ := Prod.mk.inj h
      obtain rfl := Except.ok.inj hpath
      exact ⟨directory, _, rfl, isAlphanum_toString _, rfl, hm⟩
    · cases (Prod.mk.inj h).1
  failed := by
    intro beginning directory e files files' h
    dsimp only [numbered] at h
    split at h
    · cases (Prod.mk.inj h).1
    · exact (Prod.mk.inj h).2.symm
  dropped := by
    intro path place files h
    simp only [numbered, h]
  gone := by
    intro path files h
    dsimp only [numbered]
    split
    · next place entry hl => simp [Files.exists?, hl] at h
    · rfl

end DeployScript
