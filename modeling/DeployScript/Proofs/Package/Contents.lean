import DeployScript.Proofs.Package.Writing
import Mathlib.Data.List.Nodup
import Mathlib.Data.List.Enum

/-!
# The files of a package

Where the files of a package lie, and what the assets are that a job reads.

* `Package.placed` lists the files with their places in the package. They are the files that
  `Package.files` lists by their paths (`Package.files_eq`), and no two have one place
  (`Package.nodup_placed`).
* `readAssets_ok`: each resource becomes an asset with its file name and its bytes, and no two have
  one name.
-/

namespace DeployScript

open Files

namespace Package

/-- The file name of an asset. -/
def assetFile (asset : Asset) (index : Nat) : String := toString index ++ "_" ++ asset.name

/-- **The files of a package** with their places in it. -/
def placed (p : Package) (quote : String → String) : List (Location × List UInt8) :=
  [(["Cargo.toml"], Text.encode (p.manifest quote)), (["src", "script.gs"], Text.encode p.source)] ++
    p.assets.zipIdx.map (fun (asset, index) => (["assets", assetFile asset index], asset.bytes)) ++
    [(["src", "main.rs"], Text.encode p.program)]

theorem embed_file (asset : Asset) (index : Nat) :
    (embed asset index).file = "/".intercalate ["assets", assetFile asset index] := by
  have hlit : "assets/" = "assets" ++ "/" := rfl
  simp [embed, assetFile, String.intercalate_cons_cons, hlit, String.append_assoc]

theorem files_eq (p : Package) (quote : String → String) :
    p.files quote = (p.placed quote).map fun f => ("/".intercalate f.1, f.2) := by
  have hscript : scriptFile = "/".intercalate ["src", "script.gs"] := rfl
  have hprogram : programFile = "/".intercalate ["src", "main.rs"] := rfl
  simp [files, placed, assetFiles, embed_file, hscript, hprogram, manifestFile,
    Function.comp_def]

/-! ### Their places -/

theorem toList_assetFile (asset : Asset) (index : Nat) :
    (assetFile asset index).toList = Nat.toDigits 10 index ++ '_' :: asset.name.toList := by
  have hdigits : (toString index).toList = Nat.toDigits 10 index := by
    rw [Nat.toString_eq_ofList_toDigits, String.toList_ofList]
  rw [assetFile, String.toList_append, String.toList_append, hdigits, List.append_assoc]
  rfl

/-- The number in front keeps the files of assets apart. -/
theorem assetFile_injective {a b : Asset} {i j : Nat} (h : assetFile a i = assetFile b j) :
    i = j ∧ a.name = b.name := by
  have htext := congrArg String.toList h
  rw [toList_assetFile, toList_assetFile] at htext
  have before (n : Nat) (rest : List Char) :
      (Nat.toDigits 10 n ++ '_' :: rest).takeWhile (· != '_') = Nat.toDigits 10 n := by
    rw [List.takeWhile_append_of_pos]
    · simp
    · intro c hc
      simp only [bne_iff_ne, ne_eq]
      rintro rfl
      exact Nat.underscore_not_in_toDigits hc
  have hdigits := congrArg (List.takeWhile (· != '_')) htext
  rw [before, before] at hdigits
  have hij : i = j := by
    have hnumber := congrArg (fun ds => Nat.ofDigitChars 10 ds 0) hdigits
    simpa using hnumber
  subst hij
  exact ⟨rfl, String.toList_injective (by simpa using htext)⟩

theorem proper_assetFile {asset : Asset} (h : '/' ∉ asset.name.toList) (index : Nat) :
    Path.Proper (assetFile asset index) := by
  have hmem : '_' ∈ (assetFile asset index).toList := by simp [toList_assetFile]
  refine ⟨?_, ?_, ?_, ?_⟩
  · rintro e; simp [e] at hmem
  · rintro e; simp [e] at hmem
  · rintro e; simp [e] at hmem
  · rw [toList_assetFile, List.mem_append, List.mem_cons]
    rintro (hd | hd | hd)
    · have := Nat.isDigit_of_mem_toDigits (by decide) (by decide) hd
      simp at this
    · simp at hd
    · exact h hd

theorem shallow_placed {p : Package} (h : ∀ asset ∈ p.assets, '/' ∉ asset.name.toList)
    (quote : String → String) : ∀ f ∈ p.placed quote, Shallow f.1 := by
  have own (name : String) (h : (name ≠ "" ∧ name ≠ "." ∧ name ≠ "..") ∧ '/' ∉ name.toList) :
      Path.Proper name := ⟨h.1.1, h.1.2.1, h.1.2.2, h.2⟩
  intro f hf
  simp only [placed, List.mem_append, List.mem_cons, List.not_mem_nil, or_false,
    List.mem_map, Prod.exists] at hf
  rcases hf with ((rfl | rfl) | ⟨asset, index, ha, rfl⟩) | rfl
  · exact .here (own _ (by decide))
  · exact .below (own _ (by decide)) (own _ (by decide))
  · exact .below (own _ (by decide))
      (proper_assetFile (h asset (List.fst_mem_of_mem_zipIdx ha)) index)
  · exact .below (own _ (by decide)) (own _ (by decide))

/-- **No two files have one place.** -/
theorem nodup_placed (p : Package) (quote : String → String) :
    ((p.placed quote).map Prod.fst).Nodup := by
  have hassets : (p.assets.zipIdx.map fun x => (["assets", assetFile x.1 x.2] : Location)).Nodup := by
    apply List.Nodup.map_on
    · rintro ⟨a, i⟩ ha ⟨b, j⟩ hb h
      have hij := (assetFile_injective (List.cons.inj (List.cons.inj h).2).1).1
      subst hij
      rw [List.mem_zipIdx_iff_getElem?] at ha hb
      rw [ha] at hb
      simpa using hb
    · refine List.Nodup.of_map Prod.snd ?_
      rw [List.zipIdx_map_snd]
      exact List.nodup_range'
  simp only [placed, List.map_append, List.map_cons, List.map_nil, List.map_map,
    Function.comp_def, List.cons_append, List.nil_append]
  refine List.nodup_cons.2 ⟨by simp, List.nodup_cons.2 ⟨by simp, ?_⟩⟩
  exact List.Nodup.append hassets (List.nodup_singleton _) (by simp)

end Package

/-! ### What is read -/

variable {system : System} {files : Files} {path : String} {bytes : List UInt8}
  {assets found : List Asset} {paths : List String}

theorem toList_byteArray (bytes : ByteArray) : bytes.toList = bytes.data.toList := by
  have hloop (i : Nat) (before : List UInt8) :
      ByteArray.toList.loop bytes i before = before.reverse ++ bytes.data.toList.drop i := by
    induction h : bytes.size - i generalizing i before with
    | zero =>
      rw [ByteArray.toList.loop, if_neg (by omega), List.drop_eq_nil_of_le]
      · simp
      · exact Nat.le_of_sub_eq_zero h
    | succ n ih =>
      have hi : i < bytes.data.size := by
        have : bytes.data.size = bytes.size := rfl
        omega
      have hget : bytes.get! i = bytes.data.toList.get ⟨i, by simpa using hi⟩ := by
        exact getElem!_pos bytes.data i hi
      have hdrop := List.drop_eq_getElem_cons (l := bytes.data.toList) (i := i) (by simpa using hi)
      rw [ByteArray.toList.loop, if_pos (by omega), ih _ _ (by omega), hget, hdrop]
      simp
  rw [ByteArray.toList, hloop]
  rfl

theorem read_ok (h : files.read path = .ok bytes) :
    ∃ place, files.locate path = .ok ⟨place, some (.file bytes)⟩ := by
  unfold Files.read at h
  cases hl : files.locate path with
  | error e => simp [hl, bind, Except.bind] at h
  | ok spot =>
    obtain ⟨place, entry⟩ := spot
    simp only [hl, bind, Except.bind] at h
    match entry with
    | some (.file found) => exact ⟨place, by rw [Except.ok.inj h]⟩
    | some .directory => cases h
    | none => cases h

/-- **The path of a file** ends in its name. -/
theorem exists_fileName? (hw : files.WellFormed) (h : files.read path = .ok bytes) :
    ∃ name, Path.fileName? path = some name ∧ Path.Proper name := by
  obtain ⟨place, hl⟩ := read_ok h
  rcases locate_cases hw hl with hd | ⟨q, name, hlast, hdot, hdots, -⟩
  · cases hd
  have hmem : name ∈ namesOf path := List.mem_of_getLast? hlast
  rw [Path.namesOf_eq, List.mem_filter] at hmem
  have hproper : Path.Proper name :=
    ⟨by simpa using hmem.2, hdot, hdots, Path.noSlash_of_mem_names hmem.1⟩
  exact ⟨name, Path.fileName?_eq hlast hproper, hproper⟩

/-- **Each resource becomes an asset** with its file name and its bytes. -/
theorem readAssets_ok (h : readAssets system files found paths = .ok assets) :
    ∃ new, assets = found ++ new ∧
      List.Forall₂ (fun path asset => asset.name = assetName path ∧
        files.read path = .ok asset.bytes) paths new ∧
      ((found.map Asset.name).Nodup → (assets.map Asset.name).Nodup) := by
  induction paths generalizing found with
  | nil =>
    cases h
    exact ⟨[], by simp, .nil, id⟩
  | cons path paths ih =>
    unfold readAssets at h
    dsimp only at h
    split at h
    · cases h
    · next hnew =>
      split at h
      · cases h
      · next bytes hread =>
        obtain ⟨new, rfl, hall, hnodup⟩ := ih h
        refine ⟨_, List.append_assoc _ _ _, .cons ⟨rfl, system.of_read hread⟩ hall,
          fun hfound => hnodup ?_⟩
        rw [List.map_append, List.map_singleton]
        refine List.Nodup.append hfound (List.nodup_singleton _) ?_
        simpa using hnew

theorem readText_ok {text : String} (h : files.readText path = .ok text) :
    files.read path = .ok (Text.encode text) := by
  unfold readText at h
  cases hr : files.read path with
  | error e => simp [hr, bind, Except.bind] at h
  | ok bytes =>
    simp only [hr, bind, Except.bind] at h
    split at h
    · next found hf =>
      cases h
      unfold String.fromUTF8? at hf
      split at hf
      · cases hf
        rw [Text.encode, toList_byteArray]
        rfl
      · cases hf
    · cases h

/-- **What a job makes its package of.** -/
structure Job.Reads (job : Job) (files : Files) (p : Package) : Prop where
  source : files.read job.script = .ok (Text.encode p.source)
  assets : List.Forall₂ (fun path asset => asset.name = assetName path ∧
    files.read path = .ok asset.bytes) job.resources p.assets
  nodup : (p.assets.map Asset.name).Nodup
  name : p.name = CrateName.ofText job.name
  runtime : p.runtime = job.runtime
  builtins : ∃ script, Script.ofSource p.source = .ok script ∧
    p.builtins = Library.standard.mentioned script.program

theorem Job.package_ok {job : Job} {p : Package} (h : job.package system files = .ok p) :
    job.Reads files p := by
  unfold Job.package at h
  cases hsource : system.readText files job.script with
  | error e => simp [hsource, bind, Except.bind, Except.mapError] at h
  | ok source =>
    cases hscript : Script.ofSource source with
    | error e => simp [hsource, hscript, bind, Except.bind, Except.mapError] at h
    | ok script =>
      cases hassets : readAssets system files [] job.resources with
      | error e => simp [hsource, hscript, hassets, bind, Except.bind, Except.mapError] at h
      | ok assets =>
        simp only [hsource, hscript, hassets, bind, Except.bind, Except.mapError, pure,
          Except.pure, Except.ok.injEq] at h
        subst h
        obtain ⟨new, rfl, hall, hnodup⟩ := readAssets_ok hassets
        exact ⟨readText_ok (system.of_readText hsource), hall, hnodup (by simp), rfl, rfl, script, hscript, rfl⟩

/-- There is no slash in the name of an asset. -/
theorem Job.Reads.noSlash {job : Job} {p : Package} (h : job.Reads files p)
    (hw : files.WellFormed) : ∀ asset ∈ p.assets, '/' ∉ asset.name.toList := by
  intro asset ha
  obtain ⟨path, -, hname, hread⟩ : ∃ path ∈ job.resources, asset.name = assetName path ∧
      files.read path = .ok asset.bytes := by
    have hall := h.assets
    revert ha hall
    generalize job.resources = paths
    generalize p.assets = assets
    intro ha hall
    induction hall with
    | nil => cases ha
    | cons hone _ ih =>
      rcases List.mem_cons.1 ha with rfl | ha
      · exact ⟨_, List.mem_cons_self, hone⟩
      · obtain ⟨path, hp, hone⟩ := ih ha
        exact ⟨path, List.mem_cons_of_mem _ hp, hone⟩
  obtain ⟨name, hn, hproper⟩ := exists_fileName? hw hread
  rw [hname, assetName, hn]
  exact hproper.noSlash

end DeployScript
