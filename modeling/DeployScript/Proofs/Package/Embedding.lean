import DeployScript.Proofs.Package.Building
import DeployScript.Proofs.Package.Reading

/-!
# A package holds what it was made of

What a job that succeeds has made. The files of the package are in their place with the bytes of the
script and the resources, and its program, read back from its text and started in its place, fills
its table of assets with just these bytes.

* `Job.Built` says all this of a package and of the trees before and after.
* `Job.build_ok`: it holds whenever `Job.build` succeeds.
* `Job.runtime_from_package`: what the path of the runtime stands for, seen from the package.
-/

namespace DeployScript

open Files

variable {files files' : Files} {target : String} {place : Location} {p : Package} {job : Job}
  {asset : Asset} {index : Nat} {tools : Tools}

/-! ### Files that a program includes -/

/-- The bytes of a file that a program includes. Its path starts at the directory of the program. -/
def Files.included? (files : Files) (directory : Location) (path : String) :
    Option (List UInt8) :=
  match files.follow directory (namesOf path) with
  | .ok { entry := some (.file bytes), .. } => some bytes
  | _ => none

theorem laid_of_mem {contents : List (Location × List UInt8)} {f : Location × List UInt8}
    (hnodup : (contents.map Prod.fst).Nodup) (hf : f ∈ contents) :
    laid contents f.1 = some (.file f.2) := by
  have hfind : contents.find? (·.1 = f.1) = some f := by
    cases hg : contents.find? (·.1 = f.1) with
    | none => simpa using List.find?_eq_none.1 hg f hf
    | some g =>
      have hkey : g.1 = f.1 := by simpa using List.find?_some hg
      exact congrArg some (List.inj_on_of_nodup_map hnodup (List.mem_of_find?_eq_some hg) hf hkey)
  rw [laid, hfind]

theorem laid_of_above {contents : List (Location × List UInt8)} {rel : Location}
    {f : Location × List UInt8} (hf : f ∈ contents) (hp : rel <+: f.1)
    (hrel : ∀ g ∈ contents, g.1 ≠ rel) : laid contents rel = some .directory := by
  have hfind : contents.find? (·.1 = rel) = none := by
    simpa [List.find?_eq_none] using fun l b hg => hrel (l, b) hg
  rw [laid, hfind]
  exact if_pos (.inr ⟨f, hf, hp⟩)

theorem Package.mem_placed (h : p.assets[index]? = some asset) (quote : String → String) :
    (["assets", assetFile asset index], asset.bytes) ∈ p.placed quote := by
  refine List.mem_append_left _ (List.mem_append_right _ ?_)
  exact List.mem_map.2 ⟨(asset, index), List.mem_zipIdx_iff_getElem?.2 h, rfl⟩

/-- The path of an asset's file, as the program includes it. -/
theorem namesOf_included (h : '/' ∉ asset.name.toList) :
    namesOf ("../" ++ (Package.embed asset index).file) =
      ["..", "assets", Package.assetFile asset index] := by
  have hfile := Package.proper_assetFile h index
  have htext : ("../" ++ (Package.embed asset index).file).toList =
      "..".toList ++ '/' :: ("assets".toList ++ '/' :: (Package.assetFile asset index).toList) := by
    rw [Package.embed_file, String.intercalate_cons_cons, String.intercalate_singleton]
    simp
  rw [namesOf, htext, Path.parts_append_slash, Path.parts_append_slash,
    Path.parts_toList (by decide), Path.parts_toList (by decide), Path.parts_toList hfile.noSlash]
  simp [hfile.ne_empty]

/-- **The program includes the bytes of an asset** from the file that it names. -/
theorem Package.Installed.included? (h : p.Installed tools.quote target place files files')
    (hslash : ∀ asset ∈ p.assets, '/' ∉ asset.name.toList)
    (ha : p.assets[index]? = some asset) :
    files'.included? (place ++ ["src"]) ("../" ++ (embed asset index).file) =
      some asset.bytes := by
  have hmem := mem_placed ha tools.quote
  have hproper := proper_assetFile (hslash asset (List.mem_of_getElem? ha)) index
  have hother : ∀ g ∈ p.placed tools.quote, g.1 ≠ ["assets"] := by
    simp only [placed, List.forall_mem_append, List.forall_mem_cons, List.forall_mem_map]
    simp
  have hroot : files'.at? place = some .directory := (locate_entry h.located).symm
  have hassets : files'.at? (place ++ ["assets"]) = some .directory := by
    rw [h.contents]
    exact laid_of_above hmem (by simp) hother
  have hfile : files'.at? (place ++ ["assets"] ++ [assetFile asset index]) =
      some (.file asset.bytes) := by
    rw [List.append_assoc, h.contents]
    exact laid_of_mem (p.nodup_placed tools.quote) hmem
  have hshort := h.wellFormed.short _ _ _ hfile
  have hup : placeIn (place ++ ["src"]) ".." = .ok place := by simp [placeIn]
  have hdown : placeIn place "assets" = .ok (place ++ ["assets"]) := by
    simp [placeIn, show ¬maxName < "assets".utf8ByteSize by decide]
  have hlast : placeIn (place ++ ["assets"]) (assetFile asset index) =
      .ok (place ++ ["assets"] ++ [assetFile asset index]) := by
    simp [placeIn, hproper.ne_dot, hproper.ne_dots, Nat.not_lt.2 hshort]
  rw [Files.included?, namesOf_included (hslash asset (List.mem_of_getElem? ha)),
    follow_cons hup hroot, follow_cons hdown hassets]
  simp only [follow, hlast, bind, Except.bind, pure, Except.pure, hfile]

/-! ### What a job has made -/

/-- **What a job has made.** -/
structure Job.Built (job : Job) (tools : Tools) (p : Package) (files files' : Files) : Prop where
  /-- The package is made of the script and the resources, each with its own name. -/
  reads : job.Reads files p
  /-- The output led nowhere, so far as the system said. -/
  free : tools.system.exists? files job.output = false
  /-- No two files have one place. -/
  distinct : ((p.placed tools.quote).map Prod.fst).Nodup
  /-- The package is in its place. Its program names its builtins, and loads under the name of each
  asset its bytes, and nothing under any other name. -/
  installed : ∃ place, p.Installed tools.quote job.output place files files' ∧
    ∃ g assets, Generated.read? p.program = some g ∧ g.builtins = p.builtins ∧
      g.load? (files'.included? (place ++ ["src"])) = some assets ∧
      (∀ asset ∈ p.assets, assets[asset.name]? = some asset.bytes) ∧
      ∀ name, (∀ asset ∈ p.assets, asset.name ≠ name) → assets[name]? = none

/-- **A job that succeeds** has made what it says. -/
theorem Job.build_ok (hstaging : tools.staging.Lawful) (havoids : tools.staging.Avoids job.output)
    (hw : files.WellFormed) (h : job.build files tools = (.ok p, files')) :
    job.Built tools p files files' := by
  obtain ⟨hreads, hfree, place, hinstalled⟩ := build_installed hstaging havoids hw h
  obtain ⟨assets, hload, hin, hout⟩ := Generated.load?_eq (Generated.read?_program p) hreads.nodup
    fun asset index ha => hinstalled.included? (hreads.noSlash hw) ha
  exact ⟨hreads, hfree, p.nodup_placed tools.quote, place, hinstalled, _, assets,
    Generated.read?_program p, rfl, hload, hin, hout⟩

/-- A package in a new directory, with one resource. -/
theorem Job.build_nested :
    ∃ p, Job.Built (scriptJob "new/agent") {} p scriptFiles
      ((scriptJob "new/agent").build scriptFiles).2 := by
  have hok : ((scriptJob "new/agent").build scriptFiles).1.isOk = true := by decide +kernel
  match h : (scriptJob "new/agent").build scriptFiles with
  | (.ok p, files') =>
    exact ⟨p, Job.build_ok Staging.numbered_lawful (Staging.numbered_lawful.avoids (by decide +kernel))
      scriptFiles_wellFormed h⟩
  | (.error e, files') =>
    rw [h] at hok
    cases hok

/-- The output is looked at before the directories above it are made. What leads nowhere then may
lead to an empty directory later. -/
theorem Job.output_may_exist :
    ¬∀ (job : Job) (p : Package) (files files' : Files) (place : Location), files.WellFormed →
      job.build files = (.ok p, files') →
      files'.locate job.output = .ok ⟨place, some .directory⟩ → files.at? place = none := by
  intro hall
  have hresult : ((scriptJob "new/../old").build scriptFiles).1.isOk = true ∧
      (((scriptJob "new/../old").build scriptFiles).2.locate "new/../old").toOption.map
        Files.Spot.place = some ["tmp", "work", "old"] := by decide +kernel
  match h : (scriptJob "new/../old").build scriptFiles with
  | (.ok p, files') =>
    rw [h] at hresult
    obtain ⟨-, -, place, hinstalled⟩ := Job.build_installed Staging.numbered_lawful
      (Staging.numbered_lawful.avoids (by decide +kernel)) scriptFiles_wellFormed h
    have hnone := hall _ p _ _ place scriptFiles_wellFormed h hinstalled.located
    have hlocated : files'.locate "new/../old" = _ := hinstalled.located
    rw [hlocated] at hresult
    obtain rfl : place = ["tmp", "work", "old"] := Option.some.inj hresult.2
    exact absurd hnone (by decide +kernel)
  | (.error e, files') =>
    rw [h] at hresult
    cases hresult.1

/-! ### The directory of the runtime -/

/-- **The place that names lead to** from another one, whatever is there. -/
def Files.walk (place : Location) (names : List String) : Location :=
  names.foldl (fun place name =>
    if name = "." then place else if name = ".." then place.dropLast else place ++ [name]) place

/-- What is found by names is at the place that they lead to. -/
theorem Files.follow_walk {names : List String} {spot : Files.Spot} (h : files.follow place names = .ok spot) :
    spot.place = walk place names := by
  induction names generalizing place with
  | nil =>
    cases h
    rfl
  | cons name names ih =>
    obtain ⟨q, hq, hrest, -⟩ := follow_cons_ok h
    have hname : walk place (name :: names) = walk q names := by
      rcases placeIn_ok hq with ⟨rfl, rfl⟩ | ⟨rfl, rfl⟩ | ⟨hdot, hdots, -, rfl⟩
      · rfl
      · rfl
      · simp only [walk, List.foldl_cons, if_neg hdot, if_neg hdots]
    rw [hname]
    exact ih hrest

/-- Names that go down lead below the place that they start from. -/
theorem Files.walk_proper {names : List String} (h : ∀ n ∈ names, n ≠ "." ∧ n ≠ "..") :
    walk place names = place ++ names := by
  induction names generalizing place with
  | nil => exact (List.append_nil place).symm
  | cons name names ih =>
    obtain ⟨hdot, hdots⟩ := h name List.mem_cons_self
    have hname : walk place (name :: names) = walk (place ++ [name]) names := by
      simp only [walk, List.foldl_cons, if_neg hdot, if_neg hdots]
    rw [hname, ih fun n hn => h n (List.mem_cons_of_mem _ hn), List.append_assoc, List.singleton_append]

/-- **A relative path behind another one** adds its names. -/
theorem namesOf_join_relative {path other : String} (hp : path ≠ "") (ho : Path.isAbsolute other = false) :
    namesOf (Path.join path other) = namesOf path ++ namesOf other := by
  by_cases hs : Path.endsInSlash path = true
  · obtain ⟨cs, hcs⟩ : ∃ cs, path.toList = cs ++ ['/'] := by
      rwa [Path.endsInSlash, beq_iff_eq, List.getLast?_eq_some_iff] at hs
    have htext : (Path.join path other).toList = cs ++ '/' :: other.toList := by
      simp [Path.join, ho, hs, hcs]
    rw [namesOf, namesOf, namesOf, htext, hcs, Path.parts_append_slash, Path.parts_append_slash,
      Path.parts_of_noSlash List.not_mem_nil]
    simp
  · have htext : (Path.join path other).toList = path.toList ++ '/' :: other.toList := by
      simp [Path.join, ho, hs, hp]
    rw [namesOf, htext, Path.parts_append_slash, List.filter_append]
    rfl

theorem isAbsolute_join_relative {path other : String} (hp : path ≠ "") (ho : Path.isAbsolute other = false) :
    Path.isAbsolute (Path.join path other) = Path.isAbsolute path := by
  obtain ⟨rest, htext⟩ : ∃ rest, (Path.join path other).toList = path.toList ++ rest := by
    by_cases hs : Path.endsInSlash path = true
    · exact ⟨other.toList, by simp [Path.join, ho, hs]⟩
    · exact ⟨'/' :: other.toList, by simp [Path.join, ho, hp, hs]⟩
  cases hc : path.toList with
  | nil => exact absurd (String.toList_eq_nil_iff.1 hc) hp
  | cons c cs => simp [Path.isAbsolute, htext, hc]

/-- A relative path behind that of a directory is followed from there. -/
theorem locate_join_relative {path other : String} {spot : Files.Spot}
    (hd : files.locate path = .ok ⟨place, some .directory⟩) (ho : Path.isAbsolute other = false)
    (h : files.locate (Path.join path other) = .ok spot) : files.follow place (namesOf other) = .ok spot := by
  obtain ⟨hfits, hfollow, -⟩ := locate_eq_ok.1 hd
  have hstart : files.start (Path.join path other) = files.start path := by
    rw [start, start, isAbsolute_join_relative hfits.ne_empty ho]
  have hspot := (locate_eq_ok.1 h).2.1
  rwa [hstart, namesOf_join_relative hfits.ne_empty ho, follow_append hfollow] at hspot

/-- **A manifest names a directory for the runtime:** its first dependency has a string as its path, from
which TOML reads the directory. -/
def Package.NamesRuntime (manifest path : String) : Prop :=
  ∃ head written tail,
    manifest = head ++ "[dependencies]\ngscript = \x7b path = " ++ written ++
      (", default-features = false \x7d\n" ++ tail) ∧
    Toml.text? (written.toList ++ (", default-features = false \x7d\n" ++ tail).toList) =
      some (path, (", default-features = false \x7d\n" ++ tail).toList)

theorem Package.namesRuntime_manifest {quote : String → String} (hquote : Toml.Faithful quote) {path : String}
    (hp : p.runtime = .path path) : NamesRuntime (p.manifest quote) path := by
  have hline (tail : String) : "[dependencies]\n" ++ ("gscript = " ++ ("\x7b " ++ ("path = " ++ tail))) =
      "[dependencies]\ngscript = \x7b path = " ++ tail := by
    rw [← String.append_assoc, ← String.append_assoc, ← String.append_assoc]
    rfl
  refine ⟨String.join ((["[package]", "name = " ++ quote p.name, "version = \"0.1.0\"", "edition = \"2021\"",
    "publish = false", "", "[[bin]]", "name = " ++ quote p.name, "path = \"src/main.rs\"", ""]).map (· ++ "\n")),
    quote path, String.join (["tracing = \"0.1\"", "", "[workspace]"].map (· ++ "\n")), ?_,
    hquote path _ ?_ ?_⟩
  · rw [String.append_assoc, String.append_assoc, ← hline]
    simp only [manifest, dependency, hp, String.join, List.map_cons, List.map_nil, List.foldl_cons,
      List.foldl_nil, String.append_assoc]
    rfl
  · simp
  · simp

/-- A job with a relative path for the runtime. -/
def runtimeJob : Job := { scriptJob "agent" with runtime := .path "old" }

end DeployScript
