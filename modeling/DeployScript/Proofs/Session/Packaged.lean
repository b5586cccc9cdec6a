import DeployScript.Host.Standard
import DeployScript.Proofs.Machine.Hidden
import DeployScript.Proofs.Session.Declared
import DeployScript.Proofs.Session.Plans
import DeployScript.Proofs.Session.Unfailed

/-!
# Scripts with their own builtins only

A package offers to its script the builtins that the script mentions, and no others. On this smaller library the
script comes to the same as on the whole one: the same value or the same error, the same effects on the host,
the same exports and the same plan. There is one exception, since the whole library keeps all its names from
being declared: a name that is declared counts as no mention, so a package lets its script declare it.

* `Library.WellNamed` — what is asked of the names of a library; `Library.wellNamed_standard`.
* `Library.packaged` — the library of a package; `Globals.hides_packaged` compares what is bound.
* `Session.Thinned` — a session beside one on the whole library; `Thinned.exports`, `Thinned.discover`.
* `Session.packaged_agrees` — the main statement.
-/

namespace DeployScript

variable {ω : Type} {l : Library ω} {p : Program} {H : Set String} {name : String}

/-! ### The library of a package -/

/-- **A library whose names are its own:** none is one of a function of the language or of a hook. -/
def Library.WellNamed (l : Library ω) : Prop :=
  ∀ name ∈ l.names, (∀ f : Intrinsic, f.name ≠ name) ∧ name ∉ reservedNames

theorem Library.wellNamed_standard (s : Surroundings := {}) : (Library.standard s).WellNamed := by
  have hnames : ∀ name ∈ Library.standard.names,
      name ∉ Intrinsic.all.map Intrinsic.name ∧ name ∉ reservedNames := by decide +kernel
  have hsame : (Library.standard s).names = Library.standard.names := rfl
  intro name hname
  rw [hsame] at hname
  refine ⟨fun f hf => (hnames name hname).1 ?_, (hnames name hname).2⟩
  exact List.mem_map.2 ⟨f, by cases f <;> decide, hf⟩

/-- **The library of a package:** the builtins that a program mentions. -/
def Library.packaged (l : Library ω) (p : Program) : Library ω := l.subset (l.mentioned p)

namespace Library

theorem mem_names_subset {names : List String} :
    name ∈ (l.subset names).names ↔ name ∈ l.names ∧ name ∈ names := by
  unfold subset Library.names
  simp only [List.mem_map, List.mem_filter, List.contains_iff_mem]
  constructor
  · rintro ⟨b, ⟨hb, hmem⟩, rfl⟩
    exact ⟨⟨b, hb, rfl⟩, hmem⟩
  · rintro ⟨⟨b, hb, rfl⟩, hmem⟩
    exact ⟨b, ⟨hb, hmem⟩, rfl⟩

theorem mem_names_packaged : name ∈ (l.packaged p).names ↔ name ∈ l.names ∧ name ∉ l.unmentioned p := by
  unfold packaged
  rw [mem_names_subset, mem_mentioned, ← and_assoc, and_self]
  refine and_congr_right fun hname => ⟨fun hmentions h => h.2 hmentions, fun hnot => ?_⟩
  by_contra hmentions
  exact hnot ⟨hname, hmentions⟩

theorem get?_eq_none (h : name ∉ l.names) : l.get? name = none := by
  refine List.find?_eq_none.2 fun b hb he => h ?_
  exact List.mem_map.2 ⟨b, hb, of_decide_eq_true he⟩

theorem get?_subset {names : List String} (h : name ∈ names) : (l.subset names).get? name = l.get? name := by
  unfold subset get?
  rw [List.find?_filter]
  congr 1
  funext b
  by_cases hb : b.name = name
  · simp [hb, h]
  · simp [hb]

/-- A package has the builtins that the program mentions as they are. -/
theorem get?_packaged (h : name ∉ l.unmentioned p) : (l.packaged p).get? name = l.get? name := by
  by_cases hname : name ∈ l.names
  · have hmem := (mem_names_packaged.2 ⟨hname, h⟩)
    exact get?_subset (mem_names_subset.1 hmem).2
  · rw [get?_eq_none hname, get?_eq_none fun hmem => hname (mem_names_packaged.1 hmem).1]

end Library

/-- **What is bound on a package** at the beginning. -/
theorem Globals.hides_packaged (hl : l.WellNamed) (p : Program) :
    Globals.Hides (l.unmentioned p) (Machine.provided l) (Machine.provided (l.packaged p)) where
  same n hn := by
    unfold Machine.provided
    simp only [Machine.getElem?_offered, Library.mem_names_packaged, hn, not_false_eq_true, and_true]
  taken n hn := by
    unfold Machine.provided
    rw [Machine.getElem?_offered, if_pos hn.1]
    rfl
  absent n hn := by
    refine Machine.provided_eq_none_iff.2 ?_
    rintro (hmem | ⟨f, hf⟩)
    · exact (Library.mem_names_packaged.1 hmem).2 hn
    · exact (hl n hn.1).1 f hf

/-! ### Runs -/

/-- Machines at their beginnings differ in their hosts. -/
theorem Machine.offering_under (l l' : Library ω) (assets : Assets) (world : ω) :
    offering assets l' world = (offering assets l world).under (provided l') l' := by
  rw [offering_eq, offering_eq]
  rfl

/-- **A script runs alike** on both machines, unless it is refused the name of a builtin that it does not
mention. -/
theorem Machine.refused_or_alike_runCompiled (hl : l.WellNamed) {source : String} {script : Script}
    (hscript : Script.ofSource source = .ok script) (assets : Assets) (world : ω) (fuel : Nat) :
    let last := (offering assets l world).runCompiled script.compiled fuel
    (∃ name ∈ l.unmentioned script.program, ∃ e, last.1 = .error e ∧ e.cause = .immutableBinding name) ∨
      ∃ g, (offering assets (l.packaged script.program) world).runCompiled script.compiled fuel
          = (last.1, last.2.under g (l.packaged script.program)) ∧
        Globals.Hides (l.unmentioned script.program) last.2.globals g := by
  have hstarted : During l (· = source) (fun _ => True) .between (offering assets l world) .inside _ :=
    .next (.here trivial) (.start rfl (Script.compiled_ofSource hscript)) trivial
  have hprovided := Globals.hides_packaged hl script.program
  rw [offering_under l (l.packaged script.program)]
  refine refused_or_alike_resume (Script.of_ofSource hscript).1 (fun _ => Library.get?_packaged) fuel hstarted ?_
  rw [offering_eq]
  exact hprovided

namespace Session

/-! ### Two sessions -/

variable {s t t' : Session ω}

/-- A session at which builtins have been registered, and nothing else. -/
def offering (assets : Assets) (l : Library ω) (world : ω) : Session ω where
  machine := Machine.offering assets l world
  phase := .registered
  pending := none
  source := ""
  builtins := l.names

theorem register_new (assets : Assets) (l : Library ω) (world : ω) :
    (new assets world).register l = .ok (offering assets l world) := rfl

@[simp] theorem machine_offering (assets : Assets) (l : Library ω) (world : ω) :
    (offering assets l world).machine = Machine.offering assets l world := rfl

/-- **A session without some of the builtins:** its machine is the same one but for the host, and its host has
the same builtins but for these. -/
structure Thinned (H : Set String) (t t' : Session ω) : Prop where
  machine : ∃ g l, t'.machine = t.machine.under g l ∧ Globals.Hides H t.machine.globals g
  phase : t'.phase = t.phase
  builtins : ∀ name ∉ H, name ∈ t'.builtins ↔ name ∈ t.builtins
  hidden : ∀ name ∈ H, name ∈ t.builtins

namespace Thinned

theorem output (h : Thinned H t t') : t'.machine.output = t.machine.output := by
  obtain ⟨g, l, hm, -⟩ := h.machine
  rw [hm]
  rfl

theorem world (h : Thinned H t t') : t'.machine.world = t.machine.world := by
  obtain ⟨g, l, hm, -⟩ := h.machine
  rw [hm]
  rfl

theorem heap (h : Thinned H t t') : t'.machine.heap = t.machine.heap := by
  obtain ⟨g, l, hm, -⟩ := h.machine
  rw [hm]
  rfl

theorem getElem? (h : Thinned H t t') (hname : name ∉ H) :
    t'.machine.globals[name]? = t.machine.globals[name]? := by
  obtain ⟨g, l, hm, hg⟩ := h.machine
  rw [hm]
  exact hg.same name hname

theorem getElem?_hidden (h : Thinned H t t') (hname : name ∈ H) : t'.machine.globals[name]? = none := by
  obtain ⟨g, l, hm, hg⟩ := h.machine
  rw [hm]
  exact hg.absent name hname

theorem get (h : Thinned H t t') (hname : name ∉ H) : t'.get name = t.get name := by
  have hglobal : t'.machine.global? name = t.machine.global? name :=
    congrArg (Option.map Binding.value) (h.getElem? hname)
  unfold Session.get
  rw [hglobal, h.heap]

theorem isProvided (h : Thinned H t t') (hname : name ∉ H) (v : Value) :
    t'.isProvided name v = t.isProvided name v := by
  rw [Bool.eq_iff_iff, isProvided_iff, isProvided_iff, h.builtins name hname]

theorem mem_exports (h : Thinned H t t') {value : HostValue} :
    (name, value) ∈ t'.exports ↔ (name, value) ∈ t.exports := by
  rw [Session.mem_exports, Session.mem_exports, h.heap]
  by_cases hname : name ∈ H
  · -- The name belongs to the host here, and to nothing there.
    rw [h.getElem?_hidden hname]
    refine iff_of_false (fun ⟨b, hb, _⟩ => Option.some_ne_none b hb.symm) fun ⟨b, _, hfree, _⟩ => ?_
    rw [isProvided_iff.2 (.inr (h.hidden name hname))] at hfree
    cases hfree
  · rw [h.getElem? hname]
    simp only [h.isProvided hname]

/-- **The exports are the same.** -/
theorem exports (h : Thinned H t t') : t'.exports = t.exports := by
  have hsorted : ∀ s : Session ω, s.exports.Pairwise (·.1 < ·.1) := fun s => List.pairwise_map.1 s.sorted_exports
  have hnodup : ∀ s : Session ω, s.exports.Nodup := fun s =>
    (hsorted s).imp fun {a b} (hlt : a.1 < b.1) (he : a = b) => lt_irrefl b.1 (he ▸ hlt)
  have hperm : t'.exports.Perm t.exports :=
    (List.perm_ext_iff_of_nodup (hnodup t') (hnodup t)).2 fun _ => h.mem_exports
  exact hperm.eq_of_pairwise (fun a b _ _ hab hba => absurd hab (lt_asymm hba)) (hsorted t') (hsorted t)

end Thinned

end Session

/-- A plan is found from what the reserved names are bound to. -/
theorem Plan.discover_congr {s t : Session ω} (hphase : s.phase = t.phase)
    (h : ∀ name ∈ reservedNames, s.get name = t.get name) : discover s = discover t := by
  have hdeclared : ∀ name ∈ reservedNames, isDeclared s name = isDeclared t name := by
    intro name hname
    unfold isDeclared
    rw [h name hname]
  have hhooks : declared s hookNames = declared t hookNames := by
    simp only [declared, hookNames, List.filterM, List.filterAuxM, hdeclared "BeforeDeploy" (by decide),
      hdeclared "Deploy" (by decide), hdeclared "AfterDeploy" (by decide)]
  unfold discover Session.refusal
  rw [hphase, hhooks, hdeclared errorHookName (by decide)]

namespace Session

variable {s t t' : Session ω}

/-- **The plan is the same.** -/
theorem Thinned.discover (h : Thinned H t t') (hreserved : ∀ name ∈ reservedNames, name ∉ H) :
    Plan.discover t' = Plan.discover t :=
  Plan.discover_congr h.phase fun name hname => h.get (hreserved name hname)

/-! ### Evaluations -/

/-- **What is made of the ends** of the two runs. -/
theorem thinned_ended (p : Program) (source : String) (assets : Assets) (world : ω) {finish : Finish}
    {m : Machine ω} {g : Globals} (hg : Globals.Hides (l.unmentioned p) m.globals g) :
    let t := (offering assets l world).ended source (finish, m)
    let t' := (offering assets (l.packaged p) world).ended source (finish, m.under g (l.packaged p))
    t'.1 = t.1 ∧ Thinned (l.unmentioned p) t.2 t'.2 := by
  refine ⟨by cases finish <;> rfl, ⟨g, _, rfl, hg⟩, rfl, fun name hname => ?_, fun name hname => hname.1⟩
  exact Library.mem_names_packaged.trans (and_iff_left hname)

/-- **A script does with its own builtins what it does with all of them.** A session that offers the builtins
which the script mentions evaluates it to the same value or the same error, with the same effects, the same
exports and the same plan as a session that offers the whole library. Where this is not so, the whole library
has refused the script the declaration of a name that it has a builtin for, and that the script does not
mention. -/
theorem packaged_agrees (hl : l.WellNamed) {source : String} {script : Script}
    (hscript : Script.ofSource source = .ok script) (assets : Assets) (world : ω) :
    ∃ s s', (new assets world).register l = .ok s ∧
      (new assets world).register (l.packaged script.program) = .ok s' ∧
      ∀ fuel,
        (∃ name ∈ l.names, name ∉ script.program.mentions ∧
          ∃ e, (s.eval source fuel).1 = .error (.failedScript e) ∧ e.cause = .immutableBinding name) ∨
        let t := s.eval source fuel
        let t' := s'.eval source fuel
        t'.1 = t.1 ∧ t'.2.machine.output = t.2.machine.output ∧ t'.2.machine.world = t.2.machine.world ∧
          t'.2.exports = t.2.exports ∧ Plan.discover t'.2 = Plan.discover t.2 := by
  refine ⟨_, _, register_new assets l world, register_new assets _ world, fun fuel => ?_⟩
  rw [eval_eq (.inl rfl) hscript, eval_eq (.inl rfl) hscript, machine_offering, machine_offering]
  have hruns := Machine.refused_or_alike_runCompiled hl hscript assets world fuel
  generalize (Machine.offering assets l world).runCompiled script.compiled fuel = last at hruns ⊢
  obtain ⟨finish, m⟩ := last
  rcases hruns with ⟨name, hname, e, rfl, hcause⟩ | ⟨g, hrun, hg⟩
  · exact .inl ⟨name, hname.1, hname.2, e.withSource source, rfl, (cause_withSource e source).trans hcause⟩
  · right
    obtain ⟨hresult, hthinned⟩ := thinned_ended script.program source assets world hg
    rw [hrun]
    exact ⟨hresult, hthinned.output, hthinned.world, hthinned.exports,
      hthinned.discover fun name hname hmem => (hl name hmem.1).2 hname⟩

/-- A builtin gets a second name: the whole library does not refuse that. -/
theorem rename_runs : ((Script.ofSource "let f = MD5").toOption.any fun script =>
    script.program.mentions.contains "MD5" &&
      ((offering {} Library.standard (default : World)).eval "let f = MD5" 9).1.toOption.isSome) = true := by
  decide +kernel

/-- A script that mentions one builtin, and gives it another name. -/
theorem rename_packaged : ∃ script s s', Script.ofSource "let f = MD5" = .ok script ∧
    (new {} (default : World)).register Library.standard = .ok s ∧
    (new {} (default : World)).register (Library.standard.packaged script.program) = .ok s' ∧
    (s'.eval "let f = MD5" 9).1 = (s.eval "let f = MD5" 9).1 ∧
    (s'.eval "let f = MD5" 9).2.exports = (s.eval "let f = MD5" 9).2.exports := by
  obtain ⟨script, hscript, hruns⟩ := (Option.any_eq_true _ _).1 rename_runs
  obtain ⟨v, hv⟩ := Option.isSome_iff_exists.1 (Bool.and_eq_true_iff.1 hruns).2
  obtain ⟨s, s', hs, hs', hagree⟩ :=
    packaged_agrees Library.wellNamed_standard (eq_ok_of_toOption hscript) {} (default : World)
  obtain rfl := Except.ok.inj ((register_new _ _ _).symm.trans hs)
  refine ⟨script, _, s', eq_ok_of_toOption hscript, hs, hs', ?_⟩
  obtain ⟨-, -, -, e, he, -⟩ | ⟨hresult, -, -, hexports, -⟩ := hagree 9
  · rw [he] at hv
    cases hv
  · exact ⟨hresult, hexports⟩

/-- The immutable name that a script has failed at. -/
def refused? : SessionError → Option String
  | .failedScript ⟨.immutableBinding name, _, _⟩ => some name
  | _ => none

theorem of_refused? {e : SessionError} (h : refused? e = some name) :
    ∃ error, e = .failedScript error ∧ error.cause = .immutableBinding name := by
  unfold refused? at h
  split at h
  · cases h
    exact ⟨_, rfl, rfl⟩
  · cases h

/-- A script declares a name of the library: the whole library refuses that, and the package does not. -/
theorem shadow_runs : ((Script.ofSource "var Exec = nil").toOption.any fun script =>
    let t := (offering {} Library.standard (default : World)).eval "var Exec = nil" 9
    let t' := (offering {} (Library.standard.packaged script.program) (default : World)).eval "var Exec = nil" 9
    ((errorOf? t.1).bind refused? == some "Exec") && t.2.exports.isEmpty &&
      t'.1.toOption.isSome && t'.2.exports.map (·.1) == ["Exec"]) = true := by
  decide +kernel

/-- **A package lets its script declare** the name of a builtin that the script does not mention. -/
theorem shadow_packaged : ∃ script s s', Script.ofSource "var Exec = nil" = .ok script ∧
    (new {} (default : World)).register Library.standard = .ok s ∧
    (new {} (default : World)).register (Library.standard.packaged script.program) = .ok s' ∧
    (∃ e, (s.eval "var Exec = nil" 9).1 = .error (.failedScript e) ∧ e.cause = .immutableBinding "Exec") ∧
    (s.eval "var Exec = nil" 9).2.exports = [] ∧
    (∃ v, (s'.eval "var Exec = nil" 9).1 = .ok v) ∧
    (s'.eval "var Exec = nil" 9).2.exports.map (·.1) = ["Exec"] := by
  obtain ⟨script, hscript, hruns⟩ := (Option.any_eq_true _ _).1 shadow_runs
  simp only [Bool.and_eq_true, beq_iff_eq, List.isEmpty_iff] at hruns
  obtain ⟨⟨⟨hrefused, hnone⟩, hvalue⟩, hexports⟩ := hruns
  obtain ⟨error, herror, hname⟩ := Option.bind_eq_some_iff.1 hrefused
  obtain ⟨e, rfl, hcause⟩ := of_refused? hname
  obtain ⟨v, hv⟩ := Option.isSome_iff_exists.1 hvalue
  exact ⟨script, _, _, eq_ok_of_toOption hscript, register_new {} _ _, register_new {} _ _,
    ⟨e, eq_error_of_errorOf? herror, hcause⟩, hnone, ⟨v, eq_ok_of_toOption hv⟩, hexports⟩

end Session

end DeployScript
