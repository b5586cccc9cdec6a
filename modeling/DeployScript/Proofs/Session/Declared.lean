import Mathlib
import DeployScript.Proofs.Machine.Globals
import DeployScript.Proofs.Session.Confined

/-!
# What scripts declare

The globals of a session belong to the language, to the host, or to scripts. Those of a script are the
names that it has declared, and this is read off the history of the session: the declarations that
instructions have carried out, over all scripts and calls, whether they succeeded or not.

* `Library.Provides` — the names of the language and of the host.
* `Session.declarations` — what is declared while a request is answered.
* `Session.Declared` — sessions with their histories; `Reached.declared` — each session has one.
* `Declared.rebound` — the globals are those that were provided, and those of the history.
* `Declared.exports_declared` — what is exported.
* `Declared.refused_iff` — which declarations are refused.
-/

namespace DeployScript

variable {ω : Type}

/-- **The names of the language and of the host.** -/
def Library.Provides (l : Library ω) (name : String) : Prop :=
  name ∈ l.names ∨ ∃ f : Intrinsic, f.name = name

namespace Machine

variable {l : Library ω} {name : String} {b : Binding}

theorem intrinsic_of_getElem? (fs : List Intrinsic) (g : Globals)
    (hg : ∀ (name : String) (b : Binding), g[name]? = some b →
      ∃ f : Intrinsic, f.name = name ∧ b = ⟨.intrinsic f, false⟩)
    (hb : (fs.foldl (fun g f => g.insert f.name ⟨.intrinsic f, false⟩) g)[name]? = some b) :
    ∃ f : Intrinsic, f.name = name ∧ b = ⟨.intrinsic f, false⟩ := by
  induction fs generalizing g with
  | nil => exact hg name b hb
  | cons f fs ih =>
    refine ih _ (fun name' b' hb' => ?_) hb
    rw [Globals.getElem?_insert] at hb'
    split at hb'
    case isTrue hn => exact ⟨f, hn, (Option.some.inj hb').symm⟩
    case isFalse => exact hg name' b' hb'

theorem globals_calling (m : Machine ω) (callee : Value) (args : List HostValue) :
    (m.calling callee args).machine.globals = m.globals := by
  unfold calling
  dsimp only
  rw [globals_call, globals_pushAll]
  rfl

theorem isTaken_push (m : Machine ω) (v : Value) : (m.push v).isTaken name = m.isTaken name := rfl

/-- What is provided is bound for good. -/
theorem of_provided (hb : (provided l)[name]? = some b) : l.Provides name ∧ isFixed b = true := by
  unfold provided at hb
  rw [getElem?_offered] at hb
  split at hb
  case isTrue hn =>
    cases hb
    exact ⟨.inl hn, rfl⟩
  case isFalse =>
    obtain ⟨f, hf, rfl⟩ := intrinsic_of_getElem? _ _ (fun name b hb => by simp at hb) hb
    exact ⟨.inr ⟨f, hf⟩, rfl⟩

theorem provided_eq_none_iff : (provided l)[name]? = none ↔ ¬ l.Provides name := by
  constructor
  · rintro hnone (hn | ⟨f, rfl⟩)
    · unfold provided at hnone
      rw [getElem?_offered, if_pos hn] at hnone
      cases hnone
    · unfold provided at hnone
      rw [getElem?_offered, getElem?_intrinsics] at hnone
      split at hnone <;> cases hnone
  · intro hnot
    rw [Option.eq_none_iff_forall_ne_some]
    exact fun b hb => hnot (of_provided hb).1

end Machine

namespace Session

/-! ### Histories -/

/-- What is declared in a run of the script that is loaded. -/
def declarationsOfRun (s : Session ω) (fuel : Nat) : List Declaration :=
  match s.phase, s.pending with
  | .loaded, some code => (s.machine.start code).declarations fuel
  | _, _ => []

/-- **What is declared** while a request is answered. -/
def declarations (s : Session ω) : Request → List Declaration
  | .run fuel => s.declarationsOfRun fuel
  | .eval source fuel =>
    match s.load source with
    | .ok t => t.declarationsOfRun fuel
    | .error _ => []
  | .call name args fuel =>
    match s.phase with
    | .executed =>
      match s.machine.global? name with
      | none => []
      | some value =>
        if value.isCallable then
          let (values, heap) := storeArgs args s.machine.heap
          { s.machine with heap }.declarationsOfCall name values.toList fuel
        else []
    | _ => []
  | .load _ | .get _ | .exports => []

/-- **Sessions with their histories,** the sessions of `Reached` with what has been declared since the
builtins were registered. -/
inductive Declared (l : Library ω) (assets : Assets) (world : ω) :
    List Declaration → Session ω → Prop
  | registered {s : Session ω} (h : (Session.new assets world).register l = .ok s) :
    Declared l assets world [] s
  | asked {ds : List Declaration} {s : Session ω} (h : Declared l assets world ds s) (r : Request) :
    Declared l assets world (ds ++ s.declarations r) (s.behind r)
  | starting {ds : List Declaration} {s : Session ω} {code : Chunk Value}
    (h : Declared l assets world ds s) (hp : s.pending = some code) :
    Declared l assets world ds { s with machine := s.machine.start code }
  | calling {ds : List Declaration} {s : Session ω} {name : String} {callee : Value}
    (h : Declared l assets world ds s) (hg : s.machine.global? name = some callee)
    (args : List HostValue) :
    Declared l assets world ds (s.after (s.machine.calling callee args))
  | returning {ds : List Declaration} {s : Session ω} (h : Declared l assets world ds s)
    (hf : s.machine.frames = []) : Declared l assets world ds { s with machine := s.machine.pop.2 }
  | inside {ds : List Declaration} {s : Session ω} (h : Declared l assets world ds s) :
    Declared l assets world (ds ++ s.machine.declaration?.toList) (s.after s.machine.step)
  | collected {ds : List Declaration} {s : Session ω} (h : Declared l assets world ds s) :
    Declared l assets world ds { s with machine := s.machine.collect }

variable {l : Library ω} {assets : Assets} {world : ω} {s : Session ω} {ds : List Declaration}
  {name : String}

/-- Every session that is reached has a history. -/
theorem Reached.declared (h : s.Reached l assets world) : ∃ ds, s.Declared l assets world ds := by
  induction h with
  | registered h => exact ⟨_, .registered h⟩
  | asked _ r ih =>
    obtain ⟨ds, hs⟩ := ih
    exact ⟨_, hs.asked r⟩
  | starting _ hp ih =>
    obtain ⟨ds, hs⟩ := ih
    exact ⟨_, hs.starting hp⟩
  | calling _ hg args ih =>
    obtain ⟨ds, hs⟩ := ih
    exact ⟨_, hs.calling hg args⟩
  | returning _ hf ih =>
    obtain ⟨ds, hs⟩ := ih
    exact ⟨_, hs.returning hf⟩
  | inside _ ih =>
    obtain ⟨ds, hs⟩ := ih
    exact ⟨_, hs.inside⟩
  | collected _ ih =>
    obtain ⟨ds, hs⟩ := ih
    exact ⟨_, hs.collected⟩

/-- A session with a history is one that is reached. -/
theorem Declared.reached (h : s.Declared l assets world ds) : s.Reached l assets world := by
  induction h with
  | registered h => exact .registered h
  | asked _ r ih => exact ih.asked r
  | starting _ hp ih => exact ih.starting hp
  | calling _ hg args ih => exact ih.calling hg args
  | returning _ hf ih => exact ih.returning hf
  | inside _ ih => exact ih.inside
  | collected _ ih => exact ih.collected

/-! ### Requests -/

theorem globals_after (s : Session ω) (o : Outcome ω) :
    (s.after o).machine.globals = o.machine.globals := by
  cases o <;> rfl

theorem builtins_after (s : Session ω) (o : Outcome ω) : (s.after o).builtins = s.builtins := by
  cases o <;> rfl

/-- Loading a script binds nothing. -/
theorem load_keeps {source : String} {t : Session ω} (ht : s.load source = .ok t) :
    t.machine.globals = s.machine.globals ∧ t.builtins = s.builtins := by
  obtain ⟨script, -, rfl⟩ := load_eq_ok ht
  exact ⟨rfl, rfl⟩

theorem rebound_run (s : Session ω) (fuel : Nat) :
    Rebound s.machine.globals (s.declarationsOfRun fuel) (s.run fuel).2.machine.globals ∧
      (s.run fuel).2.builtins = s.builtins := by
  unfold run declarationsOfRun
  cases s.phase with
  | loaded =>
    cases s.pending with
    | none => exact ⟨.start, rfl⟩
    | some code => exact ⟨(s.machine.start code).rebound_resume fuel, rfl⟩
  | _ => exact ⟨.start, rfl⟩

theorem rebound_call (s : Session ω) (name : String) (args : List HostValue) (fuel : Nat) :
    Rebound s.machine.globals (s.declarations (.call name args fuel))
        (s.call name args fuel).2.machine.globals ∧
      (s.call name args fuel).2.builtins = s.builtins := by
  unfold call declarations
  dsimp only
  cases s.phase with
  | executed =>
    cases s.machine.global? name with
    | none => exact ⟨.start, rfl⟩
    | some value =>
      let stored := storeArgs args s.machine.heap
      have hcall := Machine.rebound_callGlobal { s.machine with heap := stored.2 } name
        stored.1.toList fuel
      dsimp only
      split
      · exact ⟨hcall, rfl⟩
      · exact ⟨.start, rfl⟩
  | _ => exact ⟨.start, rfl⟩

/-- **A request** declares what its run or its call declares. -/
theorem rebound_behind (s : Session ω) (r : Request) :
    Rebound s.machine.globals (s.declarations r) (s.behind r).machine.globals ∧
      (s.behind r).builtins = s.builtins := by
  cases r with
  | load source =>
    unfold behind
    dsimp only
    cases ht : s.load source with
    | error e => exact ⟨.start, rfl⟩
    | ok t =>
      obtain ⟨hglobals, hbuiltins⟩ := load_keeps ht
      dsimp only
      rw [hglobals]
      exact ⟨.start, hbuiltins⟩
  | run fuel => exact s.rebound_run fuel
  | eval source fuel =>
    unfold behind declarations eval
    dsimp only
    cases ht : s.load source with
    | error e => exact ⟨.start, rfl⟩
    | ok t =>
      obtain ⟨hglobals, hbuiltins⟩ := load_keeps ht
      obtain ⟨hrun, hsame⟩ := t.rebound_run fuel
      rw [hglobals] at hrun
      exact ⟨hrun, hsame.trans hbuiltins⟩
  | call name args fuel => exact s.rebound_call name args fuel
  | get | exports => exact ⟨.start, rfl⟩

namespace Declared

/-- **The globals of a session** are those that were provided, and those of its history. -/
theorem rebound (h : s.Declared l assets world ds) :
    Rebound (Machine.provided l) ds s.machine.globals ∧ s.builtins = l.names := by
  induction h with
  | registered h =>
    cases h
    refine ⟨?_, rfl⟩
    change Rebound _ [] (Machine.offering assets l world).globals
    rw [Machine.offering_eq]
    exact .start
  | @asked ds s _ r ih =>
    obtain ⟨hrebound, hbuiltins⟩ := s.rebound_behind r
    exact ⟨ih.1.trans hrebound, hbuiltins.trans ih.2⟩
  | starting _ hp ih => exact ih
  | @calling ds s name callee _ hg args ih =>
    rw [globals_after, builtins_after, Machine.globals_calling]
    exact ih
  | returning _ hf ih => exact ih
  | @inside ds s _ ih =>
    rw [globals_after, builtins_after]
    exact ⟨ih.1.trans s.machine.rebound_step, ih.2⟩
  | collected _ ih => exact ih

/-- A name of the language or of the host is bound for good, and no script has declared it. -/
theorem of_provides (h : s.Declared l assets world ds) (hname : l.Provides name) :
    s.machine.isTaken name = true ∧ Declaration.latest? ds name = none := by
  cases hb : (Machine.provided l)[name]? with
  | none => exact absurd hname (Machine.provided_eq_none_iff.1 hb)
  | some b =>
    have hfixed := (Machine.of_provided hb).2
    obtain ⟨hbound, hnone⟩ := h.rebound.1.of_fixed hb hfixed
    exact ⟨(Option.any_eq_true _ _).2 ⟨b, hbound, hfixed⟩, hnone⟩

theorem not_provides (h : s.Declared l assets world ds) (hd : ∃ d ∈ ds, d.name = name) :
    ¬ l.Provides name := by
  intro hname
  have hlatest := Declaration.isSome_latest?.2 hd
  rw [(h.of_provides hname).2] at hlatest
  cases hlatest

/-- Any other name is bound if it was declared. -/
theorem bound_iff (h : s.Declared l assets world ds) (hname : ¬ l.Provides name) :
    (∃ b, s.machine.globals[name]? = some b) ↔ ∃ d, Declaration.latest? ds name = some d := by
  constructor
  · rintro ⟨b, hb⟩
    by_contra hnot
    have hnone : Declaration.latest? ds name = none :=
      Option.eq_none_iff_forall_ne_some.2 fun d hd => hnot ⟨d, hd⟩
    rw [(h.rebound.1.of_not_declared hnone).2 (Machine.provided_eq_none_iff.2 hname)] at hb
    cases hb
  · rintro ⟨d, hd⟩
    obtain ⟨b, hb, -⟩ := h.rebound.1.of_latest hd
    exact ⟨b, hb⟩

/-- Whether a name is bound for good. -/
theorem isTaken_iff (h : s.Declared l assets world ds) (name : String) :
    s.machine.isTaken name = true ↔ l.Provides name ∨
      ∃ d, Declaration.latest? ds name = some d ∧ Machine.isFixed d = true := by
  by_cases hname : l.Provides name
  · exact iff_of_true (h.of_provides hname).1 (.inl hname)
  · rw [or_iff_right hname, Machine.isTaken, Option.any_eq_true]
    constructor
    · -- What is bound for good is immutable, so that it is as it was declared last.
      rintro ⟨b, hb, hfixed⟩
      obtain ⟨d, hd⟩ := (h.bound_iff hname).1 ⟨b, hb⟩
      obtain ⟨b', hb', hsame, hkept⟩ := h.rebound.1.of_latest hd
      obtain rfl := Option.some.inj (hb.symm.trans hb')
      obtain rfl := hkept (hsame.symm.trans (Machine.isFixed_iff.1 hfixed).1)
      exact ⟨b, hd, hfixed⟩
    · rintro ⟨d, hd, hfixed⟩
      obtain ⟨b, hb, -, hkept⟩ := h.rebound.1.of_latest hd
      rw [hkept (Machine.isFixed_iff.1 hfixed).1] at hb
      exact ⟨d, hb, hfixed⟩

end Declared

/-! ### Exports -/

theorem mem_exports {value : HostValue} : (name, value) ∈ s.exports ↔
    ∃ b, s.machine.globals[name]? = some b ∧ s.isProvided name b.value = false ∧
      value = s.machine.heap.toHost b.value := by
  unfold exports
  simp only [List.mem_map, List.mem_filter, Prod.mk.injEq, Bool.not_eq_true']
  constructor
  · rintro ⟨⟨name', b⟩, ⟨hmem, hfree⟩, rfl, rfl⟩
    exact ⟨b, Std.TreeMap.mem_toList_iff_getElem?_eq_some.1 hmem, hfree, rfl⟩
  · rintro ⟨b, hb, hfree, rfl⟩
    exact ⟨(name, b), ⟨Std.TreeMap.mem_toList_iff_getElem?_eq_some.2 hb, hfree⟩, rfl, rfl⟩

/-- The names are in their order, and none of them is there twice. -/
theorem sorted_exports (s : Session ω) : (s.exports.map (·.1)).Pairwise (· < ·) := by
  unfold exports
  rw [List.map_map, List.pairwise_map]
  refine List.Pairwise.filter _ (Std.TreeMap.ordered_keys_toList.imp fun h => ?_)
  exact compare_lt_iff_lt.1 h

theorem isProvided_iff {value : Value} : s.isProvided name value = true ↔
    (∃ f, value = .intrinsic f) ∨ name ∈ s.builtins := by
  cases value <;> simp [isProvided]

/-- **A global is a script's** if it has been declared and its value is no function of the language. -/
theorem Declared.isProvided_eq_false_iff (h : s.Declared l assets world ds) {b : Binding}
    (hb : s.machine.globals[name]? = some b) : s.isProvided name b.value = false ↔
      (∃ d ∈ ds, d.name = name) ∧ ∀ f, b.value ≠ .intrinsic f := by
  rw [← Bool.not_eq_true, isProvided_iff, not_or, not_exists, h.rebound.2, and_comm]
  refine and_congr_left fun hvalue => ⟨fun hnot => ?_, fun hd hmem => h.not_provides hd (.inl hmem)⟩
  rw [← Declaration.isSome_latest?, Option.isSome_iff_exists]
  refine (h.bound_iff ?_).1 ⟨b, hb⟩
  rintro (hmem | ⟨f, rfl⟩)
  · exact hnot hmem
  · -- A name of the language that is none of the library is bound to its own function.
    have hown := h.reached.confined.machine.intrinsics f hnot
    rw [hb] at hown
    exact hvalue f (congrArg Binding.value (Option.some.inj hown))

theorem Declared.mem_exports_iff (h : s.Declared l assets world ds) {value : HostValue} :
    (name, value) ∈ s.exports ↔ (∃ d ∈ ds, d.name = name) ∧
      ∃ b, s.machine.globals[name]? = some b ∧ (∀ f, b.value ≠ .intrinsic f) ∧
        value = s.machine.heap.toHost b.value := by
  rw [mem_exports]
  constructor
  · rintro ⟨b, hb, hfree, hvalue⟩
    obtain ⟨hd, hkind⟩ := (h.isProvided_eq_false_iff hb).1 hfree
    exact ⟨hd, b, hb, hkind, hvalue⟩
  · rintro ⟨hd, b, hb, hkind, hvalue⟩
    exact ⟨b, hb, (h.isProvided_eq_false_iff hb).2 ⟨hd, hkind⟩, hvalue⟩

/-- **What is exported** are the names that have been declared, each once and in their order, with the
values that they have now; but not those whose value is a function of the language. No name of the
language or of the host is among them. -/
theorem Declared.exports_declared (h : s.Declared l assets world ds) :
    (s.exports.map (·.1)).Pairwise (· < ·) ∧
      (∀ name value, (name, value) ∈ s.exports ↔ (∃ d ∈ ds, d.name = name) ∧
        ∃ b, s.machine.globals[name]? = some b ∧ (∀ f, b.value ≠ .intrinsic f) ∧
          value = s.machine.heap.toHost b.value) ∧
      ∀ name, l.Provides name → name ∉ s.exports.map (·.1) := by
  refine ⟨s.sorted_exports, fun name value => h.mem_exports_iff, fun name hname hlisted => ?_⟩
  obtain ⟨⟨name', value⟩, hexport, rfl⟩ := List.mem_map.1 hlisted
  exact h.not_provides (h.mem_exports_iff.1 hexport).1 hname

/-- A session with the functions of the language and without builtins. -/
def plain : Session Unit where
  machine := Machine.offering {} Library.empty ()
  phase := .registered
  pending := none
  source := ""
  builtins := []

theorem declared_plain (r : Request) :
    (plain.behind r).Declared Library.empty {} () (plain.declarations r) :=
  Declared.asked (.registered rfl) r

set_option maxRecDepth 10000 in
/-- A script gives a function of the language a second name. -/
theorem alias_runs :
    (∃ d ∈ plain.declarations (.eval "let f=len" 99), d.name = "f") ∧
      (plain.behind (.eval "let f=len" 99)).exports.length = 0 ∧
      (plain.behind (.eval "let f=len" 99)).machine.isTaken "f" = true := by
  decide +kernel

set_option maxRecDepth 10000 in
/-- A script declares a variable. -/
theorem variable_runs :
    (∃ d ∈ plain.declarations (.eval "var a=1" 99), d.name = "a") ∧
      (Declaration.latest? (plain.declarations (.eval "var a=1" 99)) "a").any (·.isMutable) ∧
      ((plain.behind (.eval "var a=1" 99)).machine.globals["a"]?).any
        fun b => b.value.typeName == "number" := by
  decide +kernel

namespace Declared

/-- A variable that a script has declared is exported. -/
theorem exports_variable :
    ∃ (ds : List Declaration) (s : Session Unit), s.Declared Library.empty {} () ds ∧
      (∃ d ∈ ds, d.name = "a") ∧ ∃ value, ("a", value) ∈ s.exports := by
  obtain ⟨hd, -, hnumber⟩ := variable_runs
  obtain ⟨b, hb, htype⟩ := (Option.any_eq_true _ _).1 hnumber
  have hkind : ∀ f, b.value ≠ .intrinsic f := by
    intro f he
    rw [he] at htype
    simp [Value.typeName] at htype
  have hs := declared_plain (.eval "var a=1" 99)
  exact ⟨_, _, hs, hd, _, (hs.exports_declared.2.1 "a" _).2 ⟨hd, b, hb, hkind, rfl⟩⟩

/-- A name that a script has declared is not exported if it is a second name of a function of the
language. -/
theorem alias_not_exported :
    ∃ (ds : List Declaration) (s : Session Unit), s.Declared Library.empty {} () ds ∧
      (∃ d ∈ ds, d.name = "f") ∧ s.exports = [] := by
  obtain ⟨hd, hnone, -⟩ := alias_runs
  exact ⟨_, _, declared_plain (.eval "let f=len" 99), hd, List.length_eq_zero_iff.1 hnone⟩

/-! ### Refusals -/

/-- **Which declarations are refused:** those of names of the language and of the host, and those of a
name that a script has declared last as an immutable function of the language or of the host. All
others are carried out, whatever the value. -/
theorem refused_iff (h : s.Declared l assets world ds) (name : String) (v : Value)
    (isMutable : Bool) :
    ((∃ m, (s.machine.push v).defineGlobal name isMutable = .raise (.immutableBinding name) m) ↔
      l.Provides name ∨ ∃ d, Declaration.latest? ds name = some d ∧ d.isMutable = false ∧
        ((∃ f, d.value = .intrinsic f) ∨ ∃ n, d.value = .builtin n)) ∧
      ((¬ ∃ m, (s.machine.push v).defineGlobal name isMutable = .raise (.immutableBinding name) m) →
        (s.machine.push v).defineGlobal name isMutable
          = .next (s.machine.define name v isMutable)) := by
  have hpop : (s.machine.push v).pop = (v, s.machine) := by
    simp [Machine.pop, Machine.push]
  have htaken := h.isTaken_iff name
  simp only [Machine.isFixed_iff] at htaken
  rw [← htaken, ← s.machine.isTaken_push v]
  -- The guard looks at the binding that there is, whatever the value and whoever bound it.
  cases ht : (s.machine.push v).isTaken name with
  | true =>
    rw [Machine.defineGlobal_of_isTaken _ isMutable ht]
    exact ⟨iff_of_true ⟨_, rfl⟩ rfl, fun hnot => absurd ⟨_, rfl⟩ hnot⟩
  | false =>
    rw [Machine.defineGlobal_of_not_isTaken _ isMutable ht, hpop]
    refine ⟨iff_of_false ?_ Bool.false_ne_true, fun _ => rfl⟩
    rintro ⟨m, hm⟩
    cases hm

/-- A variable can be declared again, as immutable and for a function of the language. -/
theorem variable_redeclared :
    ∃ (ds : List Declaration) (s : Session Unit), s.Declared Library.empty {} () ds ∧
      (∃ d ∈ ds, d.name = "a") ∧
      (s.machine.push (.intrinsic .len)).defineGlobal "a" false
        = .next (s.machine.define "a" (.intrinsic .len) false) := by
  obtain ⟨hd, hmutable, -⟩ := variable_runs
  have hs := declared_plain (.eval "var a=1" 99)
  -- The last declaration of the name is mutable, so that it is none of those that are refused.
  obtain ⟨hrefused, hcarried⟩ := hs.refused_iff "a" (.intrinsic .len) false
  refine ⟨_, _, hs, hd, hcarried fun hraised => ?_⟩
  rcases hrefused.1 hraised with hname | ⟨d, hlatest, himmutable, -⟩
  · exact hs.not_provides hd hname
  · rw [hlatest] at hmutable
    exact absurd (hmutable.symm.trans himmutable) (by decide)

/-- A second name of a function of the language cannot be declared again, although it is neither a name
of the language nor of the host. -/
theorem alias_not_redeclared :
    ∃ (ds : List Declaration) (s : Session Unit), s.Declared Library.empty {} () ds ∧
      (∃ d ∈ ds, d.name = "f") ∧
      ¬ (Library.empty : Library Unit).Provides "f" ∧
      ∃ m, (s.machine.push .nil).defineGlobal "f" true = .raise (.immutableBinding "f") m := by
  obtain ⟨hd, -, htaken⟩ := alias_runs
  have hs := declared_plain (.eval "let f=len" 99)
  exact ⟨_, _, hs, hd, hs.not_provides hd, _, Machine.defineGlobal_of_isTaken _ true htaken⟩

end Declared

end Session

end DeployScript
