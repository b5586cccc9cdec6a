import Mathlib
import DeployScript.Proofs.Machine.Code
import DeployScript.Proofs.Machine.Collections
import DeployScript.Proofs.Session.LifeCycle

/-!
# A script is loaded as a whole or not at all

A source is checked before it is compiled into the heap of the machine. Whatever objects there are in
the heap, and whichever of its slots are free, the second compilation does what the first has done: a
source that passes its check is loaded, with new objects for its functions and nothing else changed,
and a source that does not pass is refused for the reason that the check gives.

* `Heap.addsCode_storeAll` — functions that are stored leave all other objects alone.
* `Heap.compile_blank` — what is compiled into two heaps differs in the handles of functions only.
* `Session.Lived.wf` — in every session the heap is at rest, so that its free slots are free.
* `Session.load_whole` — the main statement.
-/

namespace DeployScript

/-- A value of which it does not show which function it is. -/
def Value.blank : Value → Value
  | .function _ => .function ⟨0⟩
  | v => v

namespace Heap

/-- **Functions that are stored** are new objects, and all others stay as they are. -/
theorem addsCode_storeAll {heap : Heap} (hw : heap.Wf) (functions : Array (Prototype Literal)) :
    heap.AddsCode (heap.storeAll functions).2 := by
  refine Array.foldl_induction (fun _ (stored : Array Handle × Heap) => heap.AddsCode stored.2)
    (.refl hw) ?_
  rintro i ⟨handles, next⟩ hnext
  exact hnext.trans (addsCode_insert hnext.wf rfl)

/-- Constants are the same in every heap but for the handles of functions. -/
theorem blank_literalValue {handles handles' : Array Handle} (hsize : handles.size = handles'.size)
    (l : Literal) : (literalValue handles l).blank = (literalValue handles' l).blank := by
  cases l with
  | number value => rfl
  | text value => rfl
  | function index =>
    unfold literalValue
    dsimp only
    by_cases hlt : index < handles.size
    · rw [Array.getElem?_eq_getElem hlt, Array.getElem?_eq_getElem (hsize ▸ hlt)]
      rfl
    · rw [Array.getElem?_eq_none (Nat.le_of_not_lt hlt),
        Array.getElem?_eq_none (hsize ▸ Nat.le_of_not_lt hlt)]

theorem blank_install (heap heap' : Heap) (c : Compiled) :
    (heap.install c).1.mapConstants Value.blank = (heap'.install c).1.mapConstants Value.blank := by
  have hsize : (heap.storeAll c.functions).1.size = (heap'.storeAll c.functions).1.size := by
    rw [size_storeAll, size_storeAll]
  change (c.main.mapConstants _).mapConstants _ = (c.main.mapConstants _).mapConstants _
  simp only [Chunk.mapConstants, Array.map_map]
  congr 1
  exact Array.map_congr_left fun l _ => blank_literalValue hsize l

/-- **Two compilations,** into two heaps, fail alike or give code that differs in the handles of
functions only. -/
theorem compile_blank (heap heap' : Heap) (p : Program) :
    Corresponds (fun r r' => r.1.mapConstants Value.blank = r'.1.mapConstants Value.blank)
      (heap.compile p) (heap'.compile p) := by
  rw [compile_eq, compile_eq]
  cases Compiled.ofProgram p with
  | error e => exact .error e
  | ok c => exact .ok (blank_install heap heap' c)

end Heap

/-! ### Heaps of sessions -/

namespace Machine.Isomorphic

variable {ω : Type} {β : Link} {m : Machine ω}

/-- A run leads from a machine that is isomorphic to itself to another one. -/
theorem run_self (hi : Isomorphic β m m) {code : Chunk Value} (hc : code.Similar β code)
    (fuel : Nat) : ∃ γ, Isomorphic γ (m.run code fuel).2 (m.run code fuel).2 := by
  obtain ⟨γ, hi⟩ := hi.start hc
  obtain ⟨-, δ, -, hi⟩ := hi.resumeOn (fun _ => false) (fun _ => false) fuel 0
  rw [Machine.resumeOn_never] at hi
  exact ⟨δ, hi⟩

end Machine.Isomorphic

namespace Session

variable {ω : Type} {s t : Session ω}

/-- **A session without dangling handles:** its machine, and the code that waits, refer to objects that
are there. A session is as it was made until it is given builtins. -/
structure Whole (s : Session ω) : Prop where
  machine : ∃ β, s.machine.Isomorphic β s.machine ∧ ∀ code, s.pending = some code → code.Similar β code
  created : s.phase = .created → ∃ assets world, s.machine = Machine.new assets world

theorem Whole.of_none {β : Link} (hi : s.machine.Isomorphic β s.machine) (hpending : s.pending = none)
    (hphase : s.phase ≠ .created) : s.Whole where
  machine := ⟨β, hi, fun code hcode => by rw [hpending] at hcode; cases hcode⟩
  created h := absurd h hphase

theorem Whole.withScript (hs : s.Whole) (script : Script) (source : String) :
    (s.withScript script source).Whole where
  machine := by
    obtain ⟨β, hi, -⟩ := hs.machine
    obtain ⟨γ, hc, hi⟩ := hi.install script.compiled
    exact ⟨γ, hi, fun code hcode => Option.some.inj hcode ▸ hc⟩
  created h := by cases h

theorem Whole.ranTo (hs : s.Whole) {code : Chunk Value} (hcode : s.pending = some code) (fuel : Nat)
    {phase : Phase} (hphase : phase ≠ .created) : (s.ranTo code fuel phase).Whole := by
  obtain ⟨β, hi, hc⟩ := hs.machine
  obtain ⟨γ, hi⟩ := hi.run_self (hc code hcode) fuel
  exact .of_none hi rfl hphase

theorem Whole.register {library : Library ω} (hs : s.Whole) (hphase : s.phase = .created)
    (ht : s.register library = .ok t) (hnext : t.phase = .registered)
    (hpending : t.pending = none) : t.Whole := by
  obtain ⟨assets, world, hnew⟩ := hs.created hphase
  unfold Session.register at ht
  rw [hphase] at ht
  cases ht
  have hoffering := Machine.Isomorphic.offering assets library world
  unfold Machine.offering at hoffering
  rw [← hnew] at hoffering
  exact .of_none hoffering hpending nofun

theorem Whole.called (hs : s.Whole) (hphase : s.phase = .executed) (hpending : s.pending = none)
    (name : String) (args : List HostValue) (fuel : Nat) :
    ({ s with machine := (s.calledBy name args fuel).2 } : Session ω).Whole := by
  obtain ⟨β, hi, -⟩ := hs.machine
  obtain ⟨γ, hx, hv⟩ := @Heap.Twin.ofHostItems _ _ _ hi.heap.toTwin args #[] #[] .nil
  obtain ⟨-, δ, -, hi⟩ := (hi.extend hx).callGlobalOn (fun _ => false) (fun _ => false) fuel 0 name hv
  rw [Machine.callGlobalOn_never] at hi
  refine .of_none hi hpending ?_
  change s.phase ≠ .created
  rw [hphase]
  nofun

/-- **Every session that commands lead to** is whole. -/
theorem Lived.whole (h : s.Lived) : s.Whole := by
  induction h with
  | new assets world =>
    have hi := Machine.Isomorphic.offering assets Library.empty world
    exact ⟨⟨_, hi, fun code hcode => by cases hcode⟩, fun _ => ⟨assets, world, rfl⟩⟩
  | @obey s h c ih =>
    have hsteps := steps (s := s) c
    generalize s.failure? c = e?, s.obey c = t at hsteps ⊢
    cases hsteps with
    | refused | invalid | stranded | unevaluated | looked => exact ih
    | registered hphase ht hnext hpending =>
      refine ih.register hphase ht hnext (hpending.trans (h.waiting.pending_eq ?_))
      rw [hphase]
      nofun
    | loaded => exact ih.withScript _ _
    | ran hphase hpending => exact ih.ranTo hpending _ nofun
    | failed hphase hpending => exact ih.ranTo hpending _ nofun
    | evaluated => exact (ih.withScript _ _).ranTo rfl _ nofun
    | evalFailed => exact (ih.withScript _ _).ranTo rfl _ nofun
    | called hphase hm =>
      obtain rfl | rfl := hm
      · exact ih
      · refine ih.called hphase (h.waiting.pending_eq ?_) _ _ _
        rw [hphase]
        nofun

/-- **The heap of a session** is at rest: its free slots are empty, and each is listed once. -/
theorem Lived.wf (h : s.Lived) : s.machine.heap.Wf := by
  obtain ⟨β, hi, -⟩ := h.whole.machine
  exact hi.heap.wf

/-! ### Loading -/

/-- **A source is loaded as a whole** if it passes its check, and not at all otherwise. -/
theorem load_whole (hphase : s.phase = .registered ∨ s.phase = .executed)
    (hw : s.machine.heap.Wf) (source : String) :
    -- A source that does not pass its check is refused for the same reason, and nothing changes.
    (∀ e, Script.ofSource source = .error e →
      s.load source = .error (.invalidScript e) ∧ s.behind (.load source) = s) ∧
    -- A source that passes its check is compiled once more, and all that is new are its functions.
    ∀ script, Script.ofSource source = .ok script → ∃ code heap,
      s.machine.heap.compile script.program = .ok (code, heap) ∧
      (code, heap) = s.machine.heap.install script.compiled ∧
      s.load source = .ok { s with
        machine := { s.machine with heap }, phase := .loaded, pending := some code, source } ∧
      (∀ h o, s.machine.heap.get? h = some o → heap.get? h = some o) ∧
      (∀ h o, heap.get? h = some o → s.machine.heap.get? h = some o ∨ ∃ p, o = .function p) ∧
      ∃ code' heap', Heap.empty.compile script.program = .ok (code', heap') ∧
        code.mapConstants Value.blank = code'.mapConstants Value.blank := by
  refine ⟨fun e he => ?refused, fun script hscript => ?loaded⟩
  case refused =>
    have hload : s.load source = .error (.invalidScript e) := by
      rw [load_eq hphase, he]
      rfl
    refine ⟨hload, ?_⟩
    unfold behind
    dsimp only
    rw [hload]
  case loaded =>
    have hcompiled : ∀ heap : Heap, heap.compile script.program
        = .ok (heap.install script.compiled) := by
      intro heap
      rw [Heap.compile_eq, (Script.of_ofSource hscript).2]
      rfl
    have hadds := Heap.addsCode_storeAll hw script.compiled.functions
    refine ⟨_, _, hcompiled _, rfl, ?_, hadds.keep, hadds.new, _, _, hcompiled _,
      Heap.blank_install _ _ _⟩
    rw [load_eq hphase, hscript]
    rfl

/-- On a heap with lists that refer to each other, and with a free slot, a script with two functions is loaded as
a whole, and half a declaration not at all. -/
theorem load_functions_whole :
    let registered := (new {} 0 : Session Nat).obey (.register Library.empty)
    let s := { registered with machine := { registered.machine with heap := Heap.rings } }
    let source := "fn f(x) \x7b return x \x7d\nfn g() \x7b return f(nil) \x7d"
    (∃ e, s.load "let" = .error (.invalidScript e) ∧ s.behind (.load "let") = s) ∧
    ∃ script code heap, Script.ofSource source = .ok script ∧ script.compiled.functions.size = 2 ∧
      s.load source = .ok { s with
        machine := { s.machine with heap }, phase := .loaded, pending := some code, source } ∧
      (∀ h o, Heap.rings.get? h = some o → heap.get? h = some o) ∧
      ∀ h o, heap.get? h = some o → Heap.rings.get? h = some o ∨ ∃ p, o = .function p := by
  intro registered s source
  have hw : s.machine.heap.Wf :=
    { free := fun i hi => by
        obtain rfl := List.mem_singleton.1 hi
        rfl
      nodup := List.nodup_singleton 3
      marked := fun _ => Std.HashSet.contains_empty
      pending := rfl }
  have hwhole := load_whole (s := s) (.inl rfl) hw
  have hrefused : (errorOf? (Script.ofSource "let")).isSome = true := by decide +kernel
  have haccepted : ((Script.ofSource source).toOption.map (·.compiled.functions.size)) = some 2 := by
    decide +kernel
  obtain ⟨e, he⟩ := Option.isSome_iff_exists.1 hrefused
  obtain ⟨script, hscript, hsize⟩ := Option.map_eq_some_iff.1 haccepted
  have hscript := eq_ok_of_toOption hscript
  obtain ⟨code, heap, -, -, hload, hkept, hnew, -⟩ := (hwhole source).2 script hscript
  exact ⟨⟨e, (hwhole "let").1 e (eq_error_of_errorOf? he)⟩, script, code, heap, hscript, hsize, hload, hkept, hnew⟩

end Session

end DeployScript
