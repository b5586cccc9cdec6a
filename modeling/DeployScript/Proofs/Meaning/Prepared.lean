import DeployScript.Proofs.Meaning.Outside
import DeployScript.Proofs.Meaning.Sheltered
import DeployScript.Proofs.Session.LifeCycle

/-!
# Machines between runs

A host stores values, runs scripts and calls functions on one machine, and some of that fails. As long as no
captured variable is on the stack where it fails, the machine goes on standing for a memory: everything that
it has been through was what evaluation does, and the next script is again. A captured variable that is on the
stack where a script fails is lost with the stack, and a function that has captured it reads another one later.

* `Machine.Stands` — a machine between two runs that stands for a memory; `Ends.stands` — the end of a run.
* `Stands.defines`, `Stands.ran`, `Stands.called` — a value is stored, a script runs, a function is called.
* `Machine.Prepared`, `Prepared.stands` — machines with a past.
* `Script.runs_as_evaluated` — the main statement; `Script.captured_read_elsewhere` — what it leaves out.
-/

namespace DeployScript

variable {ω : Type} {β : Link} {m m' : Machine ω} {μ : Memory ω} {finish : Finish}

/-- **A machine between two runs that stands for a memory,** one in which the functions have their variables. -/
def Machine.Stands (m : Machine ω) : Prop := m.Idle ∧ ∃ β μ, m.Models β (fun _ => .value) μ ∧ μ.Scoped

/-- **Where a run or a call has come to its end,** the machine stands for a memory, unless it has failed with a
captured variable on the stack. -/
theorem Ends.stands {r : Result ω Value} (h : Ends (finish, m) r) (hr : r.Scoped)
    (hclosed : ∀ e, finish = .error e → ∀ slot, ¬m.Open slot) : m.Stands := by
  cases h with
  | value _ hi hm => exact ⟨hi, _, _, hm, hr⟩
  | error _ hstands =>
    obtain ⟨hi, hm⟩ := hstands (hclosed _ rfl)
    exact ⟨hi, _, _, hm, hr⟩

/-- What a host stores is data. -/
theorem Memory.Scoped.stores (h : μ.Scoped) (args : List HostValue) :
    ({ μ with heap := (Heap.ofHostItems args #[] μ.heap).2 } : Memory ω).Scoped :=
  have hages : μ.heap.Ages ∅ (Heap.ofHostItems args #[] μ.heap).2 :=
    (Heap.spares_ofHostItems h.wf args #[]).ages_nil
  h.ages hages rfl

/-- **A call from outside** leaves every variable in scope with its cell. -/
theorem Eval.scoped_callGlobal (hμ : μ.Scoped) (fuel : Nat) (name : String) (args : List HostValue) :
    (callGlobal fuel name args μ).Scoped := by
  have hstored : (change (Heap.ofHostItems args #[]) μ).Shelters ∅ Anything μ.heap :=
    shelters_change hμ (Heap.spares_ofHostItems hμ.wf args #[]).ages_nil trivial
  have hcalled : (callGlobal fuel name args μ).Shelters ∅ Anything μ.heap :=
    hstored.bind fun values _ _ hμ₁ _ => (shelters_read hμ₁ [] name).bind fun callee _ _ hμ₂ _ =>
      shelters_apply fuel 0 scriptName callee values.toList _ hμ₂
  exact hcalled.scoped

namespace Machine

theorem scoped_memory (assets : Assets) (library : Library ω) (world : ω) :
    (memory assets library world).Scoped := ⟨Heap.wf_empty, nofun, nofun⟩

theorem stands_offering (assets : Assets) (library : Library ω) (world : ω) :
    (offering assets library world).Stands :=
  ⟨idle_offering assets library world, _, _, models_offering assets library world,
    scoped_memory assets library world⟩

theorem Stands.defines (h : m.Stands) (name : String) (value : HostValue) (isMutable : Bool) :
    ({ m with heap := (Heap.ofHost value m.heap).2 }.define name (Heap.ofHost value m.heap).1
      isMutable : Machine ω).Stands := by
  obtain ⟨hi, β, μ, hm, hμ⟩ := h
  obtain ⟨γ, hm'⟩ := hm.defines name value isMutable
  have hages : μ.heap.Ages ∅ (Heap.ofHost value μ.heap).2 := (Heap.spares_ofHost hμ.wf value).ages_nil
  exact ⟨hi.define name value isMutable, γ, _, hm', hμ.ages hages rfl⟩

theorem Stands.ran (h : m.Stands) {source : String} {script : Script}
    (hs : Script.ofSource source = .ok script) {fuel : Nat}
    (hrun : m.runCompiled script.compiled fuel = (finish, m')) (hend : finish ≠ .unfinished)
    (hclosed : ∀ e, finish = .error e → ∀ slot, ¬m'.Open slot) : m'.Stands := by
  obtain ⟨hi, β, μ, hm, hμ⟩ := h
  have hends := (Script.means hs hi hm).2 fuel fuel (Nat.le_refl fuel) (by rw [hrun]; exact hend)
  rw [hrun] at hends
  exact hends.stands (script.program.scoped_eval fuel hμ) hclosed

/-- Arguments that are stored for a call are data like any other. -/
theorem Stands.stores (h : m.Stands) (args : List HostValue) :
    ({ m with heap := (Session.storeArgs args m.heap).2 } : Machine ω).Stands := by
  obtain ⟨hi, β, μ, hm, hμ⟩ := h
  obtain ⟨γ, hx, -⟩ := hm.twin.ofHostItems args
    (show List.Forall₂ (Value.Similar β) (#[] : Array Value).toList (#[] : Array Value).toList from .nil)
  obtain ⟨δ, hs⟩ := hi.sound
  obtain ⟨ε, hy, -⟩ := hs.heap.twin.ofHostItems args
    (show List.Forall₂ (Value.Similar δ) (#[] : Array Value).toList (#[] : Array Value).toList from .nil)
  exact ⟨⟨⟨ε, hs.extend hy⟩, hi.stack, hi.frames, hi.opened⟩, γ, _, hm.extend hx, hμ.stores args⟩

theorem Stands.called (h : m.Stands) (name : String) (args : List HostValue) {fuel : Nat}
    (hcall : ({ m with heap := (Session.storeArgs args m.heap).2 } : Machine ω).callGlobal name
      (Session.storeArgs args m.heap).1.toList fuel = (finish, m')) (hend : finish ≠ .unfinished)
    (hclosed : ∀ e, finish = .error e → ∀ slot, ¬m'.Open slot) : m'.Stands := by
  cases hg : m.global? name with
  | none =>
    have hg' : Machine.global? { m with heap := (Session.storeArgs args m.heap).2 } name = none := hg
    unfold callGlobal at hcall
    rw [hg'] at hcall
    cases hcall
    exact h.stores args
  | some callee =>
    obtain ⟨hi, β, μ, hm, hμ⟩ := h
    have hends := calls_mean hi hm hg args (Nat.le_refl fuel) (by rw [hcall]; exact hend)
    rw [hcall] at hends
    exact hends.stands (Eval.scoped_callGlobal hμ _ name args) hclosed

/-- **A machine with a past:** a host has stored values, run scripts and called functions. Where a script or a
call has failed, no captured variable was on the stack. -/
inductive Prepared : Machine ω → Prop
  | offering (assets : Assets) (library : Library ω) (world : ω) :
    Prepared (offering assets library world)
  | define {m : Machine ω} (h : Prepared m) (name : String) (value : HostValue) (isMutable : Bool) :
    Prepared ({ m with heap := (Heap.ofHost value m.heap).2 }.define name
      (Heap.ofHost value m.heap).1 isMutable)
  | ran {m m' : Machine ω} {finish : Finish} (h : Prepared m) {source : String} {script : Script}
    (hs : Script.ofSource source = .ok script) {fuel : Nat}
    (hrun : m.runCompiled script.compiled fuel = (finish, m')) (hend : finish ≠ .unfinished)
    (hclosed : ∀ e, finish = .error e → ∀ slot, ¬m'.Open slot) : Prepared m'
  | called {m m' : Machine ω} {finish : Finish} (h : Prepared m) (name : String) (args : List HostValue)
    {fuel : Nat}
    (hcall : ({ m with heap := (Session.storeArgs args m.heap).2 } : Machine ω).callGlobal name
      (Session.storeArgs args m.heap).1.toList fuel = (finish, m')) (hend : finish ≠ .unfinished)
    (hclosed : ∀ e, finish = .error e → ∀ slot, ¬m'.Open slot) : Prepared m'

/-- **Such a machine stands for a memory,** whatever its globals are. -/
theorem Prepared.stands (h : m.Prepared) : m.Stands := by
  induction h with
  | offering assets library world => exact stands_offering assets library world
  | define _ name value isMutable ih => exact ih.defines name value isMutable
  | ran _ hs hrun hend hclosed ih => exact ih.ran hs hrun hend hclosed
  | called _ name args hcall hend hclosed ih => exact ih.called name args hcall hend hclosed

end Machine

/-- **Scripts mean what their code does.** A machine with a past stands for a memory, and whichever one it
stands for, the code of a script ends on it if and only if the evaluation of the script ends there, and alike:
with one value and one set of globals, or with one error, and with the same output and the same host. -/
theorem Script.runs_as_evaluated {source : String} {script : Script}
    (h : Script.ofSource source = .ok script) (hm : m.Prepared) :
    m.Stands ∧ ∀ β μ, m.Models β (fun _ => .value) μ →
      (∀ fuel, script.program.eval fuel μ ≠ .unfinished →
        ∃ n, ∀ k, n ≤ k → Ends (m.runCompiled script.compiled k) (script.program.eval fuel μ)) ∧
      ∀ k fuel, k ≤ fuel → (m.runCompiled script.compiled k).1 ≠ .unfinished →
        Ends (m.runCompiled script.compiled k) (script.program.eval fuel μ) :=
  ⟨hm.stands, fun _ _ hmodels => Script.means h hm.stands.1 hmodels⟩

/-! ### A past with a failure -/

/-- The text that a run has ended with. -/
def Finish.text? : Finish → Option String
  | .value (.text s) => some s
  | _ => none

/-- The text that an evaluation comes to. -/
def Result.text? : Result ω Value → Option String
  | .ok (.text s) _ => some s
  | _ => none

/-- The memory where an evaluation fails. -/
def Result.failed? : Result ω Value → Option (Memory ω)
  | .error _ μ => some μ
  | _ => none

/-- Whether a run has failed. -/
def Finish.isError : Finish → Bool
  | .error _ => true
  | _ => false

/-- Whether an object is a variable that is a slot of the stack. -/
def Object.isOpen : Object → Bool
  | .cell (.opened _) => true
  | _ => false

theorem Finish.text?_eq {finish : Finish} {s : String} (h : finish.text? = some s) : finish = .value (.text s) := by
  cases finish with
  | value v => cases v <;> cases h; rfl
  | _ => cases h

theorem Result.text?_eq {r : Result ω Value} {s : String} (h : r.text? = some s) : ∃ μ, r = .ok (.text s) μ := by
  cases r with
  | ok v μ => cases v <;> cases h; exact ⟨μ, rfl⟩
  | _ => cases h

theorem Result.failed?_eq {r : Result ω Value} (h : r.failed? = some μ) : ∃ cause, r = .error cause μ := by
  cases r with
  | error cause ν => cases h; exact ⟨cause, rfl⟩
  | _ => cases h

/-- Nothing is open if no slot of the heap is. -/
theorem Machine.not_open_of_slots (h : m.heap.slots.all (fun o => !o.any Object.isOpen) = true) (slot : Nat) :
    ¬m.Open slot := by
  rintro ⟨g, hg⟩
  have hmem := Array.mem_of_getElem? (Option.join_eq_some_iff.1 (Heap.cell?_eq.1 hg))
  cases Array.all_eq_true'.1 h _ hmem

/-- A run that has failed and has left an empty stack, and whether every captured variable has a cell of its own. -/
def Machine.failure? (run : Finish × Machine ω) : Option Bool :=
  if run.1.isError && run.2.stack.isEmpty && run.2.frames.isEmpty && run.2.opened.isEmpty then
    some (run.2.heap.slots.all fun o => !o.any Object.isOpen)
  else none

/-- What two scripts come to, one behind the other, where the first one fails: what its failure leaves, and the
texts of the second, by evaluation and by its code. -/
def Script.behindFailure? (m : Machine ω) (μ : Memory ω) (first second : Script) :
    Option (Option Bool × Option String × Option String) :=
  let run := m.runCompiled first.compiled 100
  (first.program.eval 100 μ).failed?.map fun ν =>
    (Machine.failure? run, (second.program.eval 100 ν).text?, (run.2.runCompiled second.compiled 100).1.text?)

/-- **What two such scripts come to** is what the functions have found. -/
theorem Script.behindFailure?_eq {first second : Script} {closed : Bool} {s t : String}
    (hi : m.Idle) (hm : m.Models β (fun _ => .value) μ) {source : String}
    (hfirst : Script.ofSource source = .ok first)
    (h : Script.behindFailure? m μ first second = some (some closed, some s, some t)) :
    let left := (m.runCompiled first.compiled 100).2
    ∃ cause ν π e, first.program.eval 100 μ = .error cause ν ∧
      m.runCompiled first.compiled 100 = (.error e, left) ∧ (∃ γ, left.Mirrors γ ν) ∧
      (left.stack = #[] ∧ left.frames = [] ∧ left.opened = []) ∧
      (closed = true → (∀ slot, ¬left.Open slot) ∧ ∃ γ, left.Models γ (fun _ => .value) ν) ∧
      second.program.eval 100 ν = .ok (.text s) π ∧
      (left.runCompiled second.compiled 100).1 = .value (.text t) := by
  obtain ⟨ν, hν, h⟩ := Option.map_eq_some_iff.1 h
  obtain ⟨hfailure, htexts⟩ := Prod.mk.inj h
  obtain ⟨heval, hrun⟩ := Prod.mk.inj htexts
  obtain ⟨cause, hcause⟩ := Result.failed?_eq hν
  obtain ⟨π, hπ⟩ := Result.text?_eq heval
  have hmeans := (Script.means hfirst hi hm).2 100 100 (Nat.le_refl 100)
  rw [hcause] at hmeans
  generalize m.runCompiled first.compiled 100 = last at hfailure hrun hmeans ⊢
  obtain ⟨finish, left⟩ := last
  unfold Machine.failure? at hfailure
  split at hfailure
  case isFalse => cases hfailure
  case isTrue hleft =>
    simp only [Bool.and_eq_true, Array.isEmpty_iff, List.isEmpty_iff] at hleft
    obtain ⟨⟨⟨herror, hstack⟩, hframes⟩, hopened⟩ := hleft
    cases finish with
    | error e =>
      cases hmeans nofun with
      | error hmirrors hstands =>
        refine ⟨_, ν, π, e, hcause, rfl, ⟨_, hmirrors⟩, ⟨hstack, hframes, hopened⟩, ?_, hπ,
          Finish.text?_eq hrun⟩
        rintro rfl
        have hclosed := Machine.not_open_of_slots (Option.some.inj hfailure)
        exact ⟨hclosed, _, (hstands hclosed).2⟩
    | _ => cases herror

/-- A script with a function that has captured the variable of a loop and is called in the loop and behind it. -/
def Script.saying : String :=
  "var saved\nfn keep(f) \x7b saved = f \x7d\nfor word in [greeting, nil] \x7b\n" ++
    " fn say(end) \x7b word = word + end\n return word \x7d\n keep(say)\n" ++
    " if say(\"!\") == \"hi!\" \x7b break \x7d\n\x7d\nsaved(\"?\")"

set_option maxRecDepth 10000 in
/-- Such a script runs as it is evaluated, on a machine with a global of the host on which a script has failed
before. -/
theorem Script.closures_run_as_evaluated : ∃ first second : Script,
    Script.ofSource "nil.x" = .ok first ∧ Script.ofSource Script.saying = .ok second ∧
    let greeted : Machine Unit := (Machine.offering {} Library.empty ()).define "greeting" (.text "hi") false
    let m := (greeted.runCompiled first.compiled 100).2
    m.Prepared ∧ ∃ β μ ν n, m.Models β (fun _ => .value) μ ∧ second.program.eval 100 μ = .ok (.text "hi!?") ν ∧
      ∀ k, n ≤ k → Ends (m.runCompiled second.compiled k) (second.program.eval 100 μ) := by
  let m : Machine Unit := (Machine.offering {} Library.empty ()).define "greeting" (.text "hi") false
  let μ : Memory Unit := { Machine.memory {} Library.empty () with
    globals := (Machine.memory {} Library.empty ()).globals.insert "greeting" ⟨.text "hi", false⟩ }
  have hcheck : ((Script.ofSource "nil.x").toOption.bind fun first =>
      (Script.ofSource Script.saying).toOption.bind (first.behindFailure? m μ ·))
        = some (some true, some "hi!?", some "hi!?") := by decide +kernel
  have hm : m.Prepared := .define (.offering {} Library.empty ()) "greeting" (.text "hi") false
  obtain ⟨γ, hmodels⟩ := (Machine.models_offering {} Library.empty ()).defines "greeting" (.text "hi") false
  obtain ⟨first, hfirst, hcheck⟩ := Option.bind_eq_some_iff.1 hcheck
  obtain ⟨second, hsecond, hcheck⟩ := Option.bind_eq_some_iff.1 hcheck
  have hfirst' := eq_ok_of_toOption hfirst
  have hsecond' := eq_ok_of_toOption hsecond
  obtain ⟨cause, ν, π, e, -, hrun, -, -, hclosed, hν, -⟩ :=
    Script.behindFailure?_eq hm.stands.1 hmodels hfirst' hcheck
  obtain ⟨hclosed, β, hleft⟩ := hclosed rfl
  have hprepared := hm.ran hfirst' hrun nofun fun _ _ => hclosed
  obtain ⟨n, hends⟩ := ((Script.runs_as_evaluated hsecond' hprepared).2 β ν hleft).1 100 (by rw [hν]; nofun)
  exact ⟨first, second, hfirst', hsecond', hprepared, β, ν, π, n, hleft, hν, hends⟩

/-- **A captured variable that is on the stack where a script fails is lost.** Behind the failure the machine
shows what the memory shows, and nothing is left on its stack. Still the next script reads a variable of its own
through the function that had captured the other one, where evaluation reads that one. -/
theorem Script.captured_read_elsewhere : ∃ first second : Script,
    Script.ofSource "var g\nfn f() \x7b var x = \"x\"\n fn h() \x7b return x \x7d\n g = h\n nil.x \x7d\nf()"
      = .ok first ∧
    Script.ofSource "\x7b var a = \"a\"\n var b = \"b\"\n return g() \x7d" = .ok second ∧
    let m : Machine Unit := (Machine.runCompiled (Machine.offering {} Library.empty ()) first.compiled 100).2
    ∃ cause μ ν, first.program.eval 100 (Machine.memory {} Library.empty ()) = .error cause μ ∧
      (∃ β, m.Mirrors β μ) ∧ (m.stack = #[] ∧ m.frames = [] ∧ m.opened = []) ∧
      second.program.eval 100 μ = .ok (.text "x") ν ∧
      (m.runCompiled second.compiled 100).1 = .value (.text "b") := by
  have hcheck : ((Script.ofSource
      "var g\nfn f() \x7b var x = \"x\"\n fn h() \x7b return x \x7d\n g = h\n nil.x \x7d\nf()").toOption.bind
        fun first => (Script.ofSource "\x7b var a = \"a\"\n var b = \"b\"\n return g() \x7d").toOption.bind
          (first.behindFailure? (Machine.offering {} Library.empty ()) (Machine.memory {} Library.empty ()) ·))
      = some (some false, some "x", some "b") := by decide +kernel
  obtain ⟨first, hfirst, hcheck⟩ := Option.bind_eq_some_iff.1 hcheck
  obtain ⟨second, hsecond, hcheck⟩ := Option.bind_eq_some_iff.1 hcheck
  have hfirst' := eq_ok_of_toOption hfirst
  obtain ⟨cause, μ, ν, e, hcause, -, hmirrors, hleft, -, hν, hrun⟩ := Script.behindFailure?_eq
    (Machine.idle_offering {} Library.empty ()) (Machine.models_offering {} Library.empty ()) hfirst' hcheck
  exact ⟨first, second, hfirst', eq_ok_of_toOption hsecond, cause, μ, ν, hcause, hmirrors, hleft, hν, hrun⟩

end DeployScript
