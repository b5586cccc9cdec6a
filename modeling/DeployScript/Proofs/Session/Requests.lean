import Mathlib
import DeployScript.Proofs.Code.Stores
import DeployScript.Session.Basic

/-!
# Requests

What a host asks of a session with builtins, and the session behind it. A script is loaded by a check
and a compilation into the heap; since these go alike, loading is the check and the installation of
what it has compiled.

* `Request`, `Session.behind` — requests, and what they lead to.
* `Session.load_eq` — how a script is loaded.
-/

namespace DeployScript

variable {ω : Type}

/-- What a host asks of a session with builtins. -/
inductive Request
  | load (source : String)
  | run (fuel : Nat)
  | eval (source : String) (fuel : Nat)
  | call (name : String) (args : List HostValue) (fuel : Nat)
  | get (name : String)
  | exports

namespace Session

/-- The session behind a request. -/
def behind (s : Session ω) : Request → Session ω
  | .load source =>
    match s.load source with
    | .ok t => t
    | .error _ => s
  | .run fuel => (s.run fuel).2
  | .eval source fuel => (s.eval source fuel).2
  | .call name args fuel => (s.call name args fuel).2
  | .get _ | .exports => s

end Session

/-- A checked source has a program, and that has code. -/
theorem Script.of_ofSource {source : String} {script : Script}
    (h : Script.ofSource source = .ok script) :
    Program.ofSource source = .ok script.program ∧
      Compiled.ofProgram script.program = .ok script.compiled := by
  unfold Script.ofSource at h
  cases hprogram : Program.ofSource source with
  | error e =>
    rw [hprogram] at h
    cases h
  | ok program =>
    cases hcompiled : Compiled.ofProgram program with
    | error e =>
      simp only [hprogram, hcompiled, bind, Except.bind] at h
      cases h
    | ok compiled =>
      simp only [hprogram, hcompiled, bind, Except.bind] at h
      cases h
      exact ⟨rfl, hcompiled⟩

theorem Script.compiled_ofSource {source : String} {script : Script} (h : Script.ofSource source = .ok script) :
    Compiled.ofSource source = .ok script.compiled := by
  obtain ⟨hprogram, hcompiled⟩ := Script.of_ofSource h
  rw [Compiled.ofSource, hprogram]
  exact hcompiled

namespace Session

/-- An excerpt of the source does not change the cause. -/
theorem cause_withSource (e : ScriptError) (source : String) : (e.withSource source).cause = e.cause := by
  unfold ScriptError.withSource
  cases e.span <;> rfl

theorem span_withSource (e : ScriptError) (source : String) : (e.withSource source).span = e.span := by
  unfold ScriptError.withSource
  cases he : e.span <;> simp [he]

variable {s t : Session ω} {source : String}

/-- A session with a script that waits to be run. -/
def withScript (s : Session ω) (script : Script) (source : String) : Session ω :=
  { s with
    machine := { s.machine with heap := (s.machine.heap.install script.compiled).2 }
    phase := .loaded
    pending := some (s.machine.heap.install script.compiled).1
    source }

/-- **How a script is loaded:** if it passes its check, what the check has compiled is installed. The
compilation into the heap, behind the check, does not fail. -/
theorem load_eq (hphase : s.phase = .registered ∨ s.phase = .executed) (source : String) :
    s.load source = ((Script.ofSource source).mapError .invalidScript).map
      (s.withScript · source) := by
  cases hscript : Script.ofSource source with
  | error e =>
    unfold load
    obtain hphase | hphase := hphase <;> rw [hphase, hscript] <;> rfl
  | ok script =>
    have hcompile : s.machine.heap.compile script.program
        = .ok (s.machine.heap.install script.compiled) := by
      rw [Heap.compile_eq, (Script.of_ofSource hscript).2]
      rfl
    unfold load
    obtain hphase | hphase := hphase <;>
      simp only [hphase, hscript, hcompile, bind, Except.bind, Except.mapError] <;> rfl

/-- A script is loaded in two phases only. -/
theorem load_eq_error (hphase : ¬(s.phase = .registered ∨ s.phase = .executed)) (source : String) :
    s.load source = .error (s.refusal "load a script") := by
  unfold load
  cases hp : s.phase with
  | created | loaded => rfl
  | registered => exact absurd (.inl hp) hphase
  | executed => exact absurd (.inr hp) hphase

/-- **A script that is loaded** has passed its check. -/
theorem load_eq_ok (ht : s.load source = .ok t) :
    ∃ script, Script.ofSource source = .ok script ∧ t = s.withScript script source := by
  by_cases hphase : s.phase = .registered ∨ s.phase = .executed
  · rw [load_eq hphase] at ht
    cases hscript : Script.ofSource source with
    | error e =>
      rw [hscript] at ht
      cases ht
    | ok script =>
      rw [hscript] at ht
      cases ht
      exact ⟨script, rfl, rfl⟩
  · rw [load_eq_error hphase] at ht
    cases ht

end Session

end DeployScript
