import DeployScript.Proofs.Meaning.Prepared
import DeployScript.Proofs.Session.LifeCycle

/-!
# Sessions without failures

As long as no script has failed in a session, and no function of one, its machine stands for a memory:
scripts that are run keep it so, and so do calls from outside. What a session comes to is then known from
evaluation.

* `Session.ended`, `eval_eq` — what is made of the end of a run.
* `SessionError.IsFailure`, `Session.Unfailed` — sessions in which nothing has failed.
* `Session.Unfailed.stands` — their machines stand for memories.
-/

namespace DeployScript

variable {ω : Type}

/-- An error of a script, or of a function of one, or no end of it. -/
def SessionError.IsFailure : SessionError → Prop
  | failedScript _ | stuck | unfinished => True
  | _ => False

namespace Session

variable {s t : Session ω} {source : String} {script : Script}

/-- What is made of the end of a run: its result for the host, and the phase behind it. -/
def ended (s : Session ω) (source : String) (last : Finish × Machine ω) :
    Except SessionError HostValue × Session ω :=
  let phase := match last.1 with
    | .value _ => Phase.executed
    | _ => Phase.registered
  let t : Session ω := { s with machine := last.2, phase, pending := none, source }
  (t.result last.1, t)

/-- A script that waits is run on the machine on which it was installed. -/
theorem run_withScript (s : Session ω) (script : Script) (source : String) (fuel : Nat) :
    (s.withScript script source).run fuel = s.ended source (s.machine.runCompiled script.compiled fuel) := by
  cases hlast : s.machine.runCompiled script.compiled fuel with
  | mk finish m =>
    unfold Machine.runCompiled at hlast
    dsimp only at hlast
    cases finish <;> simp only [Session.run, withScript, ended, hlast]

/-- A script is loaded and run at once. -/
theorem eval_eq (hphase : s.phase = .registered ∨ s.phase = .executed)
    (hscript : Script.ofSource source = .ok script) (fuel : Nat) :
    s.eval source fuel = s.ended source (s.machine.runCompiled script.compiled fuel) := by
  unfold eval
  rw [load_eq hphase, hscript, ← run_withScript]
  rfl

/-- A run without a failure has come to a value. -/
theorem value_of_ended {last : Finish × Machine ω}
    (h : ∀ e, errorOf? (s.ended source last).1 = some e → ¬e.IsFailure) : ∃ v m, last = (.value v, m) := by
  obtain ⟨finish, m⟩ := last
  cases finish with
  | value v => exact ⟨v, m, rfl⟩
  | error e => exact absurd trivial (h _ rfl)
  | stuck => exact absurd trivial (h _ rfl)
  | unfinished => exact absurd trivial (h _ rfl)

/-- **Sessions in which nothing has failed:** no script, and no function of one that was called. Requests
may have been refused. -/
inductive Unfailed : Session ω → Prop
  | new (assets : Assets) (world : ω) : Unfailed (new assets world)
  | obey {s : Session ω} (h : Unfailed s) (c : Command ω)
    (hc : ∀ e, s.failure? c = some e → ¬e.IsFailure) : Unfailed (s.obey c)

/-! ### What an unfailed session is like -/

/-- A command in a wrong phase changes nothing. -/
theorem Steps.eq_of_not_mem {c : Command ω} {e? : Option SessionError} (h : s.Steps c e? t)
    (hphase : s.phase ∉ c.allowed) : t = s := by
  cases h with
  | refused | invalid | stranded | unevaluated | looked => rfl
  | registered hp _ _ _ _ | ran hp _ | failed hp _ _ | called hp _ _ =>
    exact absurd (List.mem_singleton.2 hp) hphase
  | loaded hp _ | evaluated hp _ | evalFailed hp _ _ => exact absurd (mem_pair.2 hp) hphase

/-- **What an unfailed session is like** in each phase: its machine is new, or it stands for a memory, or it
did so before a script was installed. -/
inductive Steady (s : Session ω) : Prop
  | created (assets : Assets) (world : ω) (hphase : s.phase = .created)
    (hmachine : s.machine = Machine.new assets world)
  | ready (hphase : s.phase = .registered ∨ s.phase = .executed) (hm : s.machine.Stands)
  | loaded {t : Session ω} {script : Script} {source : String}
    (hscript : Script.ofSource source = .ok script) (hm : t.machine.Stands)
    (hs : s = t.withScript script source)

theorem Steady.phase_created (h : s.Steady) (hphase : s.phase = .created) :
    ∃ assets world, s.machine = Machine.new assets world := by
  cases h with
  | created assets world _ hmachine => exact ⟨assets, world, hmachine⟩
  | ready hp _ => rcases hp with hp | hp <;> rw [hphase] at hp <;> cases hp
  | loaded _ _ hs =>
    rw [hs] at hphase
    cases hphase

theorem Steady.phase_ready (h : s.Steady) (hphase : s.phase = .registered ∨ s.phase = .executed) :
    s.machine.Stands := by
  cases h with
  | created _ _ hp _ => rcases hphase with hphase | hphase <;> rw [hp] at hphase <;> cases hphase
  | ready _ hm => exact hm
  | loaded _ _ hs => rcases hphase with hphase | hphase <;> rw [hs] at hphase <;> cases hphase

theorem Steady.phase_loaded (h : s.Steady) (hphase : s.phase = .loaded) :
    ∃ (t : Session ω) (script : Script) (source : String),
      Script.ofSource source = .ok script ∧ t.machine.Stands ∧ s = t.withScript script source := by
  cases h with
  | created _ _ hp _ =>
    rw [hphase] at hp
    cases hp
  | ready hp _ => rcases hp with hp | hp <;> rw [hphase] at hp <;> cases hp
  | @loaded t script source hscript hm hs => exact ⟨t, script, source, hscript, hm, hs⟩

/-- **A script that does not fail** leaves a machine that stands for a memory again. -/
theorem steady_ended (hm : s.machine.Stands) (hscript : Script.ofSource source = .ok script) {fuel : Nat}
    (h : ∀ e, errorOf? (s.ended source (s.machine.runCompiled script.compiled fuel)).1 = some e →
      ¬e.IsFailure) :
    (s.ended source (s.machine.runCompiled script.compiled fuel)).2.Steady := by
  obtain ⟨v, m, hlast⟩ := value_of_ended h
  rw [hlast]
  exact .ready (.inr rfl) (hm.ran hscript hlast nofun nofun)

/-- A call from outside, in the phase where there can be one. -/
theorem call_eq (hphase : s.phase = .executed) (name : String) (args : List HostValue) (fuel : Nat) :
    (s.call name args fuel).2 = s ∨ (∃ callee, s.machine.global? name = some callee) ∧
      (s.call name args fuel).1 = { s with machine := (s.calledBy name args fuel).2 }.result
        (s.calledBy name args fuel).1 ∧
      (s.call name args fuel).2 = { s with machine := (s.calledBy name args fuel).2 } := by
  unfold call
  rw [hphase]
  dsimp only
  cases hg : s.machine.global? name with
  | none => exact .inl rfl
  | some callee =>
    dsimp only
    split
    · exact .inr ⟨⟨callee, rfl⟩, rfl, rfl⟩
    · exact .inl rfl

/-- **A function that is called and does not fail** does so, too. -/
theorem steady_call (hm : s.machine.Stands) (hphase : s.phase = .executed) (name : String)
    (args : List HostValue) {fuel : Nat}
    (h : ∀ e, errorOf? (s.call name args fuel).1 = some e → ¬e.IsFailure) :
    (s.call name args fuel).2.Steady := by
  obtain hsame | ⟨⟨callee, hg⟩, hresult, ht⟩ := call_eq hphase name args fuel
  · rw [hsame]
    exact .ready (.inr hphase) hm
  · rw [hresult] at h
    rw [ht]
    cases hlast : s.calledBy name args fuel with
    | mk finish m =>
    rw [hlast] at h
    cases finish with
    | value v => exact .ready (.inr hphase) (hm.called name args hlast nofun nofun)
    | error e => exact absurd trivial (h _ rfl)
    | stuck => exact absurd trivial (h _ rfl)
    | unfinished => exact absurd trivial (h _ rfl)

/-- What a command comes to in a steady session. -/
theorem Steady.obey (hs : s.Steady) (c : Command ω) (hc : ∀ e, s.failure? c = some e → ¬e.IsFailure) :
    (s.obey c).Steady := by
  -- In a phase where the command is not allowed nothing changes; elsewhere the phase says what the
  -- machine is like.
  by_cases hallowed : s.phase ∈ c.allowed
  case neg =>
    rw [(steps c).eq_of_not_mem hallowed]
    exact hs
  case pos =>
    cases c with
    | register library =>
      have hphase : s.phase = .created := List.mem_singleton.1 hallowed
      obtain ⟨assets, world, hmachine⟩ := hs.phase_created hphase
      unfold Session.obey register
      rw [hphase, hmachine]
      exact .ready (.inl rfl) (Machine.stands_offering assets library world)
    | ask r =>
      cases r with
      | load source =>
        have hphase := mem_pair.1 hallowed
        unfold Session.obey behind
        dsimp only
        cases hload : s.load source with
        | error e => exact hs
        | ok t =>
          obtain ⟨script, hscript, ht⟩ := load_eq_ok hload
          exact .loaded hscript (hs.phase_ready hphase) ht
      | run fuel =>
        obtain ⟨t, script, source, hscript, hm, rfl⟩ := hs.phase_loaded (List.mem_singleton.1 hallowed)
        unfold failure? at hc
        unfold Session.obey behind
        dsimp only at hc ⊢
        rw [run_withScript] at hc ⊢
        exact steady_ended hm hscript hc
      | eval source fuel =>
        have hphase := mem_pair.1 hallowed
        unfold failure? at hc
        unfold Session.obey behind
        dsimp only at hc ⊢
        cases hscript : Script.ofSource source with
        | error e =>
          have heval : s.eval source fuel = (.error (.invalidScript e), s) := by
            unfold eval
            rw [load_eq hphase, hscript]
            rfl
          rw [heval]
          exact hs
        | ok script =>
          rw [eval_eq hphase hscript] at hc ⊢
          exact steady_ended (hs.phase_ready hphase) hscript hc
      | call name args fuel =>
        have hphase := List.mem_singleton.1 hallowed
        exact steady_call (hs.phase_ready (.inr hphase)) hphase name args hc
      | get | exports => exact hs

theorem Unfailed.steady (h : s.Unfailed) : s.Steady := by
  induction h with
  | new assets world => exact .created assets world rfl rfl
  | obey _ c hc ih => exact ih.obey c hc

/-- **The machine of an unfailed session** stands for a memory, unless no builtins have been registered or a
script waits. -/
theorem Unfailed.stands (h : s.Unfailed) (hphase : s.phase = .registered ∨ s.phase = .executed) :
    s.machine.Stands :=
  h.steady.phase_ready hphase

end Session

end DeployScript
