import Mathlib
import DeployScript.Proofs.Session.Requests

/-!
# The life of a session

A session is asked for one thing after another, in any order. Whether it complies depends on its
phase, and what it does moves it from phase to phase along few ways: it is given builtins once, then
scripts are loaded and run in turns. A script waits exactly as long as the phase says so.

* `Command`, `Session.obey`, `Session.failure?` — what is asked of a session, and what comes of it.
* `Session.Steps`, `Session.steps` — all that one command can do to any session whatever.
* `Session.Lived` — the sessions that commands lead to.
* `Session.Orderly`, `Session.Lived.orderly` — the life cycle.
-/

namespace DeployScript

variable {ω : Type}

/-- What is asked of a session. -/
inductive Command (ω : Type)
  | register (library : Library ω)
  | ask (request : Request)

/-- The operation in words, as refusals name it. Looking at globals is never refused. -/
def Command.operation : Command ω → String
  | register _ => "register builtins"
  | ask (.load _) | ask (.eval ..) => "load a script"
  | ask (.run _) => "run"
  | ask (.call ..) => "call a function"
  | ask (.get _) | ask .exports => ""

/-- The phases in which a command is not refused. -/
def Command.allowed : Command ω → List Phase
  | register _ => [.created]
  | ask (.load _) | ask (.eval ..) => [.registered, .executed]
  | ask (.run _) => [.loaded]
  | ask (.call ..) => [.executed]
  | ask (.get _) | ask .exports => [.created, .registered, .loaded, .executed]

/-- An error of the session itself, which refuses a command. -/
def SessionError.IsRefusal (e : SessionError) : Prop :=
  ∃ operation phase, e = .invalidPhase operation phase

/-- The error of a result. -/
def errorOf? {ε α : Type} : Except ε α → Option ε
  | .error e => some e
  | .ok _ => none

theorem eq_error_of_errorOf? {ε α : Type} {r : Except ε α} {e : ε} (h : errorOf? r = some e) : r = .error e := by
  cases r with
  | error => exact congrArg Except.error (Option.some.inj h)
  | ok => cases h

theorem eq_ok_of_toOption {ε α : Type} {r : Except ε α} {a : α} (h : r.toOption = some a) : r = .ok a := by
  cases r with
  | error => cases h
  | ok => exact congrArg Except.ok (Option.some.inj h)

/-- **The ways from phase to phase,** each with the command that goes it and the error if it fails. -/
inductive Phase.Moves : Command ω → Option SessionError → Phase → Phase → Prop
  | registered (library : Library ω) : Moves (.register library) none created registered
  | loaded {p : Phase} (source : String) (hp : p = registered ∨ p = executed) :
    Moves (.ask (.load source)) none p loaded
  | invalid {p : Phase} (source : String) (e : ScriptError) (hp : p = registered ∨ p = executed) :
    Moves (.ask (.load source)) (some (.invalidScript e)) p p
  | ran (fuel : Nat) : Moves (.ask (.run fuel)) none loaded executed
  | failed (fuel : Nat) {e : SessionError} (he : ¬e.IsRefusal) :
    Moves (.ask (.run fuel)) (some e) loaded registered
  | evaluated {source : String} {fuel : Nat} {e? : Option SessionError} {p q : Phase}
    (hload : Moves (.ask (.load source)) none p loaded)
    (hrun : Moves (.ask (.run fuel)) e? loaded q) : Moves (.ask (.eval source fuel)) e? p q
  | unevaluated {source : String} (fuel : Nat) {e : ScriptError} {p : Phase}
    (hload : Moves (.ask (.load source)) (some (.invalidScript e)) p p) :
    Moves (.ask (.eval source fuel)) (some (.invalidScript e)) p p
  | called (name : String) (args : List HostValue) (fuel : Nat) {e? : Option SessionError}
    (he : ∀ e, e? = some e → ¬e.IsRefusal) :
    Moves (.ask (.call name args fuel)) e? executed executed
  | looked {r : Request} {e? : Option SessionError} {p : Phase}
    (hr : (∃ name, r = .get name) ∨ r = .exports) (he : ∀ e, e? = some e → ¬e.IsRefusal) :
    Moves (.ask r) e? p p
  | refused {c : Command ω} {p : Phase} (hp : p ∉ c.allowed) :
    Moves c (some (.invalidPhase c.operation p.name)) p p

namespace Session

/-- The session behind a command. -/
def obey (s : Session ω) : Command ω → Session ω
  | .register library =>
    match s.register library with
    | .ok t => t
    | .error _ => s
  | .ask r => s.behind r

/-- Why a command has failed, if it has. -/
def failure? (s : Session ω) : Command ω → Option SessionError
  | .register library => errorOf? (s.register library)
  | .ask (.load source) => errorOf? (s.load source)
  | .ask (.run fuel) => errorOf? (s.run fuel).1
  | .ask (.eval source fuel) => errorOf? (s.eval source fuel).1
  | .ask (.call name args fuel) => errorOf? (s.call name args fuel).1
  | .ask (.get name) => errorOf? (s.get name)
  | .ask .exports => none

/-- The session behind a run that has led to a phase. -/
def ranTo (s : Session ω) (code : Chunk Value) (fuel : Nat) (phase : Phase) : Session ω :=
  { s with machine := (s.machine.run code fuel).2, phase, pending := none }

/-- The end of a call from outside, whose arguments are stored first. -/
def calledBy (s : Session ω) (name : String) (args : List HostValue) (fuel : Nat) :
    Finish × Machine ω :=
  let (values, heap) := storeArgs args s.machine.heap
  Machine.callGlobal { s.machine with heap } name values.toList fuel

/-- **All that a command can do** to a session, with the error if it fails. -/
inductive Steps (s : Session ω) : Command ω → Option SessionError → Session ω → Prop
  | refused {c : Command ω} (hphase : s.phase ∉ c.allowed) :
    Steps s c (some (s.refusal c.operation)) s
  | registered {library : Library ω} {t : Session ω} (hphase : s.phase = .created)
    (ht : s.register library = .ok t) (hnext : t.phase = .registered)
    (hpending : t.pending = s.pending) (hsource : t.source = s.source) :
    Steps s (.register library) none t
  | loaded {source : String} {script : Script} (hphase : s.phase = .registered ∨ s.phase = .executed)
    (hscript : Script.ofSource source = .ok script) :
    Steps s (.ask (.load source)) none (s.withScript script source)
  | invalid {source : String} {e : ScriptError}
    (hphase : s.phase = .registered ∨ s.phase = .executed)
    (hscript : Script.ofSource source = .error e) :
    Steps s (.ask (.load source)) (some (.invalidScript e)) s
  | ran {fuel : Nat} {code : Chunk Value} (hphase : s.phase = .loaded)
    (hpending : s.pending = some code) :
    Steps s (.ask (.run fuel)) none (s.ranTo code fuel .executed)
  | failed {fuel : Nat} {code : Chunk Value} {e : SessionError} (hphase : s.phase = .loaded)
    (hpending : s.pending = some code) (he : ¬e.IsRefusal) :
    Steps s (.ask (.run fuel)) (some e) (s.ranTo code fuel .registered)
  | stranded {fuel : Nat} (hphase : s.phase = .loaded) (hpending : s.pending = none) :
    Steps s (.ask (.run fuel)) (some (.invalidPhase "run" "loaded without a script")) s
  | evaluated {source : String} {script : Script} {fuel : Nat}
    (hphase : s.phase = .registered ∨ s.phase = .executed)
    (hscript : Script.ofSource source = .ok script) :
    Steps s (.ask (.eval source fuel)) none ((s.withScript script source).ranTo
      (s.machine.heap.install script.compiled).1 fuel .executed)
  | evalFailed {source : String} {script : Script} {fuel : Nat} {e : SessionError}
    (hphase : s.phase = .registered ∨ s.phase = .executed)
    (hscript : Script.ofSource source = .ok script) (he : ¬e.IsRefusal) :
    Steps s (.ask (.eval source fuel)) (some e) ((s.withScript script source).ranTo
      (s.machine.heap.install script.compiled).1 fuel .registered)
  | unevaluated {source : String} {fuel : Nat} {e : ScriptError}
    (hphase : s.phase = .registered ∨ s.phase = .executed)
    (hscript : Script.ofSource source = .error e) :
    Steps s (.ask (.eval source fuel)) (some (.invalidScript e)) s
  | called {name : String} {args : List HostValue} {fuel : Nat} {e? : Option SessionError}
    {m : Machine ω} (hphase : s.phase = .executed)
    (hm : m = s.machine ∨ m = (s.calledBy name args fuel).2)
    (he : ∀ e, e? = some e → ¬e.IsRefusal) :
    Steps s (.ask (.call name args fuel)) e? { s with machine := m }
  | looked {r : Request} {e? : Option SessionError} (hr : (∃ name, r = .get name) ∨ r = .exports)
    (he : ∀ e, e? = some e → ¬e.IsRefusal) : Steps s (.ask r) e? s

variable {s t : Session ω}

theorem mem_pair {p q r : Phase} : p ∈ [q, r] ↔ p = q ∨ p = r := by simp

theorem not_isRefusal_result (finish : Finish) (e : SessionError)
    (h : errorOf? (s.result finish) = some e) : ¬e.IsRefusal := by
  rintro ⟨operation, phase, rfl⟩
  cases finish <;> cases h

/-! ### One command -/

theorem steps_register (library : Library ω) :
    s.Steps (.register library) (s.failure? (.register library)) (s.obey (.register library)) := by
  unfold failure? obey
  dsimp only
  by_cases hphase : s.phase = .created
  · obtain ⟨t, ht, hnext, hpending, hsource⟩ : ∃ t, s.register library = .ok t ∧
        t.phase = .registered ∧ t.pending = s.pending ∧ t.source = s.source := by
      unfold register
      rw [hphase]
      exact ⟨_, rfl, rfl, rfl, rfl⟩
    rw [ht]
    exact .registered hphase ht hnext hpending hsource
  · have hrefused : s.register library = .error (s.refusal "register builtins") := by
      unfold register
      split
      case h_1 h => exact absurd h hphase
      case h_2 => rfl
    rw [hrefused]
    exact .refused fun hmem => hphase (List.mem_singleton.1 hmem)

theorem steps_load (source : String) :
    s.Steps (.ask (.load source)) (s.failure? (.ask (.load source)))
      (s.obey (.ask (.load source))) := by
  unfold failure? obey behind
  dsimp only
  by_cases hphase : s.phase = .registered ∨ s.phase = .executed
  · rw [load_eq hphase source]
    cases hscript : Script.ofSource source with
    | ok script => exact .loaded hphase hscript
    | error e => exact .invalid hphase hscript
  · rw [load_eq_error hphase source]
    exact .refused fun hmem => hphase (mem_pair.1 hmem)

/-- A script that waits is run, and then waits no longer. -/
theorem run_loaded {code : Chunk Value} (hphase : s.phase = .loaded)
    (hpending : s.pending = some code) (fuel : Nat) :
    (errorOf? (s.run fuel).1 = none ∧ (s.run fuel).2 = s.ranTo code fuel .executed) ∨
      ∃ e, errorOf? (s.run fuel).1 = some e ∧ ¬e.IsRefusal ∧
        (s.run fuel).2 = s.ranTo code fuel .registered := by
  unfold run ranTo
  rw [hphase, hpending]
  dsimp only
  cases hfinish : (s.machine.run code fuel).1 with
  | value v => exact .inl ⟨rfl, rfl⟩
  | error e =>
    exact .inr ⟨_, rfl, not_isRefusal_result (s := s) (.error e) _ rfl, rfl⟩
  | stuck => exact .inr ⟨_, rfl, not_isRefusal_result (s := s) .stuck _ rfl, rfl⟩
  | unfinished => exact .inr ⟨_, rfl, not_isRefusal_result (s := s) .unfinished _ rfl, rfl⟩

theorem steps_run (fuel : Nat) :
    s.Steps (.ask (.run fuel)) (errorOf? (s.run fuel).1) (s.run fuel).2 := by
  by_cases hphase : s.phase = .loaded
  · cases hpending : s.pending with
    | some code =>
      obtain ⟨he, hs⟩ | ⟨e, he, hrefusal, hs⟩ := run_loaded hphase hpending fuel
      · rw [he, hs]
        exact .ran hphase hpending
      · rw [he, hs]
        exact .failed hphase hpending hrefusal
    | none =>
      have hrun : s.run fuel = (.error (.invalidPhase "run" "loaded without a script"), s) := by
        unfold run
        rw [hphase, hpending]
      rw [hrun]
      exact .stranded hphase hpending
  · have hrun : s.run fuel = (.error (s.refusal "run"), s) := by
      unfold run
      split
      case h_1 h _ => exact absurd h hphase
      case h_2 h _ => exact absurd h hphase
      case h_3 => rfl
    rw [hrun]
    exact .refused fun hmem => hphase (List.mem_singleton.1 hmem)

theorem steps_eval (source : String) (fuel : Nat) :
    s.Steps (.ask (.eval source fuel)) (errorOf? (s.eval source fuel).1) (s.eval source fuel).2 := by
  by_cases hphase : s.phase = .registered ∨ s.phase = .executed
  · have hload := load_eq hphase source
    unfold eval
    cases hscript : Script.ofSource source with
    | error e =>
      rw [hload, hscript]
      exact .unevaluated hphase hscript
    | ok script =>
      rw [hload, hscript]
      obtain ⟨he, hs⟩ | ⟨e, he, hrefusal, hs⟩ :=
        run_loaded (s := s.withScript script source) rfl rfl fuel
      · change Steps s _ (errorOf? ((s.withScript script source).run fuel).1)
          ((s.withScript script source).run fuel).2
        rw [he, hs]
        exact .evaluated hphase hscript
      · change Steps s _ (errorOf? ((s.withScript script source).run fuel).1)
          ((s.withScript script source).run fuel).2
        rw [he, hs]
        exact .evalFailed hphase hscript hrefusal
  · unfold eval
    rw [load_eq_error hphase]
    exact .refused fun hmem => hphase (mem_pair.1 hmem)

theorem steps_call (name : String) (args : List HostValue) (fuel : Nat) :
    s.Steps (.ask (.call name args fuel)) (errorOf? (s.call name args fuel).1)
      (s.call name args fuel).2 := by
  have hfound : ∀ binding e, some (SessionError.notFound binding) = some e → ¬e.IsRefusal := by
    rintro binding _ ⟨⟩ ⟨operation, phase, ⟨⟩⟩
  by_cases hphase : s.phase = .executed
  · obtain ⟨machine, phase, pending, source, builtins⟩ := s
    obtain rfl : phase = .executed := hphase
    unfold call
    dsimp only
    split
    · exact .called rfl (.inl rfl) (hfound _)
    · split
      · exact .called rfl (.inr rfl) (not_isRefusal_result _)
      · exact .called rfl (.inl rfl) (hfound _)
  · have hcall : s.call name args fuel = (.error (s.refusal "call a function"), s) := by
      unfold call
      split
      case h_1 h => exact absurd h hphase
      case h_2 => rfl
    rw [hcall]
    exact .refused fun hmem => hphase (List.mem_singleton.1 hmem)

/-- **What a command does.** -/
theorem steps (c : Command ω) : s.Steps c (s.failure? c) (s.obey c) := by
  cases c with
  | register library => exact steps_register library
  | ask r =>
    cases r with
    | load source => exact steps_load source
    | run fuel => exact steps_run fuel
    | eval source fuel => exact steps_eval source fuel
    | call name args fuel => exact steps_call name args fuel
    | get name =>
      refine .looked (.inl ⟨name, rfl⟩) fun e he => ?_
      rintro ⟨operation, phase, rfl⟩
      simp only [failure?, get] at he
      split at he <;> cases he
    | exports => exact .looked (.inr rfl) nofun

/-! ### All commands -/

/-- **The sessions that commands lead to,** in any order and whatever comes of them. -/
inductive Lived : Session ω → Prop
  | new (assets : Assets) (world : ω) : Lived (new assets world)
  | obey {s : Session ω} (h : Lived s) (c : Command ω) : Lived (s.obey c)

/-- **A script that waits:** there is one in the phase `loaded` and in no other, and it is the code of the
source that was loaded last. -/
structure Waiting (s : Session ω) : Prop where
  phase : s.pending.isSome ↔ s.phase = .loaded
  source : ∀ code, s.pending = some code → ∃ (script : Script) (heap : Heap),
    Script.ofSource s.source = .ok script ∧ code = (heap.install script.compiled).1

theorem Waiting.of_none (hpending : s.pending = none) (hphase : s.phase ≠ .loaded) : s.Waiting where
  phase := by simp [hpending, hphase]
  source code hcode := by
    rw [hpending] at hcode
    cases hcode

theorem Waiting.pending_eq (h : s.Waiting) (hphase : s.phase ≠ .loaded) : s.pending = none := by
  cases hpending : s.pending with
  | none => rfl
  | some code => exact absurd (h.phase.1 (by rw [hpending]; rfl)) hphase

/-- The phase never says that a script waits where there is none. -/
theorem Waiting.not_stranded (hs : s.Waiting) (hphase : s.phase = .loaded) : s.pending ≠ none := by
  intro hpending
  have hwaits := hs.phase.2 hphase
  rw [hpending] at hwaits
  cases hwaits

/-- A command keeps the two together. -/
theorem Steps.waiting {c : Command ω} {e? : Option SessionError} (h : s.Steps c e? t)
    (hs : s.Waiting) : t.Waiting := by
  cases h with
  | refused | invalid | stranded | unevaluated | looked => exact hs
  | registered hphase _ hnext hpending _ =>
    refine .of_none (hpending.trans (hs.pending_eq ?_)) ?_
    · rw [hphase]
      nofun
    · rw [hnext]
      nofun
  | @loaded source script _ hscript =>
    refine ⟨⟨fun _ => rfl, fun _ => rfl⟩, fun code hcode => ?_⟩
    exact ⟨script, s.machine.heap, hscript, (Option.some.inj hcode).symm⟩
  | ran | failed | evaluated | evalFailed => exact .of_none rfl nofun
  | called => exact ⟨hs.phase, hs.source⟩

/-- **Every command goes one of the ways.** Only a phase that says that a script waits where there is
none could lead elsewhere. -/
theorem Steps.moves {c : Command ω} {e? : Option SessionError} (h : s.Steps c e? t)
    (hs : s.Waiting) : s.phase.Moves c e? t.phase := by
  cases h with
  | refused hphase => exact .refused hphase
  | registered hphase _ hnext =>
    rw [hphase, hnext]
    exact .registered _
  | loaded hphase => exact .loaded _ hphase
  | invalid hphase => exact .invalid _ _ hphase
  | ran hphase =>
    rw [hphase]
    exact .ran _
  | failed hphase _ he =>
    rw [hphase]
    exact .failed _ he
  | stranded hphase hpending => exact absurd hpending (hs.not_stranded hphase)
  | evaluated hphase => exact .evaluated (.loaded _ hphase) (.ran _)
  | evalFailed hphase _ he => exact .evaluated (.loaded _ hphase) (.failed _ he)
  | unevaluated hphase => exact .unevaluated _ (.invalid _ _ hphase)
  | called hphase _ he =>
    rw [hphase]
    exact .called _ _ _ he
  | looked hr he => exact .looked hr he

/-- **A refused command** stands in the wrong phase, and changes nothing. -/
theorem Steps.of_isRefusal {c : Command ω} {e : SessionError} (h : s.Steps c (some e) t)
    (hs : s.Waiting) (he : e.IsRefusal) :
    s.phase ∉ c.allowed ∧ e = s.refusal c.operation ∧ t = s := by
  have hscript : ∀ error, ¬(SessionError.invalidScript error).IsRefusal := by
    rintro error ⟨operation, phase, h⟩
    cases h
  cases h with
  | refused hphase => exact ⟨hphase, rfl, rfl⟩
  | stranded hphase hpending => exact absurd hpending (hs.not_stranded hphase)
  | invalid | unevaluated => exact absurd he (hscript _)
  | failed _ _ he' | evalFailed _ _ he' => exact absurd he he'
  | called _ _ he' | looked _ he' => exact absurd he (he' e rfl)

theorem Lived.waiting (h : s.Lived) : s.Waiting := by
  induction h with
  | new => exact .of_none rfl nofun
  | obey _ c ih => exact (steps c).waiting ih

/-- **The life cycle of a session.** -/
structure Orderly (s : Session ω) : Prop where
  /-- A script waits in the phase `loaded` and in no other, and is the one that was loaded last. -/
  waiting : s.Waiting
  /-- Commands go from phase to phase as they may. -/
  moves : ∀ c, s.phase.Moves c (s.failure? c) (s.obey c).phase
  /-- A command is refused in the wrong phases only, and then it changes nothing at all. -/
  refused : ∀ c e, s.failure? c = some e → e.IsRefusal →
    s.phase ∉ c.allowed ∧ e = s.refusal c.operation ∧ s.obey c = s
  /-- The phase `loaded` without a script is never found. -/
  notStranded : ∀ c, s.failure? c ≠ some (.invalidPhase "run" "loaded without a script")
  /-- A source that is not loaded changes nothing at all. -/
  notLoaded : ∀ source, s.failure? (.ask (.load source)) ≠ none → s.obey (.ask (.load source)) = s
  /-- A call keeps the phase, whatever comes of it. -/
  called : ∀ name args fuel, (s.obey (.ask (.call name args fuel))).phase = s.phase
  /-- A script that is loaded and run at once leaves no script waiting. -/
  evaluated : ∀ source fuel, s.phase = .registered ∨ s.phase = .executed →
    (s.obey (.ask (.eval source fuel))).phase = .registered ∨
      (s.obey (.ask (.eval source fuel))).phase = .executed

/-- **Every session lives in order,** whatever it is asked for. -/
theorem Lived.orderly (h : s.Lived) : s.Orderly where
  waiting := h.waiting
  moves c := (steps c).moves h.waiting
  refused c e he hrefusal := by
    have hsteps := steps (s := s) c
    rw [he] at hsteps
    exact hsteps.of_isRefusal h.waiting hrefusal
  notStranded c he := by
    have hsteps := steps (s := s) c
    rw [he] at hsteps
    obtain ⟨-, hname, -⟩ := hsteps.of_isRefusal h.waiting ⟨_, _, rfl⟩
    have hphase : "loaded without a script" = s.phase.name := (SessionError.invalidPhase.inj hname).2
    cases hs : s.phase <;> simp [hs, Phase.name] at hphase
  notLoaded source he := by
    have hsteps := steps (s := s) (.ask (.load source))
    generalize s.failure? (.ask (.load source)) = e? at he hsteps
    generalize s.obey (.ask (.load source)) = t at hsteps
    cases hsteps with
    | refused | invalid => rfl
    | loaded => exact absurd rfl he
    | looked => rfl
  called name args fuel := by
    have hsteps := steps (s := s) (.ask (.call name args fuel))
    generalize s.failure? (.ask (.call name args fuel)) = e? at hsteps
    generalize s.obey (.ask (.call name args fuel)) = t at hsteps ⊢
    cases hsteps <;> rfl
  evaluated source fuel hphase := by
    have hsteps := steps (s := s) (.ask (.eval source fuel))
    generalize s.failure? (.ask (.eval source fuel)) = e? at hsteps
    generalize s.obey (.ask (.eval source fuel)) = t at hsteps ⊢
    cases hsteps with
    | refused | unevaluated | looked => exact hphase
    | evaluated => exact .inr rfl
    | evalFailed => exact .inl rfl

/-- A session runs a script, loads another one, which fails, and is then asked for a call: that is refused, and
the session is as it was and lives on in order. -/
theorem failed_then_refused :
    let s := (new {} 0 : Session Nat).obey (.register Library.empty)
    let ran := s.obey (.ask (.eval "var g = \"a\"\nfn f() \x7b return g \x7d" 20))
    let loaded := ran.obey (.ask (.load "g = \"b\"\nnil.x"))
    let failed := loaded.obey (.ask (.run 20))
    (ran.phase = .executed ∧ loaded.phase = .loaded ∧ failed.phase = .registered) ∧
      loaded.failure? (.ask (.run 20)) ≠ none ∧
      failed.obey (.ask (.call "f" [] 20)) = failed ∧ failed.Orderly := by
  intro s ran loaded failed
  have hphases : ran.phase = .executed ∧ loaded.phase = .loaded ∧ failed.phase = .registered ∧
      (loaded.failure? (.ask (.run 20))).isSome = true := by decide +kernel
  obtain ⟨hran, hloaded, hfailed, hfailure⟩ := hphases
  have hlived : failed.Lived := .obey (.obey (.obey (.obey (.new {} 0) _) _) _) _
  have horderly := Lived.orderly hlived
  have hrefusal : failed.failure? (.ask (.call "f" [] 20)) = some (failed.refusal "call a function") := by
    unfold failure? call
    rw [hfailed]
    rfl
  have hrefused := horderly.refused _ _ hrefusal ⟨_, _, rfl⟩
  exact ⟨⟨hran, hloaded, hfailed⟩, Option.isSome_iff_ne_none.1 hfailure, hrefused.2.2, horderly⟩

end Session

end DeployScript
