import DeployScript.Proofs.Meaning.Behind
import DeployScript.Proofs.Session.Unfailed

/-!
# A session of scripts is their concatenation

Two scripts that are run in turns, and one whose source is that of both with a line break between, do the
same, if the first comes to its end: they print the same, leave the host and the globals alike, and come
to the same value or to an error of the same cause. The two runs share nothing but what they mean. Their
code is laid out differently, and what a machine keeps in its heap lies elsewhere; but each ends as the
evaluation of its program does, and the program of the concatenation is, up to places, that of the one
script behind that of the other.

* `Session.Alike` — sessions that a host cannot tell apart; `alike_of_mirrors` — where memories agree.
* `Session.EndAlike` — the ends of two runs; `endAlike_of_ends` — where evaluations do.
* `Session.ReturnsEarly` — a script that is left by a return outside functions.
* `Script.eval_append` — a script behind one that has been run; `Session.eval_concatenated` — the main statement.
-/

namespace DeployScript

variable {ω : Type} {β γ : Link} {m m' : Machine ω} {μ ν : Memory ω}

/-! ### What a host sees -/

namespace Session

variable {s t : Session ω}

/-- Every global as a host sees it: its name, whether it can be assigned, and a copy of its value. -/
def globals (s : Session ω) : List (String × Bool × HostValue) :=
  s.machine.globals.toList.map fun g => (g.1, g.2.isMutable, s.machine.heap.toHost g.2.value)

/-- **Sessions that a host cannot tell apart.** -/
structure Alike (s t : Session ω) : Prop where
  phase : s.phase = t.phase
  pending : s.pending = t.pending
  output : s.machine.output = t.machine.output
  world : s.machine.world = t.machine.world
  globals : s.globals = t.globals
  get : ∀ name, s.get name = t.get name
  exports : s.exports = t.exports

end Session

/-- Lists that are related entry by entry give the same when they are filtered and mapped alike. -/
theorem map_filter_eq_of_forall₂ {κ ι α : Type} {r : κ → ι → Prop} {p : κ → Bool} {q : ι → Bool} {f : κ → α}
    {g : ι → α} (hpq : ∀ a b, r a b → p a = q b) (hfg : ∀ a b, r a b → f a = g b) {l : List κ} {l' : List ι}
    (h : List.Forall₂ r l l') : (l.filter p).map f = (l'.filter q).map g := by
  induction h with
  | nil => rfl
  | @cons a b l l' hab _ ih =>
    rw [List.filter_cons, List.filter_cons, hpq a b hab]
    split
    · rw [List.map_cons, List.map_cons, hfg a b hab, ih]
    · exact ih

/-- Memories that are the same up to places differ in their functions only. -/
theorem Memory.eq_of_bare (h : μ.bare = ν.bare) :
    μ.globals = ν.globals ∧ μ.heap = ν.heap ∧ μ.output = ν.output ∧ μ.world = ν.world := by
  unfold Memory.bare at h
  obtain ⟨hglobals, hheap, -, -, -, hworld, houtput⟩ := Memory.mk.inj h
  exact ⟨hglobals, hheap, houtput, hworld⟩

/-- **The globals of a machine** that are listed for a host are those of its memory. -/
theorem Machine.Mirrors.listed (h : m.Mirrors β μ) {α : Type} (keep : String → Value → Bool)
    (hkeep : ∀ name v v', v.Similar β v' → keep name v = keep name v')
    (shape : String → Bool → HostValue → α) :
    ((m.globals.toList.filter fun g => keep g.1 g.2.value).map fun g =>
        shape g.1 g.2.isMutable (m.heap.toHost g.2.value))
      = (μ.globals.toList.filter fun g => keep g.1 g.2.value).map fun g =>
        shape g.1 g.2.isMutable (μ.heap.toHost g.2.value) := by
  refine map_filter_eq_of_forall₂ (fun a b hab => ?_) (fun a b hab => ?_) h.globals.toList
  · rw [hab.1]
    exact hkeep _ _ _ hab.2.value
  · rw [hab.1, hab.2.isMutable, h.twin.toHost hab.2.value]

theorem Machine.Mirrors.get? (h : m.Mirrors β μ) (name : String) :
    (m.global? name).map m.heap.toHost = (μ.globals[name]?.map (·.value)).map μ.heap.toHost := by
  have hglobal := h.globals name
  unfold Machine.global?
  generalize m.globals[name]? = a at hglobal
  generalize μ.globals[name]? = b at hglobal
  cases hglobal with
  | none => rfl
  | some hb => exact congrArg some (h.twin.toHost hb.value)

namespace Session

variable {s t : Session ω}

theorem get_eq (s : Session ω) (name : String) :
    s.get name = match (s.machine.global? name).map s.machine.heap.toHost with
      | none => .error (.notFound name)
      | some value => .ok value := by
  unfold get
  cases s.machine.global? name <;> rfl

/-- **Where memories agree,** sessions are alike. -/
theorem alike_of_mirrors (hs : s.machine.Mirrors β μ) (ht : t.machine.Mirrors γ ν) (h : μ.bare = ν.bare)
    (hphase : s.phase = t.phase) (hpending : s.pending = t.pending) (hbuiltins : s.builtins = t.builtins) :
    s.Alike t := by
  obtain ⟨hglobals, hheap, houtput, hworld⟩ := Memory.eq_of_bare h
  have hprovided : ∀ {δ : Link} name v v', v.Similar δ v' →
      (!s.isProvided name v) = !s.isProvided name v' := by
    intro δ name v v' hv
    cases hv <;> rfl
  refine ⟨hphase, hpending, ?output, ?world, ?globals, fun name => ?get, ?exports⟩
  case output => rw [hs.output, ht.output, houtput]
  case world => rw [hs.world, ht.world, hworld]
  case get => rw [get_eq, get_eq, hs.get?, ht.get?, hglobals, hheap]
  case globals =>
    have hlisted := hs.listed (fun _ _ => true) (fun _ _ _ _ => rfl) fun name isMutable v => (name, isMutable, v)
    have hlisted' := ht.listed (fun _ _ => true) (fun _ _ _ _ => rfl) fun name isMutable v => (name, isMutable, v)
    rw [hglobals, hheap, ← hlisted'] at hlisted
    unfold Session.globals
    simpa only [List.filter_true] using hlisted
  case exports =>
    have hlisted := hs.listed (fun name v => !s.isProvided name v) hprovided fun name _ v => (name, v)
    have hlisted' := ht.listed (fun name v => !s.isProvided name v) hprovided fun name _ v => (name, v)
    have hsame : t.isProvided = s.isProvided := by
      unfold isProvided
      rw [hbuiltins]
    rw [hglobals, hheap, ← hlisted'] at hlisted
    unfold exports
    rw [hsame]
    exact hlisted

/-- **The ends of two runs are alike:** the same value, on machines that stand for one memory, so that the
functions in it do the same; or errors of one cause. -/
inductive EndAlike : Except SessionError HostValue × Session ω → Except SessionError HostValue × Session ω →
    Prop
  | value {s t : Session ω} (v : HostValue) (h : s.Alike t)
    (hm : ∃ β γ μ ν, s.machine.Models β (fun _ => .value) μ ∧ t.machine.Models γ (fun _ => .value) ν ∧
      μ.bare = ν.bare) : EndAlike (.ok v, s) (.ok v, t)
  | error {s t : Session ω} {e e' : ScriptError} (h : s.Alike t) (he : e.cause = e'.cause) :
    EndAlike (.error (.failedScript e), s) (.error (.failedScript e'), t)

/-- **Where evaluations agree,** runs end alike. -/
theorem endAlike_of_ends {source source' : String} {last last' : Finish × Machine ω} {r r' : Result ω Value}
    (h : Ends last r) (h' : Ends last' r') (hr : r.bare = r'.bare) (hbuiltins : s.builtins = t.builtins) :
    EndAlike (s.ended source last) (t.ended source' last') := by
  cases h with
  | @value β w v m μ hv _ hm =>
    cases h' with
    | @value γ w' v' m' ν hv' _ hm' =>
      obtain ⟨rfl, hbare⟩ : v = v' ∧ μ.bare = ν.bare := by
        unfold Result.bare at hr
        exact ⟨(Result.ok.inj hr).1, (Result.ok.inj hr).2⟩
      have hhost : m.heap.toHost w = m'.heap.toHost w' := by
        rw [hm.twin.toHost hv, hm'.twin.toHost hv', (Memory.eq_of_bare hbare).2.1]
      unfold ended Session.result
      dsimp only
      rw [hhost]
      exact .value _ (alike_of_mirrors hm.toMirrors hm'.toMirrors hbare rfl rfl hbuiltins)
        ⟨β, γ, μ, ν, hm, hm', hbare⟩
    | error => cases hr
  | @error β e m μ hm =>
    cases h' with
    | value => cases hr
    | @error γ e' m' ν hm' =>
      obtain ⟨hcause, hbare⟩ : e.cause = e'.cause ∧ μ.bare = ν.bare := by
        unfold Result.bare at hr
        exact ⟨(Result.error.inj hr).1, (Result.error.inj hr).2⟩
      refine .error (alike_of_mirrors hm hm' hbare rfl rfl hbuiltins) ?_
      rw [cause_withSource, cause_withSource, hcause]

end Session

/-! ### One script behind another -/

/-- An evaluation that a run ends with has an end. -/
theorem Ends.ne_unfinished {last : Finish × Machine ω} {r : Result ω Value} (h : Ends last r) :
    r ≠ .unfinished ∧ last.1 ≠ .unfinished := by
  cases h <;> exact ⟨nofun, nofun⟩

theorem Result.bare_ne_unfinished {α : Type} {r r' : Result ω α} (h : r.bare = r'.bare)
    (hr : r ≠ .unfinished) : r' ≠ .unfinished := by
  rintro rfl
  cases r with
  | ok | error => cases h
  | unfinished => exact hr rfl

/-- **A script behind one that has been run** means what the concatenation of the two means. -/
theorem Script.eval_append {a b : String} {sa sb sab : Script} (ha : Script.ofSource a = .ok sa)
    (hb : Script.ofSource b = .ok sb) (hab : Script.ofSource (a ++ "\n" ++ b) = .ok sab)
    (hne : sb.program.statements ≠ []) (hi : m.Idle) (hm : m.Models β (fun _ => .value) μ) {k fuel : Nat}
    (hk : k ≤ fuel) {w : Value} (hrun : m.runCompiled sa.compiled k = (.value w, m'))
    (hreturn : ∀ v μ', Stmt.evalAll (Eval.apply fuel 1 scriptName) fuel sa.program.statements false [] μ
      ≠ .ok (.return_ v) μ') :
    m'.Idle ∧ ∃ γ ν, m'.Models γ (fun _ => .value) ν ∧
      (sab.program.eval fuel μ).bare = (sb.program.eval fuel ν).bare := by
  have hends := (Script.means ha hi hm).2 k fuel hk (by rw [hrun]; exact nofun)
  rw [hrun] at hends
  obtain ⟨hpa, hca⟩ := Script.of_ofSource ha
  obtain ⟨hregular, hnames⟩ := Program.spelled_ofSource hpa
  obtain ⟨p, hp, hbare⟩ := Program.ofSource_append hpa (Script.of_ofSource hb).1
  obtain rfl : sab.program = p := Except.ok.inj ((Script.of_ofSource hab).1.symm.trans hp)
  generalize heval : sa.program.eval fuel μ = r at hends
  cases hends with
  | @value γ _ v _ ν hv hi' hm' =>
    -- The value of the first script is dropped: behind its last statement the second one starts.
    have hthrough := Program.ends_of_eval hi hm hregular hnames hca heval hreturn
    refine ⟨hi', γ, ν, hm', ?_⟩
    rw [← Program.eval_append hne hthrough]
    exact Program.eval_eq_of_bare hbare fuel μ

/-! ### The main statement -/

namespace Session

variable {s t : Session ω}

/-- **A script executes a return outside functions,** as evaluation has it, where it is run. -/
def ReturnsEarly (s : Session ω) (script : Script) : Prop :=
  ∃ β μ fuel v μ', s.machine.Models β (fun _ => .value) μ ∧
    Stmt.evalAll (Eval.apply fuel 1 scriptName) fuel script.program.statements false [] μ
      = .ok (.return_ v) μ'

/-- A script without a return outside functions does not execute one. -/
theorem not_returnsEarly {script : Script} (h : Stmt.returnsAny script.program.statements = false) :
    ¬s.ReturnsEarly script := by
  rintro ⟨β, μ, fuel, v, μ', -, heval⟩
  exact Stmt.not_return_of_evalAll _ h heval v rfl

theorem ended_unfinished {source : String} {last : Finish × Machine ω} :
    (s.ended source last).1 = .error .unfinished ↔ last.1 = .unfinished := by
  obtain ⟨finish, m⟩ := last
  cases finish <;> simp [ended, Session.result]

/-- **A session of scripts is their concatenation.** In a session in which nothing has failed, let one script
come to its end without a return outside functions. Then another script behind it ends if and only if the
concatenation of the two does in the place of both, and alike. -/
theorem eval_concatenated {a b : String} {sa sb sab : Script} {k : Nat} {v : HostValue} (hs : s.Unfailed)
    (hphase : s.phase = .registered ∨ s.phase = .executed) (ha : Script.ofSource a = .ok sa)
    (hb : Script.ofSource b = .ok sb) (hab : Script.ofSource (a ++ "\n" ++ b) = .ok sab)
    (hne : sb.program.statements ≠ []) (hrun : s.eval a k = (.ok v, t)) (hreturn : ¬s.ReturnsEarly sa) :
    ((∃ j, (t.eval b j).1 ≠ .error .unfinished) ↔
        ∃ i, (s.eval (a ++ "\n" ++ b) i).1 ≠ .error .unfinished) ∧
      ∀ i j, (t.eval b j).1 ≠ .error .unfinished → (s.eval (a ++ "\n" ++ b) i).1 ≠ .error .unfinished →
        EndAlike (t.eval b j) (s.eval (a ++ "\n" ++ b) i) := by
  obtain ⟨hi, β, μ, hm, -⟩ := hs.stands hphase
  rw [eval_eq hphase ha] at hrun
  obtain ⟨w, m, hlast⟩ : ∃ w m, s.machine.runCompiled sa.compiled k = (.value w, m) :=
    value_of_ended fun e he => by
      rw [hrun] at he
      cases he
  rw [hlast] at hrun
  obtain ⟨-, rfl⟩ := Prod.mk.inj hrun
  -- Behind the first script there is a memory that the second one and the concatenation both go on from,
  -- with any fuel that is enough for the first.
  have hagree := fun fuel (hk : k ≤ fuel) => Script.eval_append ha hb hab hne hi hm hk hlast
    fun v μ' heval => hreturn ⟨β, μ, fuel, v, μ', hm, heval⟩
  refine ⟨⟨?ifBoth, ?ifOne⟩, fun i j hj hij => ?alike⟩
  case ifBoth =>
    rintro ⟨j, hj⟩
    obtain ⟨hi', γ, ν, hm', hbare⟩ := hagree (max j k) (le_max_right j k)
    rw [eval_eq (.inr rfl) hb, ne_eq, ended_unfinished] at hj
    have hends := (Script.means hb hi' hm').2 j (max j k) (le_max_left j k) hj
    obtain ⟨n, hn⟩ := (Script.means hab hi hm).1 _ (Result.bare_ne_unfinished hbare.symm hends.ne_unfinished.1)
    refine ⟨n, ?_⟩
    rw [eval_eq hphase hab, ne_eq, ended_unfinished]
    exact (hn n (le_refl n)).ne_unfinished.2
  case ifOne =>
    rintro ⟨i, hij⟩
    obtain ⟨hi', γ, ν, hm', hbare⟩ := hagree (max i k) (le_max_right i k)
    rw [eval_eq hphase hab, ne_eq, ended_unfinished] at hij
    have hends := (Script.means hab hi hm).2 i (max i k) (le_max_left i k) hij
    obtain ⟨n, hn⟩ := (Script.means hb hi' hm').1 _ (Result.bare_ne_unfinished hbare hends.ne_unfinished.1)
    refine ⟨n, ?_⟩
    rw [eval_eq (.inr rfl) hb, ne_eq, ended_unfinished]
    exact (hn n (le_refl n)).ne_unfinished.2
  case alike =>
    obtain ⟨hi', γ, ν, hm', hbare⟩ := hagree (max (max i j) k) (le_max_right _ _)
    rw [eval_eq (.inr rfl) hb] at hj ⊢
    rw [eval_eq hphase hab] at hij ⊢
    rw [ne_eq, ended_unfinished] at hj hij
    -- One fuel for both evaluations; the runs themselves may have had less.
    have hboth := (Script.means hb hi' hm').2 j (max (max i j) k) (by omega) hj
    have hone := (Script.means hab hi hm).2 i (max (max i j) k) (by omega) hij
    exact endAlike_of_ends hboth hone hbare.symm rfl

/-- A session at its beginning, without builtins. -/
def bare : Session Unit := (new {} ()).obey (.register Library.empty)

theorem unfailed_bare : bare.Unfailed := by
  unfold bare
  refine .obey (.new {} ()) (.register Library.empty) fun e he => ?_
  cases he

set_option maxRecDepth 10000 in
/-- What two scripts come to, of which the second one uses a global of the first one, in turns and as one. -/
theorem bare_runs :
    ((Script.ofSource "let a=\"x\"\nprint(a)").toOption.map fun script =>
        Stmt.returnsAny script.program.statements) = some false ∧
      ((Script.ofSource "a+a").toOption.map fun script => script.program.statements.isEmpty) = some false ∧
      (Script.ofSource "let a=\"x\"\nprint(a)\na+a").toOption.isSome = true ∧
      (bare.eval "let a=\"x\"\nprint(a)" 99).1.toOption.isSome = true ∧
      ((bare.eval "let a=\"x\"\nprint(a)" 99).2.eval "a+a" 99).1.toOption.isSome = true ∧
      (bare.eval "let a=\"x\"\nprint(a)\na+a" 99).1.toOption.isSome = true := by
  decide +kernel

/-- A script behind another that declares what it uses. -/
theorem prints_concatenated : ∃ v t, bare.eval "let a=\"x\"\nprint(a)" 99 = (.ok v, t) ∧
    EndAlike (t.eval "a+a" 99) (bare.eval "let a=\"x\"\nprint(a)\na+a" 99) := by
  obtain ⟨hreturns, hempty, hboth, hvalue, hbehind, hone⟩ := bare_runs
  obtain ⟨sa, ha, hreturns⟩ := Option.map_eq_some_iff.1 hreturns
  obtain ⟨sb, hb, hempty⟩ := Option.map_eq_some_iff.1 hempty
  obtain ⟨sab, hab⟩ := Option.isSome_iff_exists.1 hboth
  obtain ⟨v, hv⟩ := Option.isSome_iff_exists.1 hvalue
  have hended {r : Except SessionError HostValue} (hr : r.toOption.isSome = true) :
      r ≠ .error .unfinished := by
    rintro rfl
    cases hr
  have hvalue := eq_ok_of_toOption hv
  generalize hrun : bare.eval "let a=\"x\"\nprint(a)" 99 = r at hvalue hbehind ⊢
  obtain ⟨_, t⟩ := r
  obtain rfl := hvalue
  refine ⟨v, t, rfl, ?_⟩
  exact (eval_concatenated unfailed_bare (.inl rfl) (eq_ok_of_toOption ha) (eq_ok_of_toOption hb) (eq_ok_of_toOption hab)
    (by simpa using hempty) hrun (not_returnsEarly hreturns)).2 99 99 (hended hbehind) (hended hone)

end Session

end DeployScript
