import DeployScript.Proofs.Meaning.Placeless
import DeployScript.Proofs.Meaning.Scripts
import DeployScript.Proofs.Program.Continued

/-!
# One script behind another

The statements of two scripts, put behind one another, do what the scripts do in turns, if the first
comes to its end. For outside all blocks there are no variables but globals: nothing is in scope where
the second script starts that would not be there at the beginning.

* `Stmt.next_of_eval` — outside all blocks nothing comes into scope.
* `Stmt.evalAll_append`, `Program.eval_append` — statements behind others, scripts behind others.
* `Program.flow_of_statements`, `Program.ends_of_eval` — how a script is left.
* `Stmt.returns`, `Stmt.not_return_of_eval` — scripts that do not return.
-/

namespace DeployScript

open Compile

variable {ω : Type} {β : Link} {m : Machine ω} {μ μ' : Memory ω} {call : Calling ω} {rounds : Nat}
  {env env' : Env} {v : Value} {p q : Program} {c : Compiled}

/-! ### Evaluations that come to a result -/

/-- What an evaluation with a result has gone through. -/
theorem Eval.bind_eq_ok {α ι : Type} {x : Eval ω α} {f : α → Eval ω ι} {b : ι} :
    (x >>= f) μ = .ok b μ' ↔ ∃ a μ₁, x μ = .ok a μ₁ ∧ f a μ₁ = .ok b μ' := by
  change Eval.andThen x f μ = _ ↔ _
  unfold Eval.andThen
  cases x μ with
  | ok a μ₁ => simp
  | error cause μ₁ => simp
  | unfinished => simp

theorem Eval.pure_eq_ok {α : Type} {a b : α} :
    (pure a : Eval ω α) μ = .ok b μ' ↔ a = b ∧ μ = μ' := by
  change Result.ok a μ = .ok b μ' ↔ _
  simp

/-! ### Outside all blocks -/

/-- Where a loop or a branch is left at its end, what is in scope is what was. -/
theorem Flow.leave_next {flow : Flow} (h : flow.leave env = .next env') : env' = env := by
  cases flow <;> cases h
  rfl

theorem Eval.repeating_next {test : Eval ω Value} {body : Eval ω Flow}
    (h : Eval.repeating env test body rounds μ = .ok (.next env') μ') : env' = env := by
  induction rounds generalizing μ with
  | zero => cases h
  | succ rounds ih =>
    rw [Eval.repeating, Eval.bind_eq_ok] at h
    obtain ⟨v, μ₁, -, h⟩ := h
    split at h
    · obtain ⟨flow, μ₂, -, h⟩ := Eval.bind_eq_ok.1 h
      cases flow with
      | next | continue_ => exact ih h
      | break_ =>
        cases h
        rfl
      | return_ => cases h
    · cases h
      rfl

/-- **No variable comes into scope** outside all blocks. -/
theorem Stmt.next_of_eval {p : Stmt} (h : p.eval call rounds false env μ = .ok (.next env') μ') :
    env' = env := by
  have hleave : ∀ {x : Eval ω Flow} {μ : Memory ω},
      (x >>= fun flow => pure (flow.leave env)) μ = .ok (.next env') μ' → env' = env := by
    intro x μ h
    obtain ⟨flow, μ₁, -, h⟩ := Eval.bind_eq_ok.1 h
    exact Flow.leave_next (Eval.pure_eq_ok.1 h).1
  cases p with
  | expr value =>
    obtain ⟨v, μ₁, -, h⟩ := Eval.bind_eq_ok.1 h
    cases h
    rfl
  | var name value span | let_ name value span =>
    obtain ⟨v, μ₁, -, h⟩ := Eval.bind_eq_ok.1 h
    obtain ⟨env₁, μ₂, hdeclare, h⟩ := Eval.bind_eq_ok.1 h
    cases h
    obtain ⟨_, _, -, hdeclare⟩ := Eval.bind_eq_ok.1 hdeclare
    cases hdeclare
    rfl
  | block body span => exact hleave h
  | if_ condition body orElse span =>
    cases orElse with
    | none =>
      obtain ⟨c, μ₁, -, h⟩ := Eval.bind_eq_ok.1 h
      split at h
      · exact hleave h
      · cases h
        rfl
    | some orElse =>
      obtain ⟨c, μ₁, -, h⟩ := Eval.bind_eq_ok.1 h
      split at h <;> exact hleave h
  | while_ condition body span => exact Eval.repeating_next h
  | for_ name iterable body span =>
    obtain ⟨_, _, -, h⟩ := Eval.bind_eq_ok.1 h
    obtain ⟨_, _, -, h⟩ := Eval.bind_eq_ok.1 h
    exact Eval.repeating_next h
  | function name params body span =>
    obtain ⟨_, _, -, h⟩ := Eval.bind_eq_ok.1 h
    obtain ⟨_, _, -, h⟩ := Eval.bind_eq_ok.1 h
    cases h
    rfl
  | return_ value span =>
    obtain ⟨_, _, -, h⟩ := Eval.bind_eq_ok.1 h
    cases h
  | break_ span => cases h
  | continue_ span => cases h

@[inherit_doc Stmt.next_of_eval]
theorem Stmt.next_of_evalAll {ps : List Stmt}
    (h : Stmt.evalAll call rounds ps false env μ = .ok (.next env') μ') : env' = env := by
  induction ps generalizing env μ with
  | nil =>
    cases h
    rfl
  | cons p ps ih =>
    obtain ⟨flow, μ₁, hp, hps⟩ := Eval.bind_eq_ok.1 h
    cases flow with
    | next env₁ => exact (ih hps).trans (Stmt.next_of_eval hp)
    | break_ | continue_ | return_ => cases hps

/-! ### One behind another -/

/-- A failure, or no end, comes before anything else. -/
theorem Eval.bind_congr {α ι : Type} {x : Eval ω α} {f g : α → Eval ω ι} (h : ∀ a μ, f a μ = g a μ) :
    (x >>= f) μ = (x >>= g) μ := by
  rw [show f = g from funext fun a => funext fun μ => h a μ]

theorem Eval.bind_bind {α ι κ : Type} (x : Eval ω α) (f : α → Eval ω ι) (g : ι → Eval ω κ) :
    ((x >>= f) >>= g) μ = (x >>= fun a => f a >>= g) μ := by
  change Eval.andThen (Eval.andThen x f) g μ = Eval.andThen x (fun a => Eval.andThen (f a) g) μ
  unfold Eval.andThen
  cases x μ <;> rfl

/-- What follows statements that come to their end. -/
def Flow.andNext (f : Env → Eval ω Flow) : Flow → Eval ω Flow
  | .next env => f env
  | flow => pure flow

/-- **Statements behind others** are executed where the others come to their end. -/
theorem Stmt.evalAll_append (ps qs : List Stmt) (inBlock : Bool) (env : Env) (μ : Memory ω) :
    Stmt.evalAll call rounds (ps ++ qs) inBlock env μ = (Stmt.evalAll call rounds ps inBlock env >>=
      Flow.andNext fun env => Stmt.evalAll call rounds qs inBlock env) μ := by
  induction ps generalizing env μ with
  | nil => rfl
  | cons p ps ih =>
    rw [List.cons_append, Stmt.evalAll, Stmt.evalAll, Eval.bind_bind]
    refine Eval.bind_congr fun flow μ₁ => ?_
    cases flow with
    | next env₁ => exact ih env₁ μ₁
    | break_ | continue_ | return_ => rfl

/-- The value of a script is what its last statement comes to. -/
theorem Stmt.evalAll_splitLast (ps : List Stmt) (inBlock : Bool) (env : Env) (μ : Memory ω) :
    Stmt.evalAll call rounds ps inBlock env μ = (Stmt.evalAll call rounds (splitLast ps).1 inBlock env >>=
      Flow.andNext fun env => Expr.evalOrNil call (splitLast ps).2 env >>= fun _ => pure (.next env)) μ := by
  induction ps using splitLast.induct generalizing env μ with
  | case1 => rfl
  | case2 value =>
    rw [Stmt.evalAll, Stmt.eval, Eval.bind_bind]
    rfl
  | case3 p ps hlast ih =>
    rw [splitLast]
    · rw [Stmt.evalAll, Stmt.evalAll, Eval.bind_bind]
      refine Eval.bind_congr fun flow μ₁ => ?_
      cases flow with
      | next env₁ => exact ih env₁ μ₁
      | break_ | continue_ | return_ => rfl
    · exact hlast

theorem Compile.splitLast_append (ps : List Stmt) {qs : List Stmt} (hqs : qs ≠ []) :
    splitLast (ps ++ qs) = (ps ++ (splitLast qs).1, (splitLast qs).2) := by
  induction ps with
  | nil => rfl
  | cons p ps ih =>
    rw [List.cons_append, splitLast, ih]
    · rfl
    · rintro value - hnil
      exact hqs (List.append_eq_nil_iff.1 hnil).2

/-- **A script behind another** that comes to its end. -/
theorem Program.eval_append {fuel : Nat} (hq : q.statements ≠ [])
    (hp : Stmt.evalAll (Eval.apply fuel 1 scriptName) fuel p.statements false [] μ = .ok (.next []) μ') :
    ({ statements := p.statements ++ q.statements } : Program).eval fuel μ = q.eval fuel μ' := by
  have hfirst : Stmt.evalAll (Eval.apply fuel 1 scriptName) fuel
      (p.statements ++ (splitLast q.statements).1) false [] μ
        = Stmt.evalAll (Eval.apply fuel 1 scriptName) fuel (splitLast q.statements).1 false [] μ' := by
    rw [Stmt.evalAll_append, Eval.ok_bind hp]
    rfl
  unfold Program.eval
  dsimp only
  rw [splitLast_append _ hq]
  change Eval.andThen _ _ μ = Eval.andThen _ _ μ'
  unfold Eval.andThen
  rw [hfirst]

/-! ### How a script is left -/

/-- **A script is left** at its end or by a return. -/
theorem Program.flow_of_statements (hi : m.Idle) (hm : m.Models β (fun _ => .value) μ)
    (hregular : Stmt.AllRegular p.statements) (hnames : Stmt.AllNames (· ≠ "") p.statements)
    (hc : Compiled.ofProgram p = .ok c) {fuel : Nat} {flow : Flow}
    (h : Stmt.evalAll (Eval.apply fuel 1 scriptName) fuel (splitLast p.statements).1 false [] μ
      = .ok flow μ') : flow = .next [] ∨ ∃ v, flow = .return_ v := by
  obtain ⟨body, value, hbody, hvalue, hreads⟩ := Compiled.translates_ofProgram hregular hc
  obtain ⟨hnames', -⟩ := splitLast_names hnames
  obtain ⟨S, φ, -, hcallers, -, hname, htables, hchunk, hrests⟩ := hi.starts hm c
  have hr := hi.start (Compiled.sound_ofProgram hregular hc)
  have hat : S.Has 0 (body ++ (value ++ [(⟨.return_, ()⟩, 0)])) := by
    unfold Site.Has
    rw [hchunk]
    exact (hreads.mapConstants _).has
  have hcalls : S.Calls fuel (Eval.apply (ω := ω) fuel (S.callers.length + 1) S.name) := Site.calls fuel S
  rw [hcallers, hname] at hcalls
  have hdone := Stmt.doesAll hcalls (Nat.le_refl fuel) _ hnames' (splitLast_regular hregular)
    (htables ▸ hbody) hat.left (fun l hl => by cases hl) β φ _ μ hr hrests
  cases flow with
  | return_ v => exact .inr ⟨v, rfl⟩
  | next env => exact .inl (congrArg Flow.next (Stmt.next_of_evalAll h))
  | break_ | continue_ =>
    -- Outside all loops there is nothing to jump to.
    have hnot : ∀ {m' : Machine ω} {r : Result ω Flow} {Q : Flow → Memory ω → Machine ω → Prop},
        Follows fuel m' Q r → ∀ flow, r = .ok flow μ' → ∃ m'', Q flow μ' m'' := by
      intro m' r Q hfollows flow hflow
      cases hfollows with
      | ok hruns hq =>
        cases hflow
        exact ⟨_, hq⟩
      | error | unfinished => cases hflow
    obtain ⟨m', l, hl, -⟩ := hnot hdone _ h
    cases hl

/-- **A script that succeeds** and executes no return outside functions comes to its end. -/
theorem Program.ends_of_eval (hi : m.Idle) (hm : m.Models β (fun _ => .value) μ)
    (hregular : Stmt.AllRegular p.statements) (hnames : Stmt.AllNames (· ≠ "") p.statements)
    (hc : Compiled.ofProgram p = .ok c) {fuel : Nat} (h : p.eval fuel μ = .ok v μ')
    (hreturn : ∀ v μ', Stmt.evalAll (Eval.apply fuel 1 scriptName) fuel p.statements false [] μ
      ≠ .ok (.return_ v) μ') :
    Stmt.evalAll (Eval.apply fuel 1 scriptName) fuel p.statements false [] μ = .ok (.next []) μ' := by
  obtain ⟨flow, μ₁, hflow, hvalue⟩ := Eval.bind_eq_ok.1 h
  -- The script says what its statements up to the last one come to, and that is no return.
  rw [Stmt.evalAll_splitLast, Eval.ok_bind hflow] at hreturn ⊢
  obtain rfl | ⟨w, rfl⟩ := Program.flow_of_statements hi hm hregular hnames hc hflow
  · exact Eval.ok_bind hvalue _
  · exact absurd rfl (hreturn w μ₁)

/-! ### Returns -/

mutual

/-- Whether there is a return in a statement, functions aside. -/
def Stmt.returns : Stmt → Bool
  | .return_ _ _ => true
  | .block body _ | .if_ _ body none _ | .while_ _ body _ | .for_ _ _ body _ => Stmt.returnsAny body
  | .if_ _ body (some orElse) _ => Stmt.returnsAny body || orElse.returns
  | .expr _ | .var _ _ _ | .let_ _ _ _ | .function _ _ _ _ | .break_ _ | .continue_ _ => false

@[inherit_doc Stmt.returns]
def Stmt.returnsAny : List Stmt → Bool
  | [] => false
  | p :: ps => p.returns || Stmt.returnsAny ps

end

/-- A flow that is no return. -/
def Flow.Stays (flow : Flow) : Prop := ∀ v, flow ≠ .return_ v

theorem Flow.stays_next (env : Env) : (Flow.next env).Stays := by
  intro v h
  cases h

theorem Eval.stays_leave {x : Eval ω Flow} {flow : Flow} (h : ∀ μ flow μ', x μ = .ok flow μ' → flow.Stays)
    (heval : (x >>= fun flow => pure (flow.leave env)) μ = .ok flow μ') : flow.Stays := by
  obtain ⟨flow₁, μ₁, hx, hpure⟩ := Eval.bind_eq_ok.1 heval
  cases hpure
  cases flow₁ with
  | return_ v => exact absurd rfl (h _ _ _ hx v)
  | next | break_ | continue_ => exact nofun

theorem Eval.stays_repeating {test : Eval ω Value} {body : Eval ω Flow} {flow : Flow}
    (h : ∀ μ flow μ', body μ = .ok flow μ' → flow.Stays)
    (heval : Eval.repeating env test body rounds μ = .ok flow μ') : flow.Stays := by
  induction rounds generalizing μ with
  | zero => cases heval
  | succ rounds ih =>
    rw [Eval.repeating] at heval
    obtain ⟨v, μ₁, -, heval⟩ := Eval.bind_eq_ok.1 heval
    split at heval
    · obtain ⟨flow₁, μ₂, hbody, heval⟩ := Eval.bind_eq_ok.1 heval
      cases flow₁ with
      | next | continue_ => exact ih heval
      | break_ =>
        cases heval
        exact Flow.stays_next _
      | return_ v => exact absurd rfl (h _ _ _ hbody v)
    · cases heval
      exact Flow.stays_next _

mutual

/-- **A statement without a return** is not left by one. -/
theorem Stmt.not_return_of_eval : (p : Stmt) → p.returns = false → ∀ {inBlock env μ μ'} {flow : Flow},
    p.eval (ω := ω) call rounds inBlock env μ = .ok flow μ' → flow.Stays
  | .expr value, _, inBlock, env, μ, μ', flow, h => by
    obtain ⟨_, _, -, h⟩ := Eval.bind_eq_ok.1 h
    cases h
    exact nofun
  | .var _ _ _, _, inBlock, env, μ, μ', flow, h | .let_ _ _ _, _, inBlock, env, μ, μ', flow, h => by
    obtain ⟨_, _, -, h⟩ := Eval.bind_eq_ok.1 h
    obtain ⟨_, _, -, h⟩ := Eval.bind_eq_ok.1 h
    cases h
    exact nofun
  | .block body _, hno, _, _, _, _, _, h =>
    Eval.stays_leave (fun _ _ _ => Stmt.not_return_of_evalAll body hno) h
  | .if_ condition body none _, hno, _, _, _, _, _, h => by
    obtain ⟨_, _, -, h⟩ := Eval.bind_eq_ok.1 h
    split at h
    · exact Eval.stays_leave (fun _ _ _ => Stmt.not_return_of_evalAll body hno) h
    · cases h
      exact nofun
  | .if_ condition body (some orElse) _, hno, _, _, _, _, _, h => by
    obtain ⟨hbody, helse⟩ := Bool.or_eq_false_iff.1 hno
    obtain ⟨_, _, -, h⟩ := Eval.bind_eq_ok.1 h
    split at h
    · exact Eval.stays_leave (fun _ _ _ => Stmt.not_return_of_evalAll body hbody) h
    · exact Eval.stays_leave (fun _ _ _ => Stmt.not_return_of_eval orElse helse) h
  | .while_ condition body _, hno, _, _, _, _, _, h =>
    Eval.stays_repeating (fun _ _ _ => Stmt.not_return_of_evalAll body hno) h
  | .for_ _ _ body _, hno, _, _, _, _, _, h => by
    obtain ⟨_, _, -, h⟩ := Eval.bind_eq_ok.1 h
    obtain ⟨_, _, -, h⟩ := Eval.bind_eq_ok.1 h
    refine Eval.stays_repeating (fun _ _ _ hround => ?_) h
    obtain ⟨_, _, -, hround⟩ := Eval.bind_eq_ok.1 hround
    exact Stmt.not_return_of_evalAll body hno hround
  | .function _ _ _ _, _, inBlock, _, _, _, _, h => by
    cases inBlock with
    | true =>
      obtain ⟨_, _, -, h⟩ := Eval.bind_eq_ok.1 h
      obtain ⟨_, _, -, h⟩ := Eval.bind_eq_ok.1 h
      obtain ⟨_, _, -, h⟩ := Eval.bind_eq_ok.1 h
      cases h
      exact nofun
    | false =>
      obtain ⟨_, _, -, h⟩ := Eval.bind_eq_ok.1 h
      obtain ⟨_, _, -, h⟩ := Eval.bind_eq_ok.1 h
      cases h
      exact nofun
  | .return_ _ _, hno, _, _, _, _, _, _ => by cases hno
  | .break_ _, _, _, _, _, _, _, h | .continue_ _, _, _, _, _, _, _, h => by
    cases h
    exact nofun

@[inherit_doc Stmt.not_return_of_eval]
theorem Stmt.not_return_of_evalAll : (ps : List Stmt) → Stmt.returnsAny ps = false →
    ∀ {inBlock env μ μ'} {flow : Flow},
    Stmt.evalAll (ω := ω) call rounds ps inBlock env μ = .ok flow μ' → flow.Stays
  | [], _, _, _, _, _, _, h => by
    cases h
    exact nofun
  | p :: ps, hno, _, _, _, _, _, h => by
    obtain ⟨hp, hps⟩ := Bool.or_eq_false_iff.1 hno
    obtain ⟨flow₁, _, hfirst, h⟩ := Eval.bind_eq_ok.1 h
    cases flow₁ with
    | next => exact Stmt.not_return_of_evalAll ps hps h
    | break_ | continue_ =>
      cases h
      exact nofun
    | return_ v => exact absurd rfl (Stmt.not_return_of_eval p hp hfirst v)

end

end DeployScript
