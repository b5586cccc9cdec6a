import Mathlib
import DeployScript.Proofs.Code.Congruence

/-!
# Why a program is not compiled

The compilation fails for four reasons: a limit is exceeded, a binding that is immutable is assigned,
and `break` or `continue` stand outside all loops. No other failure comes from what steps are put
together from, and so none comes from a program.
-/

namespace DeployScript

namespace Compile

/-- A step fails only for one of the reasons. -/
def Refuses {α : Type} (x : Step α) : Prop := ∀ s e, x s = .error e → Refusal e

section Steps

variable {α β : Type} {x : Step α}

theorem refuses_pure (a : α) : Refuses (pure a) := nofun

theorem Refuses.bind {f : α → Step β} (hx : Refuses x) (hf : ∀ a, Refuses (f a)) :
    Refuses (x >>= f) := by
  intro s e h
  have hbind : (x >>= f) s = (x s).bind fun r => f r.1 r.2 := rfl
  rw [hbind] at h
  cases hstep : x s with
  | error e' =>
    rw [hstep] at h
    cases h
    exact hx s e hstep
  | ok r =>
    rw [hstep] at h
    exact hf r.1 r.2 e h

theorem refuses_throw {e : ScriptError} (he : Refusal e) : Refuses (throw e : Step α) := by
  intro s e' h
  cases h
  exact he

theorem refuses_addConstant (literal : Literal) (line : Nat) : Refuses (addConstant literal line) := by
  have hwide : ∀ n, Refuses (wide n .constantPool line) := by
    intro n
    unfold wide
    split
    · exact refuses_pure _
    · exact refuses_throw (.limit _ _)
  have hscope : Refuses scope := nofun
  have hpush : Refuses (modifyScope fun c => { c with constants := c.constants.push literal }) := nofun
  exact hscope.bind fun _ => (hwide _).bind fun _ => hpush.bind fun _ => refuses_pure _

end Steps

/-! ### Variables -/

theorem refusal_addCapture {c : Scope} {capture : Capture} {line : Nat} {e : ScriptError}
    (h : c.addCapture capture line = .error e) : Refusal e := by
  unfold Scope.addCapture at h
  split at h
  · cases h
  · split at h
    · cases h
    · cases h
      exact .limit _ _

/-- Looking for a variable further out fails for a limit. -/
theorem refusal_resolveCapture {name : String} {line : Nat} {c : Scope} {enclosing : List Scope}
    {e : ScriptError} (h : Scope.resolveCapture name line c enclosing = .error e) : Refusal e := by
  induction enclosing generalizing c with
  | nil => cases h
  | cons parent outer ih =>
    rw [Scope.resolveCapture] at h
    split at h
    case h_1 slot l _ =>
      split at h
      case isTrue =>
        simp only [bind, Except.bind] at h
        split at h
        case h_1 e' hadd =>
          cases h
          exact refusal_addCapture hadd
        case h_2 => cases h
      case isFalse =>
        cases h
        exact .limit _ _
    case h_2 =>
      simp only [bind, Except.bind] at h
      split at h
      case h_1 e' hr =>
        cases h
        exact ih hr
      case h_2 r _ =>
        cases r with
        | none => cases h
        | some r =>
          simp only at h
          split at h
          case h_1 e' hadd =>
            cases h
            exact refusal_addCapture hadd
          case h_2 => cases h

theorem refuses_resolve (name : String) (line : Nat) : Refuses (resolve name line) := by
  have hget : Refuses (get : Step State) := nofun
  have hset : ∀ s : State, Refuses (set s : Step Unit) := fun _ => nofun
  refine hget.bind fun s => ?_
  split
  · exact refuses_pure _
  · refine Refuses.bind (fun s' e h => ?_) fun found => ?_
    · cases hr : Scope.resolveCapture name line s.current s.enclosing with
      | error e' =>
        rw [hr] at h
        cases h
        exact refusal_resolveCapture hr
      | ok r =>
        rw [hr] at h
        cases h
    · split
      · exact refuses_pure _
      · exact (hset _).bind fun _ => refuses_pure _

/-! ### Functions -/

theorem refuses_function (name : String) (params : List String) {body : Step Block} (line : Nat)
    (hfew : params.length ≤ maxParams) (hbody : Refuses body) : Refuses (function name params body line) := by
  have hget : Refuses (get : Step State) := nofun
  have hset : ∀ s : State, Refuses (set s : Step Unit) := fun _ => nofun
  have hmodify : ∀ f : State → State, Refuses (modify f) := fun _ => nofun
  have hemit : ∀ (i : Instr) (line : Nat), Refuses (emit i line) := fun _ _ => nofun
  unfold function
  rw [if_neg (Nat.not_lt.2 hfew)]
  exact (hmodify _).bind fun _ => hbody.bind fun _ => (hemit _ _).bind fun _ =>
    (hemit _ _).bind fun _ => hget.bind fun _ => (hset _).bind fun _ =>
      (refuses_addConstant _ _).bind fun _ => hemit _ _

/-- **Failing for one of the reasons only** is closed under what steps are put together from. -/
def refusing : Congruence (Array (Prototype Literal)) (Array (Prototype Literal)) where
  Holds x _ := Refuses x
  pure := refuses_pure
  bind hx hf := hx.bind hf
  refuse := refuses_throw
  scope h := Refuses.bind nofun fun c => h c c.constants rfl
  modifyScope _ := nofun
  addConstant line _ := refuses_addConstant _ line
  resolve := refuses_resolve
  functionWithin name params _ _ line hfew hbody := refuses_function name params line hfew hbody

end Compile

/-- **A program that is not compiled** is refused for one of the reasons. -/
theorem Compiled.refusal_ofProgram {p : Program} {e : ScriptError}
    (h : Compiled.ofProgram p = .error e) : Refusal e := by
  have hprogram : Compile.Refuses (Compile.program p) := Compile.refusing.program p
  unfold Compiled.ofProgram at h
  simp only [bind, Except.bind] at h
  split at h
  case h_1 e' he =>
    cases h
    exact hprogram _ _ he
  case h_2 => cases h

end DeployScript
