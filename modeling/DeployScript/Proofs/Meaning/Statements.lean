import Mathlib
import DeployScript.Proofs.Program.Regular
import DeployScript.Proofs.Meaning.Functions
import DeployScript.Proofs.Meaning.Loops

/-!
# Statements are followed

The code of a statement leads to where the statement is left, with the memory that evaluation has there.
The proof is by induction on the statement. A block declares variables in its own part of the stack,
which is why what is in scope behind a statement (`Spot.behind`) is known before it is executed.

* `Rests.binds` — a value becomes a variable of a block, or a global.
* `Rests.breaks`, `Rests.continues` — jumps take the variables of the rounds off the stack.
* `Stmt.does` — the main statement; `Site.Calls` is what calls do.
-/

namespace DeployScript

open Compile

variable {ω : Type} {S : Site} {β γ : Link} {φ ψ : Roles} {place place' bound line rounds : Nat}
  {m m' : Machine ω} {μ μ' : Memory ω} {locals : List String} {env : Env} {v : Value}
  {rest code : Written} {x : Spot} {call : Calling ω}

/-! ### What is in scope behind statements -/

/-- The variables in scope behind statements. -/
def Spot.behind (x : Spot) (ps : List Stmt) : List String :=
  if x.inBlock then (ps.filterMap Stmt.declaredName?).reverse ++ x.locals else x.locals

@[simp] theorem Spot.behind_nil (x : Spot) : x.behind [] = x.locals := by
  unfold Spot.behind
  split <;> rfl

theorem Spot.behind_cons (x : Spot) (p : Stmt) (ps : List Stmt) (size : Nat) :
    x.behind (p :: ps) = (x.after p size).behind ps := by
  unfold Spot.behind Spot.after
  cases hp : p.declaredName? <;> cases hblock : x.inBlock <;>
    simp [hp, hblock, Spot.past, Spot.declare]

/-- A statement that declares nothing leaves what is in scope. -/
theorem Spot.behind_of_none (x : Spot) {p : Stmt} (hp : p.declaredName? = none) :
    x.behind [p] = x.locals := by
  rw [x.behind_cons p [] 0, Spot.behind_nil, Spot.after, hp]
  rfl

theorem Spot.behind_of_some (x : Spot) {p : Stmt} {name : String} (hp : p.declaredName? = some name) :
    x.behind [p] = (x.declare name).locals := by
  rw [x.behind_cons p [] 0, Spot.behind_nil, Spot.after, hp]
  rfl

/-- In a block there is one variable more for each declaration. -/
theorem Spot.length_block (x : Spot) (ps : List Stmt) :
    (({ x with inBlock := true } : Spot).behind ps).length = x.locals.length + Stmt.declared ps := by
  rw [Spot.behind, if_pos rfl, List.length_append, List.length_reverse, Nat.add_comm]
  rfl

/-- Statements only bring variables into scope. -/
theorem Spot.le_behind (x : Spot) (ps : List Stmt) : x.locals.length ≤ (x.behind ps).length := by
  unfold Spot.behind
  split
  · rw [List.length_append]
    omega
  · exact Nat.le_refl _

/-- Behind a statement there is the same block and the same loop. -/
theorem Spot.after_eq (x : Spot) (p : Stmt) (size : Nat) :
    x.after p size = { x with locals := x.behind [p], offset := x.offset + size } := by
  rw [x.behind_cons p [] size, Spot.behind_nil]
  unfold Spot.after Spot.declare Spot.past
  cases p.declaredName? with
  | none => rfl
  | some name => cases hblock : x.inBlock <;> simp [hblock]

/-! ### Values -/

/-- The code of a value that may be left out leaves it, or nil. -/
theorem Expr.computesOrNil (hcall : S.Calls bound call) (hs : S.InScope φ locals env)
    {value : Option Expr} (hn : ∀ e ∈ value, e.Names (· ≠ ""))
    (hcode : CodedOrNil S.tables locals line value code) (hc : S.Has place code) :
    S.Computes φ bound place (place + Written.size code) (fun r => [r]) (Expr.evalOrNil call value env) := by
  cases value with
  | some e => exact Expr.computes hcall hs e (hn e rfl) hcode hc
  | none =>
    obtain rfl := hcode
    exact fun β m μ hr hh hφ => hh.push hφ (hh.step hc 1 rfl) .nil

/-- Code that leaves nothing is left at its end. -/
theorem Rests.exits (h : Rests S β φ locals env place m μ) (hl : Leaves S φ β m place' [] μ' m')
    (loop : Option LoopSpan) : Exits S β φ m m.stack.size loop locals place' (.next env) μ' m' := by
  obtain ⟨γ, hstays, hrests⟩ := h.after hl
  exact ⟨γ, φ, hstays, hrests⟩

/-- **A value is bound:** in a block the value is the variable, and elsewhere a global is defined. -/
theorem Rests.binds (hr : m'.Running) (h : Rests S β φ x.locals env place m μ)
    (hl : Leaves S φ β m place' [v] μ' m') {name : String} {isMutable : Bool}
    (hcode : Binds S.tables name isMutable line x code) (hc : S.Has place' code) :
    Follows bound m' (Exits S β φ m m.stack.size x.loop (x.declare name).locals
      (place' + Written.size code)) ((do
        let env ← Eval.declare x.inBlock env name v isMutable
        return .next env : Eval ω Flow) μ') := by
  obtain ⟨hblock, rfl⟩ | ⟨hblock, w, hw, rfl⟩ := hcode
  · unfold Eval.declare Spot.declare
    rw [if_pos hblock, if_pos hblock]
    refine .bind (Q := fun env' μ'' m'' => ∃ γ ψ, Stays φ β m m.stack.size γ ψ m'' ∧
      Rests S γ ψ (name :: x.locals) env' place' m'' μ'') hr ?_ fun env' μ'' m'' _ hq => .refl hq
    exact .bind hr (h.declares hl name) fun g μ'' m'' _ ⟨γ, ψ, hstays, hrests, _⟩ =>
      .refl ⟨γ, ψ, hstays, hrests⟩
  · unfold Eval.declare Spot.declare
    rw [hblock, if_neg Bool.false_ne_true, if_neg Bool.false_ne_true]
    refine .bind (Q := fun env' μ'' m'' => env' = env ∧
      Leaves S φ β m (place' + 3) [] μ'' m'') hr ?_ fun env' μ'' m'' _ hq => ?_
    · exact .bind hr (hl.define hc hw) fun _ μ'' m'' _ hq => .refl ⟨rfl, hq⟩
    · obtain ⟨rfl, hq⟩ := hq
      have hsize : Written.size [(defineInstr isMutable w, line)] = 3 := by cases isMutable <;> rfl
      rw [hsize]
      exact .refl (h.exits hq x.loop)

/-! ### Jumps -/

/-- **A jump** to where fewer variables are in scope takes the others off the stack first. -/
theorem Rests.jumps {off : Written} {kept : Nat} (hr : m.Running) (h : Rests S β φ locals env place m μ)
    (hkept : kept ≤ locals.length) (hoff : Unwinds (locals.length - kept) line off)
    (hc : S.Has place off) (hstep : ∀ {γ : Link} {ψ : Roles} {m' : Machine ω},
      Here S γ ψ (place + Written.size off) m' μ → m'.step = .next { m' with frames := S.at_ place' }) :
    ∃ n m', m.Runs n m' ∧ Falls S β φ m (S.frame.base + kept) place' μ m' := by
  have hsize : m.stack.size = S.frame.base + kept + (locals.length - kept) := by
    rw [h.size]
    omega
  obtain ⟨n, m', hruns, γ, ψ, hstays, hhere, hlow, hunder⟩ := h.here.unwinds hoff hr hc hsize h.under
  exact ⟨n + 1, _, hruns.trans (.one (hstep hhere)), γ, ψ, hstays.moved _, hhere.moved _, hlow, hunder⟩

/-- What a branch declares is out of scope behind it. -/
theorem Rests.leaves (h : Rests S β φ locals env place m μ) {loop : Option LoopSpan} {flow : Flow}
    (hexits : Exits S β φ m m.stack.size loop locals place' flow μ' m') :
    Exits S β φ m m.stack.size loop locals place' (flow.leave env) μ' m' := by
  cases flow with
  | break_ | continue_ | return_ => exact hexits
  | next env' =>
    obtain ⟨γ, ψ, hstays, hrests⟩ := hexits
    exact ⟨γ, ψ, hstays, hrests.here, h.scope.congr fun k hk => hstays.roles k (h.size ▸ hk),
      hrests.size, hrests.under⟩

/-- **A value is returned.** -/
theorem Leaves.returns (h : Leaves S φ β m place [v] μ' m') (hbase : S.frame.base ≤ m.stack.size)
    (hc : S.Has place ((⟨.return_, ()⟩, line) :: rest)) : Returns S β φ m v μ' m' := by
  obtain ⟨γ, kept, vs, hl⟩ := h
  obtain ⟨u, rfl⟩ : ∃ u, vs = [u] := List.length_eq_one_iff.1 hl.similar.length_eq
  exact ⟨γ, φ, place, line, rest, kept, u, hl.stays.mono hbase, hl.here, hc,
    hl.stack.trans Array.push_eq_append.symm, hl.keeps.size ▸ hbase, hl.keeps.size ▸ hl.under,
    (List.forall₂_cons.1 hl.similar).1⟩

/-! ### The main statement -/

mutual

/-- **The code of a statement** leads to where the statement is left. -/
theorem Stmt.does (hcall : S.Calls bound call) (hrounds : bound ≤ rounds) :
    (p : Stmt) → p.Names (· ≠ "") → p.Regular → {x : Spot} → {code : Written} → {env : Env} →
    p.Coded S.tables x code → S.Has x.offset code → (∀ l, x.loop = some l → l.kept ≤ x.locals.length) →
    S.Does bound x (x.behind [p]) env (Written.size code) (p.eval call rounds x.inBlock env)
  | .expr value, hn, _, x, _, env, ⟨code, hv, rfl⟩, hc, _ => by
    intro β φ m μ hr h
    rw [x.behind_of_none rfl, Written.size_append, ← Nat.add_assoc]
    refine .bind hr (Expr.computes hcall h.scope value hn hv hc.left β m μ hr h.here h.under) ?_
    intro v μ' m' hr hl
    have hl : Leaves S φ β m _ ([] ++ [v]) μ' m' := hl
    obtain ⟨m'', hdrop, hdropped⟩ := hl.drop hc.right
    exact .step hdrop (.refl (h.exits hdropped x.loop))
  | .var name value span, hn, _, x, _, env, ⟨code, d, hv, hd, rfl⟩, hc, _ => by
    intro β φ m μ hr h
    rw [x.behind_of_some rfl, Written.size_append, ← Nat.add_assoc]
    refine .bind hr (Expr.computesOrNil hcall h.scope hn.2 hv hc.left β m μ hr h.here h.under) ?_
    intro v μ' m' hr hl
    exact h.binds hr hl hd hc.right
  | .let_ name value span, hn, _, x, _, env, ⟨code, d, hv, hd, rfl⟩, hc, _ => by
    intro β φ m μ hr h
    rw [x.behind_of_some rfl, Written.size_append, ← Nat.add_assoc]
    refine .bind hr (Expr.computes hcall h.scope value hn.2 hv hc.left β m μ hr h.here h.under) ?_
    intro v μ' m' hr hl
    exact h.binds hr hl hd hc.right
  | .block body span, hn, hreg, x, code, env, hcode, hc, hkept => by
    rw [x.behind_of_none rfl]
    exact .block hcode hc (x.length_block body) fun inner hinner hc =>
      Stmt.doesAll hcall hrounds body hn hreg hinner hc hkept
  | .if_ condition body none span, hn, hreg, x, code, env, hcode, hc, hkept => by
    rw [x.behind_of_none rfl]
    refine .conditional hcode hc hkept
      (fun c hcond hc φ hs => Expr.computes hcall hs condition hn.1 hcond hc)
      (fun k b hb hc => .block hb hc ((x.past k).length_block body) fun inner hinner hc =>
        Stmt.doesAll hcall hrounds body hn.2 hreg hinner hc hkept)
      (fun k b hb hc => ?_)
    subst hb
    exact fun β φ m μ hr h => .refl ⟨β, φ, .refl φ β m _, h⟩
  | .if_ condition body (some orElse) span, hn, hreg, x, code, env, hcode, hc, hkept => by
    rw [x.behind_of_none rfl]
    refine .conditional hcode hc hkept
      (fun c hcond hc φ hs => Expr.computes hcall hs condition hn.1 hcond hc)
      (fun k b hb hc => .block hb hc ((x.past k).length_block body) fun inner hinner hc =>
        Stmt.doesAll hcall hrounds body hn.2.1 hreg.1 hinner hc hkept)
      (fun k b hb hc => ?_)
    -- A second branch declares nothing, so it is left where the conditional is.
    have hnone : orElse.declaredName? = none := by
      cases orElse <;> first | rfl | exact absurd hreg.2.1 Bool.false_ne_true
    intro β φ m μ hr h
    have hdone := Stmt.does hcall hrounds orElse hn.2.2 hreg.2.2 hb hc hkept β φ m μ hr h
    rw [Spot.behind_of_none _ hnone] at hdone
    exact .bind hr hdone fun flow μ' m' _ hexits => .refl (h.leaves hexits)
  | .while_ condition body span, hn, hreg, x, code, env, hcode, hc, hkept => by
    rw [x.behind_of_none rfl]
    refine .while_ hcode hc hrounds
      (fun c hcond hc φ hs => Expr.computes hcall hs condition hn.1 hcond hc)
      (fun test b hb hc β φ m μ hr h => .block hb hc (Spot.length_block _ body) (fun inner hinner hc => ?_) hr h)
    exact Stmt.doesAll hcall hrounds body hn.2 hreg hinner hc fun l hl => by
      cases hl
      exact Nat.le_refl _
  | .for_ name iterable body span, hn, hreg, x, code, env, hcode, hc, hkept => by
    rw [x.behind_of_none rfl]
    exact Site.Does.for_ hcode hc hrounds
      (fun it hit hc φ hs => Expr.computes hcall hs iterable hn.2.1 hit hc)
      (fun y b hb hc _ hkept cursor β φ m μ hr h => Follows.block hb hc (y.length_block body)
        (fun inner hinner hc => Stmt.doesAll hcall hrounds body hn.2.2 hreg hinner hc hkept) hr h)
  | .function name params body span, hn, hreg, x, _, env, ⟨f, d, hf, hd, rfl⟩, hc, _ => by
    intro β φ m μ hr h
    rw [x.behind_of_some rfl, Stmt.eval]
    obtain ⟨hblock, rfl⟩ | ⟨hblock, w, hw, rfl⟩ := hd
    · rw [Spot.declare, if_pos hblock] at hf ⊢
      rw [if_pos hblock, List.append_nil]
      exact h.declaresFunction hr hf hc.left hn.2.1 hn.2.2 hreg
    · rw [Spot.declare, if_neg (by simp [hblock])] at hf ⊢
      rw [if_neg (by simp [hblock])]
      exact h.definesFunction hr hw hf hc hn.2.1 hn.2.2 hreg
  | .return_ value span, hn, _, x, _, env, ⟨code, hv, rfl⟩, hc, _ => by
    intro β φ m μ hr h
    refine .bind hr (Expr.computesOrNil hcall h.scope hn hv hc.left β m μ hr h.here h.under) ?_
    intro v μ' m' _ hl
    exact .refl (hl.returns (by rw [h.size]; exact Nat.le_add_right _ _) hc.right)
  | .break_ span, _, _, x, _, env, ⟨l, off, w, hloop, hoff, hw, rfl⟩, hc, hkept => by
    intro β φ m μ hr h
    obtain ⟨n, m', hruns, hfalls⟩ :=
      h.jumps hr (hkept l hloop) hoff hc.left fun hhere => hhere.jump hc.right
    rw [hw] at hfalls
    exact .behind hruns (.refl ⟨l, hloop, hfalls⟩)
  | .continue_ span, _, _, x, _, env, ⟨l, off, w, hloop, hoff, hw, rfl⟩, hc, hkept => by
    intro β φ m μ hr h
    -- The distance of a jump back counts from behind the jump.
    have hstart : x.offset + Written.size off + 3 - w.toNat = l.start := by omega
    obtain ⟨n, m', hruns, hfalls⟩ :=
      h.jumps hr (hkept l hloop) hoff hc.left fun hhere => hhere.back hc.right (by omega)
    rw [hstart] at hfalls
    exact .behind hruns (.refl ⟨l, hloop, hfalls⟩)

/-- The code of statements leads to where they are left. -/
theorem Stmt.doesAll (hcall : S.Calls bound call) (hrounds : bound ≤ rounds) :
    (ps : List Stmt) → Stmt.AllNames (· ≠ "") ps → Stmt.AllRegular ps → {x : Spot} → {code : Written} →
    {env : Env} → Stmt.CodedAll ps S.tables x code → S.Has x.offset code →
    (∀ l, x.loop = some l → l.kept ≤ x.locals.length) →
    S.Does bound x (x.behind ps) env (Written.size code) (Stmt.evalAll call rounds ps x.inBlock env)
  | [], _, _, x, _, env, rfl, _, _ => by
    rw [Spot.behind_nil]
    exact fun β φ m μ hr h => .refl ⟨β, φ, .refl φ β m _, h⟩
  | p :: ps, hn, hreg, x, _, env, ⟨first, others, hfirst, hothers, rfl⟩, hc, hkept => by
    intro β φ m μ hr h
    have hafter := x.after_eq p (Written.size first)
    rw [x.behind_cons p ps (Written.size first), Written.size_append, ← Nat.add_assoc]
    refine .bind hr (Stmt.does hcall hrounds p hn.1 hreg.1 hfirst hc.left hkept β φ m μ hr h) ?_
    intro flow μ' m' hr' hexits
    -- A statement that leaves the block skips those behind it, in the code as in the meaning.
    cases flow with
    | break_ | continue_ | return_ => exact .refl hexits
    | next env' =>
      obtain ⟨γ, ψ, hstays, hrests⟩ := hexits
      have hmore := x.le_behind [p]
      have hsize := h.size
      have hsize' := hrests.size
      rw [hafter] at hothers ⊢
      have hrest := Stmt.doesAll hcall hrounds ps hn.2 hreg.2 hothers hc.right
        (fun l hl => Nat.le_trans (hkept l hl) hmore) γ ψ m' μ' hr' hrests
      refine hrest.imp fun flow μ'' m'' hexits => hexits.behind hstays (by omega) (by omega) fun l hl => ?_
      have := hkept l hl
      omega

end

end DeployScript
