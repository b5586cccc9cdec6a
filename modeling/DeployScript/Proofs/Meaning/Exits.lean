import Mathlib
import DeployScript.Proofs.Meaning.Blocks

/-!
# How statements are left

A statement is left at its end, or by a jump out of the innermost loop, to its next round, or out of the
function. Wherever it leads to, the stack is as high as it is to be there. Blocks, conditionals and loops
are put together here from what their parts do; the parts themselves are parameters.

* `Returns`, `Exits` — where a machine stands when a statement is left.
* `Exits.behind` — one statement behind another.
* `Follows.block`, `conditional`, `looping` — blocks, conditionals and loops.
-/

namespace DeployScript

open Compile

variable {ω : Type} {S : Site} {β γ : Link} {φ ψ : Roles} {place place' bound line size size' : Nat}
  {m m' : Machine ω} {μ μ' : Memory ω} {locals locals' : List String} {env : Env} {v : Value}
  {rest code : Written} {loop : Option LoopSpan} {flow : Flow}

/-- **A machine that is about to return** with the value on top of the stack. -/
def Returns (S : Site) (β : Link) (φ : Roles) (m : Machine ω) (v : Value) (μ : Memory ω)
    (m' : Machine ω) : Prop :=
  ∃ (γ : Link) (ψ : Roles) (place line : Nat) (rest : Written) (kept : Array Value) (w : Value),
    Stays φ β m S.frame.base γ ψ m' ∧ Here S γ ψ place m' μ ∧ S.Has place ((⟨.return_, ()⟩, line) :: rest) ∧
    m'.stack = kept.push w ∧ S.frame.base ≤ kept.size ∧ ψ.Under kept.size ∧ w.Similar γ v

/-- **A machine where a statement is left,** from a machine in front of it. At its end the variables in
scope are `locals`, and what lies below `size` has stayed. -/
def Exits (S : Site) (β : Link) (φ : Roles) (m : Machine ω) (size : Nat) (loop : Option LoopSpan)
    (locals : List String) (place : Nat) : Flow → Memory ω → Machine ω → Prop
  | .next env, μ, m' => ∃ γ ψ, Stays φ β m size γ ψ m' ∧ Rests S γ ψ locals env place m' μ
  | .break_, μ, m' => ∃ l, loop = some l ∧ Falls S β φ m (S.frame.base + l.kept) l.stop μ m'
  | .continue_, μ, m' => ∃ l, loop = some l ∧ Falls S β φ m (S.frame.base + l.kept) l.start μ m'
  | .return_ v, μ, m' => Returns S β φ m v μ m'

/-! ### One behind another -/

theorem Returns.behind (hs : Stays φ β m size γ ψ m') (hle : S.frame.base ≤ size)
    {m'' : Machine ω} (h : Returns S γ ψ m' v μ m'') : Returns S β φ m v μ m'' := by
  obtain ⟨δ, χ, place, line, rest, kept, w, hs', hrest⟩ := h
  exact ⟨δ, χ, place, line, rest, kept, w, (hs.mono hle).trans hs', hrest⟩

theorem Falls.behind (hs : Stays φ β m size' γ ψ m') (hle : size ≤ size') {m'' : Machine ω}
    (h : Falls S γ ψ m' size place μ m'') : Falls S β φ m size place μ m'' := by
  obtain ⟨δ, χ, hs', hrest⟩ := h
  exact ⟨δ, χ, (hs.mono hle).trans hs', hrest⟩

/-- **A statement behind other code** is left where it is left. -/
theorem Exits.behind (hs : Stays φ β m size γ ψ m') (hle : size ≤ size')
    (hbase : S.frame.base ≤ size) (hloop : ∀ l, loop = some l → S.frame.base + l.kept ≤ size)
    {m'' : Machine ω} (h : Exits S γ ψ m' size' loop locals place flow μ m'') :
    Exits S β φ m size loop locals place flow μ m'' := by
  cases flow with
  | next env =>
    obtain ⟨δ, χ, hs', hrests⟩ := h
    exact ⟨δ, χ, hs.trans (hs'.mono hle), hrests⟩
  | break_ =>
    obtain ⟨l, hl, hfalls⟩ := h
    exact ⟨l, hl, hfalls.behind hs (hloop l hl)⟩
  | continue_ =>
    obtain ⟨l, hl, hfalls⟩ := h
    exact ⟨l, hl, hfalls.behind hs (hloop l hl)⟩
  | return_ v => exact Returns.behind hs hbase h

/-! ### Jumps -/

theorem Rests.moved (h : Rests S β φ locals env place m μ) (place' : Nat) :
    Rests S β φ locals env place' ({ m with frames := S.at_ place' } : Machine ω) μ :=
  ⟨h.here.moved place', h.scope, h.size, h.under⟩

theorem Stays.moved (h : Stays φ β m size γ ψ m') (frames : List Frame) :
    Stays φ β m size γ ψ { m' with frames } :=
  ⟨h.later.trans (.of_heap rfl), h.roles, h.same⟩

theorem Here.jump (h : Here S β φ place m μ) {w : UInt16}
    (hc : S.Has place ((⟨.jump, w⟩, line) :: rest)) :
    m.step = .next { m with frames := S.at_ (place + 3 + w.toNat) } := by
  have hbehind := h.moved (place + 3)
  rw [h.step hc 3 rfl]
  simp only [Machine.exec, hbehind.ip, hbehind.moveTo]

theorem Here.back (h : Here S β φ place m μ) {w : UInt16}
    (hc : S.Has place ((⟨.loop, w⟩, line) :: rest)) (hle : w.toNat ≤ place + 3) :
    m.step = .next { m with frames := S.at_ (place + 3 - w.toNat) } := by
  have hbehind := h.moved (place + 3)
  rw [h.step hc 3 rfl]
  simp only [Machine.exec, hbehind.ip, hbehind.moveTo, if_pos hle]

/-- **Code that does what a statement does,** at a spot. -/
def Site.Does (S : Site) (bound : Nat) (x : Spot) (locals : List String) (env : Env) (size : Nat)
    (e : Eval ω Flow) : Prop :=
  ∀ β φ m μ, m.Running → Rests S β φ x.locals env x.offset m μ →
    Follows bound m (Exits S β φ m m.stack.size x.loop locals (x.offset + size)) (e μ)

/-! ### Blocks -/

/-- **A block:** its variables leave the stack at its end, unless it is left by a jump. -/
theorem Follows.block {body : Coding} {count : Nat} {x : Spot} {e : Eval ω Flow}
    (hcode : InBlock body count x code) (hc : S.Has x.offset code)
    (hlocals : locals.length = x.locals.length + count)
    (hbody : ∀ inner, body { x with inBlock := true } inner → S.Has x.offset inner →
      S.Does bound { x with inBlock := true } locals env (Written.size inner) e)
    (hr : m.Running) (h : Rests S β φ x.locals env x.offset m μ) :
    Follows bound m (fun flow => Exits S β φ m m.stack.size x.loop x.locals
      (x.offset + Written.size code) (flow.leave env)) (e μ) := by
  obtain ⟨inner, off, hinner, hoff, rfl⟩ := hcode
  refine .last hr (hbody inner hinner hc.left β φ m μ hr h) fun flow μ' m' hr' hexits => ?_
  cases flow with
  | break_ | continue_ | return_ => exact .refl hexits
  | next env' =>
    obtain ⟨γ, ψ, hstays, hrests⟩ := hexits
    have hsize : m'.stack.size = m.stack.size + count := by
      rw [hrests.size, h.size, hlocals, Nat.add_assoc]
    obtain ⟨n, m'', hruns, hfalls⟩ := hrests.here.unwinds hoff hr' hc.right hsize hrests.under
    rw [Nat.add_assoc, ← Written.size_append] at hfalls
    exact .behind hruns (.refl ((hfalls.behind hstays (Nat.le_refl _)).rests h.scope h.size))

/-- A block as a statement. -/
theorem Site.Does.block {body : Coding} {count : Nat} {x : Spot} {e : Eval ω Flow}
    (hcode : InBlock body count x code) (hc : S.Has x.offset code)
    (hlocals : locals.length = x.locals.length + count)
    (hbody : ∀ inner, body { x with inBlock := true } inner → S.Has x.offset inner →
      S.Does bound { x with inBlock := true } locals env (Written.size inner) e) :
    S.Does bound x x.locals env (Written.size code) (do
      let flow ← e
      return flow.leave env) := by
  intro β φ m μ hr h
  exact .bind hr (.block hcode hc hlocals hbody hr h) fun flow μ' m' _ hexits => .refl hexits

/-! ### Conditionals -/

/-- **A test:** the value is taken, and decides where to go on. -/
theorem Leaves.branch (h : Leaves S φ β m place [v] μ' m') (hrests : Rests S β φ locals env place' m μ)
    {w : UInt16} (hc : S.Has place ((⟨.jumpIfFalse, w⟩, line) :: (⟨.pop, ()⟩, line) :: rest))
    {rest' : Written} (helse : S.Has (place + 3 + w.toNat) ((⟨.pop, ()⟩, line) :: rest')) :
    ∃ m'', m'.Runs 2 m'' ∧ ∃ γ, Stays φ β m m.stack.size γ φ m'' ∧
      Rests S γ φ locals env (if v.isTruthy then place + 4 else place + 3 + w.toNat + 1) m'' μ' := by
  have hjump : m'.step = .next { m' with
      frames := S.at_ (if LogicalOp.and.decides v then place + 3 + w.toNat else place + 3) } :=
    h.jumpIf hc
  have hdrop : ∀ p rest, S.Has p ((⟨.pop, ()⟩, line) :: rest) → ∃ m'',
      ({ m' with frames := S.at_ p } : Machine ω).step = .next m'' ∧
        Leaves S φ β m (p + 1) [] μ' m'' := by
    intro p rest hc
    have hthere : Leaves S φ β m p ([] ++ [v]) μ' { m' with frames := S.at_ p } := h.jump p
    exact hthere.drop hc
  cases hv : v.isTruthy with
  | true =>
    rw [LogicalOp.decides, hv, if_neg (by simp)] at hjump
    obtain ⟨m'', hstep, hdropped⟩ := hdrop _ _ hc.tail
    exact ⟨m'', .next hjump (.one hstep), hrests.after hdropped⟩
  | false =>
    rw [LogicalOp.decides, hv, if_pos (by simp)] at hjump
    obtain ⟨m'', hstep, hdropped⟩ := hdrop _ _ helse
    exact ⟨m'', .next hjump (.one hstep), hrests.after hdropped⟩

/-- What is left at its end by a jump goes on where that leads to. -/
theorem Follows.onward {r : Result ω Flow} (hr : m.Running)
    (h : Follows bound m (Exits S β φ m size loop locals place) r)
    (hstep : ∀ {γ : Link} {ψ : Roles} {m' : Machine ω} {μ' : Memory ω}, Here S γ ψ place m' μ' →
      m'.step = .next { m' with frames := S.at_ place' }) :
    Follows bound m (Exits S β φ m size loop locals place') r := by
  refine .last hr h fun flow μ' m' _ hexits => ?_
  cases flow with
  | break_ | continue_ | return_ => exact .refl hexits
  | next env =>
    obtain ⟨γ, ψ, hstays, hrests⟩ := hexits
    exact .step (hstep hrests.here) (.refl ⟨γ, ψ, hstays.moved _, hrests.moved _⟩)

/-- **A conditional.** -/
theorem Site.Does.conditional {condition body orElse : Coding} {x : Spot} {test : Eval ω Value}
    {e e' : Eval ω Flow} (hcode : Conditional condition body orElse line x code)
    (hc : S.Has x.offset code) (hloop : ∀ l, x.loop = some l → l.kept ≤ x.locals.length)
    (htest : ∀ c, condition x c → S.Has x.offset c → ∀ φ, S.InScope φ x.locals env →
      S.Computes φ bound x.offset (x.offset + Written.size c) (fun r => [r]) test)
    (hbody : ∀ k b, body (x.past k) b → S.Has (x.offset + k) b →
      S.Does bound (x.past k) x.locals env (Written.size b) e)
    (horElse : ∀ k b, orElse (x.past k) b → S.Has (x.offset + k) b →
      S.Does bound (x.past k) x.locals env (Written.size b) e') :
    S.Does bound x x.locals env (Written.size code) (do
      let v ← test
      if v.isTruthy then e else e') := by
  obtain ⟨c, b, other, toElse, toEnd, hcondition, hb, htoElse, hother, htoEnd, rfl⟩ := hcode
  intro β φ m μ hr h
  have hafter := hc.right
  have hbehind := hafter.tail.tail.right
  refine .bind hr (htest c hcondition hc.left φ h.scope β m μ hr h.here h.under) ?_
  intro v μ₁ m₁ hr₁ hleft
  have helse : x.offset + Written.size c + 3 + toElse.toNat
      = x.offset + Written.size c + 4 + Written.size b + 3 := by omega
  obtain ⟨m₂, hruns, γ, hstays, hrests⟩ := hleft.branch h hafter (by
    rw [helse]
    exact hbehind.tail)
  have hr₂ := hruns.running hr₁
  have hsize := h.size
  -- Whichever branch it is, what lies on the stack in front of it stays.
  have hbranch : ∀ {e : Eval ω Flow} {place},
      Follows bound m₂ (Exits S γ φ m₂ m₂.stack.size x.loop x.locals place) (e μ₁) →
      Follows bound m₁ (Exits S β φ m m.stack.size x.loop x.locals place) (e μ₁) := by
    intro e place hf
    refine (hf.imp fun flow μ' m' hexits => hexits.behind hstays ?_ ?_ ?_).behind hruns
    · rw [hrests.size, hsize]
    · omega
    · intro l hl
      have := hloop l hl
      omega
  cases hv : v.isTruthy with
  | true =>
    rw [hv, if_pos rfl] at hrests
    rw [if_pos rfl]
    have hdone := hbody (Written.size c + 4) b hb hafter.tail.tail.left γ φ m₂ μ₁ hr₂ hrests
    refine hbranch (hdone.onward hr₂ fun hhere => ?_)
    have hend : x.offset + (Written.size c + 4) + Written.size b + 3 + toEnd.toNat
        = x.offset + Written.size (c ++ ((⟨.jumpIfFalse, toElse⟩, line) :: (⟨.pop, ()⟩, line) ::
          (b ++ ((⟨.jump, toEnd⟩, line) :: (⟨.pop, ()⟩, line) :: other)))) := by
      simp only [Written.size_append, Written.size_cons, Instr.size, Layout.size, htoEnd]
      omega
    rw [← hend]
    exact hhere.jump hbehind
  | false =>
    have hat : x.offset + Written.size c + 4 + Written.size b + 3 + 1
        = x.offset + (Written.size c + 4 + Written.size b + 4) := by omega
    rw [hv, if_neg Bool.false_ne_true, helse, hat] at hrests
    rw [if_neg Bool.false_ne_true]
    have hend : x.offset + (Written.size c + 4 + Written.size b + 4) + Written.size other
        = x.offset + Written.size (c ++ ((⟨.jumpIfFalse, toElse⟩, line) :: (⟨.pop, ()⟩, line) ::
          (b ++ ((⟨.jump, toEnd⟩, line) :: (⟨.pop, ()⟩, line) :: other)))) := by
      simp only [Written.size_append, Written.size_cons, Instr.size, Layout.size]
      omega
    rw [← hend]
    have hplace := hbehind.tail.tail.moved (by
      simp only [Instr.size, Layout.size]
      omega)
    exact hbranch (horElse _ other hother hplace γ φ m₂ μ₁ hr₂ hrests)

end DeployScript
