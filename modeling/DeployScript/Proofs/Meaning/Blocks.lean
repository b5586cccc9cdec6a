import Mathlib
import DeployScript.Proofs.Meaning.Expressions

/-!
# Variables come into scope and leave it

Between two statements the stack of a call has its variables and nothing else. A declaration puts one
more on it, and the end of a block, or a jump out of a loop, takes some off; a variable that a closure
shares is given a cell of its own then. What lies lower on the stack stays: the variables of the program
may have other values, but everything else is as it was.

* `Stays` — what lies below a height stays.
* `Rests` — a machine between two statements, with the variables that are in scope.
* `Here.unwinds` — variables are taken off the stack.
* `Rests.declares` — a variable is declared, in a block or as a global.
-/

namespace DeployScript

open Compile

variable {ω : Type} {S : Site} {β γ δ : Link} {φ ψ χ : Roles} {place place' bound line size size' : Nat}
  {m m' m'' : Machine ω} {μ μ' : Memory ω} {locals : List String} {env : Env} {v : Value}
  {rest : Written}

/-! ### What stays -/

/-- **Below a height** the slots are what they were: the same ones are variables, and those that are
none have their values. -/
structure Stays (φ : Roles) (β : Link) (m : Machine ω) (size : Nat) (γ : Link) (ψ : Roles)
    (m' : Machine ω) : Prop where
  later : Later β m γ m'
  roles : ∀ k, k < size → ψ k = φ k
  same : ∀ k, k < size → (∀ g, φ k ≠ .bound g) → m'.stack[k]? = m.stack[k]?

namespace Stays

theorem refl (φ : Roles) (β : Link) (m : Machine ω) (size : Nat) : Stays φ β m size β φ m :=
  ⟨.refl β m, fun _ _ => rfl, fun _ _ _ => rfl⟩

theorem mono (h : Stays φ β m size γ ψ m') (hle : size' ≤ size) : Stays φ β m size' γ ψ m' :=
  ⟨h.later, fun k hk => h.roles k (Nat.lt_of_lt_of_le hk hle),
    fun k hk => h.same k (Nat.lt_of_lt_of_le hk hle)⟩

theorem trans (h : Stays φ β m size γ ψ m') (h' : Stays ψ γ m' size δ χ m'') :
    Stays φ β m size δ χ m'' where
  later := h.later.trans h'.later
  roles k hk := (h'.roles k hk).trans (h.roles k hk)
  same k hk hφ := by
    rw [h'.same k hk fun g => by rw [h.roles k hk]; exact hφ g]
    exact h.same k hk hφ

end Stays

theorem Left.stays {values vs : List Value} {kept : Array Value}
    (h : Left S φ β m place values μ m' γ kept vs) : Stays φ β m m.stack.size γ φ m' where
  later := h.later
  roles _ _ := rfl
  same k hk hφ := by
    rw [h.stack, Array.getElem?_append_left (by rw [h.keeps.size]; exact hk)]
    exact h.keeps.same k hφ

/-! ### Between statements -/

/-- **A machine between two statements:** the stack of the call has the variables in scope, and no more. -/
structure Rests (S : Site) (β : Link) (φ : Roles) (locals : List String) (env : Env) (place : Nat)
    (m : Machine ω) (μ : Memory ω) : Prop where
  here : Here S β φ place m μ
  scope : S.InScope φ locals env
  size : m.stack.size = S.frame.base + locals.length
  under : φ.Under m.stack.size

/-- The variables in scope are known by the slots below them. -/
theorem Site.InScope.congr (h : S.InScope φ locals env)
    (hroles : ∀ k, k < S.frame.base + locals.length → ψ k = φ k) : S.InScope ψ locals env where
  slot name k hname hk := by
    obtain ⟨g, hg, hlookup⟩ := h.slot name k hname hk
    exact ⟨g, (hroles _ (Nat.add_lt_add_left (slot?_lt hk) _)).trans hg, hlookup⟩
  outer := h.outer
  taken k hk := by
    rw [hroles _ (Nat.add_lt_add_left hk _)]
    exact h.taken k hk

namespace Rests

/-- Code that leaves nothing leads to where the same variables are in scope. -/
theorem after (h : Rests S β φ locals env place m μ) (hl : Leaves S φ β m place' [] μ' m') :
    ∃ γ, Stays φ β m m.stack.size γ φ m' ∧ Rests S γ φ locals env place' m' μ' := by
  obtain ⟨γ, kept, vs, hl⟩ := hl
  obtain rfl := List.forall₂_nil_right_iff.1 hl.similar
  have hsize : m'.stack.size = m.stack.size := by
    rw [hl.stack, Array.append_empty]
    exact hl.keeps.size
  exact ⟨γ, hl.stays, hl.here, h.scope, hsize.trans h.size, hsize ▸ h.under⟩

end Rests

/-- **Where the stack is low again:** at a place, with nothing above a height. -/
def Falls (S : Site) (β : Link) (φ : Roles) (m : Machine ω) (size place : Nat) (μ : Memory ω)
    (m' : Machine ω) : Prop :=
  ∃ γ ψ, Stays φ β m size γ ψ m' ∧ Here S γ ψ place m' μ ∧ m'.stack.size = size ∧ ψ.Under size

/-- With the height that there was, the same variables are in scope. -/
theorem Falls.rests (h : Falls S β φ m size place' μ' m') (hscope : S.InScope φ locals env)
    (hsize : size = S.frame.base + locals.length) :
    ∃ γ ψ, Stays φ β m size γ ψ m' ∧ Rests S γ ψ locals env place' m' μ' := by
  obtain ⟨γ, ψ, hstays, hhere, hsize', hunder⟩ := h
  subst hsize
  exact ⟨γ, ψ, hstays, hhere, hscope.congr hstays.roles, hsize', hsize' ▸ hunder⟩

/-! ### Variables leave the stack -/

/-- The innermost variable is taken off the stack. -/
theorem Here.unwind (h : Here S β φ place m μ) (hr : m.Running) {i : Instr}
    (hc : S.Has place ((i, line) :: rest)) (hi : i = ⟨.pop, ()⟩ ∨ i = ⟨.closeCapture, ()⟩)
    (hsize : m.stack.size = size + 1) :
    ∃ m', m.step = .next m' ∧ Stays φ β m size β (φ.below size) m' ∧
      Here S β (φ.below size) (place + 1) m' μ ∧ m'.stack.size = size := by
  have hpop : m.stack.pop.size = size := by
    rw [Array.size_pop]
    omega
  have hkept : ∀ k, k < size → m.stack.pop[k]? = m.stack[k]? := by
    intro k hk
    rw [Array.getElem?_pop, if_pos (by omega)]
  have hstays : ∀ {m'}, Later β m β m' → m'.stack = m.stack.pop → Stays φ β m size β (φ.below size) m' := by
    intro m' hl hs
    exact ⟨hl, fun k hk => φ.below_of_lt hk, fun k hk _ => by rw [hs, hkept k hk]⟩
  have hvariables : ∀ k g, φ.below size k = .bound g → m.stack.pop[k]? = m.stack[k]? := by
    intro k g hk
    refine hkept k (Nat.lt_of_not_le fun hle => ?_)
    rw [φ.below_of_le hle] at hk
    cases hk
  obtain rfl | rfl := hi
  · -- No cell is the slot, since the machine runs on.
    have hstep : m.step = .next { m with stack := m.stack.pop, frames := S.at_ (place + 1) } :=
      h.step hc 1 rfl
    have hm := (h.models.forget fun g slot hg => hpop ▸ (hr.next hstep).below slot ⟨g, hg⟩)
    exact ⟨_, hstep, hstays (.of_heap rfl) rfl, h.next (.of_heap rfl)
      ((hm.withFrames (S.at_ (place + 1))).withStack hvariables) rfl, hpop⟩
  · -- The cell of the slot, if there is one, gets the value.
    obtain ⟨ε, hs⟩ := hr.sound
    have hs' : ({ m with frames := S.at_ (place + 1) } : Machine ω).Sound ε :=
      { hs with builtins := hs.builtins }
    have hstep := h.step hc 1 rfl
    have hlast : m.stack.size - 1 = size := by omega
    have hm := (h.models.withFrames (S.at_ (place + 1))).closeFrom hs' size
    have hlater : Later β m β (({ m with frames := S.at_ (place + 1) } : Machine ω).closeFrom size) :=
      .of_recells (.setCells _ _)
    simp only [Machine.exec, hlast, Machine.pop] at hstep
    exact ⟨_, hstep, hstays (hlater.trans (.of_heap rfl)) rfl,
      h.next (hlater.trans (.of_heap rfl)) (hm.withStack hvariables) rfl, hpop⟩

/-- **Variables are taken off the stack,** as many as there are instructions. -/
theorem Here.unwinds {count : Nat} {off : Written} (hcode : Unwinds count line off)
    (h : Here S β φ place m μ) (hr : m.Running) (hc : S.Has place off)
    (hsize : m.stack.size = size + count) (hφ : φ.Under m.stack.size) :
    ∃ n m', m.Runs n m' ∧ Falls S β φ m size (place + Written.size off) μ m' := by
  obtain ⟨hlength, hall⟩ := hcode
  induction off generalizing count φ place m with
  | nil =>
    have hsize : m.stack.size = size := by rw [hsize, ← hlength]; rfl
    exact ⟨0, m, .refl m, β, φ, .refl φ β m size, h, hsize, hsize ▸ hφ⟩
  | cons e off ih =>
    obtain ⟨i, l⟩ := e
    have hi : i = ⟨.pop, ()⟩ ∨ i = ⟨.closeCapture, ()⟩ :=
      (hall (i, l) List.mem_cons_self).imp (congrArg Prod.fst) (congrArg Prod.fst)
    have hone : i.size = 1 := by obtain rfl | rfl := hi <;> rfl
    have hsize' : m.stack.size = size + off.length + 1 := by
      rw [hsize, ← hlength]
      rfl
    obtain ⟨m₁, hstep, hstays, hhere, hsize₁⟩ := h.unwind hr hc hi hsize'
    have htail := hc.tail
    rw [hone] at htail
    have hunder : (φ.below (size + off.length)).Under m₁.stack.size := hsize₁ ▸ φ.under_below _
    obtain ⟨n, m₂, hruns, γ, ψ, hstays', hrest⟩ := ih hhere (hr.next hstep) htail hsize₁ hunder rfl
      fun e he => hall e (List.mem_cons_of_mem _ he)
    rw [Written.size_cons, hone, ← Nat.add_assoc]
    exact ⟨n + 1, m₂, .next hstep hruns, γ, ψ, (hstays.mono (Nat.le_add_right _ _)).trans hstays', hrest⟩

/-! ### Variables come into scope -/

/-- Other variables are where they were. -/
theorem Site.InScope.other (h : S.InScope φ locals env) (role : Role) {name : String} {k : Nat}
    (hname : name ≠ "") (hk : slot? name locals = some k) :
    ∃ g, φ.set (S.frame.base + locals.length) role (S.frame.base + k) = .bound g ∧
      env.lookup name = some g := by
  obtain ⟨g, hg, hlookup⟩ := h.slot name k hname hk
  have hlt := slot?_lt hk
  exact ⟨g, (φ.set_of_ne role (by omega)).trans hg, hlookup⟩

/-- No slot in scope is one for values. -/
theorem Site.InScope.taken_set (h : S.InScope φ locals env) (role : Role) (hrole : role ≠ .value)
    (name : String) (k : Nat) (hk : k < (name :: locals).length) :
    φ.set (S.frame.base + locals.length) role (S.frame.base + k) ≠ .value := by
  rw [List.length_cons] at hk
  obtain rfl | hlt := Nat.eq_or_lt_of_le (Nat.le_of_lt_succ hk)
  · rw [φ.set_self]
    exact hrole
  · rw [φ.set_of_ne role (by omega)]
    exact h.taken k hlt

theorem Site.InScope.declare (h : S.InScope φ locals env) (name : String) (g : Handle) :
    S.InScope (φ.set (S.frame.base + locals.length) (.bound g)) (name :: locals) ((name, g) :: env) where
  slot other k hother hk := by
    unfold slot? at hk
    rw [List.lookup_cons]
    split at hk
    case isTrue he =>
      cases hk
      rw [he, beq_self_eq_true]
      exact ⟨g, φ.set_self _ _, rfl⟩
    case isFalse hne =>
      rw [beq_false_of_ne (Ne.symm hne)]
      exact h.other _ hother hk
  outer other hother hk := by
    unfold slot? at hk
    rw [List.lookup_cons]
    split at hk
    · cases hk
    case isFalse hne =>
      rw [beq_false_of_ne (Ne.symm hne)]
      exact h.outer other hother hk
  taken k hk := h.taken_set (.bound g) nofun name k hk

/-- A slot from a height on may get another role. -/
theorem Stays.set (h : Stays φ β m size γ ψ m') {slot : Nat} (hle : size ≤ slot) (role : Role) :
    Stays φ β m size γ (ψ.set slot role) m' :=
  ⟨h.later, fun k hk => (ψ.set_of_ne role (by omega)).trans (h.roles k hk), h.same⟩

/-- One more value is on the stack, which gets a role. -/
theorem Rests.grows (h : Rests S β φ locals env place m μ) {kept : Array Value} {u : Value}
    (hl : Left S φ β m place' [v] μ' m' γ kept [u]) {role : Role} {μ'' : Memory ω} {name : String}
    {env' : Env} (hm : m'.Models γ (φ.set (S.frame.base + locals.length) role) μ'')
    (hscope : S.InScope (φ.set (S.frame.base + locals.length) role) (name :: locals) env') :
    Stays φ β m m.stack.size γ (φ.set (S.frame.base + locals.length) role) m' ∧
      Rests S γ (φ.set (S.frame.base + locals.length) role) (name :: locals) env' place' m' μ'' := by
  have hsize : m'.stack.size = S.frame.base + (name :: locals).length := by
    rw [hl.stack, Array.size_append, hl.keeps.size, h.size]
    rfl
  refine ⟨hl.stays.set (by rw [h.size]) role, hl.here.next (.refl _ _) hm hl.here.frames, hscope, hsize, ?_⟩
  rw [hsize]
  exact (h.size ▸ h.under).set role

/-- The value that is left lies on the variables in scope. -/
theorem Rests.top (h : Rests S β φ locals env place m μ) {kept : Array Value} {u : Value}
    (hl : Left S φ β m place' [v] μ' m' γ kept [u]) :
    m'.stack[S.frame.base + locals.length]? = some u := by
  rw [hl.stack, ← h.size, ← hl.keeps.size, ← Array.push_eq_append, Array.getElem?_push_size]

/-- **A variable of a block** is declared: the value on top of the stack is one from here on. -/
theorem Rests.declares (h : Rests S β φ locals env place m μ)
    (hl : Leaves S φ β m place' [v] μ' m') (name : String) :
    Follows bound m' (fun g μ'' m'' => ∃ γ ψ, Stays φ β m m.stack.size γ ψ m'' ∧
      Rests S γ ψ (name :: locals) ((name, g) :: env) place' m'' μ'' ∧
      ψ (S.frame.base + locals.length) = .bound g) (Eval.newCell v μ') := by
  obtain ⟨γ, kept, vs, hl⟩ := hl
  obtain ⟨u, rfl⟩ : ∃ u, vs = [u] := List.length_eq_one_iff.1 hl.similar.length_eq
  have hvalue : φ (S.frame.base + locals.length) = .value := h.under _ (by rw [h.size])
  have hm := hl.here.models.declare hvalue rfl (by
    rw [h.top hl]
    exact (List.forall₂_cons.1 hl.similar).1)
  obtain ⟨hstays, hrests⟩ := h.grows hl hm (h.scope.declare name _)
  exact .refl ⟨γ, _, hstays, hrests, φ.set_self _ _⟩

/-! ### Globals -/

/-- **A global is defined** to be the value on top of the stack. -/
theorem Leaves.define {name : String} {isMutable : Bool} {w : UInt16}
    (h : Leaves S φ β m place [v] μ m') (hc : S.Has place ((defineInstr isMutable w, line) :: rest))
    (hname : S.tables.names[w.toNat]? = some name) :
    Follows bound m' (fun _ => Leaves S φ β m (place + 3) []) (Eval.define name v isMutable μ) := by
  obtain ⟨γ, kept, vs, hl⟩ := h
  obtain ⟨u, rfl⟩ : ∃ u, vs = [u] := List.length_eq_one_iff.1 hl.similar.length_eq
  have hu := (List.forall₂_cons.1 hl.similar).1
  have hpop := Machine.pop_of (m := { m' with frames := S.at_ (place + 3) })
    (hl.stack.trans Array.push_eq_append.symm)
  have hstep := hl.here.step hc 3 (by cases isMutable <;> rfl)
  have hexec : ({ m' with frames := S.at_ (place + 3) } : Machine ω).exec place (defineInstr isMutable w)
      = ({ m' with frames := S.at_ (place + 3) } : Machine ω).defineGlobal name isMutable := by
    cases isMutable <;> exact (hl.here.moved _).withName hname _
  have hstill := hl.withStack [] (S.at_ (place + 3))
  rw [Array.append_empty] at hstill
  have hbound : ∀ {next : Machine ω}, m'.step = .next next →
      next = ({ m' with stack := kept, frames := S.at_ (place + 3) } : Machine ω).define name u isMutable →
      Follows bound m' (fun _ => Leaves S φ β m (place + 3) []) (Eval.bindGlobal name v isMutable μ) := by
    rintro _ hstep rfl
    exact .ok (.one hstep) (hl.next (.of_heap rfl) (hstill.withGlobal name hu isMutable) rfl
      (Array.append_empty).symm .nil)
  have hglobal := hl.here.models.globals name
  rw [hexec] at hstep
  unfold Machine.defineGlobal at hstep
  simp only [hpop] at hstep
  unfold Eval.define
  generalize m'.globals[name]? = b at hglobal hstep
  generalize μ.globals[name]? = b' at hglobal ⊢
  cases hglobal with
  | none => exact hbound hstep rfl
  | @some b b' hb =>
    dsimp only at hstep ⊢
    rw [← Machine.Isomorphic.isFixed hb]
    by_cases hfixed : Machine.isFixed b = true
    · rw [if_pos hfixed] at hstep ⊢
      exact .error (.refl _) hstep hstill
    · rw [if_neg hfixed] at hstep ⊢
      exact hbound hstep rfl

end DeployScript
