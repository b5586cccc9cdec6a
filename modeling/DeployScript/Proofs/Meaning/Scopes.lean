import Mathlib
import DeployScript.Proofs.Meaning.Following

/-!
# Names in scope

What the names of a program mean at a place of a call. The code finds a variable by its slot, by the
index of a capture, or by its name among the globals; evaluation finds its cell, or none. Both find the
same variable, so that what is read is the same and what is assigned stays the same.

* `Site.InScope` — the variables in scope, as the code and as evaluation has them.
* `Leaves.more`, `jump`, `pop` — how values on top of the stack come and go.
* `Leaves.read`, `Leaves.assign` — a variable is read, and assigned.
-/

namespace DeployScript

open Compile

variable {ω ι : Type} {S : Site} {β γ : Link} {φ : Roles} {place place' bound line : Nat}
  {m m' : Machine ω} {μ : Memory ω} {values : List Value} {v : Value} {rest : Written}

/-! ### What operands refer to -/

@[simp] theorem size_readInstr (found : Place) (w : UInt16) : (readInstr found w).size = 3 := by
  cases found <;> rfl

@[simp] theorem size_writeInstr (found : Place) (w : UInt16) : (writeInstr found w).size = 3 := by
  cases found <;> rfl

namespace Here

theorem base (h : Here S β φ place m μ) : m.base = S.frame.base := by
  unfold Machine.base
  rw [h.frames]
  rfl

theorem ip (h : Here S β φ place m μ) : m.ip = place := by
  unfold Machine.ip
  rw [h.frames]
  rfl

theorem moveTo (h : Here S β φ place m μ) (place' : Nat) :
    m.moveTo place' = { m with frames := S.at_ place' } :=
  Machine.moveTo_eq h.frames place'

theorem captured? (h : Here S β φ place m μ) (index : Nat) : m.captured? index = S.cells[index]? := by
  obtain ⟨function, hc⟩ := h.fits.closure
  unfold Machine.captured?
  rw [h.frames]
  simp [Site.at_, hc]

theorem constant? (h : Here S β φ place m μ) {index : UInt16} {l : Literal}
    (hl : S.tables.constants[index.toNat]? = some l) :
    m.constant? index = some (Heap.literalValue S.handles l) := by
  unfold Machine.constant?
  rw [h.frames]
  simp [Site.at_, h.fits.fill.constants, hl]

theorem withName (h : Here S β φ place m μ) {index : UInt16} {name : String}
    (hname : S.tables.names[index.toNat]? = some name) (f : String → Outcome ω) :
    m.withName index f = f name := by
  have hfound : m.name? index = some name := by
    unfold Machine.name?
    rw [h.frames]
    simp [Site.at_, h.fits.fill.names, hname]
  unfold Machine.withName
  rw [hfound]

end Here

/-! ### Values come and go -/

/-- The last of similar values. -/
theorem similar_last {vs : List Value} (h : List.Forall₂ (Value.Similar γ) vs (values ++ [v])) :
    ∃ ws w, vs = ws ++ [w] ∧ List.Forall₂ (Value.Similar γ) ws values ∧ w.Similar γ v := by
  have hdrop := List.forall₂_drop_append _ _ _ h
  cases hlast : vs.drop values.length with
  | nil =>
    rw [hlast] at hdrop
    cases hdrop
  | cons w more =>
    rw [hlast] at hdrop
    cases hdrop with
    | cons hw hmore =>
      cases hmore
      refine ⟨_, w, ?_, List.forall₂_take_append _ _ _ h, hw⟩
      rw [← hlast, List.take_append_drop]

namespace Leaves

/-- There are no variables above what is left. -/
theorem under (h : Leaves S φ β m place values μ m') : φ.Under m'.stack.size := by
  obtain ⟨γ, kept, vs, h⟩ := h
  refine h.under.mono ?_
  rw [h.stack, Array.size_append, h.keeps.size]
  omega

theorem here (h : Leaves S φ β m place values μ m') : ∃ γ, Here S γ φ place m' μ := by
  obtain ⟨γ, kept, vs, h⟩ := h
  exact ⟨γ, h.here⟩

/-- **More values are left,** as code leaves them that starts where this one ends. -/
theorem more {x : Eval ω ι} {given : ι → List Value} (h : Leaves S φ β m place values μ m')
    (hx : ∀ γ, Here S γ φ place m' μ → φ.Under m'.stack.size →
      Follows bound m' (fun r => Leaves S φ γ m' place' (given r)) (x μ)) :
    Follows bound m' (fun r => Leaves S φ β m place' (values ++ given r)) (x μ) := by
  have hunder := h.under
  obtain ⟨γ, kept, vs, h⟩ := h
  exact (hx γ h.here hunder).imp fun _ _ _ => h.trans

/-- **A jump** keeps what is left. -/
theorem jump (h : Leaves S φ β m place values μ m') (place' : Nat) :
    Leaves S φ β m place' values μ { m' with frames := S.at_ place' } := by
  obtain ⟨γ, kept, vs, h⟩ := h
  exact h.next (.of_heap rfl) (h.here.models.withFrames _) rfl h.stack h.similar

/-- **A value is taken** from what is left. -/
theorem pop (h : Leaves S φ β m place (values ++ [v]) μ m') (place' : Nat) :
    Leaves S φ β m place' values μ { m' with stack := m'.stack.pop, frames := S.at_ place' } := by
  obtain ⟨γ, kept, vs, h⟩ := h
  obtain ⟨ws, w, rfl, hws, -⟩ := similar_last h.similar
  have hm := h.withStack ws (S.at_ place')
  have hstack : m'.stack.pop = kept ++ ws.toArray := by
    rw [h.stack, ← List.append_toArray, ← Array.append_assoc, ← Array.push_eq_append, Array.pop_push]
  rw [← hstack] at hm
  exact h.next (.of_heap rfl) hm rfl hstack hws

/-- The value on top is the last one that is left. -/
theorem peek (h : Leaves S φ β m place (values ++ [v]) μ m') :
    ∃ γ, Here S γ φ place m' μ ∧ (m'.peek 0).Similar γ v := by
  obtain ⟨γ, kept, vs, h⟩ := h
  obtain ⟨ws, w, rfl, -, hw⟩ := similar_last h.similar
  refine ⟨γ, h.here, ?_⟩
  unfold Machine.peek
  rw [h.stack]
  simpa using hw

end Leaves

/-! ### Variables -/

/-- **The variables in scope** at a place of a call. A name that is a variable of the call is a slot for
the code and a cell for evaluation, the same variable; any other name means what it means around the
function. -/
structure Site.InScope (S : Site) (φ : Roles) (locals : List String) (env : Env) : Prop where
  slot : ∀ name k, name ≠ "" → slot? name locals = some k →
    ∃ g, φ (S.frame.base + k) = .bound g ∧ env.lookup name = some g
  outer : ∀ name, name ≠ "" → slot? name locals = none → env.lookup name = S.outer.lookup name
  taken : ∀ k, k < locals.length → φ (S.frame.base + k) ≠ .value

/-- At the start of a call there is nothing but the function, which has no name there. -/
theorem Site.inScope_entry {S : Site} {φ : Roles} (h : φ S.frame.base ≠ .value) :
    S.InScope φ [""] S.outer where
  slot name k hname hk := by
    unfold slot? at hk
    rw [if_neg (Ne.symm hname)] at hk
    cases hk
  outer _ _ _ := rfl
  taken k hk := by
    obtain rfl : k = 0 := Nat.lt_one_iff.1 hk
    exact h

section Variables

variable {locals : List String} {env : Env} {name : String} {found : Place} {w : UInt16}
  {g : Handle} {kept : Array Value} {vs : List Value}

/-- A slot that is a variable has its value. -/
theorem Left.slot (h : Left S φ β m place values μ m' γ kept vs) {k : Nat} (hg : φ k = .bound g) :
    ∃ w v, m'.stack[k]? = some w ∧ μ.heap.cell? g = some (.closed v) ∧ w.Similar γ v := by
  obtain ⟨v, hv, hsimilar⟩ := h.here.models.slots k g hg
  have hlt : k < m'.stack.size := by
    have := h.bound_lt hg
    rw [h.stack, Array.size_append]
    omega
  rw [Array.getElem?_eq_getElem hlt] at hsimilar
  exact ⟨_, v, Array.getElem?_eq_getElem hlt, hv, hsimilar⟩

theorem Eval.readCell_eq (hv : μ.heap.cell? g = some (.closed v)) : Eval.readCell g μ = .ok v μ := by
  unfold Eval.readCell
  rw [hv]

theorem Eval.read_local (hg : env.lookup name = some g) :
    Eval.read (ω := ω) env name = Eval.readCell g := by
  unfold Eval.read
  rw [hg]

/-- **A variable in a slot** is read. -/
theorem Leaves.getLocal (h : Leaves S φ β m place values μ m') (hg : φ (S.frame.base + w.toNat) = .bound g)
    (hc : S.Has place ((⟨.getLocal, w⟩, line) :: rest)) :
    Follows bound m' (fun r => Leaves S φ β m (place + 3) (values ++ [r])) (Eval.readCell g μ) := by
  obtain ⟨γ, kept, vs, hl⟩ := h
  obtain ⟨u, v, hu, hv, hsimilar⟩ := hl.slot hg
  rw [Eval.readCell_eq hv]
  refine hl.push ((hl.here.step hc 3 rfl).trans ?_) hsimilar
  simp only [Machine.exec, (hl.here.moved _).base, hu]
  rfl

/-- **A variable is read.** -/
theorem Leaves.read (h : Leaves S φ β m place values μ m') (hs : S.InScope φ locals env)
    (hname : name ≠ "") (hf : S.tables.Finds locals name found w)
    (hc : S.Has place ((readInstr found w, line) :: rest)) :
    Follows bound m' (fun r => Leaves S φ β m (place + 3) (values ++ [r]))
      (Eval.read env name μ) := by
  obtain ⟨γ, kept, vs, hl⟩ := h
  have hm := hl.here.models
  have hstep := hl.here.step hc 3 (size_readInstr found w)
  have hbehind := hl.here.moved (place + 3)
  cases hf with
  | slot hslot =>
    obtain ⟨g, hg, hlookup⟩ := hs.slot name _ hname hslot
    rw [Eval.read_local hlookup]
    exact Leaves.getLocal ⟨γ, kept, vs, hl⟩ hg hc
  | capture hl' hcaptured =>
    obtain ⟨k, g, hk, hg, hlink⟩ := hl.here.fits.closes.found name _ hname hcaptured
    have hlookup : env.lookup name = some g := by rw [hs.outer name hname hl', hg]
    rw [Eval.read_local hlookup]
    obtain ⟨v, hv, ⟨w', hw, hsimilar⟩ | ⟨slot, hopen, hslot⟩⟩ := hm.cells k g hlink
    · rw [Eval.readCell_eq hv]
      refine hl.push (hstep.trans ?_) hsimilar
      simp only [readInstr, Machine.exec, Machine.readCapture, hbehind.captured?, hk, hw]
      rfl
    · obtain ⟨w', v', hw, hv', hsimilar⟩ := hl.slot hslot
      rw [Eval.readCell_eq hv']
      refine hl.push (hstep.trans ?_) hsimilar
      simp only [readInstr, Machine.exec, Machine.readCapture, hbehind.captured?, hk, hopen, hw]
      rfl
  | global hl' ho hname' =>
    have hlookup : env.lookup name = none := by
      rw [hs.outer name hname hl', hl.here.fits.closes.absent name hname ho]
    unfold Eval.read
    have hglobal := hm.globals name
    simp only [readInstr, Machine.exec, hbehind.withName hname', Machine.global?] at hstep
    generalize hb : m'.globals[name]? = b at hglobal hstep
    simp only [hlookup]
    generalize μ.globals[name]? = b' at hglobal ⊢
    cases hglobal with
    | some hvalue => exact hl.push hstep hvalue.value
    | none => exact .error (.refl _) hstep (hm.withFrames _)

/-- A variable may get another value. -/
theorem Keeps.set {stack : Array Value} (h : Keeps φ stack kept) {k : Nat} (hg : φ k = .bound g)
    (v : Value) : Keeps φ stack (kept.setIfInBounds k v) where
  size := Array.size_setIfInBounds.trans h.size
  same j hj := by
    have hne : k ≠ j := by
      rintro rfl
      exact hj g hg
    rw [Array.getElem?_setIfInBounds_ne hne]
    exact h.same j hj

theorem Eval.assign_cell (hg : env.lookup name = some g) :
    Eval.assign env name v μ = .ok () { μ with heap := μ.heap.setCell g (.closed v) } := by
  unfold Eval.assign
  rw [hg]
  rfl

/-- **A slot is set** that is a variable, to the value on top of the stack. -/
theorem Left.setSlot {u : Value} (h : Left S φ β m place [v] μ m' γ kept [u]) {k : Nat}
    (hg : φ k = .bound g)
    (hstep : m'.step = ({ m' with frames := S.at_ place' } : Machine ω).setSlot k u) :
    Follows bound m' (fun _ => Leaves S φ β m place' [v])
      (.ok () { μ with heap := μ.heap.setCell g (.closed v) }) := by
  have hlt := h.bound_lt hg
  have hsize : m'.stack.size = kept.size + 1 := by
    rw [h.stack, Array.size_append]
    rfl
  have hset : m'.stack.setIfInBounds k u = kept.setIfInBounds k u ++ [u].toArray := by
    rw [h.stack, Array.setIfInBounds_append_left hlt]
  unfold Machine.setSlot at hstep
  rw [if_pos (by change k < m'.stack.size; omega)] at hstep
  have hm : ({ m' with stack := m'.stack.setIfInBounds k u, frames := S.at_ place' } :
      Machine ω).Models γ φ { μ with heap := μ.heap.setCell g (.closed v) } := by
    refine (h.here.models.withFrames _).setSlot hg
      (fun j _ _ hne => Array.getElem?_setIfInBounds_ne hne.symm) ?_
    rw [Array.getElem?_setIfInBounds_self_of_lt (by omega)]
    exact (List.forall₂_cons.1 h.similar).1
  exact .ok (.one hstep) ⟨γ, kept.setIfInBounds k u, [u], h.under, h.later.trans (.of_heap rfl),
    h.here.next (.of_heap rfl) hm rfl, h.keeps.set hg u, hset, h.similar⟩

/-- **A variable in a slot** is set to the value on top of the stack. -/
theorem Leaves.setLocal (h : Leaves S φ β m place [v] μ m') (hg : φ (S.frame.base + w.toNat) = .bound g)
    (hc : S.Has place ((⟨.setLocal, w⟩, line) :: rest)) :
    Follows bound m' (fun _ => Leaves S φ β m (place + 3) [v]) (Eval.setCell g v μ) := by
  obtain ⟨γ, kept, vs, hl⟩ := h
  obtain ⟨u, rfl⟩ : ∃ u, vs = [u] := List.length_eq_one_iff.1 hl.similar.length_eq
  have hpeek : m'.peek 0 = u := by
    unfold Machine.peek
    rw [hl.stack]
    simp
  refine hl.setSlot hg ((hl.here.step hc 3 rfl).trans ?_)
  simp only [Machine.exec, (hl.here.moved _).base]
  rw [← hpeek]
  rfl

/-- **A variable is assigned.** Its new value stays on top of the stack. -/
theorem Leaves.assign (h : Leaves S φ β m place [v] μ m') (hs : S.InScope φ locals env)
    (hname : name ≠ "") (hf : S.tables.Finds locals name found w)
    (hc : S.Has place ((writeInstr found w, line) :: rest)) :
    Follows bound m' (fun _ => Leaves S φ β m (place + 3) [v]) (Eval.assign env name v μ) := by
  obtain ⟨γ, kept, vs, hl⟩ := h
  obtain ⟨u, rfl⟩ : ∃ u, vs = [u] := List.length_eq_one_iff.1 hl.similar.length_eq
  have hu := (List.forall₂_cons.1 hl.similar).1
  have hm := hl.here.models
  have hpeek : m'.peek 0 = u := by
    unfold Machine.peek
    rw [hl.stack]
    simp
  have hstep := hl.here.step hc 3 (size_writeInstr found w)
  have hbehind := hl.here.moved (place + 3)
  -- Where the compiler found the name is where the environment has it.
  cases hf with
  | slot hslot =>
    obtain ⟨g, hg, hlookup⟩ := hs.slot name _ hname hslot
    rw [Eval.assign_cell hlookup]
    exact Leaves.setLocal ⟨γ, kept, [u], hl⟩ hg hc
  | capture hl' hcaptured =>
    obtain ⟨k, g, hk, hg, hlink⟩ := hl.here.fits.closes.found name _ hname hcaptured
    have hlookup : env.lookup name = some g := by rw [hs.outer name hname hl', hg]
    rw [Eval.assign_cell hlookup]
    simp only [writeInstr, Machine.exec, Machine.writeCapture, hbehind.captured?, hk] at hstep
    obtain ⟨v', -, ⟨w', hw, -⟩ | ⟨slot, hopen, hslot⟩⟩ := hm.cells k g hlink
    · simp only [hw] at hstep
      rw [← hpeek] at hu
      exact .ok (.one hstep) (hl.next (.of_recells (.setCell _ _ _))
        ((hm.setCell hlink hw hu).withFrames _) rfl hl.stack hl.similar)
    · simp only [hopen] at hstep
      rw [← hpeek] at hl
      exact hl.setSlot hslot hstep
  | global hl' ho hname' =>
    have hlookup : env.lookup name = none := by
      rw [hs.outer name hname hl', hl.here.fits.closes.absent name hname ho]
    have hglobal := hm.globals name
    simp only [writeInstr, Machine.exec, hbehind.withName hname', Machine.assignGlobal] at hstep
    unfold Eval.assign
    simp only [hlookup]
    generalize hb : m'.globals[name]? = b at hglobal hstep
    generalize μ.globals[name]? = b' at hglobal ⊢
    cases hglobal with
    | none => exact .error (.refl _) hstep (hm.withFrames _)
    | @some b b' hvalue =>
      dsimp only at hstep ⊢
      rw [← hvalue.isMutable]
      by_cases hmutable : b.isMutable
      · rw [if_pos hmutable] at hstep ⊢
        rw [← hpeek] at hu
        exact .ok (.one hstep) (hl.next (.of_heap rfl) ((hm.withFrames _).withGlobal name hu true) rfl
          hl.stack hl.similar)
      · rw [if_neg hmutable] at hstep ⊢
        exact .error (.refl _) hstep (hm.withFrames _)

end Variables

end DeployScript
