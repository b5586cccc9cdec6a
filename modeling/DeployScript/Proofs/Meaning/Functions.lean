import Mathlib
import DeployScript.Proofs.Meaning.Exits

/-!
# Functions are made

A declaration of a function leaves a closure with the cells of the variables that its body mentions.
In a block the variable of the function is there first, so that the function can capture itself: for
the machine that is the slot which the closure is about to take.

* `Site.InScope.closes` — cells that were gathered are those of the variables in scope.
* `Here.refers` — what the instruction refers to is there.
* `Here.makesClosure` — both sides have a new function, and the one does what the other does.
* `Site.Does.function` — the declaration, in a block or as a global.
-/

namespace DeployScript

open Compile

variable {ω : Type} {S : Site} {β γ : Link} {φ ψ : Roles} {place place' bound line : Nat}
  {m m' : Machine ω} {μ μ' : Memory ω} {locals : List String} {env : Env} {v : Value}
  {rest code : Written} {sources : List CaptureSource} {w : UInt16}

/-! ### Cells -/

/-- **Cells that were gathered** are those of the variables in scope. -/
theorem Site.InScope.closes (hs : S.InScope φ locals env)
    (hc : Closes γ S.cells S.tables.captures S.tables.enclosing S.outer) {picked : List Handle}
    (hp : List.Forall₂ (Machine.Models.Picks γ φ S.frame.base S.cells) sources picked) :
    Closes γ picked.toArray sources (⟨locals, S.tables.captures⟩ :: S.tables.enclosing) env where
  found name index hname hcaptured := by
    have hpick : ∀ {s}, sources[index]? = some s → ∃ h, picked.toArray[index]? = some h ∧
        Machine.Models.Picks γ φ S.frame.base S.cells s h := by
      intro s hsource
      obtain ⟨hlength, hget⟩ := List.forall₂_iff_get.1 hp
      obtain ⟨hlt, rfl⟩ := List.getElem?_eq_some_iff.1 hsource
      have hlt' : index < picked.length := hlength ▸ hlt
      exact ⟨picked[index], by simp [hlt'], hget index hlt hlt'⟩
    cases hcaptured with
    | slot hk hl =>
      obtain ⟨h, hh, hlocal, -⟩ := hpick hk
      obtain ⟨g, hg, hlookup⟩ := hs.slot name _ hname hl
      exact ⟨h, g, hh, hlookup, hlocal rfl g hg⟩
    | outer hk hl hcaptured =>
      obtain ⟨h, hh, -, hown⟩ := hpick hk
      obtain ⟨h', g, hcell, hg, hlink⟩ := hc.found name _ hname hcaptured
      obtain rfl : h = h' := Option.some.inj ((hown rfl).symm.trans hcell)
      exact ⟨h, g, hh, (hs.outer name hname hl).trans hg, hlink⟩
  absent name hname hnone := by
    rw [hs.outer name hname (hnone _ List.mem_cons_self)]
    exact hc.absent name hname fun f hf => hnone f (List.mem_cons_of_mem _ hf)

/-! ### The instruction -/

/-- What is known of a machine that runs, at a place of its code. -/
theorem Here.at_ (h : Here S β φ place m μ) (hr : m.Running) {i : Instr}
    (hc : S.Has place ((i, line) :: rest)) : ∃ δ c p u,
      m.At δ { S.frame with ip := place } S.callers c p i u ∧ c.cells = S.cells := by
  obtain ⟨δ, f, callers, c, p, i', u, ha⟩ := hr.at_
  obtain ⟨rfl, rfl⟩ : f = { S.frame with ip := place } ∧ callers = S.callers :=
    List.cons.inj (ha.frames.symm.trans h.frames)
  obtain rfl : i' = i := Instr.Decoded.instr.inj (ha.decode.symm.trans hc.decode)
  obtain ⟨function, hclosure⟩ := h.fits.closure
  obtain rfl := Option.some.inj (ha.closure.symm.trans hclosure)
  exact ⟨δ, _, p, u, ha, rfl⟩

/-- **What the instruction refers to** is there: the function, slots of the stack or the next one, and
cells of the function that runs. -/
theorem Here.refers (h : Here S β φ place m μ) (hr : m.Running)
    (hc : S.Has place ((⟨.closure, (w, sources)⟩, line) :: rest)) :
    (∃ function, S.frame.chunk.constants[w.toNat]? = some (.function function)) ∧
      (∀ s ∈ sources, s.isLocal = true → S.frame.base + s.index.toNat ≤ m.stack.size) ∧
      ∀ s ∈ sources, s.isLocal = false → s.index.toNat < S.cells.size := by
  obtain ⟨δ, c, p, u, ha, hcells⟩ := h.at_ hr hc
  obtain ⟨⟨function, q, hconstant, -, -⟩, -, hsources⟩ := ha.fits.operand
  have hheight : S.frame.base + u.height = m.stack.size := ha.height
  obtain ⟨p', hp', hsize, -⟩ := ha.sound.heap.captures _ _ ha.closure
  obtain rfl := Option.some.inj (ha.function.symm.trans hp')
  rw [ha.chunk] at hconstant
  refine ⟨⟨function, hconstant⟩, fun s hs hlocal => ?_, fun s hs hlocal => ?_⟩
  · have hfits := hsources s hs
    rw [Instr.SourceFits, if_pos hlocal] at hfits
    omega
  · have hfits := hsources s hs
    rw [Instr.SourceFits, if_neg (by simp [hlocal])] at hfits
    rw [← hcells, hsize]
    exact hfits

/-- **A function is made** on both sides. The slots of the call are variables up to the one that the
closure is about to take. -/
theorem Here.makesClosure (h : Here S β φ place m μ) (hr : m.Running) {x : Spot} {name : String}
    {params : List String} {body : List Stmt} (hs : S.InScope φ x.locals env)
    (htaken : ∀ k, S.frame.base + k ≤ m.stack.size → φ (S.frame.base + k) ≠ .value)
    (hcode : MakesClosure S.tables name params (Stmt.CodedAll body) line x code) (hc : S.Has place code)
    (hparams : ∀ q ∈ params, q ≠ "") (hnames : Stmt.AllNames (· ≠ "") body)
    (hregular : Stmt.AllRegular body) :
    Follows bound m (fun v μ' m' => ∃ γ w, Later β m γ m' ∧
        m'.frames = S.at_ (place + Written.size code) ∧ m'.stack = m.stack.push w ∧ w.Similar γ v ∧
        ({ m' with stack := m.stack } : Machine ω).Models γ φ μ')
      (Eval.closure name { params, body, env } μ) := by
  obtain ⟨w, k, f, sources, inner, rfl, hconstant, hf, rfl, rfl, -, -, -, hinner, hreads⟩ := hcode
  obtain ⟨⟨function, hfunction⟩, hlocal, hown⟩ := h.refers hr hc
  have hhandle : S.handles[k]? = some function := by
    rw [h.fits.fill.constants, Array.getElem?_map, hconstant] at hfunction
    simp only [Option.map_some, Heap.literalValue, Option.some.injEq] at hfunction
    cases hk : S.handles[k]? with
    | none =>
      rw [hk] at hfunction
      cases hfunction
    | some g =>
      rw [hk] at hfunction
      cases hfunction
      rfl
  obtain ⟨ε, hsound⟩ := hr.sound
  -- The cells are gathered where the instruction has been read.
  have h₁ := h.moved (place + Written.size [((⟨.closure, (w, sources)⟩ : Instr), line)])
  have hsound₁ : ({ m with frames := S.at_ (place + Written.size [((⟨.closure, (w, sources)⟩ : Instr),
      line)]) } : Machine ω).Sound ε := { hsound with builtins := hsound.builtins }
  obtain ⟨owner, hclosure⟩ := h₁.fits.closure
  obtain ⟨γ, picked, heap, opened, hgather, hlater, hm₁, hpicked⟩ :=
    h₁.models.gather hsound₁ rfl hclosure sources
      (fun s hs hl => htaken _ (hlocal s hs hl)) hown #[]
  obtain ⟨f', hf', hstored⟩ := h₁.fits.installed k function hhandle
  obtain rfl : f = f' := Option.some.inj (hf.symm.trans hf')
  have hfits := h₁.fits.later hlater
  have hperforms : Closure.Performs γ heap { function, cells := picked.toArray } { params := f.params, body, env } :=
    ⟨_, { constants := f.chunk.constants, names := f.chunk.names, functions := S.tables.functions
          captures := sources, enclosing := ⟨x.locals, S.tables.captures⟩ :: S.tables.enclosing },
      (S.handles.toList.take k).toArray, inner, line, hlater.function _ _ hstored, rfl,
      hfits.installed.take k, ⟨rfl, rfl⟩, hs.closes hfits.closes hpicked, hparams, hnames, hregular, hinner,
      hreads.mapConstants _⟩
  generalize hi : heap.insert (.closure { function, cells := picked.toArray }) = inserted
  obtain ⟨g, next⟩ := inserted
  obtain ⟨γ', g', heap', lambdas, heval, hlink, hlater', hm₂, -⟩ :=
    hm₁.newClosure (hlater.function _ _ hstored) hperforms hi
  have hstep : m.step = .next { m with
      stack := m.stack.push (.closure g), heap := next, opened
      frames := S.at_ (place + Written.size [((⟨.closure, (w, sources)⟩ : Instr), line)]) } := by
    have hfound := h₁.constant? hconstant
    simp only [Heap.literalValue, hhandle, Option.map_some, Option.getD_some] at hfound
    rw [h.step hc (Written.size [((⟨.closure, (w, sources)⟩ : Instr), line)]) rfl]
    simp only [Machine.exec, Machine.makeClosure, hfound, hgather, Machine.pushNew, Array.empty_append, hi]
    rfl
  change Eval.closure f.name _ μ = _ at heval
  rw [heval]
  exact .ok (.one hstep) ⟨γ', .closure g, ⟨hlater.le.trans hlater'.le,
    fun _ _ hc => hlater'.closure _ _ (hlater.closure _ _ hc),
    fun _ _ hp => hlater'.function _ _ (hlater.function _ _ hp)⟩, rfl, rfl, .closure hlink, hm₂⟩

/-- A value that an instruction is about to take is no cell, unless the instruction sees to that. -/
theorem Here.top_closed (h : Here S β φ place m μ) (hr : m.Running) {i : Instr}
    (hc : S.Has place ((i, line) :: rest)) (htaken : 0 < i.taken) (hcloses : ¬ i.closes) :
    ¬ m.Open (m.stack.size - 1) := by
  intro hopen
  obtain ⟨δ, c, p, u, ha, -⟩ := h.at_ hr hc
  have hheight : S.frame.base + u.height = m.stack.size := ha.height
  have hdeep := ha.fits.deep
  have hshared : u.shared (m.stack.size - 1 - S.frame.base) := ha.shared _ hopen (by
    change S.frame.base ≤ _
    omega)
  exact ha.fits.unshared.resolve_left hcloses _ (by omega) (by omega) hshared

/-! ### The declaration -/

section Declaration

variable {x : Spot} {name : String} {params : List String} {body : List Stmt}

/-- **A function in a block:** its variable is there first. -/
theorem Rests.declaresFunction (h : Rests S β φ x.locals env x.offset m μ) (hr : m.Running)
    (hcode : MakesClosure S.tables name params (Stmt.CodedAll body) line
      { x with locals := name :: x.locals } code)
    (hc : S.Has x.offset code) (hparams : ∀ q ∈ params, q ≠ "") (hnames : Stmt.AllNames (· ≠ "") body)
    (hregular : Stmt.AllRegular body) :
    Follows bound m (Exits S β φ m m.stack.size x.loop (name :: x.locals)
      (x.offset + Written.size code)) ((do
        let g ← Eval.newCell .nil
        let f ← Eval.closure name { params, body, env := (name, g) :: env }
        Eval.setCell g f
        return .next ((name, g) :: env) : Eval ω Flow) μ) := by
  have hslot := h.size
  have hfree : ((m.stack[S.frame.base + x.locals.length]?).getD .nil).Similar β .nil := by
    rw [Array.getElem?_eq_none (by omega)]
    exact .nil
  refine .bind (Q := fun g μ' m' => m = m' ∧
    Here S β (φ.set (S.frame.base + x.locals.length) (.bound g)) x.offset m μ') hr (.refl ⟨rfl, h.here.next
    (.refl β m) (h.here.models.declare (h.under _ (by omega)) rfl hfree) h.here.frames⟩) ?_
  rintro g μ₁ _ hr ⟨rfl, hhere⟩
  have hscope := h.scope.declare name g
  refine .bind hr (hhere.makesClosure hr hscope (fun k hk => ?_) hcode hc hparams hnames hregular) ?_
  · exact hscope.taken k (by rw [List.length_cons]; omega)
  rintro v μ₂ m₂ hr₂ ⟨γ, w, hlater, hframes, hstack, hsimilar, hm₂⟩
  -- The closure lies in the slot of its variable.
  have hmodels : m₂.Models γ _ { μ₂ with heap := μ₂.heap.setCell g (.closed v) } := hm₂.setSlot (φ.set_self _ _)
    (fun k g' hg hne => by
      have hlt := h.under.lt ((φ.set_of_ne _ hne).symm.trans hg)
      rw [hstack, Array.getElem?_push_lt hlt, Array.getElem?_eq_getElem hlt])
    (by
      rw [hstack, ← hslot, Array.getElem?_push_size]
      exact hsimilar)
  have hsize : m₂.stack.size = S.frame.base + (name :: x.locals).length := by
    rw [hstack, Array.size_push, hslot]
    rfl
  refine .refl ⟨γ, _, ⟨hlater, fun k hk => φ.set_of_ne _ (by omega), fun k hk _ => ?_⟩,
    h.here.next hlater hmodels hframes, hscope, hsize, ?_⟩
  · rw [hstack, Array.getElem?_push_lt hk, Array.getElem?_eq_getElem hk]
  · rw [hsize]
    exact (hslot ▸ h.under).set _

/-- **A function outside all blocks:** a global is defined. -/
theorem Rests.definesFunction (h : Rests S β φ x.locals env x.offset m μ) (hr : m.Running)
    {w : UInt16} (hw : S.tables.names[w.toNat]? = some name)
    (hcode : MakesClosure S.tables name params (Stmt.CodedAll body) line x code)
    (hc : S.Has x.offset (code ++ [(defineInstr false w, line)])) (hparams : ∀ q ∈ params, q ≠ "")
    (hnames : Stmt.AllNames (· ≠ "") body) (hregular : Stmt.AllRegular body) :
    Follows bound m (Exits S β φ m m.stack.size x.loop x.locals
      (x.offset + Written.size (code ++ [(defineInstr false w, line)]))) ((do
        let f ← Eval.closure name { params, body, env }
        Eval.define name f false
        return .next env : Eval ω Flow) μ) := by
  have hslot := h.size
  have hm := h.here.models.hide (h.under (S.frame.base + x.locals.length) (by omega))
  have hhere : Here S β _ x.offset m μ := h.here.next (.refl β m) hm h.here.frames
  have hscope : S.InScope (φ.set (S.frame.base + x.locals.length) .hidden) x.locals env :=
    h.scope.congr fun k hk => φ.set_of_ne _ (by omega)
  refine .bind hr (hhere.makesClosure hr hscope (fun k hk => ?_) hcode hc.left hparams hnames hregular) ?_
  · exact h.scope.taken_set .hidden nofun name k (by rw [List.length_cons]; omega)
  rintro v μ₁ m₁ hr₁ ⟨γ, u, hlater, hframes, hstack, hsimilar, hm₁⟩
  have hsize : m₁.stack.size = m.stack.size + 1 := by rw [hstack, Array.size_push]
  have hthere : Here S γ _ _ m₁ μ₁ := hhere.next hlater (hm₁.withStack ?_) hframes
  · -- The slot of the closure is no cell, since the next instruction takes it.
    have hopen : ∀ g slot, m₁.heap.cell? g = some (.opened slot) → slot < m.stack.size := by
      intro g slot hg
      have hlt := hr₁.below slot ⟨g, hg⟩
      have hne : slot ≠ m₁.stack.size - 1 := by
        rintro rfl
        exact hthere.top_closed hr₁ hc.right (Nat.lt_succ_self 0) (by rintro (h | h) <;> cases h) ⟨g, hg⟩
      omega
    have hforgotten := hthere.models.forget hopen
    rw [← hslot, h.under.below_set] at hforgotten
    have hleaves : Leaves S φ β m (x.offset + Written.size code) [v] μ₁ m₁ :=
      ⟨γ, m.stack, [u], h.under, hlater, h.here.next hlater hforgotten hframes, .refl φ _,
        hstack.trans Array.push_eq_append, .cons hsimilar .nil⟩
    refine .bind hr₁ (hleaves.define hc.right hw) fun _ μ₂ m₂ _ hdefined => .refl ?_
    rw [Written.size_append, ← Nat.add_assoc]
    obtain ⟨δ, hstays, hrests⟩ := h.after hdefined
    exact ⟨δ, φ, hstays, hrests⟩
  · intro k g hg
    have hne : k ≠ S.frame.base + x.locals.length := by
      rintro rfl
      rw [φ.set_self] at hg
      cases hg
    have hlt := h.under.lt ((φ.set_of_ne _ hne).symm.trans hg)
    exact (congrArg (·[k]?) hstack).trans (by
      rw [Array.getElem?_push_lt hlt, Array.getElem?_eq_getElem hlt])

end Declaration

end DeployScript
