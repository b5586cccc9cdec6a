import DeployScript.Proofs.Machine.Reached

/-!
# What one instruction changes

An instruction of a running machine changes few variables, and it says which: a slot or a capture that
it assigns, a global that it defines or assigns, and the values that it takes off the stack. `Effect`
lists what may be different behind it, field by field, so that what is to be shown of a run can be read
off without going through the instructions again. Most of them are quiet and have their effect by
`Effect.of_steady`; those that change cells or make a closure have one of their own.

* `Goes` — where an instruction leads: on in its call, into another one, or out of it.
* `Effect` — what it may change; `At.effect`.
* `Captures` — the cells of a new closure are all that is new.
* `At.refuses` — an assignment to an immutable global.
-/

namespace DeployScript.Machine

variable {ω : Type} {β : Link} {m m' m'' : Machine ω} {f : Frame} {callers : List Frame} {c : Closure}
  {p : Prototype Value} {i : Instr} {u : StackShape}

/-- **Where an instruction leads:** on in its call, into the call of a closure, whose callee and
arguments are on the stack, or out of it. -/
inductive Goes (m : Machine ω) (f : Frame) (callers : List Frame) (i : Instr) (m' : Machine ω) : Prop
  | on {place : Nat} (hplace : place ∈ i.targets (f.ip + i.size))
    (hframes : m'.frames = { f with ip := place } :: callers)
    (hsize : m'.stack.size = m.stack.size - i.taken + i.given)
  | into {g : Frame} (hop : i.op = .call) (hbase : g.base = m.stack.size - i.taken)
    (hframes : m'.frames = g :: { f with ip := f.ip + i.size } :: callers)
    (hsize : m'.stack.size = m.stack.size)
  | out (hop : i.op = .return_) (hframes : m'.frames = callers)

/-- A call leaves a result, and goes on behind itself. -/
theorem call_leads (hop : i.op = .call) (place : Nat) : i.given = 1 ∧ place ∈ i.targets place := by
  obtain ⟨op, operand⟩ := i
  obtain rfl : op = .call := hop
  exact ⟨rfl, List.mem_cons_self⟩

/-- Where a source of a closure finds its cell: a slot of the call that makes the closure, or a cell
that the function of the call has itself. -/
def Supplies (m : Machine ω) (f : Frame) (c : Closure) (s : CaptureSource) (g : Handle) : Prop :=
  if s.isLocal then m.heap.cell? g = some (.opened (f.base + s.index.toNat))
  else c.cells[s.index.toNat]? = some g

/-- **What an instruction may change.** -/
structure Effect (m : Machine ω) (f : Frame) (callers : List Frame) (c : Closure) (i : Instr)
    (m' : Machine ω) : Prop where
  goes : m.Goes f callers i m'
  function : ∀ g, m'.heap.function? g = m.heap.function? g
  closure : ∀ g d, m.heap.closure? g = some d → m'.heap.closure? g = some d
  /-- A new closure has the cells that its sources find. -/
  made : ∀ g d, m'.heap.closure? g = some d → m.heap.closure? g = some d ∨
    ∃ w sources, i = ⟨.closure, (w, sources)⟩ ∧
      f.chunk.constants[w.toNat]? = some (.function d.function) ∧
      ∀ (k : Nat) h, d.cells[k]? = some h → ∃ s, sources[k]? = some s ∧ m'.Supplies f c s h
  /-- A cell that is open was open, or is new. None is open in a call that has returned. -/
  opened : ∀ h slot, m'.heap.cell? h = some (.opened slot) →
    (m.heap.cell? h = some (.opened slot) ∨ m.heap.cell? h = none) ∧ (i.op = .return_ → slot < f.base)
  /-- An open cell stays open, unless it gets the value of its slot for its own. The slot of a result
  is not asked for: it is empty when a return closes cells. -/
  shut : ∀ h slot, m.heap.cell? h = some (.opened slot) →
    (i.op = .return_ → slot + 1 < m.stack.size) →
    m'.heap.cell? h = some (.opened slot) ∨
      m'.heap.cell? h = some (.closed ((m.stack[slot]?).getD .nil))
  /-- A closed cell keeps its value, unless it is assigned. -/
  closed : ∀ h v, m.heap.cell? h = some (.closed v) → m'.heap.cell? h = some (.closed v) ∨
    ∃ w, i = ⟨.setCapture, w⟩ ∧ c.cells[w.toNat]? = some h
  /-- A slot under the values that are taken keeps its value, unless it is assigned, itself or as a
  capture. -/
  stack : ∀ k, k < m.stack.size - i.taken → (i.op = .return_ → k < f.base) →
    m'.stack[k]? = m.stack[k]? ∨ (∃ w, i = ⟨.setLocal, w⟩ ∧ k = f.base + w.toNat) ∨
      ∃ w h, i = ⟨.setCapture, w⟩ ∧ c.cells[w.toNat]? = some h ∧
        m.heap.cell? h = some (.opened k)
  /-- An immutable global keeps its value, unless it is defined. -/
  globals : ∀ name b, m.globals[name]? = some b → b.isMutable = false →
    m'.globals[name]? = some b ∨ ∃ w, (i = ⟨.defineLet, w⟩ ∨ i = ⟨.defineVar, w⟩) ∧
      f.chunk.names[w.toNat]? = some name

/-- **Instructions that leave code and cells alone.** -/
theorem Effect.of_steady (hgoes : m.Goes f callers i m') (hsteady : Heap.Steady m.heap m'.heap)
    (hreturn : i.op ≠ .return_)
    (hstack : ∀ k, k < m.stack.size - i.taken → m'.stack[k]? = m.stack[k]? ∨
      (∃ w, i = ⟨.setLocal, w⟩ ∧ k = f.base + w.toNat) ∨
      ∃ w h, i = ⟨.setCapture, w⟩ ∧ c.cells[w.toNat]? = some h ∧
        m.heap.cell? h = some (.opened k))
    (hglobals : ∀ name b, m.globals[name]? = some b → b.isMutable = false →
      m'.globals[name]? = some b ∨ ∃ w, (i = ⟨.defineLet, w⟩ ∨ i = ⟨.defineVar, w⟩) ∧
        f.chunk.names[w.toNat]? = some name) : m.Effect f callers c i m' where
  goes := hgoes
  function := hsteady.function
  closure g _ hd := (hsteady.closure g).trans hd
  made g _ hd := .inl ((hsteady.closure g).symm.trans hd)
  opened h _ hh := ⟨.inl ((hsteady.cell h).symm.trans hh), fun hop => absurd hop hreturn⟩
  shut h _ hh _ := .inl ((hsteady.cell h).trans hh)
  closed h _ hv := .inl ((hsteady.cell h).trans hv)
  stack k hk _ := hstack k hk
  globals := hglobals

/-- Where nothing but the frames is different. -/
theorem Effect.of_frames {frames : List Frame} (hgoes : m.Goes f callers i { m with frames })
    (hreturn : i.op ≠ .return_) : m.Effect f callers c i { m with frames } :=
  .of_steady hgoes (.refl _) hreturn (fun _ _ => .inl rfl) fun _ _ hb _ => .inl hb

/-- An instruction that leaves as many values as it takes leaves the stack as high as it is. -/
theorem At.same_size (ha : m.At β f callers c p i u) (h : i.taken = i.given) :
    m.stack.size = m.stack.size - i.taken + i.given := by
  have hdeep := ha.fits.deep
  have hheight := ha.height
  omega

/-- **Quiet instructions.** -/
theorem Effect.of_quiet (hplace : f.ip + i.size ∈ i.targets (f.ip + i.size)) (hreturn : i.op ≠ .return_)
    (hq : (m.behind f callers i).Quiet i.taken i.given m') : m.Effect f callers c i m' :=
  .of_steady (.on hplace hq.frames hq.size) hq.steady hreturn (fun k hk => .inl (hq.below k hk))
    fun name b hb _ => .inl (by rw [hq.globals]; exact hb)

/-! ### Assignments -/

section Assignments

variable {name : String} {b : Binding}

/-- Defining a global leaves all others alone. -/
theorem define_other {name' : String} (hne : name' ≠ name) (v : Value) (isMutable : Bool) :
    (m.define name' v isMutable).globals[name]? = m.globals[name]? := by
  change (m.globals.insert name' _)[name]? = _
  rw [Std.TreeMap.getElem?_insert, if_neg]
  exact fun he => hne (compare_eq_iff_eq.1 he)

theorem defineGlobal_next {name' : String} {isMutable : Bool}
    (h : m.defineGlobal name' isMutable = .next m') : m' = m.pop.2.define name' m.pop.1 isMutable := by
  unfold defineGlobal at h
  dsimp only at h
  split at h
  · split at h
    · cases h
    · exact (Outcome.next.inj h).symm
  · exact (Outcome.next.inj h).symm

theorem assignGlobal_next {name' : String} (h : m.assignGlobal name' = .next m') :
    ∃ b, m.globals[name']? = some b ∧ b.isMutable = true ∧ m' = m.define name' (m.peek 0) true := by
  unfold assignGlobal at h
  split at h
  case h_1 b hb =>
    split at h
    case isTrue hm => exact ⟨b, hb, hm, (Outcome.next.inj h).symm⟩
    case isFalse => cases h
  case h_2 => cases h

/-- Where a name is looked up, it is one of the code. -/
theorem withName_eq {w : UInt16} {next : String → Outcome ω} {o : Outcome ω}
    (hf : m.frames = f :: callers) (h : m.withName w next = o) (hstuck : o ≠ .stuck m) :
    ∃ name, f.chunk.names[w.toNat]? = some name ∧ next name = o := by
  unfold withName at h
  have hname : m.name? w = f.chunk.names[w.toNat]? := by simp [name?, hf]
  rw [hname] at h
  cases hn : f.chunk.names[w.toNat]? with
  | none =>
    rw [hn] at h
    exact absurd h.symm hstuck
  | some name =>
    rw [hn] at h
    exact ⟨name, rfl, h⟩

theorem setSlot_next {slot : Nat} {v : Value} (h : m.setSlot slot v = .next m') :
    m' = { m with stack := m.stack.setIfInBounds slot v } := by
  unfold setSlot at h
  split at h
  · exact (Outcome.next.inj h).symm
  · cases h

theorem getElem?_setIfInBounds_ne {stack : Array Value} {slot k : Nat} (v : Value) (h : k ≠ slot) :
    (stack.setIfInBounds slot v)[k]? = stack[k]? := by
  rw [Array.getElem?_setIfInBounds, if_neg (Ne.symm h)]

end Assignments

/-! ### New closures -/

/-- **New cells** that are slots of the stack, and nothing else. -/
structure Captures (m m' : Machine ω) : Prop where
  rest : ∃ heap opened, m' = { m with heap, opened }
  wf : m'.heap.Wf
  keep : ∀ g o, m.heap.get? g = some o → m'.heap.get? g = some o
  new : ∀ g o, m'.heap.get? g = some o → m.heap.get? g = some o ∨
    (m.heap.get? g = none ∧ ∃ slot, o = .cell (.opened slot))

namespace Captures

theorem refl (hw : m.heap.Wf) : m.Captures m := ⟨⟨_, _, rfl⟩, hw, fun _ _ h => h, fun _ _ h => .inl h⟩

theorem trans (h : m.Captures m') (h' : m'.Captures m'') : m.Captures m'' where
  rest := by
    obtain ⟨heap, opened, rfl⟩ := h.rest
    obtain ⟨heap', opened', rfl⟩ := h'.rest
    exact ⟨heap', opened', rfl⟩
  wf := h'.wf
  keep g o hg := h'.keep g o (h.keep g o hg)
  new g o hg := by
    rcases h'.new g o hg with hg | ⟨hnone, slot, rfl⟩
    · exact h.new g o hg
    · refine .inr ⟨?_, slot, rfl⟩
      cases ho : m.heap.get? g with
      | none => rfl
      | some o =>
        rw [h.keep g o ho] at hnone
        cases hnone

/-- Objects that are no cells are found where they were. -/
theorem same (h : m.Captures m') {o : Object} (ho : ∀ slot, o ≠ .cell (.opened slot)) (g : Handle) :
    m'.heap.get? g = some o ↔ m.heap.get? g = some o := by
  refine ⟨fun hg => ?_, h.keep g o⟩
  rcases h.new g o hg with hg | ⟨-, slot, rfl⟩
  · exact hg
  · exact absurd rfl (ho slot)

theorem function? (h : m.Captures m') (g : Handle) : m'.heap.function? g = m.heap.function? g :=
  Option.ext fun p => by
    rw [Heap.function?_eq, Heap.function?_eq, h.same (o := .function p) nofun]

theorem closure? (h : m.Captures m') (g : Handle) : m'.heap.closure? g = m.heap.closure? g :=
  Option.ext fun d => by
    rw [Heap.closure?_eq, Heap.closure?_eq, h.same (o := .closure d) nofun]

theorem cell? (h : m.Captures m') {g : Handle} {d : Cell} (hd : m.heap.cell? g = some d) :
    m'.heap.cell? g = some d := Heap.Kept.cell? h.keep hd

theorem supplies (h : m.Captures m') {s : CaptureSource} {g : Handle} (hs : m.Supplies f c s g) :
    m'.Supplies f c s g := by
  unfold Supplies at hs ⊢
  split at hs
  case isTrue hlocal =>
    rw [if_pos hlocal]
    exact h.cell? hs
  case isFalse hlocal =>
    rw [if_neg hlocal]
    exact hs

end Captures

theorem captures_capture (hw : m.heap.Wf) (slot : Nat) : m.Captures (m.capture slot).2 ∧
    (m.capture slot).2.heap.cell? (m.capture slot).1 = some (.opened slot) := by
  obtain ⟨h, hcapture, hcell⟩ | ⟨h, next, hcapture, hi, -⟩ := m.capture_cases slot
  · rw [hcapture]
    exact ⟨.refl hw, hcell⟩
  · rw [hcapture]
    obtain ⟨hnone, hw', hget⟩ := Heap.get?_insert hw hi
    refine ⟨⟨⟨_, _, rfl⟩, hw', Heap.kept_insert hw hi, fun g o hg => ?_⟩,
      Heap.cell?_eq.2 ((hget h).trans (if_pos rfl))⟩
    change next.get? g = some o at hg
    rw [hget] at hg
    split at hg
    case isTrue he =>
      subst he
      exact .inr ⟨hnone, slot, (Option.some.inj hg).symm⟩
    case isFalse => exact .inl hg

/-- **The cells of a new closure** are those that its sources find. -/
theorem captures_gather {sources : List CaptureSource} {cells cells' : Array Handle}
    (hw : m.heap.Wf) (hf : m.frames = f :: callers) (hc : m.heap.closure? f.closure = some c)
    (h : gather sources cells m = (cells', none, m')) : m.Captures m' ∧
      ∀ (k : Nat) g, cells'[k]? = some g → cells[k]? = some g ∨
        ∃ s, cells.size ≤ k ∧ sources[k - cells.size]? = some s ∧ m'.Supplies f c s g := by
  induction sources generalizing m cells with
  | nil =>
    cases h
    exact ⟨.refl hw, fun k g hg => .inl hg⟩
  | cons s sources ih =>
    -- What holds of the other sources, when a first cell has been found.
    have hrest : ∀ {m₁ : Machine ω} {g₁ : Handle}, m.Captures m₁ → m₁.Supplies f c s g₁ →
        gather sources (cells.push g₁) m₁ = (cells', none, m') → m.Captures m' ∧
        ∀ (k : Nat) g, cells'[k]? = some g → cells[k]? = some g ∨
          ∃ s', cells.size ≤ k ∧ (s :: sources)[k - cells.size]? = some s' ∧ m'.Supplies f c s' g := by
      intro m₁ g₁ hm₁ hs₁ hg₁
      have hframes : m₁.frames = f :: callers := by
        obtain ⟨heap, opened, rfl⟩ := hm₁.rest
        exact hf
      obtain ⟨hm', hcells⟩ := ih hm₁.wf hframes ((hm₁.closure? _).trans hc) hg₁
      refine ⟨hm₁.trans hm', fun k g hg => ?_⟩
      rcases hcells k g hg with hold | ⟨s', hle, hs', hsupply⟩
      · rw [Array.getElem?_push] at hold
        split at hold
        case isTrue he =>
          obtain rfl := Option.some.inj hold
          refine .inr ⟨s, he.ge, ?_, hm'.supplies hs₁⟩
          rw [he, Nat.sub_self]
          rfl
        case isFalse => exact .inl hold
      · rw [Array.size_push] at hle hs'
        refine .inr ⟨s', by omega, ?_, hsupply⟩
        rw [show k - cells.size = k - (cells.size + 1) + 1 by omega]
        exact hs'
    rw [gather] at h
    split at h
    case isTrue hlocal =>
      obtain ⟨hm₁, hcell⟩ := captures_capture hw (m.base + s.index.toNat)
      have hbase : m.base = f.base := by
        unfold Machine.base
        rw [hf]
        rfl
      refine hrest hm₁ ?_ h
      unfold Supplies
      rwa [if_pos hlocal, ← hbase]
    case isFalse hlocal =>
      have hcaptured : m.captured? s.index.toNat = c.cells[s.index.toNat]? := by
        simp [captured?, hf, hc]
      split at h
      case h_1 g₁ hg₁ =>
        refine hrest (.refl hw) ?_ h
        unfold Supplies
        rwa [if_neg hlocal, ← hcaptured]
      case h_2 => cases h

/-- **A function** is made: there is a closure more. -/
theorem Effect.of_makeClosure {w : UInt16} {sources : List CaptureSource}
    (ha : m.At β f callers c p ⟨.closure, (w, sources)⟩ u)
    (h : (m.behind f callers ⟨.closure, (w, sources)⟩).makeClosure f.ip w sources = .next m') :
    m.Effect f callers c ⟨.closure, (w, sources)⟩ m' := by
  have hw := ha.sound.heap.twin.wf
  unfold makeClosure at h
  split at h
  case h_1 => cases h
  case h_3 => cases h
  case h_2 function hconstant =>
    have hconstant : f.chunk.constants[w.toNat]? = some (.function function) := hconstant
    cases hg : gather sources #[] (m.behind f callers ⟨.closure, (w, sources)⟩) with
    | mk cells rest =>
    obtain ⟨missing, m₁⟩ := rest
    rw [hg] at h
    cases missing with
    | some index => cases h
    | none =>
      obtain ⟨hm₁, hcells⟩ := captures_gather (m := m.behind f callers ⟨.closure, (w, sources)⟩) hw rfl
        ha.closure hg
      cases hi : m₁.heap.insert (.closure { function, cells }) with
      | mk g₁ next =>
      simp only [pushNew, hi] at h
      obtain rfl := Outcome.next.inj h
      -- The new object is neither a function nor a cell.
      have hfunction := Heap.function?_insert hm₁.wf hi nofun
      have hcell := Heap.cell?_insert hm₁.wf hi nofun
      have hclosure : ∀ g d, next.closure? g = some d →
          m₁.heap.closure? g = some d ∨ d = { function, cells } := by
        intro g d hd
        rw [Heap.closure?_insert_closure hm₁.wf hi] at hd
        split at hd
        · exact .inr (Option.some.inj hd).symm
        · exact .inl hd
      obtain ⟨heap, opened, rfl⟩ := hm₁.rest
      refine ⟨.on List.mem_cons_self rfl (Array.size_push _), fun g => (hfunction g).trans (hm₁.function? g),
        fun g d hd => ?_, fun g d hd => ?_, fun g slot hh => ?_, fun g slot hh => ?_,
        fun g v hv => ?_, fun k hk _ => .inl ?_, fun name b hb _ => .inl hb⟩
      · exact (Heap.kept_insert hm₁.wf hi).closure? ((hm₁.closure? g).trans hd)
      · rcases hclosure g d hd with hd | rfl
        · exact .inl ((hm₁.closure? g).symm.trans hd)
        · refine .inr ⟨w, sources, rfl, hconstant, fun k h₁ hk => ?_⟩
          -- There were no cells to begin with, so a source supplied this one.
          rcases hcells k h₁ hk with hnone | ⟨s, -, hs, hsupply⟩
          · cases hnone
          · refine ⟨s, hs, ?_⟩
            unfold Supplies at hsupply ⊢
            split at hsupply
            case isTrue hlocal =>
              rw [if_pos hlocal]
              exact (hcell h₁).trans hsupply
            case isFalse hlocal => rwa [if_neg hlocal]
      · have hh : heap.cell? g = some (.opened slot) := (hcell g).symm.trans hh
        refine ⟨?_, nofun⟩
        rcases hm₁.new g _ (Heap.cell?_eq.1 hh) with hg | ⟨hg, -⟩
        · exact .inl (Heap.cell?_eq.2 hg)
        · refine .inr ?_
          have hg : m.heap.get? g = none := hg
          unfold Heap.cell?
          rw [hg]
      · exact fun _ => .inl ((hcell g).trans (hm₁.cell? hh))
      · exact .inl ((hcell g).trans (hm₁.cell? hv))
      · change (m.stack.push _)[k]? = _
        have hk : k < m.stack.size := hk
        rw [Array.getElem?_push, if_neg (Nat.ne_of_lt hk)]

/-! ### Cells that close -/

/-- Cells that are slots from `first` on get their values for their own; those below stay slots. The
machine may have changed before that, but not its heap. -/
theorem Effect.of_closeFrom {first : Nat} (hs : m''.Sound β) (hheap : m''.heap = m.heap)
    (hgoes : m.Goes f callers i m') (hclosed : m'.heap = (m''.closeFrom first).heap)
    (hglobals : m'.globals = m.globals) (hfirst : i.op = .return_ → first = f.base)
    (hvalues : ∀ slot, (i.op = .return_ → slot + 1 < m.stack.size) → m''.stack[slot]? = m.stack[slot]?)
    (hstack : ∀ k, k < m.stack.size - i.taken → (i.op = .return_ → k < f.base) →
      m'.stack[k]? = m.stack[k]?) : m.Effect f callers c i m' := by
  obtain ⟨-, hfunction, hclosure, hcell, -⟩ := hs.closeFrom first
  rw [← hclosed, hheap] at hfunction hclosure hcell
  refine ⟨hgoes, hfunction, fun g _ hd => (hclosure g).trans hd,
    fun g _ hd => .inl ((hclosure g).symm.trans hd), fun h slot hh => ?_,
    fun h slot hh hslot => ?_, fun h v hv => .inl ?_, fun k hk hr => .inl (hstack k hk hr),
    fun name b hb _ => .inl ?_⟩
  · rw [hcell] at hh
    obtain ⟨d, hd, he⟩ := Option.map_eq_some_iff.1 hh
    cases d with
    | closed v => cases he
    | opened s =>
      rw [Cell.closedFrom] at he
      split at he
      case isTrue => cases he
      case isFalse hlt =>
        cases he
        exact ⟨.inl hd, fun hop => hfirst hop ▸ Nat.lt_of_not_le hlt⟩
  · rw [hcell, hh, Option.map_some, Cell.closedFrom, hvalues slot hslot]
    split
    · exact .inr rfl
    · exact .inl rfl
  · rw [hcell, hv]
    rfl
  · rwa [hglobals]

/-! ### All instructions -/

/-- What a call of a closure comes to, if it starts. -/
theorem enter_next {h : Handle} {count : Nat} (he : m.enter h count = .next m') :
    ∃ g : Frame, g.base = m.stack.size - count - 1 ∧ m' = { m with frames := g :: m.frames } := by
  unfold enter at he
  split at he
  · cases he
  · split at he
    · cases he
    · split at he
      · cases he
      · exact ⟨_, rfl, (Outcome.next.inj he).symm⟩

theorem At.effect_call {count : UInt8} (ha : m.At β f callers c p ⟨.call, count⟩ u)
    (h : (m.behind f callers ⟨.call, count⟩).call ((m.behind f callers ⟨.call, count⟩).peek count.toNat)
      count.toNat = .next m') : m.Effect f callers c ⟨.call, count⟩ m' := by
  have hs := ha.sound_behind
  have hquiet : ∀ {o}, (m.behind f callers ⟨.call, count⟩).Quietly (count.toNat + 1) 1 o →
      o = .next m' → m.Effect f callers c ⟨.call, count⟩ m' := by
    intro o ho he
    subst he
    cases ho with
    | next _ hq => exact .of_quiet List.mem_cons_self nofun hq
  have hcallee := hs.peek count.toNat
  generalize (m.behind f callers ⟨.call, count⟩).peek count.toNat = callee at h hcallee
  cases hcallee with
  | closure hh =>
    obtain ⟨g, hbase, rfl⟩ := enter_next h
    exact .of_frames (.into rfl hbase rfl rfl) nofun
  | function hh => exact absurd hh (hs.heap.functions _ _)
  | intrinsic f => exact hquiet (hs.callIntrinsic f count.toNat) h
  | builtin hname => exact hquiet (hs.callBuiltin hname count.toNat) h
  | _ => cases h

theorem At.effect_return (ha : m.At β f callers c p ⟨.return_, ()⟩ u)
    (h : (m.behind f callers ⟨.return_, ()⟩).return_ = .next m' ∨
      ∃ v, (m.behind f callers ⟨.return_, ()⟩).return_ = .done v m') :
    m.Effect f callers c ⟨.return_, ()⟩ m' := by
  have hdeep : 1 ≤ u.height := ha.fits.deep
  have hheight := ha.height
  let popped : Machine ω := { (m.behind f callers ⟨.return_, ()⟩).pop.2 with frames := callers }
  have hpopped : popped.Sound β := { ha.sound_behind.pop.2 with builtins := ha.sound.builtins }
  have hbelow : ∀ k, k < f.base → (m.stack.pop.shrink f.base)[k]? = m.stack[k]? := by
    intro k hk
    rw [← Array.getElem?_toList, Array.toList_shrink, List.getElem?_take_of_lt hk,
      Array.getElem?_toList, Array.getElem?_pop, if_pos (by omega)]
  have hsize : (m.stack.pop.shrink f.base).size = f.base := by
    rw [Array.size_shrink, Array.size_pop]
    omega
  have hvalues : ∀ slot, (Instr.op ⟨.return_, ()⟩ = .return_ → slot + 1 < m.stack.size) →
      popped.stack[slot]? = m.stack[slot]? := by
    intro slot hslot
    have hlt := hslot rfl
    change m.stack.pop[slot]? = _
    rw [Array.getElem?_pop, if_pos (by omega)]
  cases callers with
  | nil =>
    obtain ⟨v, h⟩ := h.resolve_left nofun
    obtain ⟨-, rfl⟩ := Outcome.done.inj h
    exact .of_closeFrom hpopped rfl (.out rfl rfl) rfl rfl (fun _ => rfl) hvalues
      fun k _ hk => hbelow k (hk rfl)
  | cons caller callers =>
    obtain h := h.resolve_right nofun
    obtain rfl := Outcome.next.inj h
    refine .of_closeFrom hpopped rfl (.out rfl rfl) rfl rfl (fun _ => rfl) hvalues fun k _ hk => ?_
    have hlt := hk rfl
    change ((m.stack.pop.shrink f.base).push _)[k]? = _
    rw [Array.getElem?_push, if_neg (by omega), hbelow k hlt]

theorem At.effect_closeCapture (ha : m.At β f callers c p ⟨.closeCapture, ()⟩ u) :
    m.Effect f callers c ⟨.closeCapture, ()⟩ ((m.behind f callers ⟨.closeCapture, ()⟩).closeFrom
      ((m.behind f callers ⟨.closeCapture, ()⟩).stack.size - 1)).pop.2 := by
  refine .of_closeFrom ha.sound_behind rfl (.on List.mem_cons_self rfl Array.size_pop) rfl rfl nofun
    (fun _ _ => rfl) fun k hk _ => ?_
  have hk : k < m.stack.size - 1 := hk
  change m.stack.pop[k]? = _
  rw [Array.getElem?_pop, if_pos hk]

theorem At.effect_setCapture {w : UInt16} (ha : m.At β f callers c p ⟨.setCapture, w⟩ u)
    (h : (m.behind f callers ⟨.setCapture, w⟩).writeCapture w.toNat = .next m') :
    m.Effect f callers c ⟨.setCapture, w⟩ m' := by
  obtain ⟨g, hg, hlive⟩ := ha.sound_behind.captured? rfl ha.closure ha.function ha.fits.operand
  have hcell : c.cells[w.toNat]? = some g := by
    simpa [captured?, behind, ha.closure] using hg
  obtain ⟨d, hd⟩ := Option.isSome_iff_exists.1 hlive
  have hd : m.heap.cell? g = some d := hd
  unfold writeCapture at h
  simp only [hg, show (m.behind f callers ⟨.setCapture, w⟩).heap.cell? g = some d from hd] at h
  cases d with
  | opened slot =>
    obtain rfl := setSlot_next h
    refine .of_steady (.on List.mem_cons_self rfl (Array.size_setIfInBounds.trans (ha.same_size rfl)))
      (.refl _) (fun he => by cases he) (fun k _ => ?_) fun _ _ hb _ => .inl hb
    by_cases hk : k = slot
    · exact .inr (.inr ⟨w, g, rfl, hcell, hk ▸ hd⟩)
    · exact .inl (getElem?_setIfInBounds_ne _ hk)
  | closed v =>
    obtain rfl := Outcome.next.inj h
    have hget := Heap.cell?_eq.1 hd
    have hother := Heap.other_setCell hget
      (.closed ((m.behind f callers ⟨.setCapture, w⟩).peek 0))
    have hcells := Heap.cell?_setCell hget
      (.closed ((m.behind f callers ⟨.setCapture, w⟩).peek 0))
    refine ⟨.on List.mem_cons_self rfl (ha.same_size rfl), fun k => (hother k).1, fun k _ hk => (hother k).2.1.trans hk,
      fun k _ hk => .inl ((hother k).2.1.symm.trans hk), fun k slot hk => ⟨.inl ?_, fun he => by cases he⟩,
      fun k slot hk _ => .inl ?_, fun k v hk => ?_, fun _ _ _ => .inl rfl,
      fun _ _ hb _ => .inl hb⟩
    · change (m.heap.setCell g _).cell? k = _ at hk
      rw [hcells] at hk
      split at hk
      · cases hk
      · exact hk
    · change (m.heap.setCell g _).cell? k = _
      rw [hcells, if_neg, hk]
      rintro rfl
      rw [hd] at hk
      cases hk
    · by_cases he : k = g
      · exact .inr ⟨w, rfl, he ▸ hcell⟩
      · refine .inl ?_
        change (m.heap.setCell g _).cell? k = _
        rw [hcells, if_neg he, hk]

theorem At.effect_setLocal {w : UInt16} {v : Value} (ha : m.At β f callers c p ⟨.setLocal, w⟩ u)
    (h : (m.behind f callers ⟨.setLocal, w⟩).setSlot (f.base + w.toNat) v = .next m') :
    m.Effect f callers c ⟨.setLocal, w⟩ m' := by
  obtain rfl := setSlot_next h
  refine .of_steady (.on List.mem_cons_self rfl (Array.size_setIfInBounds.trans (ha.same_size rfl)))
    (.refl _) nofun (fun k _ => ?_) fun _ _ hb _ => .inl hb
  by_cases hk : k = f.base + w.toNat
  · exact .inr (.inl ⟨w, rfl, hk⟩)
  · exact .inl (getElem?_setIfInBounds_ne _ hk)

/-- A global is defined. -/
theorem Effect.of_define {w : UInt16} {isMutable : Bool} (hi : i = ⟨.defineLet, w⟩ ∨ i = ⟨.defineVar, w⟩)
    (h : (m.behind f callers i).withName w (fun name => (m.behind f callers i).defineGlobal name isMutable)
      = .next m') : m.Effect f callers c i m' := by
  obtain ⟨name, hname, h⟩ := withName_eq rfl h nofun
  obtain rfl := defineGlobal_next h
  have htaken : i.taken = 1 ∧ i.given = 0 ∧ f.ip + i.size ∈ i.targets (f.ip + i.size) ∧
      i.op ≠ .return_ := by
    rcases hi with rfl | rfl
    · exact ⟨rfl, rfl, List.mem_cons_self, nofun⟩
    · exact ⟨rfl, rfl, List.mem_cons_self, nofun⟩
  obtain ⟨htaken, hgiven, hplace, hreturn⟩ := htaken
  refine .of_steady (.on hplace rfl ?_) (.refl _) hreturn (fun k hk => .inl ?_) fun name' b hb _ => ?_
  · rw [htaken, hgiven]
    exact Array.size_pop
  · rw [htaken] at hk
    change m.stack.pop[k]? = _
    rw [Array.getElem?_pop, if_pos hk]
  · by_cases he : name' = name
    · exact .inr ⟨w, hi, he ▸ hname⟩
    · exact .inl ((define_other (Ne.symm he) _ _).trans hb)

theorem At.effect_setGlobal {w : UInt16} (ha : m.At β f callers c p ⟨.setGlobal, w⟩ u)
    (h : (m.behind f callers ⟨.setGlobal, w⟩).withName w
      (fun name => (m.behind f callers ⟨.setGlobal, w⟩).assignGlobal name) = .next m') :
    m.Effect f callers c ⟨.setGlobal, w⟩ m' := by
  obtain ⟨name, -, h⟩ := withName_eq rfl h nofun
  obtain ⟨b, hb, hmutable, rfl⟩ := assignGlobal_next h
  refine .of_steady (.on List.mem_cons_self rfl (ha.same_size rfl)) (.refl _) nofun
    (fun _ _ => .inl rfl) fun name' b' hb' himmutable => .inl ?_
  refine (define_other ?_ _ _).trans hb'
  rintro rfl
  have he : b = b' := Option.some.inj (hb.symm.trans hb')
  rw [← he, hmutable] at himmutable
  cases himmutable

/-- **Only a return** ends a run. -/
theorem At.exec_ne_done {v : Value} (ha : m.At β f callers c p i u) (hreturn : i.op ≠ .return_) :
    (m.behind f callers i).exec f.ip i ≠ .done v m' := by
  have hs := ha.sound_behind
  have hquiet := ha.quietly
  have hnamed : ∀ {w : UInt16} {size : Nat} {next : String → Outcome ω},
      w.toNat < (m.heap.pool p).names → (∀ name, (m.behind f callers i).Calmly size (next name)) →
      (m.behind f callers i).withName w next ≠ .done v m' := by
    intro w size next hlt hnext
    refine Sound.withName (f := { f with ip := f.ip + i.size }) (Q := (· ≠ .done v m')) rfl
      (show _ < f.chunk.names.size from ha.chunk ▸ hlt) fun name he => ?_
    have hcalm := hnext name
    rw [he] at hcalm
    cases hcalm
  have hsetSlot : ∀ {slot : Nat} {v' : Value}, (m.behind f callers i).setSlot slot v' ≠ .done v m' := by
    intro slot v'
    unfold setSlot
    split <;> exact nofun
  have hjumpIf : ∀ (condition : Value → Bool) (distance : UInt16),
      (m.behind f callers i).jumpIf condition distance ≠ .done v m' := by
    intro condition distance
    unfold Machine.jumpIf
    split <;> exact nofun
  obtain ⟨op, operand⟩ := i
  have hfits := ha.fits.operand
  -- Calls, closures, jumps and writes are looked at one by one; all others are quiet, and a quiet
  -- instruction does not end a run.
  cases op with
  | return_ => exact absurd rfl hreturn
  | call => exact call_ne_done _ _ _ _ _
  | closure =>
    change Machine.makeClosure _ _ _ _ ≠ _
    unfold Machine.makeClosure
    split
    · exact nofun
    · generalize gather operand.2 #[] _ = gathered
      obtain ⟨cells, missing, m₁⟩ := gathered
      cases missing <;> exact nofun
    · exact nofun
  | closeCapture => exact nofun
  | jump => exact nofun
  | jumpIfFalse => exact hjumpIf (fun v => !v.isTruthy) operand
  | jumpIfTrue => exact hjumpIf Value.isTruthy operand
  | loop =>
    change (if operand.toNat ≤ _ then _ else _) ≠ _
    split <;> exact nofun
  | defineLet => exact hnamed hfits fun name => hs.defineGlobal name false
  | defineVar => exact hnamed hfits fun name => hs.defineGlobal name true
  | setGlobal => exact hnamed hfits fun name => hs.assignGlobal name
  | setLocal => exact hsetSlot
  | setCapture =>
    change writeCapture _ _ ≠ _
    unfold writeCapture
    split
    · exact nofun
    · dsimp only
      split
      · exact hsetSlot
      · exact nofun
      · exact nofun
  | _ =>
    intro he
    have hq := hquiet rfl
    rw [he] at hq
    cases hq

/-- **The effect of an instruction,** whether the run goes on behind it or ends. -/
theorem At.effect (ha : m.At β f callers c p i u)
    (h : m.step = .next m' ∨ ∃ v, m.step = .done v m') : m.Effect f callers c i m' := by
  have hstep : m.step = (m.behind f callers i).exec f.ip i := by
    unfold step
    simp only [ha.frames, ha.decode, ha.moved]
  rw [hstep] at h
  have hnext : i.op ≠ .return_ → (m.behind f callers i).exec f.ip i = .next m' :=
    fun hreturn => h.resolve_right fun ⟨v, hv⟩ => ha.exec_ne_done hreturn hv
  -- Quiet instructions are one case and conditional jumps another; the rest is looked at one by
  -- one.
  have hquiet : i.op.isQuiet = true → f.ip + i.size ∈ i.targets (f.ip + i.size) → i.op ≠ .return_ →
      m.Effect f callers c i m' := by
    intro hq hplace hreturn
    have ho := ha.quietly hq
    rw [hnext hreturn] at ho
    cases ho with
    | next _ hq => exact .of_quiet hplace hreturn hq
  have hjumpIf : ∀ (condition : Value → Bool) {distance : UInt16}, i.op ≠ .return_ →
      f.ip + i.size ∈ i.targets (f.ip + i.size) →
      f.ip + i.size + distance.toNat ∈ i.targets (f.ip + i.size) → i.taken = i.given →
      (m.behind f callers i).jumpIf condition distance = .next m' → m.Effect f callers c i m' := by
    intro condition distance hreturn hplace hplace' hsame he
    unfold Machine.jumpIf at he
    split at he
    · obtain rfl := Outcome.next.inj he
      exact .of_frames (.on hplace' rfl (ha.same_size hsame)) hreturn
    · obtain rfl := Outcome.next.inj he
      exact .of_frames (.on hplace rfl (ha.same_size hsame)) hreturn
  obtain ⟨op, operand⟩ := i
  cases op with
  | return_ => exact ha.effect_return h
  | call => exact ha.effect_call (hnext nofun)
  | closure => exact .of_makeClosure ha (hnext nofun)
  | closeCapture =>
    obtain rfl := Outcome.next.inj (hnext nofun)
    exact ha.effect_closeCapture
  | jump =>
    obtain rfl := Outcome.next.inj (hnext nofun)
    exact .of_frames (.on List.mem_cons_self rfl (ha.same_size rfl)) nofun
  | jumpIfFalse =>
    exact hjumpIf (fun v => !v.isTruthy) nofun List.mem_cons_self
      (List.mem_cons_of_mem _ List.mem_cons_self) rfl (hnext nofun)
  | jumpIfTrue =>
    exact hjumpIf Value.isTruthy nofun List.mem_cons_self
      (List.mem_cons_of_mem _ List.mem_cons_self) rfl (hnext nofun)
  | loop =>
    have he := hnext nofun
    change (if operand.toNat ≤ _ then _ else _) = _ at he
    split at he
    · obtain rfl := Outcome.next.inj he
      exact .of_frames (.on List.mem_cons_self rfl (ha.same_size rfl)) nofun
    · cases he
  | defineLet => exact .of_define (.inl rfl) (hnext nofun)
  | defineVar => exact .of_define (.inr rfl) (hnext nofun)
  | setGlobal => exact ha.effect_setGlobal (hnext nofun)
  | setLocal => exact ha.effect_setLocal (hnext nofun)
  | setCapture => exact ha.effect_setCapture (hnext nofun)
  | _ => exact hquiet rfl List.mem_cons_self nofun

/-- **An assignment to an immutable global** fails and changes no global. -/
theorem At.refuses {w : UInt16} {name : String} {b : Binding}
    (ha : m.At β f callers c p ⟨.setGlobal, w⟩ u) (hname : f.chunk.names[w.toNat]? = some name)
    (hb : m.globals[name]? = some b) (hm : b.isMutable = false) :
    ∃ m', m.step = .raise (.immutableBinding name) m' ∧ m'.globals = m.globals := by
  refine ⟨m.behind f callers ⟨.setGlobal, w⟩, ?_, rfl⟩
  have hfound : (m.behind f callers ⟨.setGlobal, w⟩).name? w = some name := hname
  have hbound : (m.behind f callers ⟨.setGlobal, w⟩).globals[name]? = some b := hb
  unfold step
  simp only [ha.frames, ha.decode, ha.moved]
  simp only [Machine.exec, withName, hfound, assignGlobal, hbound, hm]
  rfl

end DeployScript.Machine
