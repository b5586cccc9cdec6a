import DeployScript.Proofs.Machine.Code
import DeployScript.Proofs.Machine.Isomorphic

/-!
# Sound machines

What holds of a machine on which nothing has failed. Its values are similar to themselves under
links that join no functions, so that every handle in them is that of an object of its kind, and no
value is a function without cells.

* `Heap.Sound` — closures have the cells that their code asks for, and all code is shaped.
* `Machine.Sound` — the open cells of the heap are exactly those that the machine lists, and no two
  of them are one slot.
* `Framed` — the stack is cut into the frames of the calls, each as high as its code says.
* `Running`, `Idle` — a machine in the middle of a run, and between two.
-/

namespace DeployScript

open Annotated

/-- **A sound heap:** its values are similar to themselves, and its code fits together. -/
structure Heap.Sound (β : Link) (heap : Heap) : Prop where
  twin : heap.Twin β heap
  functions : ∀ h h', ¬ β .function h h'
  closures : ∀ h h', β .closure h h' → (heap.closure? h).isSome
  coded : heap.Coded
  captures : ∀ h c, heap.closure? h = some c → ∃ p, heap.function? c.function = some p ∧
    c.cells.size = p.captures ∧ ∀ g ∈ c.cells, (heap.cell? g).isSome
  cells : ∀ h v, heap.cell? h = some (.closed v) → v.Similar β v

namespace Heap.Sound

variable {β γ : Link} {heap next : Heap}

/-- Operations on data keep a heap sound. -/
theorem extend (hs : heap.Sound β) (hx : Heap.Extends β heap heap γ next next) :
    next.Sound γ where
  twin := hx.twin
  functions h h' hh := by
    rcases hx.code _ _ _ hh with he | he | hh
    · cases he
    · cases he
    · exact hs.functions h h' hh
  closures h h' hh := by
    rcases hx.code _ _ _ hh with he | he | hh
    · cases he
    · cases he
    · rw [hx.steady.closure]
      exact hs.closures h h' hh
  coded := hs.coded.congr hx.steady.function
  captures h c hc := by
    rw [hx.steady.closure] at hc
    obtain ⟨p, hp, hsize, hcells⟩ := hs.captures h c hc
    refine ⟨p, (hx.steady.function _).trans hp, hsize, fun g hg => ?_⟩
    rw [hx.steady.cell]
    exact hcells g hg
  cells h v hv := by
    rw [hx.steady.cell] at hv
    exact (hs.cells h v hv).mono hx.le

/-- A cell gets a value of its own. -/
theorem setCell (hs : heap.Sound β) {h : Handle} {c : Cell} (hc : heap.cell? h = some c) {v : Value}
    (hv : v.Similar β v) : (heap.setCell h (.closed v)).Sound β := by
  rw [Heap.cell?_eq] at hc
  have hother := Heap.other_setCell hc (.closed v)
  have hname := Heap.functionName?_congr (fun g => (hother g).1) fun g => (hother g).2.1
  refine ⟨⟨Heap.wf_update hs.twin.wf _, Heap.wf_update hs.twin.wf _, hs.twin.one, hs.twin.kind,
    ?live, ?array, ?record, ?named⟩, hs.functions, fun g g' hg => ?_,
    hs.coded.congr fun g => (hother g).1, fun g d hd => ?_, fun g w hw => ?_⟩
  case live =>
    intro k g g' hg
    rw [(hother g).2.2.2.2, (hother g').2.2.2.2]
    exact hs.twin.live _ _ _ hg
  case array =>
    intro g g' hg
    rw [(hother g).2.2.1, (hother g').2.2.1]
    exact hs.twin.array _ _ hg
  case record =>
    intro g g' hg
    rw [(hother g).2.2.2.1, (hother g').2.2.2.1]
    exact hs.twin.record _ _ hg
  case named =>
    intro g g' hg
    rw [hname, hname]
    exact hs.twin.named _ _ hg
  · rw [(hother g).2.1]
    exact hs.closures g g' hg
  · rw [(hother g).2.1] at hd
    obtain ⟨p, hp, hsize, hcells⟩ := hs.captures g d hd
    refine ⟨p, (hother _).1.trans hp, hsize, fun k hk => ?_⟩
    rw [Heap.cell?_setCell hc]
    split
    · rfl
    · exact hcells k hk
  · rw [Heap.cell?_setCell hc] at hw
    split at hw
    · cases hw
      exact hv
    · exact hs.cells g w hw

/-- Objects are stored that are no closures, no closed cells, and not linked. -/
theorem keep (hs : heap.Sound β) (hw : next.Wf)
    (hkeep : heap.Kept next)
    (hclosure : ∀ g, next.closure? g = heap.closure? g)
    (hcells : ∀ g v, next.cell? g = some (.closed v) → heap.cell? g = some (.closed v))
    (hcoded : next.Coded) : next.Sound β where
  twin := hs.twin.keep hw hw hkeep hkeep
  functions := hs.functions
  closures g g' hg := by
    rw [hclosure]
    exact hs.closures g g' hg
  coded := hcoded
  captures g c hc := by
    rw [hclosure] at hc
    obtain ⟨p, hp, hsize, hcs⟩ := hs.captures g c hc
    refine ⟨p, hkeep.function? hp, hsize, fun k hk => ?_⟩
    obtain ⟨d, hd⟩ := Option.isSome_iff_exists.1 (hcs k hk)
    rw [hkeep.cell? hd]
    rfl
  cells g v hv := hs.cells g v (hcells g v hv)

end Heap.Sound

namespace Machine

variable {ω : Type}

/-- Whether a slot of the stack is a cell. -/
def Open (m : Machine ω) (slot : Nat) : Prop := ∃ h, m.heap.cell? h = some (.opened slot)

/-- **A sound machine.** -/
structure Sound (β : Link) (m : Machine ω) : Prop where
  heap : m.heap.Sound β
  stack : ∀ v ∈ m.stack, v.Similar β v
  globals : Matching (Binding.Similar β) m.globals m.globals
  builtins : ∀ name, β.builtin name → (m.library.get? name).isSome
  opened : ∀ h, h ∈ m.opened ↔ ∃ slot, m.heap.cell? h = some (.opened slot)
  alone : ∀ h h' slot, m.heap.cell? h = some (.opened slot) →
    m.heap.cell? h' = some (.opened slot) → h = h'
  nodup : m.opened.Nodup

end Machine

/-- **A call that stands** where its code has a shape `t`. -/
def Frame.Stands (heap : Heap) (f : Frame) (t : StackShape) : Prop :=
  ∃ c p l, heap.closure? f.closure = some c ∧ heap.function? c.function = some p ∧
    p.chunk = f.chunk ∧ p.Shaped heap l ∧ Known 0 l f.ip t ∧
    Instr.Path p.chunk.code p.params.length f.ip t.height

/-- Calls stand as they did while code is kept. -/
theorem Frame.Stands.mono {heap next : Heap} {f : Frame} {t : StackShape} (hs : f.Stands heap t)
    (hclosure : ∀ h c, heap.closure? h = some c → next.closure? h = some c)
    (hfunction : ∀ h p, heap.function? h = some p → next.function? h = some p) :
    f.Stands next t := by
  obtain ⟨c, p, l, hc, hp, hchunk, hl, hk, hpath⟩ := hs
  exact ⟨c, p, l, hclosure _ _ hc, hfunction _ _ hp, hchunk,
    hl.mono fun g q _ hq => hfunction _ _ hq, hk, hpath⟩

namespace Machine

/-- **The frames of the calls under way** on a stack with `size` values, the innermost first. What
may be open in a frame is what its code says, below `limit`. The callee of a call lies where its
frame starts. -/
def Framed (heap : Heap) (isOpen : Nat → Prop) : (size limit : Nat) → List Frame → Prop
  | _, _, [] => True
  | size, limit, f :: frames =>
    (∃ t, f.Stands heap t ∧ f.base + t.height = size ∧
      ∀ slot, isOpen slot → f.base ≤ slot → slot < limit → t.shared (slot - f.base)) ∧
    f.base ≤ limit ∧ (frames = [] → f.base = 0) ∧
    Framed heap isOpen (f.base + 1) f.base frames

/-- Frames stay framed while calls stand and no more slots are open. -/
theorem Framed.mono {heap next : Heap} {isOpen isOpen' : Nat → Prop} {size limit : Nat}
    {frames : List Frame} (hf : Framed heap isOpen size limit frames)
    (hstands : ∀ f ∈ frames, ∀ t, f.Stands heap t → f.Stands next t)
    (hopen : ∀ slot, slot < limit → isOpen' slot → isOpen slot) :
    Framed next isOpen' size limit frames := by
  induction frames generalizing size limit with
  | nil => trivial
  | cons f frames ih =>
    obtain ⟨⟨t, ht, hsize, hshared⟩, hlimit, hbottom, hrest⟩ := hf
    refine ⟨⟨t, hstands f List.mem_cons_self t ht, hsize, fun slot ho hge hlt => ?_⟩, hlimit, hbottom,
      ih hrest (fun g hg => hstands g (List.mem_cons_of_mem _ hg)) fun slot hlt ho => ?_⟩
    · exact hshared slot (hopen slot hlt ho) hge hlt
    · exact hopen slot (Nat.lt_of_lt_of_le hlt hlimit) ho

variable {ω : Type}

/-- **A machine in the middle of a run.** -/
structure Running (m : Machine ω) : Prop where
  sound : ∃ β, m.Sound β
  below : ∀ slot, m.Open slot → slot < m.stack.size
  busy : m.frames ≠ []
  framed : Framed m.heap m.Open m.stack.size m.stack.size m.frames

/-- **A machine between two runs.** -/
structure Idle (m : Machine ω) : Prop where
  sound : ∃ β, m.Sound β
  stack : m.stack = #[]
  frames : m.frames = []
  opened : m.opened = []

/-! ### Values -/

namespace Sound

variable {β γ : Link} {m : Machine ω} {v : Value}

theorem push (hs : m.Sound β) (hv : v.Similar β v) : (m.push v).Sound β where
  heap := hs.heap
  stack w hw := (Array.mem_push.1 hw).elim (hs.stack w) fun he => he ▸ hv
  globals := hs.globals
  builtins := hs.builtins
  opened := hs.opened
  alone := hs.alone
  nodup := hs.nodup

/-- The stack may lose values. -/
theorem withStack (hs : m.Sound β) {stack : Array Value} (hsub : ∀ v ∈ stack, v.Similar β v) :
    ({ m with stack } : Machine ω).Sound β :=
  { hs with stack := hsub }

theorem get (hs : m.Sound β) {i : Nat} (hv : m.stack[i]? = some v) : v.Similar β v :=
  hs.stack v (Array.mem_of_getElem? hv)

theorem pop (hs : m.Sound β) : m.pop.1.Similar β m.pop.1 ∧ m.pop.2.Sound β := by
  refine ⟨?_, hs.withStack fun v hv => hs.stack v ?_⟩
  case refine_2 =>
    rw [← Array.mem_toList_iff, Array.toList_pop] at hv
    exact Array.mem_toList_iff.1 (List.mem_of_mem_dropLast hv)
  change (m.stack.back?.getD .nil).Similar β (m.stack.back?.getD .nil)
  cases hv : m.stack.back? with
  | none => exact .nil
  | some v => exact hs.stack v (Array.mem_of_back? hv)

theorem peek (hs : m.Sound β) (depth : Nat) : (m.peek depth).Similar β (m.peek depth) := by
  unfold Machine.peek
  split
  · cases hv : m.stack[m.stack.size - 1 - depth]? with
    | none => exact .nil
    | some v => exact hs.get hv
  · exact .nil

theorem extract (hs : m.Sound β) (start stop : Nat) :
    List.Forall₂ (Value.Similar β) (m.stack.extract start stop).toList
      (m.stack.extract start stop).toList := by
  refine List.forall₂_same.2 fun v hv => hs.stack v ?_
  rw [Array.toList_extract] at hv
  exact Array.mem_toList_iff.1 (List.mem_of_mem_drop (List.mem_of_mem_take hv))

theorem shrink (hs : m.Sound β) (size : Nat) :
    ({ m with stack := m.stack.shrink size } : Machine ω).Sound β := by
  refine hs.withStack fun v hv => hs.stack v ?_
  rw [← Array.mem_toList_iff, Array.toList_shrink] at hv
  exact Array.mem_toList_iff.1 (List.mem_of_mem_take hv)

theorem leave (hs : m.Sound β) (count : Nat) (hv : v.Similar β v) : (m.leave count v).Sound β :=
  (hs.shrink _).push hv

theorem arguments (hs : m.Sound β) (count : Nat) :
    List.Forall₂ (Value.Similar β) (m.arguments count) (m.arguments count) :=
  hs.extract _ _

theorem define (hs : m.Sound β) (name : String) (hv : v.Similar β v) (isMutable : Bool) :
    (m.define name v isMutable).Sound β :=
  { hs with globals := hs.globals.insert name ⟨hv, rfl⟩ }

theorem global (hs : m.Sound β) {name : String} {b : Binding} (hb : m.globals[name]? = some b) :
    b.value.Similar β b.value := by
  have hk := hs.globals name
  rw [hb] at hk
  cases hk with
  | some h => exact h.value

/-- Operations on data of the heap. -/
theorem extend (hs : m.Sound β) {next : Heap} (hx : Heap.Extends β m.heap m.heap γ next next) :
    ({ m with heap := next } : Machine ω).Sound γ where
  heap := hs.heap.extend hx
  stack v hv := (hs.stack v hv).mono hx.le
  globals := hs.globals.mono fun _ _ hb => hb.mono hx.le
  builtins name hname := hs.builtins name (hx.le.builtin ▸ hname)
  opened h := by
    rw [hs.opened]
    simp only [hx.steady.cell]
  alone h h' slot hh hh' := by
    rw [hx.steady.cell] at hh hh'
    exact hs.alone h h' slot hh hh'
  nodup := hs.nodup

end Sound

end Machine

end DeployScript
