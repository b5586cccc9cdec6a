import DeployScript.Proofs.Machine.Errors
import DeployScript.Proofs.Machine.Sound

/-!
# Ordinary instructions

Most instructions stay in their call, open no cell and close none: `Calm`. Of these, most do no more
than take values off the stack and put another one there: `Quiet`. On a sound machine they find what
they need, lead to a sound machine with a stack of known size, and fail only for reasons of the script
or of the host: `Calmly` and `Quietly`. There is one lemma for each family of them.
-/

namespace DeployScript

variable {ω : Type}

/-- What an error may be: the machine's own failures come from the host alone. -/
def Library.MayRaise (l : Library ω) (cause : Cause) : Prop :=
  cause.IsInternal → ∃ b ∈ l.builtins, ∃ context args world,
    (b.run context args world).1 = .error cause

namespace Machine

/-- **The same calls with the same code and cells.** The stack, globals and data may differ, and a
cell that is closed may have another value. -/
structure Calm (m m' : Machine ω) : Prop where
  frames : m'.frames = m.frames
  opened : m'.opened = m.opened
  library : m'.library = m.library
  function : ∀ g, m'.heap.function? g = m.heap.function? g
  closure : ∀ g, m'.heap.closure? g = m.heap.closure? g
  slots : ∀ g slot, m'.heap.cell? g = some (.opened slot) ↔ m.heap.cell? g = some (.opened slot)

namespace Calm

variable {m m' m'' : Machine ω}

theorem trans (h : m.Calm m') (h' : m'.Calm m'') : m.Calm m'' where
  frames := h'.frames.trans h.frames
  opened := h'.opened.trans h.opened
  library := h'.library.trans h.library
  function g := (h'.function g).trans (h.function g)
  closure g := (h'.closure g).trans (h.closure g)
  slots g slot := (h'.slots g slot).trans (h.slots g slot)

theorem open_iff (h : m.Calm m') (slot : Nat) : m'.Open slot ↔ m.Open slot :=
  exists_congr fun g => h.slots g slot

theorem withStack (m : Machine ω) (stack : Array Value) : m.Calm { m with stack } :=
  ⟨rfl, rfl, rfl, fun _ => rfl, fun _ => rfl, fun _ _ => Iff.rfl⟩

theorem define (m : Machine ω) (name : String) (v : Value) (isMutable : Bool) :
    m.Calm (m.define name v isMutable) :=
  ⟨rfl, rfl, rfl, fun _ => rfl, fun _ => rfl, fun _ _ => Iff.rfl⟩

end Calm

/-- **An ordinary outcome** with a stack of `size` values, or an error that may be. -/
inductive Calmly (m : Machine ω) (size : Nat) : Outcome ω → Prop
  | next {β : Link} {m' : Machine ω} (hs : m'.Sound β) (hc : m.Calm m')
    (hsize : m'.stack.size = size) : Calmly m size (.next m')
  | raise {β : Link} {cause : Cause} {m' : Machine ω} (h : m.library.MayRaise cause) (hs : m'.Sound β) :
    Calmly m size (.raise cause m')

/-- An error of the script. -/
theorem Calmly.script {β : Link} {m m' : Machine ω} {size : Nat} {cause : Cause} (h : ¬ cause.IsInternal)
    (hs : m'.Sound β) : m.Calmly size (.raise cause m') :=
  .raise (fun hi => absurd hi h) hs

/-- **The same variables:** the topmost `taken` values of the stack make way for `given` others. Data
may differ, but no global, no cell and no value under the topmost ones. -/
structure Quiet (m : Machine ω) (taken given : Nat) (m' : Machine ω) : Prop where
  frames : m'.frames = m.frames
  opened : m'.opened = m.opened
  library : m'.library = m.library
  globals : m'.globals = m.globals
  steady : Heap.Steady m.heap m'.heap
  size : m'.stack.size = m.stack.size - taken + given
  below : ∀ k, k < m.stack.size - taken → m'.stack[k]? = m.stack[k]?

namespace Quiet

variable {m m' m'' : Machine ω} {taken taken' given : Nat}

theorem calm (h : m.Quiet taken given m') : m.Calm m' where
  frames := h.frames
  opened := h.opened
  library := h.library
  function := h.steady.function
  closure := h.steady.closure
  slots g slot := by rw [h.steady.cell]

/-- First values are taken, and then some more. -/
theorem trans (h : m.Quiet taken 0 m') (h' : m'.Quiet taken' given m'') :
    m.Quiet (taken + taken') given m'' where
  frames := h'.frames.trans h.frames
  opened := h'.opened.trans h.opened
  library := h'.library.trans h.library
  globals := h'.globals.trans h.globals
  steady := h.steady.trans h'.steady
  size := by
    have hsize := h.size
    have hsize' := h'.size
    omega
  below k hk := by
    have hsize := h.size
    rw [h'.below k (by omega), h.below k (by omega)]

theorem push (m : Machine ω) (v : Value) : m.Quiet 0 1 (m.push v) where
  frames := rfl
  opened := rfl
  library := rfl
  globals := rfl
  steady := .refl _
  size := Array.size_push _
  below k hk := by
    change (m.stack.push v)[k]? = _
    rw [Array.getElem?_push, if_neg (Nat.ne_of_lt (show k < m.stack.size from hk))]

theorem pop (m : Machine ω) : m.Quiet 1 0 m.pop.2 where
  frames := rfl
  opened := rfl
  library := rfl
  globals := rfl
  steady := .refl _
  size := Array.size_pop
  below k hk := by
    change m.stack.pop[k]? = _
    rw [Array.getElem?_pop, if_pos hk]

theorem of_steady {next : Heap} (h : Heap.Steady m.heap next) : m.Quiet 0 0 { m with heap := next } :=
  ⟨rfl, rfl, rfl, rfl, h, rfl, fun _ _ => rfl⟩

theorem shrink (m : Machine ω) (count : Nat) :
    m.Quiet count 0 { m with stack := m.stack.shrink (m.stack.size - count) } where
  frames := rfl
  opened := rfl
  library := rfl
  globals := rfl
  steady := .refl _
  size := by
    change (m.stack.shrink _).size = _
    rw [Array.size_shrink]
    omega
  below k hk := by
    change (m.stack.shrink _)[k]? = _
    rw [← Array.getElem?_toList, Array.toList_shrink, List.getElem?_take_of_lt hk, Array.getElem?_toList]

theorem leave (m : Machine ω) (count : Nat) (v : Value) : m.Quiet (count + 1) 1 (m.leave count v) :=
  (shrink m (count + 1)).trans (push _ v)

end Quiet

/-- **A quiet outcome,** or an error that may be. -/
inductive Quietly (m : Machine ω) (taken given : Nat) : Outcome ω → Prop
  | next {β : Link} {m' : Machine ω} (hs : m'.Sound β) (hq : m.Quiet taken given m') :
    Quietly m taken given (.next m')
  | raise {β : Link} {cause : Cause} {m' : Machine ω} (h : m.library.MayRaise cause) (hs : m'.Sound β) :
    Quietly m taken given (.raise cause m')

namespace Quietly

variable {m m' : Machine ω} {taken taken' given : Nat} {o : Outcome ω}

theorem calmly (h : m.Quietly taken given o) : m.Calmly (m.stack.size - taken + given) o := by
  cases h with
  | next hs hq => exact .next hs hq.calm hq.size
  | raise h hs => exact .raise h hs

theorem of_quiet (hq : m.Quiet taken 0 m') (h : m'.Quietly taken' given o) :
    m.Quietly (taken + taken') given o := by
  cases h with
  | next hs hq' => exact .next hs (hq.trans hq')
  | raise h hs => exact .raise (hq.library ▸ h) hs

/-- An error of the script. -/
theorem script {β : Link} {cause : Cause} (h : ¬ cause.IsInternal) (hs : m'.Sound β) :
    m.Quietly taken given (.raise cause m') :=
  .raise (fun hi => absurd hi h) hs

end Quietly

variable {β γ : Link} {m : Machine ω} {v : Value}

/-! ### The stack -/

theorem size_pop (m : Machine ω) : m.pop.2.stack.size = m.stack.size - 1 := Array.size_pop

theorem size_push (m : Machine ω) (v : Value) : (m.push v).stack.size = m.stack.size + 1 :=
  Array.size_push _

namespace Sound

theorem give (hs : m.Sound β) {result : Except Cause Value}
    (hr : Heap.Agrees (Value.Similar β) result result) (he : External result) :
    m.Quietly 0 1 (m.give result) := by
  cases result with
  | ok v =>
    cases hr with
    | ok hv => exact .next (hs.push hv) (.push m v)
  | error cause => exact .script (he cause rfl).external hs

theorem binary (hs : m.Sound β) (op : BinaryOp) :
    m.Quietly 2 1 (m.binary op) := by
  obtain ⟨hb, hs'⟩ := hs.pop
  obtain ⟨ha, hs''⟩ := hs'.pop
  exact .of_quiet ((Quiet.pop m).trans (.pop _))
    (hs''.give (hs''.heap.twin.binary op ha hb) (Heap.external_binary op _ _))

theorem unary (hs : m.Sound β) (op : UnaryOp) :
    m.Quietly 1 1 (m.unary op) := by
  obtain ⟨ha, hs'⟩ := hs.pop
  exact .of_quiet (.pop m) (hs'.give (Heap.Twin.unary op ha) (Heap.external_unary op _))

theorem write (hs : m.Sound β) {target : Except Cause Heap.Target}
    (ht : Heap.Agrees (Heap.Target.Similar β) target target) (he : External target)
    (hv : v.Similar β v) : m.Quietly 0 1 (m.write target v) := by
  cases target with
  | error cause => exact .script (he cause rfl).external hs
  | ok target =>
    cases ht with
    | ok hs' =>
      have hx := hs.heap.twin.store hs' hv
      exact .next ((hs.extend hx).push hv) ((Quiet.of_steady hx.steady).trans (.push _ v))

/-- A new container on the stack. -/
theorem pushNew (hs : m.Sound β) {new : Heap → Value × Heap}
    (hnew : ∃ γ, Heap.Extends β m.heap m.heap γ (new m.heap).2 (new m.heap).2 ∧
      (new m.heap).1.Similar γ (new m.heap).1) :
    m.Quietly 0 1 (m.pushNew new) := by
  obtain ⟨γ, hx, hv⟩ := hnew
  exact .next ((hs.extend hx).push hv) ((Quiet.of_steady hx.steady).trans (.push _ _))

/-! ### Globals -/

/-- A name in the code is there. -/
theorem withName {m : Machine ω} {f : Frame} {frames : List Frame} (hf : m.frames = f :: frames)
    {index : UInt16} (hindex : index.toNat < f.chunk.names.size) {Q : Outcome ω → Prop}
    {next : String → Outcome ω} (hnext : ∀ name, Q (next name)) : Q (m.withName index next) := by
  have hname : m.name? index = some f.chunk.names[index.toNat] := by
    simp [Machine.name?, hf, hindex]
  unfold Machine.withName
  rw [hname]
  exact hnext _

theorem defineGlobal (hs : m.Sound β) (name : String) (isMutable : Bool) :
    m.Calmly (m.stack.size - 1) (m.defineGlobal name isMutable) := by
  obtain ⟨hv, hs'⟩ := hs.pop
  have hdefine : m.Calmly (m.stack.size - 1) (.next (m.pop.2.define name m.pop.1 isMutable)) :=
    .next (hs'.define name hv isMutable) ((Calm.withStack m _).trans (.define _ _ _ _)) (size_pop m)
  unfold Machine.defineGlobal
  dsimp only
  split
  · split
    · exact .script id hs'
    · exact hdefine
  · exact hdefine

theorem assignGlobal (hs : m.Sound β) (name : String) :
    m.Calmly m.stack.size (m.assignGlobal name) := by
  unfold Machine.assignGlobal
  split
  · split
    · exact .next (hs.define name (hs.peek 0) true) (.define _ _ _ _) rfl
    · exact .script id hs
  · exact .script id hs

theorem readGlobal (hs : m.Sound β) (name : String) :
    m.Quietly 0 1
      (match m.global? name with
        | some value => .next (m.push value)
        | none => .raise (.undefinedVariable name) m) := by
  cases hb : m.globals[name]? with
  | none =>
    simp only [Machine.global?, hb, Option.map_none]
    exact .script id hs
  | some b =>
    simp only [Machine.global?, hb, Option.map_some]
    exact .next (hs.push (hs.global hb)) (.push m _)

/-! ### Slots -/

theorem readSlot (hs : m.Sound β) {slot : Nat} (hslot : slot < m.stack.size) :
    m.Quietly 0 1
      (match m.stack[slot]? with
        | some value => .next (m.push value)
        | none => .stuck m) := by
  rw [Array.getElem?_eq_getElem hslot]
  exact .next (hs.push (hs.stack _ (Array.getElem_mem hslot))) (.push m _)

theorem setSlot (hs : m.Sound β) {slot : Nat} (hslot : slot < m.stack.size)
    (hv : v.Similar β v) : m.Calmly m.stack.size (m.setSlot slot v) := by
  unfold Machine.setSlot
  rw [if_pos hslot]
  refine .next (hs.withStack fun w hw => ?_) (.withStack m _) Array.size_setIfInBounds
  rcases Array.mem_or_eq_of_mem_setIfInBounds hw with hw | rfl
  · exact hs.stack w hw
  · exact hv

/-- A captured variable is there. -/
theorem captured? (hs : m.Sound β) {f : Frame} {frames : List Frame} (hf : m.frames = f :: frames)
    {c : Closure} {p : Prototype Value} (hc : m.heap.closure? f.closure = some c)
    (hp : m.heap.function? c.function = some p) {index : Nat} (hindex : index < p.captures) :
    ∃ h, m.captured? index = some h ∧ (m.heap.cell? h).isSome := by
  obtain ⟨q, hq, hsize, hcells⟩ := hs.heap.captures _ _ hc
  obtain rfl := Option.some.inj (hp.symm.trans hq)
  have hlt : index < c.cells.size := hsize ▸ hindex
  refine ⟨c.cells[index], ?_, hcells _ (Array.getElem_mem hlt)⟩
  simp [Machine.captured?, hf, hc, hlt]

theorem readCapture (hs : m.Sound β) (hbelow : ∀ slot, m.Open slot → slot < m.stack.size)
    {index : Nat} {h : Handle} (hh : m.captured? index = some h)
    (hcell : (m.heap.cell? h).isSome) :
    m.Quietly 0 1 (m.readCapture index) := by
  obtain ⟨c, hc⟩ := Option.isSome_iff_exists.1 hcell
  unfold Machine.readCapture
  simp only [hh, hc]
  cases c with
  | opened slot => exact hs.readSlot (hbelow slot ⟨h, hc⟩)
  | closed v => exact .next (hs.push (hs.heap.cells h v hc)) (.push m v)

/-- A cell that is closed gets another value. -/
theorem setCell (hs : m.Sound β) {h : Handle} {w : Value}
    (hc : m.heap.cell? h = some (.closed w)) (hv : v.Similar β v) :
    ({ m with heap := m.heap.setCell h (.closed v) } : Machine ω).Sound β ∧
      m.Calm { m with heap := m.heap.setCell h (.closed v) } := by
  have hget := Heap.cell?_eq.1 hc
  have hother := Heap.other_setCell hget (.closed v)
  have hslots : ∀ g slot, (m.heap.setCell h (.closed v)).cell? g = some (.opened slot) ↔
      m.heap.cell? g = some (.opened slot) := by
    intro g slot
    rw [Heap.cell?_setCell hget]
    split
    case isTrue he =>
      rw [he, hc]
      exact iff_of_false nofun nofun
    case isFalse => rfl
  refine ⟨{ hs with heap := hs.heap.setCell hc hv, opened := ?_, alone := ?_ }, ⟨rfl, rfl, rfl,
    fun g => (hother g).1, fun g => (hother g).2.1, hslots⟩⟩
  · intro g
    rw [hs.opened]
    simp only [hslots]
  · intro g g' slot hg hg'
    exact hs.alone g g' slot ((hslots g slot).1 hg) ((hslots g' slot).1 hg')

theorem writeCapture (hs : m.Sound β) (hbelow : ∀ slot, m.Open slot → slot < m.stack.size)
    {index : Nat} {h : Handle} (hh : m.captured? index = some h)
    (hcell : (m.heap.cell? h).isSome) : m.Calmly m.stack.size (m.writeCapture index) := by
  obtain ⟨c, hc⟩ := Option.isSome_iff_exists.1 hcell
  unfold Machine.writeCapture
  simp only [hh, hc]
  cases c with
  | opened slot => exact hs.setSlot (hbelow slot ⟨h, hc⟩) (hs.peek 0)
  | closed w =>
    obtain ⟨hs', hc'⟩ := hs.setCell hc (hs.peek 0)
    exact .next hs' hc' rfl

/-! ### Containers and output -/

/-- The topmost values are taken where there are so many. -/
theorem take? (hs : m.Sound β) {count : Nat} (hcount : count ≤ m.stack.size) :
    ∃ values m', m.take? count = some (values, m') ∧
      List.Forall₂ (Value.Similar β) values.toList values.toList ∧ m'.Sound β ∧
      m.Quiet count 0 m' := by
  unfold Machine.take?
  rw [if_pos hcount]
  exact ⟨_, _, rfl, hs.extract _ _, hs.shrink _, .shrink m count⟩

/-- The host is not part of what is sound. -/
theorem withHost (hs : m.Sound β) (world : ω) (output : String) :
    ({ m with world, output } : Machine ω).Sound β :=
  { hs with builtins := hs.builtins }

theorem print (hs : m.Sound β) (start : Nat) {count : UInt8} (hcount : count.toNat ≤ m.stack.size) :
    m.Quietly count.toNat 1 (m.exec start ⟨.print, count⟩) := by
  obtain ⟨values, m', htake, -, hs', hq⟩ := hs.take? hcount
  have hout : ∀ text : String, m'.Quiet 0 1 ({ m' with output := text }.push .nil) :=
    fun text => { Quiet.push { m' with output := text } .nil with }
  unfold Machine.exec
  simp only [htake]
  exact .of_quiet hq (.next ((hs'.withHost m'.world _).push .nil) (hout _))

theorem len (hs : m.Sound β) (start : Nat) :
    m.Quietly 1 1 (m.exec start ⟨.len, ()⟩) := by
  obtain ⟨hv, hs'⟩ := hs.pop
  unfold Machine.exec
  dsimp only
  split
  · exact .next (hs'.push (.number _)) ((Quiet.pop m).trans (.push _ _))
  · exact .script id hs'

/-- A container of the topmost values. -/
theorem collectNew (hs : m.Sound β) {count : Nat} (hcount : count ≤ m.stack.size)
    {new : Array Value → Heap → Value × Heap}
    (hnew : ∀ {heap : Heap} {values : Array Value}, heap.Twin β heap →
      List.Forall₂ (Value.Similar β) values.toList values.toList →
      ∃ γ, Heap.Extends β heap heap γ (new values heap).2 (new values heap).2 ∧
        (new values heap).1.Similar γ (new values heap).1) :
    m.Quietly count 1
      (match m.take? count with
        | none => .stuck m
        | some (values, m) => m.pushNew (new values)) := by
  obtain ⟨values, m', htake, hvalues, hs', hq⟩ := hs.take? hcount
  rw [htake]
  exact .of_quiet hq (hs'.pushNew (hnew hs'.heap.twin hvalues))

/-- Reading an element or a field. -/
theorem readIndex (hs : m.Sound β) (start : Nat) :
    m.Quietly 2 1 (m.exec start ⟨.index, ()⟩) := by
  obtain ⟨hkey, hs'⟩ := hs.pop
  obtain ⟨hcontainer, hs''⟩ := hs'.pop
  exact .of_quiet ((Quiet.pop m).trans (.pop _))
    (hs''.give (hs''.heap.twin.index hcontainer hkey) (Heap.external_index _ _))

/-- Writing an element or a field. -/
theorem writeIndex (hs : m.Sound β) (start : Nat) :
    m.Quietly 3 1 (m.exec start ⟨.setIndex, ()⟩) := by
  obtain ⟨hv, hs₁⟩ := hs.pop
  obtain ⟨hkey, hs₂⟩ := hs₁.pop
  obtain ⟨hcontainer, hs₃⟩ := hs₂.pop
  exact .of_quiet (((Quiet.pop m).trans (.pop _)).trans (.pop _))
    (hs₃.write (hs₃.heap.twin.target hcontainer hkey) (Heap.external_target hs₃.heap.twin hcontainer _) hv)

theorem readProperty (hs : m.Sound β) (name : String) :
    m.Quietly 1 1 (m.pop.2.give (m.pop.2.heap.property name m.pop.1)) := by
  obtain ⟨hv, hs'⟩ := hs.pop
  exact .of_quiet (.pop m) (hs'.give (hs'.heap.twin.property name hv) (Heap.external_property _ _))

theorem writeProperty (hs : m.Sound β) (name : String) :
    m.Quietly 2 1 (m.pop.2.pop.2.write (Heap.propertyTarget name m.pop.2.pop.1) m.pop.1) := by
  obtain ⟨hv, hs'⟩ := hs.pop
  obtain ⟨hreceiver, hs''⟩ := hs'.pop
  exact .of_quiet ((Quiet.pop m).trans (.pop _))
    (hs''.write (Heap.Twin.propertyTarget name hreceiver) (Heap.external_propertyTarget _ _) hv)

/-! ### Functions of the language and of the host -/

theorem callIntrinsic (hs : m.Sound β) (f : Intrinsic) (count : Nat) :
    m.Quietly (count + 1) 1 (m.callIntrinsic f count) := by
  have hargs := hs.arguments count
  unfold Machine.callIntrinsic
  dsimp only
  split
  · exact .script id hs
  · cases heffect : f.effect? m.heap (m.arguments count) with
    | error failure =>
      exact .script (Heap.effect_error hs.heap.twin f (List.forall₂_same.1 hargs) heffect) hs
    | ok effect =>
      have hsame := hs.heap.twin.effect? f hargs
      rw [heffect] at hsame
      cases hsame with
      | ok he =>
        obtain ⟨γ, hx, hv⟩ := hs.heap.twin.perform he
        have hq := (Quiet.of_steady hx.steady).trans (.leave _ count (m.heap.perform effect).1)
        rw [Nat.zero_add] at hq
        exact .next ((hs.extend hx).leave count hv) hq

theorem callBuiltin (hs : m.Sound β) {name : String} (hname : β.builtin name) (count : Nat) :
    m.Quietly (count + 1) 1 (m.callBuiltin name count) := by
  obtain ⟨b, hb⟩ := Option.isSome_iff_exists.1 (hs.builtins name hname)
  unfold Machine.callBuiltin
  rw [hb]
  dsimp only
  cases hargs : m.heap.unpack b.name b.params (m.arguments count) with
  | error cause => exact .script (Heap.external_unpack _ _ _ cause hargs).external hs
  | ok args =>
    have hmem : b ∈ m.library.builtins := List.mem_of_find?_eq_some hb
    dsimp only
    cases hrun : b.run { caller := m.callerName, assets := m.assets } args m.world with
    | mk result world =>
    cases result with
    | error cause => exact .raise (fun _ => ⟨b, hmem, _, _, _, by rw [hrun]⟩) (hs.withHost world m.output)
    | ok result =>
      obtain ⟨γ, hx, hv⟩ := hs.heap.twin.ofHost result
      have hq : m.Quiet 0 0 { m with heap := (Heap.ofHost result m.heap).2, world } :=
        { Quiet.of_steady (m := m) hx.steady with }
      have hq' := hq.trans (.leave _ count (Heap.ofHost result m.heap).1)
      rw [Nat.zero_add] at hq'
      exact .next (((hs.extend hx).withHost world m.output).leave count hv) hq'

end Sound

end Machine

end DeployScript
