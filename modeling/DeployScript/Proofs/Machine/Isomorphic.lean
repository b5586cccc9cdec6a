import DeployScript.Machine.Step
import DeployScript.Proofs.Heap.Isomorphic

/-!
# Machines that are equal up to their handles

Two machines are isomorphic when their heaps are and all else that they hold is equal up to the
links between the heaps. The operations on stacks, cells and frames keep them so, and so does a
collection of either machine: `Machine.Isomorphic.collectIf`.
-/

namespace DeployScript

/-- Calls of linked closures that stand at one place. -/
structure Frame.Similar (β : Link) (f f' : Frame) : Prop where
  closure : β .closure f.closure f'.closure
  ip : f.ip = f'.ip
  base : f.base = f'.base

/-- **The code of a call** is that of its closure, so that the closure keeps its constants alive. -/
def Frame.Rooted (heap : Heap) (f : Frame) : Prop :=
  ∃ c p, heap.closure? f.closure = some c ∧ heap.function? c.function = some p ∧ p.chunk = f.chunk

theorem Frame.Rooted.keep {heap next : Heap} {P : Handle → Prop} {f : Frame}
    (hr : f.Rooted heap) (hk : Heap.Keeps heap next P) (hf : P f.closure) : f.Rooted next := by
  obtain ⟨c, p, hc, hp, hchunk⟩ := hr
  exact ⟨c, p, (hk.closure? hf).trans hc, (hk.function? (hk.of_closure hf hc).1).trans hp, hchunk⟩

/-- Globals with similar values that may be assigned alike. -/
structure Binding.Similar (β : Link) (b b' : Binding) : Prop where
  value : b.value.Similar β b'.value
  isMutable : b.isMutable = b'.isMutable

theorem Frame.Similar.mono {β γ : Link} {f f' : Frame} (hf : f.Similar β f') (hle : β.Le γ) :
    f.Similar γ f' :=
  ⟨hle.handle _ _ _ hf.closure, hf.ip, hf.base⟩

theorem Binding.Similar.mono {β γ : Link} {b b' : Binding} (hb : b.Similar β b') (hle : β.Le γ) :
    b.Similar γ b' :=
  ⟨hb.value.mono hle, hb.isMutable⟩

/-- What is found first in related lists is related. -/
theorem rel_find? {α ι : Type} {r : α → ι → Prop} {p : α → Bool} {q : ι → Bool} {l : List α}
    {l' : List ι} (hl : List.Forall₂ r l l') (hpq : ∀ a b, r a b → p a = q b) :
    Option.Rel r (l.find? p) (l'.find? q) := by
  induction hl with
  | nil => exact .none
  | cons hab _ ih =>
    rw [List.find?_cons, List.find?_cons, hpq _ _ hab]
    split
    · exact .some hab
    · exact ih

namespace Machine

variable {ω : Type}

/-- **Machines that are equal up to their handles.** -/
structure Isomorphic (β : Link) (m m' : Machine ω) : Prop where
  heap : m.heap.Isomorphic β m'.heap
  stack : List.Forall₂ (Value.Similar β) m.stack.toList m'.stack.toList
  frames : List.Forall₂ (Frame.Similar β) m.frames m'.frames
  rooted : ∀ f ∈ m.frames, f.Rooted m.heap
  rooted' : ∀ f ∈ m'.frames, f.Rooted m'.heap
  globals : Matching (Binding.Similar β) m.globals m'.globals
  opened : List.Forall₂ (β .cell) m.opened m'.opened
  assets : m.assets = m'.assets
  library : m.library = m'.library
  world : m.world = m'.world
  output : m.output = m'.output

/-- A collection, if one is due. -/
def collectIf (m : Machine ω) (due : Bool) : Machine ω := if due then m.collect else m

theorem collectIf_eq (m : Machine ω) (due : Bool) :
    m.collectIf due = { m with heap := (m.collectIf due).heap } := by
  cases due <;> rfl

/-- Collected or not, a machine keeps what it refers to. -/
theorem keeps_collectIf {m : Machine ω} (hw : m.heap.Wf) (due : Bool) :
    ∃ P, Heap.Keeps m.heap (m.collectIf due).heap P ∧ ∀ h ∈ m.roots, P h := by
  cases due with
  | false => exact ⟨_, .refl hw, fun _ _ => trivial⟩
  | true => exact ⟨_, Heap.keeps_collected hw m.roots, fun _ hr => .root hr⟩

namespace Isomorphic

variable {β γ : Link} {m m' : Machine ω} {v v' : Value}

/-! ### The stack -/

theorem size (hi : Isomorphic β m m') : m.stack.size = m'.stack.size := hi.stack.length_eq

/-- The stacks may be replaced by similar ones. -/
theorem withStack (hi : Isomorphic β m m') {stack stack' : Array Value}
    (hs : List.Forall₂ (Value.Similar β) stack.toList stack'.toList) :
    Isomorphic β { m with stack } { m' with stack := stack' } :=
  { hi with stack := hs }

theorem push (hi : Isomorphic β m m') (hv : v.Similar β v') :
    Isomorphic β (m.push v) (m'.push v') := by
  refine hi.withStack ?_
  rw [Array.toList_push, Array.toList_push]
  exact List.rel_append hi.stack (.cons hv .nil)

theorem get (hi : Isomorphic β m m') (i : Nat) :
    Option.Rel (Value.Similar β) m.stack[i]? m'.stack[i]? :=
  rel_getElem? hi.stack i

theorem pop (hi : Isomorphic β m m') :
    m.pop.1.Similar β m'.pop.1 ∧ Isomorphic β m.pop.2 m'.pop.2 := by
  refine ⟨similar_getD ?_, hi.withStack ?_⟩
  · rw [Array.back?_eq_getElem?, Array.back?_eq_getElem?, hi.size]
    exact hi.get _
  · rw [Array.toList_pop, Array.toList_pop, List.dropLast_eq_take, List.dropLast_eq_take,
      hi.stack.length_eq]
    exact List.forall₂_take _ hi.stack

theorem peek (hi : Isomorphic β m m') (depth : Nat) :
    (m.peek depth).Similar β (m'.peek depth) := by
  unfold Machine.peek
  rw [hi.size]
  split
  · exact similar_getD (hi.get _)
  · exact .nil

/-- Parts of the stacks are similar. -/
theorem extract (hi : Isomorphic β m m') (start stop : Nat) :
    List.Forall₂ (Value.Similar β) (m.stack.extract start stop).toList
      (m'.stack.extract start stop).toList := by
  rw [Array.toList_extract, Array.toList_extract]
  exact List.forall₂_take _ (List.forall₂_drop _ hi.stack)

theorem shrink (hi : Isomorphic β m m') (size : Nat) :
    Isomorphic β { m with stack := m.stack.shrink size }
      { m' with stack := m'.stack.shrink size } := by
  refine hi.withStack ?_
  rw [Array.toList_shrink, Array.toList_shrink]
  exact List.forall₂_take _ hi.stack

theorem leave (hi : Isomorphic β m m') (count : Nat) (hv : v.Similar β v') :
    Isomorphic β (m.leave count v) (m'.leave count v') := by
  unfold Machine.leave
  rw [hi.size]
  exact (hi.shrink _).push hv

theorem arguments (hi : Isomorphic β m m') (count : Nat) :
    List.Forall₂ (Value.Similar β) (m.arguments count) (m'.arguments count) := by
  unfold Machine.arguments
  rw [hi.size]
  exact hi.extract _ _

/-- Both machines have enough values on their stacks, or neither has. -/
theorem take? (hi : Isomorphic β m m') (count : Nat) :
    Option.Rel (fun a a' => List.Forall₂ (Value.Similar β) a.1.toList a'.1.toList ∧
      Isomorphic β a.2 a'.2) (m.take? count) (m'.take? count) := by
  unfold Machine.take?
  rw [hi.size]
  split
  · exact .some ⟨hi.extract _ _, hi.shrink _⟩
  · exact .none

theorem setSlot (hi : Isomorphic β m m') (slot : Nat) (hv : v.Similar β v') :
    Isomorphic β { m with stack := m.stack.setIfInBounds slot v }
      { m' with stack := m'.stack.setIfInBounds slot v' } := by
  refine hi.withStack ?_
  rw [Array.toList_setIfInBounds, Array.toList_setIfInBounds]
  exact forall₂_set hi.stack slot hv

/-! ### Globals and frames -/

theorem define (hi : Isomorphic β m m') (name : String) (hv : v.Similar β v')
    (isMutable : Bool) : Isomorphic β (m.define name v isMutable) (m'.define name v' isMutable) :=
  { hi with globals := hi.globals.insert name ⟨hv, rfl⟩ }

theorem global? (hi : Isomorphic β m m') (name : String) :
    Option.Rel (Value.Similar β) (m.global? name) (m'.global? name) := by
  unfold Machine.global?
  have hk := hi.globals name
  generalize m.globals[name]? = b at hk
  generalize m'.globals[name]? = b' at hk
  cases hk with
  | none => exact .none
  | some hb => exact .some hb.value

theorem moveTo (hi : Isomorphic β m m') (ip : Nat) :
    Isomorphic β (m.moveTo ip) (m'.moveTo ip) := by
  obtain ⟨stack, frames, globals, heap, opened, assets, library, world, output⟩ := m
  obtain ⟨stack', frames', globals', heap', opened', assets', library', world', output'⟩ := m'
  have hframes := hi.frames
  cases frames with
  | nil =>
    cases hframes
    exact hi
  | cons f frames =>
    cases hframes with
    | @cons _ f' _ frames' hf hfs =>
      refine { hi with frames := .cons ⟨hf.closure, rfl, hf.base⟩ hfs, rooted := ?_, rooted' := ?_ }
      · intro g hg
        rcases List.mem_cons.1 hg with rfl | hg
        · exact hi.rooted f List.mem_cons_self
        · exact hi.rooted g (List.mem_cons_of_mem _ hg)
      · intro g hg
        rcases List.mem_cons.1 hg with rfl | hg
        · exact hi.rooted' f' List.mem_cons_self
        · exact hi.rooted' g (List.mem_cons_of_mem _ hg)

theorem head? (hi : Isomorphic β m m') :
    Option.Rel (Frame.Similar β) m.frames.head? m'.frames.head? := by
  have hframes := hi.frames
  generalize m.frames = frames at hframes
  generalize m'.frames = frames' at hframes
  cases hframes with
  | nil => exact .none
  | cons hf _ => exact .some hf

theorem ip (hi : Isomorphic β m m') : m.ip = m'.ip := by
  unfold Machine.ip
  have hhead := hi.head?
  generalize m.frames.head? = f at hhead
  generalize m'.frames.head? = f' at hhead
  cases hhead with
  | none => rfl
  | some hf => exact hf.ip

theorem base (hi : Isomorphic β m m') : m.base = m'.base := by
  unfold Machine.base
  have hhead := hi.head?
  generalize m.frames.head? = f at hhead
  generalize m'.frames.head? = f' at hhead
  cases hhead with
  | none => rfl
  | some hf => exact hf.base

/-- Calls of linked closures run similar code. -/
theorem chunk (hi : Isomorphic β m m') {f f' : Frame} (hf : f.Similar β f')
    (hr : f.Rooted m.heap) (hr' : f'.Rooted m'.heap) : f.chunk.Similar β f'.chunk := by
  obtain ⟨c, p, hc, hp, hchunk⟩ := hr
  obtain ⟨c', p', hc', hp', hchunk'⟩ := hr'
  obtain ⟨d, d', hd, hd', hs⟩ := hi.heap.closure _ _ hf.closure
  obtain rfl := Option.some.inj (hc.symm.trans hd)
  obtain rfl := Option.some.inj (hc'.symm.trans hd')
  obtain ⟨q, q', hq, hq', hps⟩ := hi.heap.function _ _ hs.function
  obtain rfl := Option.some.inj (hp.symm.trans hq)
  obtain rfl := Option.some.inj (hp'.symm.trans hq')
  rw [← hchunk, ← hchunk']
  exact hps.chunk

/-! ### The heap -/

/-- **Operations on data** of the heap. -/
theorem extend (hi : Isomorphic β m m') {next next' : Heap}
    (hx : Heap.Extends β m.heap m'.heap γ next next') :
    Isomorphic γ { m with heap := next } { m' with heap := next' } where
  heap := hi.heap.extend hx
  stack := similar_mono hx.le hi.stack
  frames := hi.frames.imp fun _ _ hf => hf.mono hx.le
  rooted f hf := by
    obtain ⟨c, p, hc, hp, hchunk⟩ := hi.rooted f hf
    exact ⟨c, p, (hx.steady.closure _).trans hc, (hx.steady.function _).trans hp, hchunk⟩
  rooted' f hf := by
    obtain ⟨c, p, hc, hp, hchunk⟩ := hi.rooted' f hf
    exact ⟨c, p, (hx.steady'.closure _).trans hc, (hx.steady'.function _).trans hp, hchunk⟩
  globals := hi.globals.mono fun _ _ hb => hb.mono hx.le
  opened := hi.opened.imp fun _ _ hh => hx.le.handle _ _ _ hh
  assets := hi.assets
  library := hi.library
  world := hi.world
  output := hi.output

/-- **A heap with more links,** in which all objects are as they were, may take the place of the
heap. -/
theorem withHeap (hi : Isomorphic β m m') {next next' : Heap} (hheap : next.Isomorphic γ next')
    (hle : β.Le γ) (hkeep : m.heap.Kept next) (hkeep' : m'.heap.Kept next') :
    Isomorphic γ { m with heap := next } { m' with heap := next' } where
  heap := hheap
  stack := similar_mono hle hi.stack
  frames := hi.frames.imp fun _ _ hf => hf.mono hle
  rooted f hf := by
    obtain ⟨c, p, hc, hp, hchunk⟩ := hi.rooted f hf
    exact ⟨c, p, hkeep.closure? hc, hkeep.function? hp, hchunk⟩
  rooted' f hf := by
    obtain ⟨c, p, hc, hp, hchunk⟩ := hi.rooted' f hf
    exact ⟨c, p, hkeep'.closure? hc, hkeep'.function? hp, hchunk⟩
  globals := hi.globals.mono fun _ _ hb => hb.mono hle
  opened := hi.opened.imp fun _ _ hh => hle.handle _ _ _ hh
  assets := hi.assets
  library := hi.library
  world := hi.world
  output := hi.output

/-- **A new object** on both sides. -/
theorem insert (hi : Isomorphic β m m') {k : Kind} {h h' : Handle} {next next' : Heap}
    {object object' : Object} (hs : m.heap.insert object = (h, next))
    (hs' : m'.heap.insert object' = (h', next'))
    (hheap : next.Isomorphic (β.with k h h') next') :
    Isomorphic (β.with k h h') { m with heap := next } { m' with heap := next' } :=
  hi.withHeap hheap (β.le_with k h h') (Heap.kept_insert hi.heap.wf hs)
    (Heap.kept_insert hi.heap.wf' hs')

theorem insertClosure (hi : Isomorphic β m m') {h h' : Handle} {next next' : Heap}
    {c c' : Closure} (hs : m.heap.insert (.closure c) = (h, next))
    (hs' : m'.heap.insert (.closure c') = (h', next')) (hc : c.Similar β c') :
    Isomorphic (β.with .closure h h') { m with heap := next } { m' with heap := next' } :=
  hi.insert hs hs' <| hi.heap.insert hs hs' (fun he => nomatch he) (fun he => nomatch he)
    (fun he => nomatch he) (fun _ => ⟨c, c', rfl, rfl, hc⟩) fun he => nomatch he

theorem insertFunction (hi : Isomorphic β m m') {h h' : Handle} {next next' : Heap}
    {p p' : Prototype Value} (hs : m.heap.insert (.function p) = (h, next))
    (hs' : m'.heap.insert (.function p') = (h', next')) (hp : p.Similar β p') :
    Isomorphic (β.with .function h h') { m with heap := next } { m' with heap := next' } :=
  hi.insert hs hs' <| hi.heap.insert hs hs' (fun he => nomatch he) (fun he => nomatch he)
    (fun _ => ⟨p, p', rfl, rfl, hp⟩) (fun he => nomatch he) fun he => nomatch he

theorem insertCell (hi : Isomorphic β m m') {h h' : Handle} {next next' : Heap}
    {c c' : Cell} (hs : m.heap.insert (.cell c) = (h, next))
    (hs' : m'.heap.insert (.cell c') = (h', next')) (hc : c.Similar β c') :
    Isomorphic (β.with .cell h h') { m with heap := next } { m' with heap := next' } :=
  hi.insert hs hs' <| hi.heap.insert hs hs' (fun he => nomatch he) (fun he => nomatch he)
    (fun he => nomatch he) (fun he => nomatch he) fun _ => ⟨c, c', rfl, rfl, hc⟩

/-! ### Cells -/

theorem setCell (hi : Isomorphic β m m') {h h' : Handle} (hh : β .cell h h') {c c' : Cell}
    (hc : c.Similar β c') :
    Isomorphic β { m with heap := m.heap.setCell h c } { m' with heap := m'.heap.setCell h' c' } := by
  obtain ⟨a, a', ha, ha', -⟩ := hi.heap.cell _ _ hh
  have hcode := Heap.other_setCell (Heap.cell?_eq.1 ha) c
  have hcode' := Heap.other_setCell (Heap.cell?_eq.1 ha') c'
  refine { hi with heap := hi.heap.setCell hh hc, rooted := fun f hf => ?_, rooted' := fun f hf => ?_ }
  · obtain ⟨d, p, hd, hp, hchunk⟩ := hi.rooted f hf
    exact ⟨d, p, (hcode _).2.1.trans hd, (hcode _).1.trans hp, hchunk⟩
  · obtain ⟨d, p, hd, hp, hchunk⟩ := hi.rooted' f hf
    exact ⟨d, p, (hcode' _).2.1.trans hd, (hcode' _).1.trans hp, hchunk⟩

theorem openSlot? (hi : Isomorphic β m m') {h h' : Handle} (hh : β .cell h h') :
    m.openSlot? h = m'.openSlot? h' := by
  obtain ⟨c, c', hc, hc', hs⟩ := hi.heap.cell _ _ hh
  unfold Machine.openSlot?
  rw [hc, hc']
  cases hs <;> rfl

/-- **The cell of a slot,** new or not, is the same on both sides. -/
theorem capture (hi : Isomorphic β m m') (slot : Nat) :
    ∃ γ, β.Le γ ∧ γ .cell (m.capture slot).1 (m'.capture slot).1 ∧
      Isomorphic γ (m.capture slot).2 (m'.capture slot).2 := by
  have hfind : Option.Rel (β .cell) (m.opened.find? fun h => m.openSlot? h = some slot)
      (m'.opened.find? fun h => m'.openSlot? h = some slot) :=
    rel_find? hi.opened fun h h' hh => by rw [hi.openSlot? hh]
  unfold Machine.capture
  generalize (m.opened.find? fun h => m.openSlot? h = some slot) = found at hfind ⊢
  generalize (m'.opened.find? fun h => m'.openSlot? h = some slot) = found' at hfind ⊢
  cases hfind with
  | some hh => exact ⟨β, .refl β, hh, hi⟩
  | none =>
    cases hs : m.heap.insert (.cell (.opened slot)) with
    | mk h next =>
    cases hs' : m'.heap.insert (.cell (.opened slot)) with
    | mk h' next' =>
    have hnew := hi.insertCell hs hs' (.opened slot)
    have hh : β.with .cell h h' .cell h h' := .inr ⟨rfl, rfl, rfl⟩
    exact ⟨_, β.le_with _ _ _, hh, { hnew with opened := List.rel_append hnew.opened (.cons hh .nil) }⟩

/-- Cells are closed one after another. -/
theorem closeCells (hi : Isomorphic β m m') {cells cells' : List (Handle × Value)}
    (hs : List.Forall₂ (fun c c' => β .cell c.1 c'.1 ∧ c.2.Similar β c'.2) cells cells') :
    Isomorphic β
      { m with heap := cells.foldl (fun heap c => heap.setCell c.1 (.closed c.2)) m.heap }
      { m' with heap := cells'.foldl (fun heap c => heap.setCell c.1 (.closed c.2)) m'.heap } := by
  induction hs generalizing m m' with
  | nil => exact hi
  | cons hc _ ih => exact ih (hi.setCell hc.1 (.closed hc.2))

theorem closeFrom (hi : Isomorphic β m m') (first : Nat) :
    Isomorphic β (m.closeFrom first) (m'.closeFrom first) := by
  have hslots : List.Forall₂ (fun s s' => β .cell s.1 s'.1 ∧ s.2 = s'.2)
      (m.opened.filterMap fun h => (m.openSlot? h).map (h, ·))
      (m'.opened.filterMap fun h => (m'.openSlot? h).map (h, ·)) := by
    refine List.rel_filterMap (fun h h' hh => ?_) hi.opened
    rw [hi.openSlot? hh]
    cases m'.openSlot? h' with
    | none => exact .none
    | some slot => exact .some ⟨hh, rfl⟩
  have hpart : ∀ p : Nat → Bool, List.Forall₂ (fun s s' => β .cell s.1 s'.1 ∧ s.2 = s'.2)
      ((m.opened.filterMap fun h => (m.openSlot? h).map (h, ·)).filter fun s => p s.2)
      ((m'.opened.filterMap fun h => (m'.openSlot? h).map (h, ·)).filter fun s => p s.2) :=
    fun p => List.rel_filter (fun s s' hs => iff_of_eq (congrArg (fun slot => p slot = true) hs.2))
      hslots
  unfold Machine.closeFrom
  generalize (m.opened.filterMap fun h => (m.openSlot? h).map (h, ·)) = slots at hpart ⊢
  generalize (m'.opened.filterMap fun h => (m'.openSlot? h).map (h, ·)) = slots' at hpart ⊢
  have hclosing : List.Forall₂ (fun c c' => β .cell c.1 c'.1 ∧ c.2.Similar β c'.2)
      ((slots.filter fun s => first ≤ s.2).map fun s => (s.1, (m.stack[s.2]?).getD .nil))
      ((slots'.filter fun s => first ≤ s.2).map fun s => (s.1, (m'.stack[s.2]?).getD .nil)) := by
    rw [List.forall₂_map_left_iff, List.forall₂_map_right_iff]
    refine (hpart fun slot => first ≤ slot).imp fun s s' hs => ⟨hs.1, ?_⟩
    rw [← hs.2]
    exact similar_getD (hi.get _)
  have hopened : List.Forall₂ (β .cell) ((slots.filter fun s => s.2 < first).map (·.1))
      ((slots'.filter fun s => s.2 < first).map (·.1)) := by
    rw [List.forall₂_map_left_iff, List.forall₂_map_right_iff]
    exact (hpart fun slot => slot < first).imp fun _ _ hs => hs.1
  exact { hi.closeCells hclosing with opened := hopened }

/-! ### Collection -/

/-- **Either machine** may be collected. -/
theorem collectIf (hi : Isomorphic β m m') (due due' : Bool) :
    ∃ γ, Isomorphic γ (m.collectIf due) (m'.collectIf due') := by
  obtain ⟨P, hk, hroots⟩ := keeps_collectIf hi.heap.wf due
  obtain ⟨P', hk', hroots'⟩ := keeps_collectIf hi.heap.wf' due'
  have hvalue : ∀ {m : Machine ω} {h : Handle}, h ∈ m.stack.toList.flatMap Value.handles →
      h ∈ m.roots :=
    fun hh => List.mem_append_left _ (List.mem_append_left _ (List.mem_append_left _ hh))
  have hstack : List.Forall₂ (Value.Similar (β.within P P')) m.stack.toList m'.stack.toList :=
    similar_within hi.stack (fun h hh => hroots h (hvalue hh)) fun h hh => hroots' h (hvalue hh)
  have hclosure : ∀ {m : Machine ω} {f : Frame}, f ∈ m.frames → f.closure ∈ m.roots := by
    intro m f hf
    exact List.mem_append_left _ (List.mem_append_right _ (List.mem_map_of_mem hf))
  have hglobal : ∀ {m : Machine ω} {b : Binding}, b ∈ m.globals.values →
      ∀ h ∈ b.value.handles, h ∈ m.roots := by
    intro m b hb h hh
    refine List.mem_append_left _ (List.mem_append_left _ (List.mem_append_right _ ?_))
    exact List.mem_flatMap.2 ⟨b, hb, hh⟩
  have hopen : ∀ {m : Machine ω} {h : Handle}, h ∈ m.opened → h ∈ m.roots :=
    fun hh => List.mem_append_right _ hh
  rw [collectIf_eq m due, collectIf_eq m' due']
  refine ⟨β.within P P', ⟨hi.heap.restrict hk hk', hstack, ?frames, ?rooted, ?rooted', ?globals,
    ?opened, hi.assets, hi.library, hi.world, hi.output⟩⟩
  case frames =>
    refine forall₂_imp_mem hi.frames fun f hf f' hf' hs => ?_
    exact ⟨⟨hs.closure, hroots _ (hclosure hf), hroots' _ (hclosure hf')⟩, hs.ip, hs.base⟩
  case rooted => exact fun f hf => (hi.rooted f hf).keep hk (hroots _ (hclosure hf))
  case rooted' => exact fun f hf => (hi.rooted' f hf).keep hk' (hroots' _ (hclosure hf))
  case globals =>
    refine hi.globals.imp_mem fun b hb b' hb' hs => ⟨?_, hs.isMutable⟩
    exact hs.value.within (fun h hh => hroots h (hglobal hb h hh))
      fun h hh => hroots' h (hglobal hb' h hh)
  case opened =>
    refine forall₂_imp_mem hi.opened fun h hh h' hh' hs => ?_
    exact ⟨hs, hroots h (hopen hh), hroots' h' (hopen hh')⟩

end Isomorphic

end Machine

end DeployScript
