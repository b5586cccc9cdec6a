import DeployScript.Proofs.Machine.Ordinary

/-!
# Opening and closing cells

A closure that is made may turn slots of the stack into cells, and slots that are about to be taken
off the stack become values of their own.

* `Sound.capture`, `Sound.gather` — the cells of a new closure, all of them live.
* `Sound.newClosure` — a closure with the cells that its code asks for.
* `Sound.closeFrom` — behind it no slot from the first on is open.
-/

namespace DeployScript

namespace Machine

variable {ω : Type} {β : Link} {m m' m'' : Machine ω}

/-! ### Opening -/

/-- **More open cells,** at some slots at most; objects stay. -/
structure Opens (m m' : Machine ω) (slots : List Nat) : Prop where
  stack : m'.stack = m.stack
  frames : m'.frames = m.frames
  library : m'.library = m.library
  keep : ∀ g o, m.heap.get? g = some o → m'.heap.get? g = some o
  opened : ∀ slot, m'.Open slot → m.Open slot ∨ slot ∈ slots

theorem Opens.refl (m : Machine ω) : m.Opens m [] :=
  ⟨rfl, rfl, rfl, fun _ _ h => h, fun _ h => .inl h⟩

theorem Opens.function? {slots : List Nat} (h : m.Opens m' slots) {g : Handle}
    {p : Prototype Value} (hp : m.heap.function? g = some p) : m'.heap.function? g = some p :=
  Heap.Kept.function? h.keep hp

theorem Opens.closure? {slots : List Nat} (h : m.Opens m' slots) {g : Handle} {c : Closure}
    (hc : m.heap.closure? g = some c) : m'.heap.closure? g = some c :=
  Heap.Kept.closure? h.keep hc

theorem Opens.cell? {slots : List Nat} (h : m.Opens m' slots) {g : Handle} {c : Cell}
    (hc : m.heap.cell? g = some c) : m'.heap.cell? g = some c :=
  Heap.Kept.cell? h.keep hc

theorem Opens.trans {slots slots' : List Nat} (h : m.Opens m' slots) (h' : m'.Opens m'' slots') :
    m.Opens m'' (slots ++ slots') where
  stack := h'.stack.trans h.stack
  frames := h'.frames.trans h.frames
  library := h'.library.trans h.library
  keep g o hg := h'.keep g o (h.keep g o hg)
  opened slot ho := by
    rw [List.mem_append]
    rcases h'.opened slot ho with ho | hmem
    · exact (h.opened slot ho).imp_right .inl
    · exact .inr (.inr hmem)

theorem openSlot?_eq {h : Handle} {slot : Nat} :
    m.openSlot? h = some slot ↔ m.heap.cell? h = some (.opened slot) := by
  unfold openSlot?
  split
  case h_1 s hc =>
    rw [hc]
    simp
  case h_2 hne =>
    refine iff_of_false nofun fun hc => ?_
    exact hne slot hc

/-- **A slot is captured** by a cell that is this slot already, or else by a new one. -/
theorem capture_cases (m : Machine ω) (slot : Nat) :
    (∃ h, m.capture slot = (h, m) ∧ m.heap.cell? h = some (.opened slot)) ∨
      ∃ h next, m.capture slot = (h, { m with heap := next, opened := m.opened ++ [h] }) ∧
        m.heap.insert (.cell (.opened slot)) = (h, next) ∧
        ∀ g ∈ m.opened, m.heap.cell? g ≠ some (.opened slot) := by
  unfold Machine.capture
  split
  case h_1 h hfind =>
    have hfound := List.find?_some hfind
    exact .inl ⟨h, rfl, openSlot?_eq.1 (of_decide_eq_true hfound)⟩
  case h_2 hfind =>
    refine .inr ⟨_, _, rfl, rfl, fun g hmem hg => ?_⟩
    exact List.find?_eq_none.1 hfind g hmem (decide_eq_true (openSlot?_eq.2 hg))

namespace Sound

/-- **A new cell** that is a slot. No cell was this slot before. -/
theorem openCell (hs : m.Sound β) {slot : Nat} {h : Handle} {next : Heap}
    (hi : m.heap.insert (.cell (.opened slot)) = (h, next))
    (hunused : ∀ g, m.heap.cell? g ≠ some (.opened slot)) :
    ({ m with heap := next, opened := m.opened ++ [h] } : Machine ω).Sound β ∧
      m.Opens { m with heap := next, opened := m.opened ++ [h] } [slot] ∧
      next.cell? h = some (.opened slot) := by
  have hw := hs.heap.twin.wf
  obtain ⟨hnone, hw', -⟩ := Heap.get?_insert hw hi
  have hkeep := Heap.kept_insert hw hi
  have hcell := Heap.cell?_insert_cell hw hi
  have hself : next.cell? h = some (.opened slot) := by rw [hcell, if_pos rfl]
  -- An open cell is an old one, or it is the new one.
  have hopen : ∀ {g s}, next.cell? g = some (.opened s) →
      (g = h ∧ s = slot) ∨ m.heap.cell? g = some (.opened s) := by
    intro g s hg
    rw [hcell] at hg
    split at hg
    case isTrue he =>
      cases hg
      exact .inl ⟨he, rfl⟩
    case isFalse => exact .inr hg
  have hheap : next.Sound β := by
    refine hs.heap.keep hw' hkeep (Heap.closure?_insert hw hi nofun) (fun g v hv => ?_)
      (hs.heap.coded.congr (Heap.function?_insert hw hi nofun))
    rw [hcell] at hv
    split at hv
    · cases hv
    · exact hv
  refine ⟨⟨hheap, hs.stack, hs.globals, hs.builtins, fun g => ?_, fun g g' s hg hg' => ?_, ?_⟩,
    ⟨rfl, rfl, rfl, hkeep, ?_⟩, hself⟩
  · rw [List.mem_append, List.mem_singleton, hs.opened]
    constructor
    · rintro (⟨s, hg⟩ | rfl)
      · exact ⟨s, hkeep.cell? hg⟩
      · exact ⟨slot, hself⟩
    · rintro ⟨s, hg⟩
      exact (hopen hg).symm.imp (⟨s, ·⟩) And.left
  · rcases hopen hg with ⟨rfl, rfl⟩ | hold
    · exact (hopen hg').elim (fun he => he.1.symm) fun hold' => absurd hold' (hunused g')
    · rcases hopen hg' with ⟨rfl, rfl⟩ | hold'
      · exact absurd hold (hunused g)
      · exact hs.alone g g' s hold hold'
  · refine List.nodup_append.2 ⟨hs.nodup, List.nodup_singleton h, fun a ha b hb he => ?_⟩
    obtain ⟨s, hopened⟩ := (hs.opened a).1 ha
    rw [Heap.cell?_eq, he, List.mem_singleton.1 hb, hnone] at hopened
    cases hopened
  · rintro s ⟨g, hg⟩
    rcases hopen hg with ⟨-, rfl⟩ | hg
    · exact .inr (List.mem_singleton.2 rfl)
    · exact .inl ⟨g, hg⟩

/-- **The cell of a slot.** -/
theorem capture (hs : m.Sound β) (slot : Nat) :
    (m.capture slot).2.Sound β ∧
      (m.capture slot).2.heap.cell? (m.capture slot).1 = some (.opened slot) ∧
      m.Opens (m.capture slot).2 [slot] := by
  obtain ⟨h, hcapture, hcell⟩ | ⟨h, next, hcapture, hi, hnone⟩ := m.capture_cases slot
  · rw [hcapture]
    exact ⟨hs, hcell, { Opens.refl m with opened := fun _ ho => .inl ho }⟩
  · rw [hcapture]
    obtain ⟨hsound, hopens, hself⟩ := hs.openCell hi fun g hg =>
      hnone g ((hs.opened g).2 ⟨slot, hg⟩) hg
    exact ⟨hsound, hself, hopens⟩

/-- The slots that local captures turn into cells. -/
def slotsOf (base : Nat) (sources : List CaptureSource) : List Nat :=
  (sources.filter fun c => c.isLocal).map fun c => base + c.index.toNat

/-- **The cells of a new closure** are all there. -/
theorem gather (hs : m.Sound β) {f : Frame} {frames : List Frame} (hf : m.frames = f :: frames)
    {c : Closure} {p : Prototype Value} (hc : m.heap.closure? f.closure = some c)
    (hp : m.heap.function? c.function = some p) (sources : List CaptureSource)
    (hfits : ∀ s ∈ sources, s.isLocal = false → s.index.toNat < p.captures)
    (cells : Array Handle) (hcells : ∀ g ∈ cells, (m.heap.cell? g).isSome) :
    ∃ cells' m', Machine.gather sources cells m = (cells', none, m') ∧ m'.Sound β ∧
      cells'.size = cells.size + sources.length ∧ (∀ g ∈ cells', (m'.heap.cell? g).isSome) ∧
      m.Opens m' (slotsOf f.base sources) := by
  -- Each capture leaves a machine with more open slots, and the rest starts from that one.
  induction sources generalizing m cells with
  | nil => exact ⟨cells, m, rfl, hs, rfl, hcells, .refl m⟩
  | cons s sources ih =>
    have hrest : ∀ s ∈ sources, s.isLocal = false → s.index.toNat < p.captures :=
      fun s hs => hfits s (List.mem_cons_of_mem _ hs)
    unfold Machine.gather
    split
    case isTrue hlocal =>
      obtain ⟨hs', hcell, hopens⟩ := hs.capture (m.base + s.index.toNat)
      have hbase : m.base = f.base := by
        unfold Machine.base
        rw [hf]
        rfl
      have hcells' : ∀ g ∈ cells.push (m.capture (m.base + s.index.toNat)).1,
          ((m.capture (m.base + s.index.toNat)).2.heap.cell? g).isSome := by
        intro g hg
        rcases Array.mem_push.1 hg with hg | rfl
        · obtain ⟨d, hd⟩ := Option.isSome_iff_exists.1 (hcells g hg)
          rw [hopens.cell? hd]
          rfl
        · rw [hcell]
          rfl
      obtain ⟨cells', m', hgather, hsound, hsize, hlive, hall⟩ := ih hs' (hopens.frames.trans hf)
        (hopens.closure? hc) (hopens.function? hp) hrest _ hcells'
      refine ⟨cells', m', hgather, hsound, ?_, hlive, ?_⟩
      · rw [hsize, Array.size_push, List.length_cons]
        omega
      · have hslots : slotsOf f.base (s :: sources)
            = [m.base + s.index.toNat] ++ slotsOf f.base sources := by
          simp [slotsOf, hlocal, hbase]
        rw [hslots]
        exact hopens.trans hall
    case isFalse hlocal =>
      -- A cell that the function has itself opens nothing.
      have hindex := hfits s List.mem_cons_self (Bool.not_eq_true _ ▸ hlocal)
      obtain ⟨h, hh, hcell⟩ := hs.captured? hf hc hp hindex
      have hcells' : ∀ g ∈ cells.push h, (m.heap.cell? g).isSome :=
        fun g hg => (Array.mem_push.1 hg).elim (hcells g) fun he => he ▸ hcell
      obtain ⟨cells', m', hgather, hsound, hsize, hlive, hall⟩ := ih hs hf hc hp hrest _ hcells'
      refine ⟨cells', m', ?_, hsound, ?_, hlive, ?_⟩
      · simp only [hh, hgather]
      · rw [hsize, Array.size_push, List.length_cons]
        omega
      · have hslots : slotsOf f.base (s :: sources) = slotsOf f.base sources := by
          simp [slotsOf, hlocal]
        rw [hslots]
        exact hall

/-- **A new closure,** with the cells that its code asks for. -/
theorem newClosure (hs : m.Sound β) {function : Handle} {p : Prototype Value}
    (hp : m.heap.function? function = some p) {cells : Array Handle}
    (hsize : cells.size = p.captures) (hcells : ∀ g ∈ cells, (m.heap.cell? g).isSome)
    {h : Handle} {next : Heap} (hi : m.heap.insert (.closure { function, cells }) = (h, next)) :
    (∃ γ, ({ m with heap := next } : Machine ω).Sound γ ∧ (Value.closure h).Similar γ (.closure h) ∧
      β.Le γ) ∧ m.Opens { m with heap := next } [] ∧
      next.closure? h = some { function, cells } := by
  have hw := hs.heap.twin.wf
  have hkeep := Heap.kept_insert hw hi
  have hfunction := Heap.function?_insert hw hi nofun
  have hcell := Heap.cell?_insert hw hi nofun
  have hclosure := Heap.closure?_insert_closure hw hi
  have hnew : next.closure? h = some { function, cells } := by rw [hclosure, if_pos rfl]
  have hnamed : next.functionName? h = some p.name := by
    simp [Heap.functionName?, Heap.code?, hnew, hfunction, hp]
  have hle := β.le_with .closure h h
  -- The heap is a twin of itself, and the new closure is linked to itself.
  refine ⟨⟨β.with .closure h h, ⟨⟨?_, ?_, ?_, hs.heap.coded.congr hfunction, ?_, ?_⟩, ?_, ?_,
    hs.builtins, ?_, ?_, hs.nodup⟩, .closure (.inr ⟨rfl, rfl, rfl⟩), hle⟩, ?_, hnew⟩
  · exact hs.heap.twin.insert hi hi (fun he => by cases he) (fun he => by cases he)
      fun _ => ⟨p.name, hnamed, hnamed⟩
  · rintro g g' (hg | ⟨he, -, -⟩)
    · exact hs.heap.functions g g' hg
    · cases he
  · rintro g g' (hg | ⟨-, rfl, -⟩)
    · change (next.closure? g).isSome
      rw [hclosure]
      split
      · rfl
      · exact hs.heap.closures g g' hg
    · change (next.closure? g).isSome
      rw [hnew]
      rfl
  · intro g d hd
    change next.closure? g = _ at hd
    rw [hclosure] at hd
    change ∃ p, next.function? _ = _ ∧ _ ∧ ∀ k ∈ _, (next.cell? k).isSome
    simp only [hfunction, hcell]
    split at hd
    · obtain rfl := Option.some.inj hd
      exact ⟨p, hp, hsize, hcells⟩
    · exact hs.heap.captures g d hd
  · intro g v hv
    change next.cell? g = _ at hv
    rw [hcell] at hv
    exact (hs.heap.cells g v hv).mono hle
  · exact fun v hv => (hs.stack v hv).mono hle
  · exact hs.globals.mono fun _ _ hb => hb.mono hle
  · intro g
    change _ ↔ ∃ slot, next.cell? g = _
    rw [hs.opened]
    simp only [hcell]
  · intro g g' slot hg hg'
    change next.cell? _ = _ at hg
    change next.cell? _ = _ at hg'
    rw [hcell] at hg hg'
    exact hs.alone g g' slot hg hg'
  · refine ⟨rfl, rfl, rfl, hkeep, fun slot ho => .inl ?_⟩
    obtain ⟨g, hg⟩ := ho
    exact ⟨g, (hcell g).symm.trans hg⟩

end Sound

end Machine

/-! ### Closing -/

/-- What becomes of a cell when the slots from `first` on are given values of their own. -/
def Cell.closedFrom (first : Nat) (stack : Array Value) : Cell → Cell
  | .opened slot => if first ≤ slot then .closed (stack[slot]?.getD .nil) else .opened slot
  | .closed v => .closed v

/-- Cells are set one after another. -/
theorem Heap.Sound.setCells {β : Link} {heap : Heap} (hs : heap.Sound β)
    (closing : List (Handle × Value)) (hcells : ∀ c ∈ closing, (heap.cell? c.1).isSome)
    (hvalues : ∀ c ∈ closing, c.2.Similar β c.2) (hnodup : (closing.map Prod.fst).Nodup) :
    (closing.foldl (fun heap c => heap.setCell c.1 (.closed c.2)) heap).Sound β ∧
      (∀ g, (closing.foldl (fun heap c => heap.setCell c.1 (.closed c.2)) heap).function? g
          = heap.function? g ∧
        (closing.foldl (fun heap c => heap.setCell c.1 (.closed c.2)) heap).closure? g
          = heap.closure? g) ∧
      (∀ c ∈ closing, (closing.foldl (fun heap c => heap.setCell c.1 (.closed c.2)) heap).cell? c.1
        = some (.closed c.2)) ∧
      ∀ g, g ∉ closing.map Prod.fst →
        (closing.foldl (fun heap c => heap.setCell c.1 (.closed c.2)) heap).cell? g
          = heap.cell? g := by
  induction closing generalizing heap with
  | nil => exact ⟨hs, fun _ => ⟨rfl, rfl⟩, fun _ hc => (nomatch hc), fun _ _ => rfl⟩
  | cons c closing ih =>
    obtain ⟨old, hold⟩ := Option.isSome_iff_exists.1 (hcells c List.mem_cons_self)
    have hget := Heap.cell?_eq.1 hold
    have hcell := Heap.cell?_setCell hget (.closed c.2)
    have hother := Heap.other_setCell hget (.closed c.2)
    rw [List.map_cons, List.nodup_cons] at hnodup
    obtain ⟨hs', hcode, hset, hkeep⟩ := ih
      (hs.setCell hold (hvalues c List.mem_cons_self))
      (fun d hd => by
        rw [hcell]
        split
        · rfl
        · exact hcells d (List.mem_cons_of_mem _ hd))
      (fun d hd => hvalues d (List.mem_cons_of_mem _ hd)) hnodup.2
    refine ⟨hs', fun g => ⟨(hcode g).1.trans (hother g).1, (hcode g).2.trans (hother g).2.1⟩,
      fun d hd => ?_, fun g hg => ?_⟩
    · rcases List.mem_cons.1 hd with rfl | hd
      · rw [List.foldl_cons, hkeep _ hnodup.1, hcell, if_pos rfl]
      · exact hset d hd
    · rw [List.map_cons, List.mem_cons, not_or] at hg
      rw [List.foldl_cons, hkeep _ hg.2, hcell, if_neg hg.1]

namespace Machine

variable {ω : Type} {β : Link} {m : Machine ω}

/-- The open cells with their slots. -/
theorem Sound.slots (hs : m.Sound β) {h : Handle} {slot : Nat} :
    (h, slot) ∈ (m.opened.filterMap fun h => (m.openSlot? h).map (h, ·)) ↔
      m.heap.cell? h = some (.opened slot) := by
  rw [List.mem_filterMap]
  constructor
  · rintro ⟨g, -, hg⟩
    obtain ⟨s, hs, he⟩ := Option.map_eq_some_iff.1 hg
    cases he
    exact openSlot?_eq.1 hs
  · intro hc
    exact ⟨h, (hs.opened h).2 ⟨slot, hc⟩, Option.map_eq_some_iff.2 ⟨slot, openSlot?_eq.2 hc, rfl⟩⟩

theorem Sound.nodup_slots (hs : m.Sound β) :
    ((m.opened.filterMap fun h => (m.openSlot? h).map (h, ·)).map Prod.fst).Nodup := by
  have hsub : ∀ l : List Handle,
      ((l.filterMap fun h => (m.openSlot? h).map (h, ·)).map Prod.fst).Sublist l := by
    intro l
    induction l with
    | nil => exact .slnil
    | cons h l ih =>
      rw [List.filterMap_cons]
      cases m.openSlot? h with
      | none => exact ih.cons _
      | some slot => exact ih.cons_cons _
  exact hs.nodup.sublist (hsub _)

/-- **Behind closing** no slot from `first` on is open, each cell that was one of them has the value
that lay there, and all else is as it was. -/
theorem Sound.closeFrom (hs : m.Sound β) (first : Nat) :
    (m.closeFrom first).Sound β ∧
      (∀ g, (m.closeFrom first).heap.function? g = m.heap.function? g) ∧
      (∀ g, (m.closeFrom first).heap.closure? g = m.heap.closure? g) ∧
      (∀ g, (m.closeFrom first).heap.cell? g
        = (m.heap.cell? g).map (Cell.closedFrom first m.stack)) ∧
      ∀ slot, (m.closeFrom first).Open slot ↔ m.Open slot ∧ slot < first := by
  -- What closing goes through, and what it sets, spelled as its definition spells them.
  let slots := m.opened.filterMap fun h => (m.openSlot? h).map (h, ·)
  let closing := (slots.filter fun s => first ≤ s.2).map fun s => (s.1, (m.stack[s.2]?).getD .nil)
  have hmem : ∀ {h : Handle} {v : Value}, (h, v) ∈ closing ↔
      ∃ slot, m.heap.cell? h = some (.opened slot) ∧ first ≤ slot ∧
        (m.stack[slot]?).getD .nil = v := by
    intro h v
    rw [List.mem_map]
    constructor
    · rintro ⟨⟨g, slot⟩, hmem, he⟩
      cases he
      obtain ⟨hmem, hle⟩ := List.mem_filter.1 hmem
      exact ⟨slot, hs.slots.1 hmem, of_decide_eq_true hle, rfl⟩
    · rintro ⟨slot, hc, hle, rfl⟩
      exact ⟨(h, slot), List.mem_filter.2 ⟨hs.slots.2 hc, decide_eq_true hle⟩, rfl⟩
  -- No cell is set twice, so it does not matter which is set first.
  have hnodup : (closing.map Prod.fst).Nodup := by
    have hfst : closing.map Prod.fst = (slots.filter fun s => first ≤ s.2).map Prod.fst := by
      rw [List.map_map]
      rfl
    rw [hfst]
    exact hs.nodup_slots.sublist (List.filter_sublist.map _)
  obtain ⟨hheap, hcode, hset, hkeep⟩ := hs.heap.setCells closing
    (fun c hc => by
      obtain ⟨slot, hcell, -, -⟩ := hmem.1 hc
      rw [hcell]
      rfl)
    (fun c hc => by
      obtain ⟨slot, -, -, hv⟩ := hmem.1 hc
      rw [← hv]
      cases hget : m.stack[slot]? with
      | none => exact .nil
      | some v => exact hs.get hget)
    hnodup
  have hcell : ∀ g, (m.closeFrom first).heap.cell? g
      = (m.heap.cell? g).map (Cell.closedFrom first m.stack) := by
    intro g
    change (closing.foldl (fun heap c => heap.setCell c.1 (.closed c.2)) m.heap).cell? g = _
    by_cases hg : g ∈ closing.map Prod.fst
    · obtain ⟨c, hc, rfl⟩ := List.mem_map.1 hg
      obtain ⟨slot, hopen, hle, hv⟩ := hmem.1 hc
      rw [hset c hc, hopen, Option.map_some, Cell.closedFrom, if_pos hle, hv]
    · rw [hkeep g hg]
      cases hc : m.heap.cell? g with
      | none => rfl
      | some c =>
        cases c with
        | closed v => rfl
        | opened slot =>
          have hlt : ¬ first ≤ slot := fun hle =>
            hg (List.mem_map.2 ⟨(g, _), hmem.2 ⟨slot, hc, hle, rfl⟩, rfl⟩)
          rw [Option.map_some, Cell.closedFrom, if_neg hlt]
  -- A cell that is still open was open before, on a slot below `first`.
  have hopened : ∀ {g : Handle} {slot : Nat}, (m.closeFrom first).heap.cell? g
      = some (.opened slot) ↔ m.heap.cell? g = some (.opened slot) ∧ slot < first := by
    intro g slot
    rw [hcell]
    constructor
    · intro hc
      obtain ⟨c, hc, he⟩ := Option.map_eq_some_iff.1 hc
      cases c with
      | closed v => cases he
      | opened s =>
        simp only [Cell.closedFrom] at he
        split at he
        case isTrue => cases he
        case isFalse hle =>
          cases he
          exact ⟨hc, Nat.lt_of_not_le hle⟩
    · rintro ⟨hc, hlt⟩
      rw [hc, Option.map_some, Cell.closedFrom, if_neg (Nat.not_le_of_lt hlt)]
  refine ⟨⟨hheap, hs.stack, hs.globals, hs.builtins, fun g => ?_, fun g g' slot hg hg' => ?_, ?_⟩,
    fun g => (hcode g).1, fun g => (hcode g).2, hcell, fun slot => ?_⟩
  · simp only [hopened]
    change g ∈ (slots.filter fun s => s.2 < first).map (·.1) ↔ _
    rw [List.mem_map]
    constructor
    · rintro ⟨⟨h, slot⟩, hmem, rfl⟩
      obtain ⟨hmem, hlt⟩ := List.mem_filter.1 hmem
      exact ⟨slot, hs.slots.1 hmem, of_decide_eq_true hlt⟩
    · rintro ⟨slot, hc, hlt⟩
      exact ⟨(g, slot), List.mem_filter.2 ⟨hs.slots.2 hc, decide_eq_true hlt⟩, rfl⟩
  · exact hs.alone g g' slot (hopened.1 hg).1 (hopened.1 hg').1
  · exact hs.nodup_slots.sublist (List.filter_sublist.map _)
  · unfold Machine.Open
    simp only [hopened]
    constructor
    · rintro ⟨g, hc, hlt⟩
      exact ⟨⟨g, hc⟩, hlt⟩
    · rintro ⟨⟨g, hc⟩, hlt⟩
      exact ⟨g, hc, hlt⟩

end Machine

end DeployScript
