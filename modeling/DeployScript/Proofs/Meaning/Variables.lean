import Mathlib
import DeployScript.Proofs.Meaning.Models

/-!
# Variables on both sides

What happens to a variable, on a machine and in the memory that it stands for: it is declared, set,
captured by a closure, and leaves the stack. In the memory it is one cell all the time; on the machine
it is a slot first, then also a cell that means the slot, and at last a cell with a value.

* `Models.declare`, `hide` — a slot becomes a variable.
* `Models.setSlot`, `setCell` — a variable is set.
* `Models.forget`, `closeFrom` — variables leave the stack.
* `Models.capture`, `gather`, `newClosure` — closures share variables.
-/

namespace DeployScript

variable {ω : Type} {β γ δ : Link} {φ : Roles} {m : Machine ω} {μ : Memory ω} {v v' : Value}
  {slot bound : Nat} {g h : Handle} {next : Heap}

namespace Machine.Models

/-- A variable has a cell of the memory. -/
theorem isCell (hm : m.Models β φ μ) (hg : φ slot = .bound g) :
    ∃ c, μ.heap.get? g = some (.cell c) := by
  obtain ⟨v, hv, -⟩ := hm.slots slot g hg
  exact ⟨_, Heap.cell?_eq.1 hv⟩

/-- A cell of the memory is linked to nothing but cells. -/
theorem kind_of_cell (hm : m.Models β φ μ) {c : Cell} (hc : μ.heap.get? g = some (.cell c))
    {k : Kind} (hk : β k h g) : k = .cell := by
  cases k with
  | cell => rfl
  | array =>
    obtain ⟨_, items, -, hi, -⟩ := hm.twin.array _ _ hk
    rw [Heap.array?_eq, hc] at hi
    cases hi
  | record =>
    obtain ⟨_, fields, -, hf, -⟩ := hm.twin.record _ _ hk
    rw [Heap.record?_eq, hc] at hf
    cases hf
  | function => exact absurd hk (hm.functions _ _)
  | closure =>
    obtain ⟨name, -, hn⟩ := hm.twin.named _ _ (.inr hk)
    simp [Heap.functionName?, Heap.code?, Heap.closure?, Heap.function?, hc] at hn

/-! ### Declarations -/

/-- **A new variable:** a new cell of the memory for a slot that was none. -/
theorem declare (hm : m.Models β φ μ) (hslot : φ slot = .value)
    (hi : μ.heap.insert (.cell (.closed v')) = (g, next))
    (hv : ((m.stack[slot]?).getD .nil).Similar β v') :
    m.Models β (φ.set slot (.bound g)) { μ with heap := next } := by
  obtain ⟨hnone, hw, hget⟩ := Heap.get?_insert hm.twin.wf' hi
  have hkeep := Heap.kept_insert hm.twin.wf' hi
  have hnew : next.cell? g = some (.closed v') := Heap.cell?_eq.2 (by rw [hget, if_pos rfl])
  -- The cell is new, so that no slot has it and nothing is linked to it.
  have hunused : ∀ k, φ k ≠ .bound g := by
    intro k hk
    obtain ⟨c, hc⟩ := hm.isCell hk
    rw [hnone] at hc
    cases hc
  have hunlinked : ∀ k, ¬ β .cell k g := by
    intro k hk
    have hlive := (hm.twin.live _ _ _ hk).2
    rw [hnone] at hlive
    cases hlive
  have hset : ∀ {k g'}, φ.set slot (.bound g) k = .bound g' →
      (k = slot ∧ g' = g) ∨ (k ≠ slot ∧ φ k = .bound g') := by
    intro k g' hk
    by_cases he : k = slot
    · rw [he, φ.set_self] at hk
      exact .inl ⟨he, (Role.bound.inj hk).symm⟩
    · rw [φ.set_of_ne _ he] at hk
      exact .inr ⟨he, hk⟩
  have hold : ∀ {k}, φ k ≠ .value → φ.set slot (.bound g) k = φ k := by
    intro k hk
    exact φ.set_of_ne _ fun he => hk (he ▸ hslot)
  refine { hm with
    twin := hm.twin.keep hm.twin.wf hw (fun _ _ ho => ho) hkeep
    slots := fun k g' hk => ?_
    cells := fun h g' hh => ?_
    opened := fun h k hk => ?_
    tied := fun k g' h hk hh => ?_
    apart := fun k k' g' hk hk' => ?_ }
  · rcases hset hk with ⟨rfl, rfl⟩ | ⟨-, hk⟩
    · exact ⟨v', hnew, hv⟩
    · obtain ⟨w, hw, hs⟩ := hm.slots k g' hk
      exact ⟨w, hkeep.cell? hw, hs⟩
  · obtain ⟨w, hw, hwhere⟩ := hm.cells h g' hh
    refine ⟨w, hkeep.cell? hw, hwhere.imp_right ?_⟩
    rintro ⟨k, hc, hk⟩
    exact ⟨k, hc, by rw [hold (by rw [hk]; exact nofun), hk]⟩
  · obtain ⟨hrole, hlinked⟩ := hm.opened h k hk
    rw [hold hrole]
    exact ⟨hrole, hlinked⟩
  · rcases hset hk with ⟨-, rfl⟩ | ⟨-, hk⟩
    · exact absurd hh (hunlinked h)
    · exact hm.tied k g' h hk hh
  · rcases hset hk with ⟨rfl, rfl⟩ | ⟨-, hold₁⟩
    · rcases hset hk' with ⟨rfl, -⟩ | ⟨-, hold₂⟩
      · rfl
      · exact absurd hold₂ (hunused k')
    · rcases hset hk' with ⟨-, rfl⟩ | ⟨-, hold₂⟩
      · exact absurd hold₁ (hunused k)
      · exact hm.apart k k' g' hold₁ hold₂

/-- **A variable that only the code knows.** -/
theorem hide (hm : m.Models β φ μ) (hslot : φ slot = .value) :
    m.Models β (φ.set slot .hidden) μ := by
  have hset : ∀ {k g}, φ.set slot .hidden k = .bound g → φ k = .bound g := by
    intro k g hk
    by_cases he : k = slot
    · rw [he, φ.set_self] at hk
      cases hk
    · rwa [φ.set_of_ne _ he] at hk
  have hold : ∀ {k}, φ k ≠ .value → φ.set slot .hidden k = φ k := by
    intro k hk
    exact φ.set_of_ne _ fun he => hk (he ▸ hslot)
  refine { hm with
    twin := hm.twin
    slots := fun k g hk => hm.slots k g (hset hk)
    cells := fun h g hh => ?_
    opened := fun h k hk => ?_
    tied := fun k g h hk hh => hm.tied k g h (hset hk) hh
    apart := fun k k' g hk hk' => hm.apart k k' g (hset hk) (hset hk') }
  · obtain ⟨w, hw, hwhere⟩ := hm.cells h g hh
    refine ⟨w, hw, hwhere.imp_right ?_⟩
    rintro ⟨k, hc, hk⟩
    exact ⟨k, hc, by rw [hold (by rw [hk]; exact nofun), hk]⟩
  · obtain ⟨hrole, hlinked⟩ := hm.opened h k hk
    rw [hold hrole]
    exact ⟨hrole, hlinked⟩

/-! ### Assignments -/

/-- **A variable in a slot** is set. The slot may be one that the stack had not yet. -/
theorem setSlot (hm : m.Models β φ μ) (hg : φ slot = .bound g) {stack : Array Value}
    (hs : ∀ k g', φ k = .bound g' → k ≠ slot → stack[k]? = m.stack[k]?)
    (hv : ((stack[slot]?).getD .nil).Similar β v') :
    ({ m with stack } : Machine ω).Models β φ
      { μ with heap := μ.heap.setCell g (.closed v') } := by
  obtain ⟨c, hc⟩ := hm.isCell hg
  have hcell := Heap.cell?_setCell hc (.closed v')
  refine { hm with
    twin := hm.twin.recell (.refl _) (.setCell _ _ _)
    slots := fun k g' hg' => ?_
    cells := fun h g' hh => ?_ }
  · dsimp only
    rw [hcell]
    by_cases he : k = slot
    · obtain rfl := Role.bound.inj (hg.symm.trans (he ▸ hg'))
      rw [if_pos rfl, he]
      exact ⟨v', rfl, hv⟩
    · have hne : g' ≠ g := fun he' => he (hm.apart k slot g (he' ▸ hg') hg)
      rw [if_neg hne, hs k g' hg' he]
      exact hm.slots k g' hg'
  · obtain ⟨w, hw, hwhere⟩ := hm.cells h g' hh
    dsimp only
    rw [hcell]
    by_cases he : g' = g
    · subst he
      rw [if_pos rfl]
      exact ⟨v', rfl, .inr ⟨slot, hm.tied slot g' h hg hh, hg⟩⟩
    · rw [if_neg he]
      exact ⟨w, hw, hwhere⟩

/-- **A variable that has left the stack** is set. -/
theorem setCell (hm : m.Models β φ μ) (hh : β .cell h g) {w : Value}
    (hc : m.heap.cell? h = some (.closed w)) (hv : v.Similar β v') :
    ({ m with heap := m.heap.setCell h (.closed v) } : Machine ω).Models β φ
      { μ with heap := μ.heap.setCell g (.closed v') } := by
  obtain ⟨w', hw', -⟩ := hm.cells h g hh
  have hrecell := Heap.Recells.setCell m.heap h (.closed v)
  have hcell := Heap.cell?_setCell (Heap.cell?_eq.1 hc) (.closed v)
  have hcell' := Heap.cell?_setCell (Heap.cell?_eq.1 hw') (.closed v')
  refine { hm with
    twin := hm.twin.recell hrecell (.setCell _ _ _)
    closures := fun a a' ha => ?_
    slots := fun k g' hg' => ?_
    cells := fun h' g' hh' => ?_
    opened := fun h' k hk => ?_
    tied := fun k g' h' hg' hh' => ?_ }
  · obtain ⟨c, f, hclosure, hf, hp⟩ := hm.closures a a' ha
    exact ⟨c, f, (hrecell.closure? a).trans hclosure, hf,
      hp.mono (.refl β) fun k p hp => (hrecell.function? k).trans hp⟩
  · dsimp only
    -- The cell of a slot would be open, and this one is not.
    have hne : g' ≠ g := by
      rintro rfl
      rw [hm.tied k g' h hg' hh] at hc
      cases hc
    rw [hcell', if_neg hne]
    exact hm.slots k g' hg'
  · dsimp only
    rw [hcell, hcell']
    by_cases he : h' = h
    · have he' : g' = g := (hm.twin.one _ _ _ _ _ _ hh' hh).1 he
      rw [if_pos he, if_pos he']
      exact ⟨v', rfl, .inl ⟨v, rfl, hv⟩⟩
    · have he' : g' ≠ g := fun he' => he ((hm.twin.one _ _ _ _ _ _ hh' hh).2 he')
      rw [if_neg he, if_neg he']
      exact hm.cells h' g' hh'
  · dsimp only at hk
    rw [hcell] at hk
    split at hk
    · cases hk
    · exact hm.opened h' k hk
  · dsimp only
    have hopen := hm.tied k g' h' hg' hh'
    rw [hcell, if_neg fun he => ?_]
    · exact hopen
    · subst he
      rw [hc] at hopen
      cases hopen

/-! ### The end of a scope -/

/-- **Variables go out of scope** that no closure shares. -/
theorem forget (hm : m.Models β φ μ)
    (hopen : ∀ h slot, m.heap.cell? h = some (.opened slot) → slot < bound) :
    m.Models β (φ.below bound) μ := by
  have hbelow : ∀ {k g}, φ.below bound k = .bound g → φ k = .bound g := by
    intro k g hk
    by_cases hlt : k < bound
    · rwa [φ.below_of_lt hlt] at hk
    · rw [φ.below_of_le (Nat.le_of_not_lt hlt)] at hk
      cases hk
  refine { hm with
    twin := hm.twin
    slots := fun k g hk => hm.slots k g (hbelow hk)
    cells := fun h g hh => ?_
    opened := fun h k hk => ?_
    tied := fun k g h hk hh => hm.tied k g h (hbelow hk) hh
    apart := fun k k' g hk hk' => hm.apart k k' g (hbelow hk) (hbelow hk') }
  · obtain ⟨w, hw, hwhere⟩ := hm.cells h g hh
    refine ⟨w, hw, hwhere.imp_right ?_⟩
    rintro ⟨k, hc, hk⟩
    exact ⟨k, hc, (φ.below_of_lt (hopen h k hc)).trans hk⟩
  · rw [φ.below_of_lt (hopen h k hk)]
    exact hm.opened h k hk

/-- **Variables go out of scope,** and closures that share them keep their values. -/
theorem closeFrom (hm : m.Models β φ μ) (hs : m.Sound δ) (bound : Nat) :
    (m.closeFrom bound).Models β (φ.below bound) μ := by
  obtain ⟨-, hfunction, hclosure, hcell, -⟩ := hs.closeFrom bound
  have hrecell : m.heap.Recells (m.closeFrom bound).heap := .setCells _ _
  have hclosed : ∀ {h k}, m.heap.cell? h = some (.opened k) → bound ≤ k →
      (m.closeFrom bound).heap.cell? h = some (.closed ((m.stack[k]?).getD .nil)) := by
    intro h k hk hle
    rw [hcell, hk, Option.map_some, Cell.closedFrom, if_pos hle]
  have hstill : ∀ {h k}, m.heap.cell? h = some (.opened k) → k < bound →
      (m.closeFrom bound).heap.cell? h = some (.opened k) := by
    intro h k hk hlt
    rw [hcell, hk, Option.map_some, Cell.closedFrom, if_neg (Nat.not_le_of_lt hlt)]
  have hopened : ∀ {h k}, (m.closeFrom bound).heap.cell? h = some (.opened k) →
      m.heap.cell? h = some (.opened k) ∧ k < bound := by
    intro h k hk
    rw [hcell] at hk
    obtain ⟨c, hc, he⟩ := Option.map_eq_some_iff.1 hk
    cases c with
    | closed w => cases he
    | opened k' =>
      rw [Cell.closedFrom] at he
      split at he
      · cases he
      case isFalse hlt =>
        cases he
        exact ⟨hc, Nat.lt_of_not_le hlt⟩
  -- Slots from the bound on lose their roles, so one that is bound now was bound before.
  have hbelow : ∀ {k g}, φ.below bound k = .bound g → φ k = .bound g ∧ k < bound := by
    intro k g hk
    by_cases hlt : k < bound
    · rw [φ.below_of_lt hlt] at hk
      exact ⟨hk, hlt⟩
    · rw [φ.below_of_le (Nat.le_of_not_lt hlt)] at hk
      cases hk
  refine { hm with
    twin := hm.twin.recell hrecell (.refl _)
    closures := fun a a' ha => ?_
    slots := fun k g hk => hm.slots k g (hbelow hk).1
    cells := fun h g hh => ?_
    opened := fun h k hk => ?_
    tied := fun k g h hk hh => ?_
    apart := fun k k' g hk hk' => hm.apart k k' g (hbelow hk).1 (hbelow hk').1 }
  · obtain ⟨c, f, hc, hf, hp⟩ := hm.closures a a' ha
    exact ⟨c, f, (hclosure a).trans hc, hf, hp.mono (.refl β) fun k p hp => (hfunction k).trans hp⟩
  · obtain ⟨w, hw, ⟨w', hc, hs⟩ | ⟨k, hc, hk⟩⟩ := hm.cells h g hh
    · refine ⟨w, hw, .inl ⟨w', ?_, hs⟩⟩
      rw [hcell, hc]
      rfl
    · by_cases hlt : k < bound
      · exact ⟨w, hw, .inr ⟨k, hstill hc hlt, (φ.below_of_lt hlt).trans hk⟩⟩
      · -- The value moves from the slot into the cell.
        obtain ⟨w', hw', hs⟩ := hm.slots k g hk
        exact ⟨w', hw', .inl ⟨_, hclosed hc (Nat.le_of_not_lt hlt), hs⟩⟩
  · obtain ⟨hk, hlt⟩ := hopened hk
    rw [φ.below_of_lt hlt]
    exact hm.opened h k hk
  · obtain ⟨hk, hlt⟩ := hbelow hk
    exact hstill (hm.tied k g h hk hh) hlt

/-! ### Closures -/

/-- A slot becomes a cell, which is linked if the slot is a variable of the program. -/
theorem openCell (hm : m.Models β φ μ)
    (hi : m.heap.insert (.cell (.opened slot)) = (h, next)) (hrole : φ slot ≠ .value)
    (hunused : ∀ k, m.heap.cell? k ≠ some (.opened slot)) (opened : List Handle) :
    ∃ γ, Later β m γ { m with heap := next, opened } ∧
      ({ m with heap := next, opened } : Machine ω).Models γ φ μ ∧
      ∀ g, φ slot = .bound g → γ .cell h g := by
  obtain ⟨hnone, hw, hget⟩ := Heap.get?_insert hm.twin.wf hi
  have hkeep := Heap.kept_insert hm.twin.wf hi
  have hcell := Heap.cell?_insert_cell hm.twin.wf hi
  -- Linked handles are live, and the new one was not.
  have hfresh : ∀ l g, ¬ β l h g := by
    intro l g hg
    have hlive := (hm.twin.live _ _ _ hg).1
    rw [hnone] at hlive
    cases hlive
  have htwin := hm.twin.keep hw hm.twin.wf' hkeep fun _ _ ho => ho
  -- One link serves both roles: behind a hidden slot there is no cell, and nothing is added.
  let γ : Link := ⟨fun l a b => β l a b ∨ (l = .cell ∧ a = h ∧ φ slot = .bound b), β.builtin⟩
  have hle : β.Le γ := ⟨fun _ _ _ hh => .inl hh, rfl⟩
  have htwin' : next.Twin γ μ.heap := by
    cases hφ : φ slot with
    | value => exact absurd hφ hrole
    | hidden =>
      have hγ : γ = β := by simp [γ, hφ]
      exact hγ ▸ htwin
    | bound g =>
      have hγ : γ = β.with .cell h g := by simp [γ, hφ, Link.with, eq_comm]
      obtain ⟨c, hc⟩ := hm.isCell hφ
      refine hγ ▸ htwin.link (by rw [hget, if_pos rfl]; rfl) (by rw [hc]; rfl) hfresh fun l k hk => ?_
      obtain rfl := hm.kind_of_cell hc hk
      exact hunused k (hm.tied slot g k hφ hk)
  have hcode : ∀ {l : Kind} {a b}, l ≠ .cell → γ l a b → β l a b :=
    fun hl hh => hh.resolve_right fun h => hl h.1
  refine ⟨γ, .of_keep hle hkeep, { hm with
    twin := htwin'
    globals := hm.globals.mono fun _ _ hb => hb.mono hle
    builtins := hm.builtins
    functions := fun a a' ha => hm.functions a a' (hcode nofun ha)
    closures := fun a a' ha => ?_
    slots := fun k g hk => ?_
    cells := fun a g ha => ?_
    opened := fun a k hk => ?_
    tied := fun k g a hk ha => ?_ }, fun g hg => .inr ⟨rfl, rfl, hg⟩⟩
  · obtain ⟨c, f, hc, hf, hp⟩ := hm.closures a a' (hcode nofun ha)
    exact ⟨c, f, hkeep.closure? hc, hf, hp.mono hle fun _ _ hp => hkeep.function? hp⟩
  · obtain ⟨w, hw, hs⟩ := hm.slots k g hk
    exact ⟨w, hw, hs.mono hle⟩
  · rcases ha with ha | ⟨-, rfl, hg⟩
    · obtain ⟨w, hw, hwhere⟩ := hm.cells a g ha
      refine ⟨w, hw, ?_⟩
      rcases hwhere with ⟨w', hc, hs⟩ | ⟨k, hc, hk⟩
      · exact .inl ⟨w', hkeep.cell? hc, hs.mono hle⟩
      · exact .inr ⟨k, hkeep.cell? hc, hk⟩
    · obtain ⟨w, hw, -⟩ := hm.slots slot g hg
      exact ⟨w, hw, .inr ⟨slot, by rw [hcell, if_pos rfl], hg⟩⟩
  · dsimp only at hk
    rw [hcell] at hk
    split at hk
    case isTrue he =>
      cases hk
      exact ⟨hrole, fun g hg => .inr ⟨rfl, he, hg⟩⟩
    case isFalse =>
      obtain ⟨hne, hlinked⟩ := hm.opened a k hk
      exact ⟨hne, fun g hg => .inl (hlinked g hg)⟩
  · rcases ha with ha | ⟨-, rfl, hg⟩
    · exact hkeep.cell? (hm.tied k g a hk ha)
    -- Two slots that are bound to one cell are one slot.
    · obtain rfl := hm.apart k slot g hk hg
      dsimp only
      rw [hcell, if_pos rfl]

/-- **A variable is captured.** -/
theorem capture (hm : m.Models β φ μ) (hs : m.Sound δ) (hrole : φ slot ≠ .value) :
    ∃ γ heap opened, (m.capture slot).2 = { m with heap, opened } ∧
      Later β m γ (m.capture slot).2 ∧ (m.capture slot).2.Models γ φ μ ∧
      ∀ g, φ slot = .bound g → γ .cell (m.capture slot).1 g := by
  obtain ⟨h, hcapture, hcell⟩ | ⟨h, next, hcapture, hi, hnone⟩ := m.capture_cases slot
  · rw [hcapture]
    exact ⟨β, m.heap, m.opened, rfl, .refl β m, hm, (hm.opened h slot hcell).2⟩
  · rw [hcapture]
    obtain ⟨γ, hrest⟩ := hm.openCell hi hrole
      (fun k hk => hnone k ((hs.opened k).2 ⟨slot, hk⟩) hk) (m.opened ++ [h])
    exact ⟨γ, next, m.opened ++ [h], rfl, hrest⟩

/-- **What a source of a capture finds:** the cell of a slot, or a cell that the function itself has. -/
def Picks (γ : Link) (φ : Roles) (base : Nat) (own : Array Handle) (s : CaptureSource) (h : Handle) :
    Prop :=
  (s.isLocal = true → ∀ g, φ (base + s.index.toNat) = .bound g → γ .cell h g) ∧
    (s.isLocal = false → own[s.index.toNat]? = some h)

/-- **The cells of a new closure** are gathered. -/
theorem gather (hm : m.Models β φ μ) (hs : m.Sound δ) {f : Frame} {callers : List Frame}
    (hf : m.frames = f :: callers) {c : Closure} (hc : m.heap.closure? f.closure = some c)
    (sources : List CaptureSource)
    (hlocal : ∀ s ∈ sources, s.isLocal = true → φ (f.base + s.index.toNat) ≠ .value)
    (hown : ∀ s ∈ sources, s.isLocal = false → s.index.toNat < c.cells.size)
    (cells : Array Handle) :
    ∃ γ picked heap opened, Machine.gather sources cells m
        = (cells ++ picked.toArray, none, { m with heap, opened }) ∧
      Later β m γ { m with heap, opened } ∧
      ({ m with heap, opened } : Machine ω).Models γ φ μ ∧
      List.Forall₂ (Picks γ φ f.base c.cells) sources picked := by
  -- Each capture may add to the link, so the rest is gathered under a link of its own.
  induction sources generalizing m β cells with
  | nil => exact ⟨β, [], m.heap, m.opened, by simp [Machine.gather], .refl β m, hm, .nil⟩
  | cons s sources ih =>
    have hlocal' := fun s hs => hlocal s (List.mem_cons_of_mem _ hs)
    have hown' := fun s hs => hown s (List.mem_cons_of_mem _ hs)
    have hbase : m.base = f.base := by
      unfold Machine.base
      rw [hf]
      rfl
    unfold Machine.gather
    split
    case isTrue hl =>
      obtain ⟨γ, heap, opened, hcapture, hlater, hm', hlink⟩ :=
        hm.capture hs (hlocal s List.mem_cons_self hl)
      obtain ⟨hs', -, -⟩ := hs.capture (f.base + s.index.toNat)
      rw [hbase]
      -- The machine behind the capture gets a name, which the induction hypothesis then takes.
      generalize m.capture (f.base + s.index.toNat) = captured at *
      obtain ⟨h, m'⟩ := captured
      obtain rfl : m' = { m with heap, opened } := hcapture
      obtain ⟨γ', picked, heap', opened', hgather, hlater', hm'', hpicked⟩ :=
        ih hm' hs' hf (hlater.closure _ _ hc) hlocal' hown' (cells.push h)
      refine ⟨γ', h :: picked, heap', opened', ?_, hlater.trans hlater', hm'', .cons ⟨?_, ?_⟩ hpicked⟩
      · dsimp only
        rw [hgather]
        simp
      · exact fun _ g hg => hlater'.le.handle _ _ _ (hlink g hg)
      · exact fun hne => absurd hl (by simp [hne])
    case isFalse hl =>
      have hl : s.isLocal = false := Bool.not_eq_true _ ▸ hl
      have hlt := hown s List.mem_cons_self hl
      have hcaptured : m.captured? s.index.toNat = some c.cells[s.index.toNat] := by
        unfold Machine.captured?
        simp [hf, hc, hlt]
      obtain ⟨γ, picked, heap, opened, hgather, hlater, hm', hpicked⟩ :=
        ih hm hs hf hc hlocal' hown' (cells.push c.cells[s.index.toNat])
      refine ⟨γ, c.cells[s.index.toNat] :: picked, heap, opened, ?_, hlater, hm', .cons ⟨?_, ?_⟩ hpicked⟩
      · rw [hcaptured]
        dsimp only
        rw [hgather]
        simp
      · exact fun ht => absurd ht (by simp [hl])
      · exact fun _ => Array.getElem?_eq_getElem hlt

/-- **A new function** on both sides. -/
theorem newClosure (hm : m.Models β φ μ) {c : Closure} {p : Prototype Value}
    (hp : m.heap.function? c.function = some p) {f : Lambda} (hperforms : c.Performs β m.heap f)
    (hi : m.heap.insert (.closure c) = (h, next)) :
    ∃ γ h' heap' lambdas, Eval.closure p.name f μ
        = .ok (.closure h') { μ with heap := heap', lambdas } ∧
      γ .closure h h' ∧ Later β m γ { m with heap := next } ∧
      ({ m with heap := next } : Machine ω).Models γ φ { μ with heap := heap', lambdas } ∧
      ∀ g v, μ.heap.cell? g = some (.closed v) → heap'.cell? g = some (.closed v) := by
  obtain ⟨hnone, hw, hget⟩ := Heap.get?_insert hm.twin.wf hi
  have hkeep := Heap.kept_insert hm.twin.wf hi
  have hnew : next.closure? h = some c := Heap.closure?_eq.2 (by rw [hget, if_pos rfl])
  -- The memory makes two objects for this one: a function with a name, and its closure.
  cases hj : μ.heap.insert (Eval.named p.name) with
  | mk function' heap' =>
  obtain ⟨hnone', hw', hget'⟩ := Heap.get?_insert hm.twin.wf' hj
  have hkeep' := Heap.kept_insert hm.twin.wf' hj
  cases hk : heap'.insert (.closure { function := function', cells := #[] }) with
  | mk h' last' =>
  obtain ⟨hnone'', hw'', hget''⟩ := Heap.get?_insert hw' hk
  have hkeep'' := Heap.kept_insert hw' hk
  have hfresh' : μ.heap.get? h' = none := by
    cases ho : μ.heap.get? h' with
    | none => rfl
    | some o =>
      rw [hkeep' h' o ho] at hnone''
      cases hnone''
  have hname : next.functionName? h = some p.name := by
    unfold Heap.functionName? Heap.code?
    rw [hnew]
    simp only
    rw [hkeep.function? hp]
    rfl
  have hname' : last'.functionName? h' = some p.name := by
    have hclosure : last'.closure? h' = some { function := function', cells := #[] } :=
      Heap.closure?_eq.2 (by rw [hget'', if_pos rfl])
    have hfunction : heap'.get? function' = some (Eval.named p.name) := by rw [hget', if_pos rfl]
    unfold Heap.functionName? Heap.code?
    rw [hclosure]
    simp only
    rw [Heap.function?_eq.2 (hkeep'' _ _ hfunction)]
    rfl
  have hle := β.le_with .closure h h'
  have hcode : ∀ {l : Kind} {a b}, l ≠ .closure → (β.with .closure h h') l a b → β l a b :=
    fun hl hh => hh.resolve_right fun h => hl h.1
  have hcell := Heap.cell?_insert hm.twin.wf hi nofun
  have hkept' := hkeep'.trans hkeep''
  have htwin : next.Twin (β.with .closure h h') last' :=
    (hm.twin.keep hm.twin.wf hw' (fun _ _ ho => ho) hkeep').insert hi hk nofun nofun
      fun _ => ⟨p.name, hname, hname'⟩
  refine ⟨β.with .closure h h', h', last', fun k => if k = h' then some f else μ.lambdas k, ?_,
    .inr ⟨rfl, rfl, rfl⟩, .of_keep hle hkeep, { hm with
    twin := htwin
    globals := hm.globals.mono fun _ _ hb => hb.mono hle
    builtins := hm.builtins
    functions := fun a a' ha => hm.functions a a' (hcode nofun ha)
    closures := fun a a' ha => ?_
    slots := fun k g hk => ?_
    cells := fun a g ha => ?_
    opened := fun a k hk => ?_
    tied := fun k g a hk ha => hkeep.cell? (hm.tied k g a hk (hcode nofun ha)) }, fun g v hv => hkept'.cell? hv⟩
  · unfold Eval.closure
    simp only [hj, hk]
  · have hfunction : ∀ k q, m.heap.function? k = some q → next.function? k = some q :=
      fun _ _ hq => hkeep.function? hq
    rcases ha with ha | ⟨-, rfl, rfl⟩
    · obtain ⟨d, e, hd, he, hp⟩ := hm.closures a a' ha
      -- A closure that is linked is live, so it is not the one that was just made.
      have hne : a' ≠ h' := by
        rintro rfl
        have hlive := (hm.twin.live _ _ _ ha).2
        rw [hfresh'] at hlive
        cases hlive
      exact ⟨d, e, hkeep.closure? hd, by simp [hne, he], hp.mono hle hfunction⟩
    · exact ⟨c, f, hnew, by simp, hperforms.mono hle hfunction⟩
  · obtain ⟨w, hw, hs⟩ := hm.slots k g hk
    exact ⟨w, hkept'.cell? hw, hs.mono hle⟩
  · obtain ⟨w, hw, hwhere⟩ := hm.cells a g (hcode nofun ha)
    refine ⟨w, hkept'.cell? hw, ?_⟩
    rcases hwhere with ⟨w', hc, hs⟩ | ⟨k, hc, hk⟩
    · exact .inl ⟨w', hkeep.cell? hc, hs.mono hle⟩
    · exact .inr ⟨k, hkeep.cell? hc, hk⟩
  · obtain ⟨hrole, hlinked⟩ := hm.opened a k ((hcell a).symm.trans hk)
    exact ⟨hrole, fun g hg => .inl (hlinked g hg)⟩

end Machine.Models

end DeployScript
