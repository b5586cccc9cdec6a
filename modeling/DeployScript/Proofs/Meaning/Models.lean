import Mathlib
import DeployScript.Proofs.Code.Translation
import DeployScript.Proofs.Heap.Cells
import DeployScript.Proofs.Machine.Cells
import DeployScript.Proofs.Meaning.Evaluate

/-!
# Machines that stand for memories

How a machine in the middle of a run holds what evaluation has in its memory. Containers lie in both
heaps and are linked; a closure of the machine is linked to a function of the memory if its code says
what the body says and its cells are those of the variables in scope; and a variable is a cell of the
memory, where the machine may still have it as a slot of the stack.

* `Machine.Mirrors` — globals, containers, output and host are the same.
* `Closure.Performs` — a closure that does what a function of the memory does.
* `Roles` — which slots of the stack are variables, and which cells of the memory they are.
* `Machine.Models` — the relation; `Later` — what stays as it is in the rest of a run.
* `Models.extend`, `withStack`, `withGlobal` and the like — how both sides change together.
-/

namespace DeployScript

variable {ω : Type}

/-! ### Data -/

/-- **What can be seen of a machine** is what can be seen of a memory. -/
structure Machine.Mirrors (β : Link) (m : Machine ω) (μ : Memory ω) : Prop where
  twin : m.heap.Twin β μ.heap
  globals : Matching (Binding.Similar β) m.globals μ.globals
  output : m.output = μ.output
  world : m.world = μ.world
  assets : m.assets = μ.assets
  library : m.library = μ.library
  builtins : ∀ name, β.builtin name → (m.library.get? name).isSome
  functions : ∀ h h', ¬ β .function h h'

/-! ### Functions -/

/-- The functions of a script as they are stored. The constants of each are values by the handles of
those before it. -/
def Heap.Installed (heap : Heap) (functions : Array (Prototype Literal)) (handles : Array Handle) :
    Prop :=
  ∀ k h, handles[k]? = some h → ∃ f : Prototype Literal, functions[k]? = some f ∧
    heap.function? h = some (f.valued (handles.toList.take k).toArray)

/-- **The cells of a closure** are those of the variables in scope around it. -/
structure Closes (β : Link) (cells : Array Handle) (captures : List CaptureSource)
    (enclosing : List NameScope) (env : Env) : Prop where
  found : ∀ name index, name ≠ "" → Captured name captures enclosing index →
    ∃ h g, cells[index]? = some h ∧ env.lookup name = some g ∧ β .cell h g
  absent : ∀ name, name ≠ "" → (∀ f ∈ enclosing, slot? name f.locals = none) →
    env.lookup name = none

/-- Code that refers to the constants and names of its tables. -/
structure Tables.Fill (T : Tables) (handles : Array Handle) (chunk : Chunk Value) : Prop where
  constants : chunk.constants = T.constants.map (Heap.literalValue handles)
  names : chunk.names = T.names

/-- **A closure does what a function of the memory does.** -/
def Closure.Performs (β : Link) (heap : Heap) (c : Closure) (f : Lambda) : Prop :=
  ∃ (p : Prototype Value) (T : Tables) (handles : Array Handle) (inner : Written) (line : Nat),
    heap.function? c.function = some p ∧ p.params = f.params ∧
    heap.Installed T.functions handles ∧ T.Fill handles p.chunk ∧
    Closes β c.cells T.captures T.enclosing f.env ∧
    (∀ q ∈ f.params, q ≠ "") ∧ Stmt.AllNames (· ≠ "") f.body ∧ Stmt.AllRegular f.body ∧
    Stmt.CodedAll f.body T (Spot.entry f.params) inner ∧
    p.chunk.Reads 0 (inner ++ Written.of [⟨.nil, ()⟩, ⟨.return_, ()⟩] line)

/-! ### Variables -/

/-- What a slot of the stack is: a value under way; a variable that only the code knows, such as the
function that runs; or a variable of the program, with its cell of the memory. -/
inductive Role
  | value
  | hidden
  | bound (cell : Handle)

/-- What the slots of the stack are. -/
abbrev Roles := Nat → Role

namespace Roles

/-- One slot gets another role. -/
def set (φ : Roles) (slot : Nat) (role : Role) : Roles := fun k => if k = slot then role else φ k

/-- The variables in the slots below a bound. -/
def below (φ : Roles) (bound : Nat) : Roles := fun k => if k < bound then φ k else .value

/-- There are no variables from a bound on. -/
def Under (φ : Roles) (bound : Nat) : Prop := ∀ k, bound ≤ k → φ k = .value

theorem below_of_lt (φ : Roles) {bound k : Nat} (h : k < bound) : φ.below bound k = φ k := if_pos h

theorem below_of_le (φ : Roles) {bound k : Nat} (h : bound ≤ k) : φ.below bound k = .value :=
  if_neg (Nat.not_lt_of_le h)

theorem under_below (φ : Roles) (bound : Nat) : (φ.below bound).Under bound :=
  fun _ h => φ.below_of_le h

theorem Under.below {φ : Roles} {bound : Nat} (h : φ.Under bound) : φ.below bound = φ := by
  funext k
  by_cases hk : k < bound
  · exact φ.below_of_lt hk
  · rw [φ.below_of_le (Nat.le_of_not_lt hk), h k (Nat.le_of_not_lt hk)]

theorem Under.mono {φ : Roles} {bound bound' : Nat} (h : φ.Under bound) (hle : bound ≤ bound') :
    φ.Under bound' := fun k hk => h k (Nat.le_trans hle hk)

theorem set_self (φ : Roles) (slot : Nat) (role : Role) : φ.set slot role slot = role := if_pos rfl

theorem set_of_ne (φ : Roles) {slot k : Nat} (role : Role) (h : k ≠ slot) :
    φ.set slot role k = φ k := if_neg h

/-- Variables lie lower. -/
theorem Under.lt {φ : Roles} {bound k : Nat} {g : Handle} (h : φ.Under bound) (hg : φ k = .bound g) :
    k < bound := by
  by_contra hle
  rw [h k (Nat.le_of_not_lt hle)] at hg
  cases hg

/-- The role of one slot more is forgotten. -/
theorem Under.below_set {φ : Roles} {bound : Nat} (h : φ.Under bound) (role : Role) :
    (φ.set bound role).below bound = φ := by
  funext k
  by_cases hk : k < bound
  · rw [below_of_lt _ hk, φ.set_of_ne role (Nat.ne_of_lt hk)]
  · rw [below_of_le _ (Nat.le_of_not_lt hk), h k (Nat.le_of_not_lt hk)]

theorem Under.set {φ : Roles} {bound : Nat} (h : φ.Under bound) (role : Role) :
    (φ.set bound role).Under (bound + 1) := by
  intro k hk
  rw [φ.set_of_ne role (by omega)]
  exact h k (by omega)

end Roles

namespace Machine

/-- **A machine stands for a memory.** Every variable has its value on both sides, wherever the
machine keeps it: in a slot, or in a cell, or in a slot that is a cell as well. -/
structure Models (β : Link) (φ : Roles) (m : Machine ω) (μ : Memory ω) : Prop extends
    Mirrors β m μ where
  closures : ∀ h h', β .closure h h' → ∃ c f, m.heap.closure? h = some c ∧
    μ.lambdas h' = some f ∧ c.Performs β m.heap f
  slots : ∀ slot g, φ slot = .bound g → ∃ v, μ.heap.cell? g = some (.closed v) ∧
    ((m.stack[slot]?).getD .nil).Similar β v
  cells : ∀ h g, β .cell h g → ∃ v, μ.heap.cell? g = some (.closed v) ∧
    ((∃ w, m.heap.cell? h = some (.closed w) ∧ w.Similar β v) ∨
      ∃ slot, m.heap.cell? h = some (.opened slot) ∧ φ slot = .bound g)
  opened : ∀ h slot, m.heap.cell? h = some (.opened slot) →
    φ slot ≠ .value ∧ ∀ g, φ slot = .bound g → β .cell h g
  tied : ∀ slot g h, φ slot = .bound g → β .cell h g → m.heap.cell? h = some (.opened slot)
  apart : ∀ slot slot' g, φ slot = .bound g → φ slot' = .bound g → slot = slot'

end Machine

/-! ### Persistence -/

theorem Heap.Installed.mono {heap next : Heap} {functions : Array (Prototype Literal)}
    {handles : Array Handle} (h : heap.Installed functions handles)
    (hfunction : ∀ g p, heap.function? g = some p → next.function? g = some p) :
    next.Installed functions handles := by
  intro k g hg
  obtain ⟨f, hf, hp⟩ := h k g hg
  exact ⟨f, hf, hfunction g _ hp⟩

/-- What is stored first refers to nothing that is stored later. -/
theorem Heap.Installed.take {heap : Heap} {functions : Array (Prototype Literal)}
    {handles : Array Handle} (h : heap.Installed functions handles) (n : Nat) :
    heap.Installed functions (handles.toList.take n).toArray := by
  intro k g hg
  rw [List.getElem?_toArray, List.getElem?_take] at hg
  split at hg
  case isFalse => cases hg
  case isTrue hk =>
    obtain ⟨f, hf, hp⟩ := h k g (Array.getElem?_toList ▸ hg)
    refine ⟨f, hf, ?_⟩
    rw [List.take_take, Nat.min_eq_left hk.le, hp]

theorem Closes.mono {β γ : Link} {cells : Array Handle} {captures : List CaptureSource}
    {enclosing : List NameScope} {env : Env} (h : Closes β cells captures enclosing env)
    (hle : β.Le γ) : Closes γ cells captures enclosing env where
  found name index hname hc := by
    obtain ⟨h', g, hcell, hg, hlink⟩ := h.found name index hname hc
    exact ⟨h', g, hcell, hg, hle.handle _ _ _ hlink⟩
  absent := h.absent

theorem Closure.Performs.mono {β γ : Link} {heap next : Heap} {c : Closure} {f : Lambda}
    (h : c.Performs β heap f) (hle : β.Le γ)
    (hfunction : ∀ g p, heap.function? g = some p → next.function? g = some p) :
    c.Performs γ next f := by
  obtain ⟨p, T, handles, inner, line, hp, hparams, hinstalled, hfill, hcloses, hrest⟩ := h
  exact ⟨p, T, handles, inner, line, hfunction _ _ hp, hparams, hinstalled.mono hfunction, hfill,
    hcloses.mono hle, hrest⟩

/-- **Later in a run:** more links, and all code is still there. -/
structure Later (β : Link) (m : Machine ω) (γ : Link) (m' : Machine ω) : Prop where
  le : β.Le γ
  closure : ∀ g c, m.heap.closure? g = some c → m'.heap.closure? g = some c
  function : ∀ g p, m.heap.function? g = some p → m'.heap.function? g = some p

namespace Later

variable {β γ δ : Link} {m m' m'' : Machine ω}

theorem refl (β : Link) (m : Machine ω) : Later β m β m :=
  ⟨.refl β, fun _ _ h => h, fun _ _ h => h⟩

theorem trans (h : Later β m γ m') (h' : Later γ m' δ m'') : Later β m δ m'' :=
  ⟨h.le.trans h'.le, fun g c hc => h'.closure g c (h.closure g c hc),
    fun g p hp => h'.function g p (h.function g p hp)⟩

/-- Changes that leave the heap alone. -/
theorem of_heap (hheap : m'.heap = m.heap) : Later β m β m' := by
  refine ⟨.refl β, fun g c hc => ?_, fun g p hp => ?_⟩
  · rwa [hheap]
  · rwa [hheap]

/-- New objects, where none is lost. -/
theorem of_keep (hle : β.Le γ) (hkeep : m.heap.Kept m'.heap) : Later β m γ m' :=
  ⟨hle, fun _ _ hc => hkeep.closure? hc, fun _ _ hp => hkeep.function? hp⟩

theorem of_extends {next next' heap' : Heap} (hx : Heap.Extends β m.heap heap' γ next next')
    (hheap : m'.heap = next) : Later β m γ m' := by
  refine ⟨hx.le, fun g c hc => ?_, fun g p hp => ?_⟩
  · rw [hheap, hx.steady.closure, hc]
  · rw [hheap, hx.steady.function, hp]

theorem of_recells (h : m.heap.Recells m'.heap) : Later β m β m' :=
  ⟨.refl β, fun g _ hc => (h.closure? g).trans hc, fun g _ hp => (h.function? g).trans hp⟩

theorem functionName? (h : Later β m γ m') {g : Handle} {name : String}
    (hn : m.heap.functionName? g = some name) : m'.heap.functionName? g = some name := by
  unfold Heap.functionName? Heap.code? at hn ⊢
  cases hc : m.heap.closure? g with
  | some c =>
    rw [hc] at hn
    obtain ⟨p, hp, rfl⟩ := Option.map_eq_some_iff.1 hn
    rw [h.closure _ _ hc]
    exact Option.map_eq_some_iff.2 ⟨p, h.function _ _ hp, rfl⟩
  | none =>
    rw [hc] at hn
    obtain ⟨p, hp, rfl⟩ := Option.map_eq_some_iff.1 hn
    have hnone : m'.heap.closure? g = none := by
      have hp' := Heap.function?_eq.1 (h.function _ _ hp)
      unfold Heap.closure?
      rw [hp']
    rw [hnone]
    exact Option.map_eq_some_iff.2 ⟨p, h.function _ _ hp, rfl⟩

end Later

/-! ### Changes of both sides -/

namespace Machine.Models

variable {β γ : Link} {φ : Roles} {m : Machine ω} {μ : Memory ω} {v v' : Value}

/-- Other values may be on the stack, as long as variables have theirs. -/
theorem withStack (hm : m.Models β φ μ) {stack : Array Value}
    (hs : ∀ slot g, φ slot = .bound g → stack[slot]? = m.stack[slot]?) :
    ({ m with stack } : Machine ω).Models β φ μ :=
  { hm with
    twin := hm.twin
    slots := fun slot g hg => by
      rw [hs slot g hg]
      exact hm.slots slot g hg }

theorem withFrames (hm : m.Models β φ μ) (frames : List Frame) :
    ({ m with frames } : Machine ω).Models β φ μ :=
  { hm with twin := hm.twin }

theorem withWorld (hm : m.Models β φ μ) (world : ω) :
    ({ m with world } : Machine ω).Models β φ { μ with world } :=
  { hm with twin := hm.twin, world := rfl }

theorem withOutput (hm : m.Models β φ μ) (output : String) :
    ({ m with output } : Machine ω).Models β φ { μ with output } :=
  { hm with twin := hm.twin, output := rfl }

theorem withGlobal (hm : m.Models β φ μ) (name : String) (hv : v.Similar β v') (isMutable : Bool) :
    (m.define name v isMutable).Models β φ
      { μ with globals := μ.globals.insert name ⟨v', isMutable⟩ } :=
  { hm with twin := hm.twin, globals := hm.globals.insert name ⟨hv, rfl⟩ }

/-- **Operations on data** keep the relation. -/
theorem extend (hm : m.Models β φ μ) {next next' : Heap}
    (hx : Heap.Extends β m.heap μ.heap γ next next') :
    ({ m with heap := next } : Machine ω).Models γ φ { μ with heap := next' } := by
  have hcode : ∀ {k : Kind} {a b : Handle}, k ≠ .array → k ≠ .record → γ k a b → β k a b := by
    intro k a b harray hrecord hab
    rcases hx.code k a b hab with he | he | hab
    · exact absurd he harray
    · exact absurd he hrecord
    · exact hab
  refine {
    twin := hx.twin
    globals := hm.globals.mono fun _ _ hb => hb.mono hx.le
    output := hm.output
    world := hm.world
    assets := hm.assets
    library := hm.library
    builtins := fun name hname => hm.builtins name (hx.le.builtin ▸ hname)
    functions := fun h h' hh => hm.functions h h' (hcode nofun nofun hh)
    closures := fun h h' hh => ?_
    slots := fun slot g hg => ?_
    cells := fun h g hh => ?_
    opened := fun h slot hc => ?_
    tied := fun slot g h hg hh => ?_
    apart := hm.apart }
  · obtain ⟨c, f, hc, hf, hp⟩ := hm.closures h h' (hcode nofun nofun hh)
    exact ⟨c, f, (hx.steady.closure h).trans hc, hf,
      hp.mono hx.le fun g p hp => (hx.steady.function g).trans hp⟩
  · obtain ⟨v, hv, hs⟩ := hm.slots slot g hg
    exact ⟨v, (hx.steady'.cell g).trans hv, hs.mono hx.le⟩
  · obtain ⟨v, hv, hwhere⟩ := hm.cells h g (hcode nofun nofun hh)
    refine ⟨v, (hx.steady'.cell g).trans hv, ?_⟩
    rcases hwhere with ⟨w, hw, hs⟩ | ⟨slot, hc, hg⟩
    · exact .inl ⟨w, (hx.steady.cell h).trans hw, hs.mono hx.le⟩
    · exact .inr ⟨slot, (hx.steady.cell h).trans hc, hg⟩
  · obtain ⟨hrole, hlinked⟩ := hm.opened h slot ((hx.steady.cell h).symm.trans hc)
    exact ⟨hrole, fun g hg => hx.le.handle _ _ _ (hlinked g hg)⟩
  · exact (hx.steady.cell h).trans (hm.tied slot g h hg (hcode nofun nofun hh))

end Machine.Models

end DeployScript
