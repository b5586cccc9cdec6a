import Mathlib
import DeployScript.Proofs.Machine.Confined
import DeployScript.Proofs.Machine.Reached
import DeployScript.Proofs.Session.Requests

/-!
# Sessions are confined

Whatever scripts a session runs and whatever a host asks of it, the builtins that it was given are
all that it ever has, and they are all that acts on the host.

* `Session.Reached` — sessions between two requests, and within a run or a call.
* `Session.Holds` — a value is somewhere in a session.
* `Session.Reached.capabilities_confined` — what is held, what has acted, and what is bound.
-/

namespace DeployScript

variable {ω : Type}

/-- The phase behind a failure. -/
def Phase.afterFailure : Phase → Phase
  | loaded => registered
  | phase => phase

namespace Session

/-- The session behind an instruction, which may be the last of a run. -/
def after (s : Session ω) : Outcome ω → Session ω
  | .next m | .stuck m => { s with machine := m }
  | .done _ m => { s with machine := m, phase := .executed, pending := none }
  | .raise _ m => { s with machine := m.reset, phase := s.phase.afterFailure, pending := none }

/-- **The sessions that there are** with a library: at the beginning; behind a request; when a script
or a call from outside starts, and behind each instruction; and behind a collection, which may
happen at any moment. Nothing is said of which of these may follow which, so there are at least
those that a host can bring about. -/
inductive Reached (l : Library ω) (assets : Assets) (world : ω) : Session ω → Prop
  | registered {s : Session ω} (h : (Session.new assets world).register l = .ok s) :
    Reached l assets world s
  | asked {s : Session ω} (h : Reached l assets world s) (r : Request) :
    Reached l assets world (s.behind r)
  | starting {s : Session ω} {code : Chunk Value} (h : Reached l assets world s)
    (hp : s.pending = some code) :
    Reached l assets world { s with machine := s.machine.start code }
  | calling {s : Session ω} {name : String} {callee : Value} (h : Reached l assets world s)
    (hg : s.machine.global? name = some callee) (args : List HostValue) :
    Reached l assets world (s.after (s.machine.calling callee args))
  | returning {s : Session ω} (h : Reached l assets world s) (hf : s.machine.frames = []) :
    Reached l assets world { s with machine := s.machine.pop.2 }
  | inside {s : Session ω} (h : Reached l assets world s) :
    Reached l assets world (s.after s.machine.step)
  | collected {s : Session ω} (h : Reached l assets world s) :
    Reached l assets world { s with machine := s.machine.collect }

/-- **Where a session has a value:** on the stack, in a global, in a heap object whether it is in use
or not, or among the constants of code that runs or waits to be run. -/
inductive Holds (s : Session ω) (v : Value) : Prop
  | stack (h : v ∈ s.machine.stack)
  | global {name : String} {isMutable : Bool}
    (h : s.machine.globals[name]? = some ⟨v, isMutable⟩)
  | object {h : Handle} {o : Object} (ho : s.machine.heap.get? h = some o) (hv : v ∈ o.values)
  | running {f : Frame} (hf : f ∈ s.machine.frames) (hv : v ∈ f.chunk.constants)
  | waiting {code : Chunk Value} (hp : s.pending = some code) (hv : v ∈ code.constants)

/-- A confined machine, and code that waits to be run with no other builtin. -/
structure Confined (l : Library ω) (world : ω) (s : Session ω) : Prop where
  machine : s.machine.Confined l world
  waiting : ∀ code, s.pending = some code → code.Within l.offered

end Session

namespace Machine

/-! ### The beginning -/

theorem getElem?_offered (names : List String) (g : Std.TreeMap String Binding) (key : String) :
    (names.foldl (fun g name => g.insert name ⟨.builtin name, false⟩) g)[key]?
      = if key ∈ names then some ⟨.builtin key, false⟩ else g[key]? := by
  induction names generalizing g with
  | nil => simp
  | cons name names ih =>
    rw [List.foldl_cons, ih, Std.TreeMap.getElem?_insert]
    by_cases hmem : key ∈ names
    · simp [hmem]
    · by_cases he : name = key
      · simp [he]
      · have hne : compare name key ≠ .eq := fun h => he (compare_eq_iff_eq.1 h)
        simp [hmem, hne, Ne.symm he]

theorem getElem?_intrinsics (f : Intrinsic) :
    (Intrinsic.all.foldl (fun g f => g.insert f.name ⟨.intrinsic f, false⟩)
      ({} : Std.TreeMap String Binding))[f.name]? = some ⟨.intrinsic f, false⟩ := by
  simp only [Intrinsic.all, List.foldl_cons, List.foldl_nil, Std.TreeMap.getElem?_insert,
    compare_eq_iff_eq]
  cases f <;> simp [Intrinsic.name]

/-- **What is bound at the beginning** is a function of the host under its own name, or one of the
language. -/
theorem provided_eq_some {l : Library ω} {name : String} {b : Binding}
    (h : (provided l)[name]? = some b) :
    (name ∈ l.names ∧ b.value = .builtin name) ∨ ∃ f, b.value = .intrinsic f := by
  have hfold : ∀ (fs : List Intrinsic) (g : Std.TreeMap String Binding),
      (∀ b, g[name]? = some b → ∃ f, b.value = .intrinsic f) →
      ∀ b, (fs.foldl (fun g f => g.insert f.name ⟨.intrinsic f, false⟩) g)[name]? = some b →
        ∃ f, b.value = .intrinsic f := by
    intro fs
    induction fs with
    | nil => exact fun g hg => hg
    | cons f fs ih =>
      refine fun g hg => ih _ fun b hb => ?_
      rw [Std.TreeMap.getElem?_insert] at hb
      split at hb
      · cases hb
        exact ⟨f, rfl⟩
      · exact hg b hb
  unfold provided at h
  rw [getElem?_offered] at h
  split at h
  case isTrue hmem =>
    cases h
    exact .inl ⟨hmem, rfl⟩
  case isFalse => exact .inr (hfold _ _ (fun b hb => by simp at hb) b h)

theorem within_provided (l : Library ω) (name : String) (b : Binding)
    (hb : (provided l)[name]? = some b) : b.value.Within l.offered := by
  rcases provided_eq_some hb with ⟨hmem, hv⟩ | ⟨f, hv⟩
  · rw [hv]
    exact hmem
  · rw [hv]
    trivial

theorem confined_offering (l : Library ω) (assets : Assets) (world : ω) :
    (offering assets l world).Confined l world := by
  rw [offering_eq]
  exact {
    library := rfl
    world := .refl
    stack := fun v hv => (Array.not_mem_empty v hv).elim
    heap := Heap.Within.empty
    frames := fun _ hf => (List.not_mem_nil hf).elim
    globals := within_provided l
    builtins := fun name hname => by
      unfold provided
      rw [getElem?_offered, if_pos hname]
    intrinsics := fun f hf => by
      unfold provided
      rw [getElem?_offered, if_neg hf]
      exact getElem?_intrinsics f }

theorem Guarded.calling {G : Guard ω} {m : Machine ω} (hm : m.Guarded G) {callee : Value}
    (hv : callee.Within G.within) (args : List HostValue) : (m.calling callee args).Guarded G := by
  have hstored := hm.heap.ofHostItems args #[] fun v hv => (Array.not_mem_empty v hv).elim
  unfold Machine.calling Session.storeArgs
  dsimp only
  exact (((hm.withHeap hstored.2).push hv).pushAll
    fun v hv => hstored.1 v (Array.mem_toList_iff.1 hv)).call _ _

theorem Confined.calling {l : Library ω} {world : ω} {m : Machine ω} (hm : m.Confined l world)
    {callee : Value} (hv : callee.Within l.offered) (args : List HostValue) :
    (m.calling callee args).Confined l world :=
  confined_iff.2 ((confined_iff.1 hm).calling hv args)

end Machine

namespace Session.Confined

variable {l : Library ω} {world : ω} {s : Session ω}

/-! ### Requests -/

theorem withMachine (hs : s.Confined l world) {m : Machine ω} (hm : m.Confined l world) :
    ({ s with machine := m } : Session ω).Confined l world :=
  ⟨hm, hs.waiting⟩

theorem after (hs : s.Confined l world) {o : Outcome ω} (ho : o.Confined l world) :
    (s.after o).Confined l world := by
  cases o with
  | next m => exact hs.withMachine ho
  | stuck m => exact hs.withMachine ho
  | done v m => exact ⟨ho, fun code hp => by cases hp⟩
  | raise cause m =>
    exact ⟨Machine.Confined.reset ho, fun code hp => by cases hp⟩

/-- A script that is loaded waits with constants that are no builtins. -/
theorem load (hs : s.Confined l world) {source : String} {t : Session ω}
    (ht : s.load source = .ok t) : t.Confined l world := by
  obtain ⟨script, -, rfl⟩ := Session.load_eq_ok ht
  have hinstalled := hs.machine.heap.install script.compiled
  refine ⟨hs.machine.withHeap hinstalled.2, fun code hp => ?_⟩
  cases hp
  exact hinstalled.1

theorem run (hs : s.Confined l world) (fuel : Nat) : (s.run fuel).2.Confined l world := by
  unfold Session.run
  split
  case h_1 code _ hp =>
    -- No script waits behind a run, however it ended.
    exact ⟨hs.machine.run (hs.waiting code hp) fuel, fun code' hp' => by cases hp'⟩
  all_goals exact hs

theorem eval (hs : s.Confined l world) (source : String) (fuel : Nat) :
    (s.eval source fuel).2.Confined l world := by
  unfold Session.eval
  cases ht : s.load source with
  | error e => exact hs
  | ok t => exact (hs.load ht).run fuel

theorem call (hs : s.Confined l world) (name : String) (args : List HostValue) (fuel : Nat) :
    (s.call name args fuel).2.Confined l world := by
  have hstored := hs.machine.heap.ofHostItems args #[] fun v hv => (Array.not_mem_empty v hv).elim
  have hcalled := (hs.machine.withHeap hstored.2).callGlobal name
    (fun v hv => hstored.1 v (Array.mem_toList_iff.1 hv)) fuel
  unfold Session.call
  split
  · split
    · exact hs
    · split
      · exact hs.withMachine hcalled
      · exact hs
  · exact hs

theorem behind (hs : s.Confined l world) (r : Request) : (s.behind r).Confined l world := by
  cases r with
  | load source =>
    unfold Session.behind
    dsimp only
    split
    case h_1 t ht => exact hs.load ht
    case h_2 => exact hs
  | run fuel => exact hs.run fuel
  | eval source fuel => exact hs.eval source fuel
  | call name args fuel => exact hs.call name args fuel
  | get | exports => exact hs

end Session.Confined

namespace Session.Reached

variable {l : Library ω} {assets : Assets} {world : ω} {s : Session ω}

/-- **Every session that is reached** is confined. -/
theorem confined (h : s.Reached l assets world) : s.Confined l world := by
  induction h with
  | registered h =>
    cases h
    exact ⟨Machine.confined_offering l assets world, fun code hp => by cases hp⟩
  | asked _ r ih => exact ih.behind r
  | starting _ hp ih => exact ih.withMachine (ih.machine.start (ih.waiting _ hp))
  | calling _ hg args ih => exact ih.after (ih.machine.calling (ih.machine.global? hg) args)
  | returning _ _ ih => exact ih.withMachine ih.machine.pop
  | inside _ ih => exact ih.after ih.machine.step
  | collected _ ih => exact ih.withMachine ih.machine.collect

/-- What a confined session holds. -/
theorem holds (h : s.Reached l assets world) {v : Value} (hv : s.Holds v) :
    v.Within l.offered := by
  have hc := h.confined
  cases hv with
  | stack hv => exact hc.machine.stack v hv
  | global hb => exact hc.machine.globals _ _ hb
  | object ho hv => exact hc.machine.heap _ _ ho v hv
  | running hf hv => exact hc.machine.frames _ hf v hv
  | waiting hp hv => exact hc.waiting _ hp v hv

/-- **Capabilities are confined.** In every session that is reached with a library, each builtin that
there is anywhere is one of the library, and what has acted on the host are builtins of the library
and nothing else. Every name of the library is still bound, immutably, to its own builtin, and
every name of the language that is none of the library to its own function. -/
theorem capabilities_confined (h : s.Reached l assets world) :
    (∀ name, s.Holds (.builtin name) →
      ∃ b ∈ l.builtins, b.name = name ∧ s.machine.library.get? name = some b) ∧
    Relation.ReflTransGen l.Acts world s.machine.world ∧
    (∀ name b, l.get? name = some b → s.machine.library.get? name = some b ∧
      s.machine.globals[name]? = some ⟨.builtin name, false⟩) ∧
    ∀ f : Intrinsic, f.name ∉ l.names →
      s.machine.globals[f.name]? = some ⟨.intrinsic f, false⟩ := by
  have hm := h.confined.machine
  have hnamed : ∀ {name : String} {b : Builtin ω}, l.get? name = some b →
      b ∈ l.builtins ∧ b.name = name := by
    intro name b hb
    refine ⟨List.mem_of_find?_eq_some hb, ?_⟩
    simpa using List.find?_some hb
  refine ⟨fun name hv => ?held, hm.world, fun name b hb => ⟨?found, ?bound⟩, hm.intrinsics⟩
  case held =>
    obtain ⟨b, hb, hname⟩ := List.mem_map.1 (h.holds hv)
    obtain ⟨b', hb'⟩ : ∃ b', l.get? name = some b' :=
      Option.isSome_iff_exists.1 (List.find?_isSome.2 ⟨b, hb, by simp [hname]⟩)
    exact ⟨b', (hnamed hb').1, (hnamed hb').2, hm.library ▸ hb'⟩
  case found => exact hm.library ▸ hb
  case bound =>
    obtain ⟨hmem, hname⟩ := hnamed hb
    exact hm.builtins name (List.mem_map.2 ⟨b, hmem, hname⟩)

/-- A script cannot take the name of a builtin for a variable of its own. -/
theorem name_stays_bound :
    let now : Builtin Nat :=
      { name := "Now", params := [], run := fun _ _ n => (.ok (.number (Float.ofNat n)), n + 1) }
    let l : Library Nat := { builtins := [now] }
    let s : Session Nat :=
      { machine := Machine.offering {} l 0, phase := .registered, pending := none, source := ""
        builtins := ["Now"] }
    (s.behind (.eval "let Now = 1" 100)).machine.globals["Now"]?
      = some ⟨.builtin "Now", false⟩ := by
  intro now l s
  have hs : s.Reached l {} 0 := .registered rfl
  have hconfined := capabilities_confined (hs.asked (.eval "let Now = 1" 100))
  exact (hconfined.2.2.1 "Now" now (by simp [l, now, Library.get?])).2

end Session.Reached

end DeployScript
