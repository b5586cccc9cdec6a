import DeployScript.Proofs.Machine.Guarded

/-!
# Builtins are confined

What a script can do to the host, it does by the builtins of the library. A machine is confined if it
has no other builtin anywhere, and if scripts cannot take a name of the library or of the language
away from the function that it was given to.

* `Library.Acts` — what one run of a builtin makes of the state of the host.
* `Machine.Confined` — the invariant; `Outcome.Confined` — of what an instruction comes to.
* `Library.Hosts` — the part of it that speaks of the host and the globals, which nothing breaks.
* `Confined.step` — one instruction; `run`, `callGlobal` — whole runs and calls.
-/

namespace DeployScript

variable {ω : Type}

/-- **What a run of a builtin of the library makes** of the state of the host. -/
def Library.Acts (l : Library ω) (world world' : ω) : Prop :=
  ∃ b ∈ l.builtins, ∃ context args, world' = (b.run context args world).2

/-- The names of the builtins of the library. -/
def Library.offered (l : Library ω) : Set String := fun name => name ∈ l.names

/-- **A confined machine** on a host that was in the state `world` before: there are no builtins in it
but those of the library, only these have acted on the host, and the names of the library and of
the language are bound as they were at the beginning. -/
structure Machine.Confined (l : Library ω) (world : ω) (m : Machine ω) : Prop where
  library : m.library = l
  world : Relation.ReflTransGen l.Acts world m.world
  stack : ∀ v ∈ m.stack, v.Within l.offered
  heap : m.heap.Within l.offered
  frames : ∀ f ∈ m.frames, f.chunk.Within l.offered
  globals : ∀ (name : String) (b : Binding), m.globals[name]? = some b → b.value.Within l.offered
  builtins : ∀ name ∈ l.names, m.globals[name]? = some ⟨.builtin name, false⟩
  intrinsics : ∀ f : Intrinsic, f.name ∉ l.names → m.globals[f.name]? = some ⟨.intrinsic f, false⟩

/-- What an instruction comes to on a confined machine. -/
def Outcome.Confined (l : Library ω) (world : ω) (o : Outcome ω) : Prop :=
  o.machine.Confined l world

/-! ### The host and the globals -/

/-- **What a confined machine knows** of its host and of its globals. -/
structure Library.Hosts (l : Library ω) (world : ω) (l' : Library ω) (world' : ω)
    (bound : Std.TreeMap String Binding) : Prop where
  library : l' = l
  world : Relation.ReflTransGen l.Acts world world'
  globals : ∀ (name : String) (b : Binding), bound[name]? = some b → b.value.Within l.offered
  builtins : ∀ name ∈ l.names, bound[name]? = some ⟨.builtin name, false⟩
  intrinsics : ∀ f : Intrinsic, f.name ∉ l.names → bound[f.name]? = some ⟨.intrinsic f, false⟩

namespace Library.Hosts

variable {l l' : Library ω} {world world' : ω} {globals : Std.TreeMap String Binding}

theorem acts {b : Builtin ω} (h : l.Hosts world l' world' globals) (hb : b ∈ l'.builtins)
    (context : CallContext) (args : List Arg) :
    l.Hosts world l' (b.run context args world').2 globals :=
  { h with world := h.world.tail ⟨b, h.library ▸ hb, context, args, rfl⟩ }

/-- **A name that a script binds** is neither a name of the library nor one of the language. -/
theorem binds {name : String} {v : Value} {isMutable : Bool} (h : l.Hosts world l' world' globals)
    (hv : v.Within l.offered) (hfree : ∀ b, globals[name]? = some b → Machine.isFixed b = false) :
    l.Hosts world l' world' (globals.insert name ⟨v, isMutable⟩) := by
  have hother : ∀ {name' : String} {b : Binding}, globals[name']? = some b →
      Machine.isFixed b = true → (globals.insert name ⟨v, isMutable⟩)[name']? = some b := by
    intro name' b hb hfixed
    have hne : name ≠ name' := by
      rintro rfl
      rw [hfree b hb] at hfixed
      cases hfixed
    rw [Std.TreeMap.getElem?_insert, if_neg (fun he => hne (compare_eq_iff_eq.1 he)), hb]
  refine { h with
    globals := fun name' b hb => ?_
    builtins := fun name' hname' => hother (h.builtins name' hname') rfl
    intrinsics := fun f hf => hother (h.intrinsics f hf) rfl }
  rw [Std.TreeMap.getElem?_insert] at hb
  split at hb
  · cases hb
    exact hv
  · exact h.globals name' b hb

end Library.Hosts

/-- The guard of confined machines. -/
def Library.guard (l : Library ω) (world : ω) : Guard ω where
  within := l.offered
  holds := l.Hosts world
  acts := Hosts.acts
  binds := Hosts.binds

theorem Machine.confined_iff {l : Library ω} {world : ω} {m : Machine ω} :
    m.Confined l world ↔ m.Guarded (l.guard world) :=
  ⟨fun h => ⟨h.stack, h.heap, h.frames, h.library, h.world, h.globals, h.builtins, h.intrinsics⟩,
    fun h => ⟨h.host.library, h.host.world, h.stack, h.heap, h.frames, h.host.globals, h.host.builtins,
      h.host.intrinsics⟩⟩

namespace Machine.Confined

variable {l : Library ω} {world : ω} {m : Machine ω} {v : Value}

/-! ### Single operations -/

theorem withHeap (hm : m.Confined l world) {heap : Heap} (hh : heap.Within l.offered) :
    ({ m with heap } : Machine ω).Confined l world :=
  { hm with heap := hh }

theorem push (hm : m.Confined l world) (hv : v.Within l.offered) : (m.push v).Confined l world :=
  confined_iff.2 ((confined_iff.1 hm).push hv)

theorem pushAll (hm : m.Confined l world) {values : List Value}
    (hv : ∀ v ∈ values, v.Within l.offered) : (values.foldl Machine.push m).Confined l world :=
  confined_iff.2 ((confined_iff.1 hm).pushAll hv)

theorem pop (hm : m.Confined l world) : m.pop.2.Confined l world :=
  confined_iff.2 (confined_iff.1 hm).pop.2

theorem global? (hm : m.Confined l world) {name : String} (hg : m.global? name = some v) :
    v.Within l.offered := by
  obtain ⟨b, hb, rfl⟩ := Option.map_eq_some_iff.1 hg
  exact hm.globals name b hb

theorem call (hm : m.Confined l world) (callee : Value) (count : Nat) :
    (m.call callee count).Confined l world :=
  confined_iff.2 ((confined_iff.1 hm).call callee count)

theorem reset (hm : m.Confined l world) : m.reset.Confined l world :=
  confined_iff.2 (confined_iff.1 hm).reset

theorem collect (hm : m.Confined l world) : m.collect.Confined l world :=
  confined_iff.2 (confined_iff.1 hm).collect

/-- **One instruction** brings no builtin that was not there, since all globals are confined. -/
theorem step (hm : m.Confined l world) : m.step.Confined l world :=
  confined_iff.2 ((confined_iff.1 hm).step fun _ _ _ _ _ _ _ _ _ _ hg =>
    global? (confined_iff.2 ((confined_iff.1 hm).moveTo _)) hg)

/-! ### Runs and calls -/

/-- The machine from one instruction to the next, to the end of the run. -/
theorem resume (hm : m.Confined l world) (fuel : Nat) :
    (m.resume fuel).2.Confined l world := by
  induction fuel generalizing m with
  | zero => exact hm
  | succ fuel ih =>
    have hstep := hm.step
    unfold Machine.resume
    generalize m.step = o at hstep
    cases o with
    | next m' => exact ih hstep
    | done v m' => exact hstep
    | raise cause m' => exact reset hstep
    | stuck m' => exact hstep

theorem start (hm : m.Confined l world) {chunk : Chunk Value} (hc : chunk.Within l.offered) :
    (m.start chunk).Confined l world :=
  confined_iff.2 ((confined_iff.1 hm).start hc)

theorem run (hm : m.Confined l world) {chunk : Chunk Value} (hc : chunk.Within l.offered)
    (fuel : Nat) : (m.run chunk fuel).2.Confined l world :=
  (hm.start hc).resume fuel

theorem callGlobal (hm : m.Confined l world) (name : String) {args : List Value}
    (hargs : ∀ v ∈ args, v.Within l.offered) (fuel : Nat) :
    (m.callGlobal name args fuel).2.Confined l world := by
  unfold Machine.callGlobal
  cases hg : m.global? name with
  | none => exact hm
  | some callee =>
    dsimp only
    have hcall := ((hm.push (hm.global? hg)).pushAll hargs).call callee args.length
    generalize Machine.call _ callee args.length = o at hcall ⊢
    cases o with
    | next m' =>
      dsimp only
      split
      · exact Confined.resume hcall fuel
      · exact Confined.pop hcall
    | done v m' => exact hcall
    | raise cause m' => exact reset hcall
    | stuck m' => exact hcall

end Machine.Confined

end DeployScript
