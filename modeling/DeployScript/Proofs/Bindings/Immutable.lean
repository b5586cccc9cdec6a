import DeployScript.Proofs.Bindings.Steps

/-!
# Immutable bindings never change

On a machine on which nothing has failed, a local variable that was declared immutable holds one value
from the moment at which it is in scope to its end, and so does every cell that closures share it by,
also when the variable has gone. A global that was declared immutable is changed only by another
declaration of its name; an assignment to it fails.

Scripts and calls from outside change no variable of a run before them, since between two of them no
variable is in scope and every cell has a value of its own; a collection frees cells and changes none.
What is left to say about these operations is therefore little, and the instructions of a run are in
`Machine.At.slot_kept` and `Machine.At.constant`.

* `Advances` — what may happen on a machine, one operation or instruction after another.
* `During` — a stretch of time in which something holds all the while.
* `Advances.faithful`, `Advances.slot_kept`, `Advances.constant`, `Advances.global_kept` — what each
  of them keeps.
* `During.immutable_bindings_never_change` — what a stretch of time keeps.
-/

namespace DeployScript

variable {ω : Type} {l : Library ω} {sources : String → Prop}

/-! ### What may happen -/

/-- A host stores a value in a global. -/
def Machine.Provides (m : Machine ω) (name : String) (m' : Machine ω) : Prop :=
  ∃ value isMutable, m' = { m with heap := (Heap.ofHost value m.heap).2 }.define name
    (Heap.ofHost value m.heap).1 isMutable

/-- **What may happen on a machine** as long as nothing fails, where the scripts that run are those with
some sources: a collection; a value that a host stores; the start of a script or of a call from outside;
and an instruction. -/
inductive Advances (l : Library ω) (sources : String → Prop) :
    Moment → Machine ω → Moment → Machine ω → Prop
  | collect {moment : Moment} {m : Machine ω} : Advances l sources moment m moment m.collect
  | define {m m' : Machine ω} {name : String} (h : m.Provides name m') :
    Advances l sources .between m .between m'
  | start {m : Machine ω} {source : String} {c : Compiled} (hs : sources source)
    (hc : Compiled.ofSource source = .ok c) :
    Advances l sources .between m .inside
      (Machine.start { m with heap := (m.heap.install c).2 } (m.heap.install c).1)
  | call {m m' : Machine ω} {name : String} {callee : Value} (hg : m.global? name = some callee)
    {args : List HostValue} (hc : m.calling callee args = .next m') (hbusy : m'.frames ≠ []) :
    Advances l sources .between m .inside m'
  | called {m m' : Machine ω} {name : String} {callee : Value} (hg : m.global? name = some callee)
    {args : List HostValue} (hc : m.calling callee args = .next m') (hidle : m'.frames = []) :
    Advances l sources .between m .between m'.pop.2
  | step {m m' : Machine ω} (hs : m.step = .next m') : Advances l sources .inside m .inside m'
  | finish {m m' : Machine ω} {v : Value} (hs : m.step = .done v m') :
    Advances l sources .inside m .between m'

/-- **A stretch of time** from one machine to another, in which something holds all the while. -/
inductive During (l : Library ω) (sources : String → Prop) (P : Machine ω → Prop) (first : Moment)
    (m : Machine ω) : Moment → Machine ω → Prop
  | here (hp : P m) : During l sources P first m first m
  | next {moment moment' : Moment} {m' m'' : Machine ω} (h : During l sources P first m moment m')
    (ha : Advances l sources moment m' moment' m'') (hp : P m'') :
    During l sources P first m moment' m''

theorem Advances.reached {moment moment' : Moment} {m m' : Machine ω}
    (ha : Advances l sources moment m moment' m') (h : Reached l moment m) : Reached l moment' m' := by
  cases ha with
  | collect => exact .collect h
  | define hp =>
    obtain ⟨value, isMutable, rfl⟩ := hp
    exact .define h _ value isMutable
  | start _ hc => exact .start h hc
  | call hg hc hbusy => exact .call h hg hc hbusy
  | called hg hc hidle => exact .called h hg hc hidle
  | step hs => exact .step h hs
  | finish hs => exact .finish h hs

namespace Machine

variable {β : Link} {m m' : Machine ω} {b : LocalVariable} {x : Variable} {v : Value} {g : Handle}

/-! ### Collections -/

section Collect

/-- A function is the code of a routine before a collection if it is behind it. -/
theorem holds_of_collect (hw : m.heap.Wf) {h : Handle} {r : Routine} (hr : m.collect.heap.Holds h r) :
    m.heap.Holds h r := by
  obtain ⟨hk, hgone⟩ := keeps_collect hw
  refine hr.mono fun k p hp => ?_
  by_cases hP : m.heap.Reachable m.roots k
  · rwa [hk.function? hP] at hp
  · rw [Heap.function?_eq, hgone k hP] at hp
    cases hp

/-- The closures of a collected machine are those that were there, with the routines that they had. -/
theorem closure_of_collect (hw : m.heap.Wf) {h : Handle} {d : Closure}
    (hd : m.collect.heap.closure? h = some d) : m.heap.closure? h = some d ∧
      ∀ r, m.heap.Holds d.function r → m.collect.heap.Holds d.function r := by
  obtain ⟨hk, hgone⟩ := keeps_collect hw
  by_cases hP : m.heap.Reachable m.roots h
  · rw [hk.closure? hP] at hd
    exact ⟨hd, fun r hr => hr.keep hk (hk.of_closure hP hd).1⟩
  · rw [Heap.closure?_eq, hgone h hP] at hd
    cases hd

theorem inScope_collect (hw : m.heap.Wf) : m.collect.InScope b ↔ m.InScope b := by
  obtain ⟨hk, -⟩ := keeps_collect hw
  have hclosure : ∀ f ∈ m.frames, m.collect.heap.closure? f.closure = m.heap.closure? f.closure :=
    fun f hf => hk.closure? (.root (mem_roots_frames hf))
  constructor
  · intro h
    exact h.mono (fun f hf d hd => (hclosure f hf).symm.trans hd)
      fun _ _ _ _ _ hr => holds_of_collect hw hr
  · intro h
    refine h.mono (fun f hf d hd => (hclosure f hf).trans hd) fun f hf d hd r hr => ?_
    exact (closure_of_collect hw ((hclosure f hf).trans hd)).2 r hr

theorem sharedAs_collect (hw : m.heap.Wf) (h : m.heap.SharedAs g x) : m.collect.heap.SharedAs g x := by
  intro k d index hd hindex
  obtain ⟨hd', hholds⟩ := closure_of_collect hw hd
  obtain ⟨r, hr, hcaptured⟩ := h k d index hd' hindex
  exact ⟨r, hholds r hr, hcaptured⟩

theorem Faithful.collect (hs : m.Sound β) (hm : m.Faithful sources) : m.collect.Faithful sources := by
  have hw := hs.heap.twin.wf
  refine ⟨fun h d hd => ?_, fun b g hb himmutable hg => ?_⟩
  · obtain ⟨hd', hholds⟩ := closure_of_collect hw hd
    obtain ⟨r, hr, hfrom⟩ := hm.routines h d hd'
    exact ⟨r, hholds r hr, hfrom⟩
  · exact sharedAs_collect hw
      (hm.shared b g ((inScope_collect hw).1 hb) himmutable (hs.opened_collect.1 hg))

/-- A cell that is not freed keeps its value. -/
theorem Constant.collect (hs : m.Sound β) (h : m.Constant g x v)
    (hlive : (m.collect.heap.cell? g).isSome) : m.collect.Constant g x v := by
  have hw := hs.heap.twin.wf
  refine ⟨h.immutable, sharedAs_collect hw h.shared, h.value.imp (fun hv => ?_) ?_⟩
  · obtain ⟨hk, hgone⟩ := keeps_collect hw
    by_cases hP : m.heap.Reachable m.roots g
    · rw [hk.cell? hP, hv]
    · unfold Heap.cell? at hlive
      rw [hgone g hP] at hlive
      cases hlive
  · rintro ⟨b, hb, hvar, hg, hv⟩
    exact ⟨b, (inScope_collect hw).2 hb, hvar, hs.opened_collect.2 hg, hv⟩

end Collect

/-! ### Between two runs -/

/-- **New functions and new data** on a machine between two runs, where no cell is open. -/
structure Grows (sources : String → Prop) (m m' : Machine ω) : Prop where
  function : ∀ h p, m.heap.function? h = some p → m'.heap.function? h = some p
  cell : ∀ h, m'.heap.cell? h = m.heap.cell? h
  /-- A new closure is a script, which captures nothing. -/
  closure : ∀ h d, m'.heap.closure? h = some d → m.heap.closure? h = some d ∨
    (d.cells = #[] ∧ ∃ r, m'.heap.Holds d.function r ∧ r.From sources)
  globals : ∀ name, m'.globals[name]? = m.globals[name]? ∨ m.Provides name m'

theorem Grows.of_steady (h : Heap.Steady m.heap m'.heap)
    (hglobals : ∀ name, m'.globals[name]? = m.globals[name]? ∨ m.Provides name m') :
    m.Grows sources m' where
  function k _ hp := (h.function k).trans hp
  cell := h.cell
  closure k _ hd := .inl ((h.closure k).symm.trans hd)
  globals := hglobals

theorem Idle.faithful (hi : m.Idle) (hg : m.Grows sources m') (hm : m.Faithful sources) :
    m'.Faithful sources := by
  refine ⟨fun h d hd => ?_, fun b g _ _ hopen => ?_⟩
  · rcases hg.closure h d hd with hd | ⟨-, hnew⟩
    · obtain ⟨r, hr, hfrom⟩ := hm.routines h d hd
      exact ⟨r, hr.mono hg.function, hfrom⟩
    · exact hnew
  · rw [hg.cell] at hopen
    exact (hi.not_open _ ⟨g, hopen⟩).elim

theorem Idle.constant (hi : m.Idle) (hg : m.Grows sources m') (h : m.Constant g x v) :
    m'.Constant g x v := by
  refine ⟨h.immutable, fun k d index hd hindex => ?_, .inl ?_⟩
  · rcases hg.closure k d hd with hd | ⟨hnone, -⟩
    · obtain ⟨r, hr, hcaptured⟩ := h.shared k d index hd hindex
      exact ⟨r, hr.mono hg.function, hcaptured⟩
    · rw [hnone] at hindex
      cases hindex
  · rw [hg.cell]
    exact h.value.resolve_right fun ⟨b, _, _, hopen, _⟩ => hi.not_open _ ⟨g, hopen⟩

theorem Idle.not_inScope (hi : m.Idle) : ¬ m.InScope b := by
  unfold InScope
  rw [hi.frames]
  exact id

theorem Idle.provides (hi : m.Idle) {name : String} (h : m.Provides name m') :
    m.Grows sources m' := by
  have hprovides := h
  obtain ⟨value, isMutable, rfl⟩ := h
  obtain ⟨β, hs⟩ := hi.sound
  obtain ⟨γ, hx, -⟩ := hs.heap.twin.ofHost value
  refine .of_steady hx.steady fun name' => ?_
  by_cases he : name = name'
  · exact .inr (he ▸ hprovides)
  · exact .inl (define_other he _ _)

/-- **A script that starts** adds its functions and one closure. -/
theorem Idle.grows_start (hi : m.Idle) {source : String} {c : Compiled} (hs : sources source)
    (hc : Compiled.ofSource source = .ok c) :
    m.Grows sources (Machine.start { m with heap := (m.heap.install c).2 } (m.heap.install c).1) := by
  obtain ⟨β, hsound⟩ := hi.sound
  have hw := hsound.heap.twin.wf
  obtain ⟨p, hp, hc⟩ := Compiled.of_ofSource hc
  have hregular := (Program.spelled_ofSource hp).1
  have hadds : m.heap.AddsCode (m.heap.install c).2 := Heap.addsCode_storeAll hw c.functions
  cases hf : (m.heap.install c).2.insert (.function (scriptPrototype (m.heap.install c).1)) with
  | mk f next =>
  have hholds : next.Holds f (Routine.ofProgram p) := Heap.holds_install hw hregular hc hf
  have hadds' := hadds.trans (Heap.addsCode_insert hadds.wf hf)
  cases hg : next.insert (.closure { function := f, cells := #[] }) with
  | mk g last =>
  rw [hi.start_eq hf hg]
  obtain ⟨hnone, -, hget⟩ := Heap.get?_insert hadds'.wf hg
  have hkeep := Heap.kept_insert hadds'.wf hg
  -- What is there and is no function was there before, but for the closure.
  have hold : ∀ k o, last.get? k = some o → (∀ q, o ≠ .function q) → k ≠ g → m.heap.get? k = some o := by
    intro k o hk hne hkg
    rw [hget, if_neg hkg] at hk
    obtain hk | ⟨q, rfl⟩ := hadds'.new k o hk
    · exact hk
    · exact absurd rfl (hne q)
  refine ⟨fun k q hq => hkeep.function? (Heap.Kept.function? hadds'.keep hq),
    fun k => Option.ext fun d => ?_, fun k d hd => ?_, fun _ => .inl rfl⟩
  · rw [Heap.cell?_eq, Heap.cell?_eq]
    refine ⟨fun hk => hold k _ hk (fun _ he => by cases he) ?_, fun hk => hkeep _ _ (hadds'.keep _ _ hk)⟩
    rintro rfl
    rw [hget, if_pos rfl] at hk
    cases hk
  · by_cases hkg : k = g
    · subst hkg
      have hd : some (Object.closure { function := f, cells := #[] }) = some (.closure d) := by
        rw [← Heap.closure?_eq.1 hd, hget, if_pos rfl]
      cases hd
      exact .inr ⟨rfl, _, hholds.mono (fun _ _ hq => hkeep.function? hq), source, p, hs, hp, .script⟩
    · exact .inl (Heap.closure?_eq.2 (hold k _ (Heap.closure?_eq.1 hd) (fun _ he => by cases he) hkg))

/-- **A call from outside** adds its arguments. -/
theorem Idle.calling_steady (hi : m.Idle) {name : String} {callee : Value}
    (hg : m.global? name = some callee) {args : List HostValue} (h : m.calling callee args = .next m') :
    Heap.Steady m.heap m'.heap ∧ m'.globals = m.globals := by
  obtain ⟨β, hs⟩ := hi.sound
  have hnone : List.Forall₂ (Value.Similar β) (#[] : Array Value).toList
      (#[] : Array Value).toList := .nil
  obtain ⟨γ, hx, hvalues⟩ := Heap.Twin.ofHostItems hs.heap.twin args hnone
  have hcallee : callee.Similar γ callee := by
    obtain ⟨b, hb, rfl⟩ := Option.map_eq_some_iff.1 hg
    exact (hs.global hb).mono hx.le
  unfold Machine.calling Session.storeArgs at h
  dsimp only at h
  generalize (Heap.ofHostItems args #[] m.heap).1.toList = values at hvalues h
  generalize (Heap.ofHostItems args #[] m.heap).2 = heap at hx h
  have hready := ((hs.extend hx).push hcallee).pushAll (List.forall₂_same.1 hvalues)
  have hheap : (values.foldl Machine.push (({ m with heap } : Machine ω).push callee)).heap = heap ∧
      (values.foldl Machine.push (({ m with heap } : Machine ω).push callee)).globals = m.globals := by
    rw [stack_pushAll]
    exact ⟨rfl, rfl⟩
  generalize values.foldl Machine.push (({ m with heap } : Machine ω).push callee) = ready
    at hready hheap h
  obtain ⟨rfl, hglobals⟩ := hheap
  have hquiet : ∀ {o}, ready.Quietly (values.length + 1) 1 o → o = .next m' →
      Heap.Steady m.heap m'.heap ∧ m'.globals = m.globals := by
    intro o ho he
    subst he
    cases ho with
    | next _ hq => exact ⟨hx.steady.trans hq.steady, hq.globals.trans hglobals⟩
  cases hcallee with
  | closure hh =>
    obtain ⟨f, -, rfl⟩ := enter_next h
    exact ⟨hx.steady, hglobals⟩
  | function hh => exact absurd hh (hready.heap.functions _ _)
  | intrinsic f => exact hquiet (hready.callIntrinsic f values.length) h
  | builtin hname => exact hquiet (hready.callBuiltin hname values.length) h
  | _ => cases h

end Machine

/-! ### Globals -/

/-- **A script stands in front of a declaration** of a global, at the top of one of the scripts. -/
def Machine.Declares (sources : String → Prop) (m : Machine ω) (name : String) : Prop :=
  ∃ f callers c source p w, m.frames = f :: callers ∧ m.heap.closure? f.closure = some c ∧
    m.heap.Holds c.function (Routine.ofProgram p) ∧ sources source ∧
    Program.ofSource source = .ok p ∧ (∃ s ∈ p.statements, s.declaredName? = some name) ∧
    (Instr.decode f.chunk.code f.ip = .instr ⟨.defineLet, w⟩ ∨
      Instr.decode f.chunk.code f.ip = .instr ⟨.defineVar, w⟩) ∧
    f.chunk.names[w.toNat]? = some name

/-- **An immutable global keeps its value,** unless it is declared again. -/
theorem Machine.At.global_kept {β : Link} {m m' : Machine ω} {f : Frame} {callers : List Frame}
    {c : Closure} {p : Prototype Value} {i : Instr} {u : StackShape} {name : String} {b : Binding}
    (ha : m.At β f callers c p i u) (he : m.Effect f callers c i m') (hm : m.Faithful sources)
    (hb : m.globals[name]? = some b) (himmutable : b.isMutable = false) :
    m'.globals[name]? = some b ∨ m.Declares sources name := by
  refine (he.globals name b hb himmutable).imp_right fun ⟨w, hi, hname⟩ => ?_
  obtain ⟨r, hr, source, program, hsource, hprogram, hof⟩ := hm.routines _ _ ha.closure
  obtain ⟨paint, -, hpaints⟩ := ha.paints hr
  obtain ⟨name', hname', hdeclares⟩ := hpaints.declaration w hi
  rw [ha.chunk, hname] at hname'
  obtain rfl := Option.some.inj hname'
  cases hof with
  | function => exact hdeclares.elim
  | script =>
    have hdecode := ha.decode
    refine ⟨f, callers, c, source, program, w, ha.frames, ha.closure, hr, hsource, hprogram, hdeclares,
      ?_, hname⟩
    rcases hi with rfl | rfl
    · exact .inl hdecode
    · exact .inr hdecode

/-! ### Whatever may happen -/

section Reached

variable {moment : Moment} {m : Machine ω} {b : LocalVariable}

theorem Reached.sound (h : Reached l moment m) : ∃ β, m.Sound β := by
  cases moment with
  | between => exact h.fine.2.sound
  | inside => exact h.fine.2.sound

theorem Reached.open_lt (h : Reached l moment m) {slot : Nat} (ho : m.Open slot) :
    slot < m.stack.size := by
  cases moment with
  | between => exact (h.fine.2.not_open slot ho).elim
  | inside => exact h.fine.2.below slot ho

theorem Reached.inScope_lt (h : Reached l moment m) (hb : m.InScope b) : b.slot < m.stack.size := by
  cases moment with
  | between => exact (h.fine.2.not_inScope hb).elim
  | inside => exact hb.slot_lt h.fine.2.framed

end Reached

namespace Advances

variable {moment moment' : Moment} {m m' : Machine ω} {b : LocalVariable} {x : Variable} {v : Value}
  {g : Handle}

/-- **What there is:** a collection; more functions and data between two runs; or an instruction. -/
theorem inversion (ha : Advances l sources moment m moment' m') (h : Reached l moment m) :
    m' = m.collect ∨ (m.Idle ∧ m.Grows sources m') ∨
      ∃ β f callers c p i u, m.At β f callers c p i u ∧ m.Effect f callers c i m' := by
  cases ha with
  | collect => exact .inl rfl
  | define hp => exact .inr (.inl ⟨h.fine.2, h.fine.2.provides hp⟩)
  | start hs hc => exact .inr (.inl ⟨h.fine.2, h.fine.2.grows_start hs hc⟩)
  | call hg hc _ =>
    obtain ⟨hsteady, hglobals⟩ := h.fine.2.calling_steady hg hc
    exact .inr (.inl ⟨h.fine.2, .of_steady hsteady fun _ => .inl (by rw [hglobals])⟩)
  | @called _ m' _ _ hg _ hc _ =>
    obtain ⟨hsteady, hglobals⟩ := h.fine.2.calling_steady hg hc
    exact .inr (.inl ⟨h.fine.2, .of_steady hsteady fun _ => .inl (hglobals ▸ rfl)⟩)
  | step hs =>
    obtain ⟨β, f, callers, c, p, i, u, hat⟩ := Machine.Running.at_ h.fine.2
    exact .inr (.inr ⟨β, f, callers, c, p, i, u, hat, hat.effect (.inl hs)⟩)
  | finish hs =>
    obtain ⟨β, f, callers, c, p, i, u, hat⟩ := Machine.Running.at_ h.fine.2
    exact .inr (.inr ⟨β, f, callers, c, p, i, u, hat, hat.effect (.inr ⟨_, hs⟩)⟩)

/-- What holds of all functions and open cells. -/
theorem faithful (ha : Advances l sources moment m moment' m') (h : Reached l moment m)
    (hm : m.Faithful sources) : m'.Faithful sources := by
  rcases ha.inversion h with rfl | ⟨hi, hg⟩ | ⟨β, f, callers, c, p, i, u, hat, he⟩
  · obtain ⟨β, hs⟩ := h.sound
    exact hm.collect hs
  · exact hi.faithful hg hm
  · exact hat.faithful he hm

/-- **An immutable variable** keeps its value while it is in scope. -/
theorem slot_kept (ha : Advances l sources moment m moment' m') (h : Reached l moment m)
    (hm : m.Faithful sources) (hb : m.InScope b) (hb' : m'.InScope b)
    (himmutable : b.var.isMutable = false) : m'.stack[b.slot]? = m.stack[b.slot]? := by
  have hlt := (ha.reached h).inScope_lt hb'
  rcases ha.inversion h with rfl | ⟨hi, -⟩ | ⟨β, f, callers, c, p, i, u, hat, he⟩
  · rfl
  · exact (hi.not_inScope hb).elim
  · exact hat.slot_kept he hm hb hb' hlt himmutable

/-- **A cell of an immutable variable** keeps its value while it is there. -/
theorem constant (ha : Advances l sources moment m moment' m') (h : Reached l moment m)
    (hm : m.Faithful sources) (hc : m.Constant g x v) (hlive : (m'.heap.cell? g).isSome) :
    m'.Constant g x v := by
  have hbelow : ∀ slot, m'.Open slot → slot < m'.stack.size := fun _ => (ha.reached h).open_lt
  rcases ha.inversion h with rfl | ⟨hi, hg⟩ | ⟨β, f, callers, c, p, i, u, hat, he⟩
  · obtain ⟨β, hs⟩ := h.sound
    exact hc.collect hs hlive
  · exact hi.constant hg hc
  · exact hat.constant he hm hbelow hc

/-- **An immutable global** keeps its value, unless it is declared, or the host provides it. -/
theorem global_kept (ha : Advances l sources moment m moment' m') (h : Reached l moment m)
    (hm : m.Faithful sources) {name : String} {b : Binding} (hb : m.globals[name]? = some b)
    (himmutable : b.isMutable = false) :
    m'.globals[name]? = some b ∨ m.Declares sources name ∨ m.Provides name m' := by
  rcases ha.inversion h with rfl | ⟨-, hg⟩ | ⟨β, f, callers, c, p, i, u, hat, he⟩
  · exact .inl hb
  · exact (hg.globals name).imp (fun he => he.trans hb) .inr
  · exact (hat.global_kept he hm hb himmutable).imp_right .inl

end Advances

/-! ### A stretch of time -/

/-- The value of a shared variable. -/
def Machine.cellValue? (m : Machine ω) (g : Handle) : Option Value :=
  match m.heap.cell? g with
  | some (.opened slot) => m.stack[slot]?
  | some (.closed v) => some v
  | none => none

/-- It is what closures read. -/
theorem Machine.readCapture_eq {m : Machine ω} {index : Nat} {g : Handle} {v : Value}
    (hg : m.captured? index = some g) (hv : m.cellValue? g = some v) :
    m.readCapture index = .next (m.push v) := by
  unfold cellValue? at hv
  unfold readCapture
  cases hc : m.heap.cell? g with
  | none =>
    rw [hc] at hv
    cases hv
  | some c =>
    rw [hc] at hv
    cases c with
    | opened slot =>
      have hv : m.stack[slot]? = some v := hv
      simp only [hg, hc, hv]
    | closed w =>
      obtain rfl : w = v := Option.some.inj hv
      simp only [hg, hc]

theorem Machine.Constant.cellValue? {m : Machine ω} {g : Handle} {x : Variable} {v : Value}
    (h : m.Constant g x v) : m.cellValue? g = some v := by
  unfold Machine.cellValue?
  rcases h.value with hv | ⟨b, -, -, hopen, hv⟩
  · rw [hv]
  · rw [hopen]
    exact hv

namespace During

variable {P : Machine ω → Prop} {moment moment' : Moment} {m m' : Machine ω}

theorem holds (h : During l sources P moment m moment' m') : P m' := by
  cases h with
  | here hp => exact hp
  | next _ _ hp => exact hp

theorem reached (h : During l sources P moment m moment' m') (hr : Reached l moment m)
    (hm : m.Faithful sources) : Reached l moment' m' ∧ m'.Faithful sources := by
  induction h with
  | here => exact ⟨hr, hm⟩
  | next _ ha _ ih => exact ⟨ha.reached ih.1, ha.faithful ih.1 ih.2⟩

/-- **An immutable variable** keeps its value to the end of its scope. -/
theorem slot_kept {b : LocalVariable} (h : During l sources (·.InScope b) moment m moment' m')
    (hr : Reached l moment m) (hm : m.Faithful sources) (himmutable : b.var.isMutable = false) :
    m'.stack[b.slot]? = m.stack[b.slot]? := by
  induction h with
  | here => rfl
  | next h ha hb ih =>
    obtain ⟨hr', hm'⟩ := h.reached hr hm
    exact (ha.slot_kept hr' hm' h.holds hb himmutable).trans ih

/-- **A cell of an immutable variable** keeps its value as long as it is there. -/
theorem constant {g : Handle} {x : Variable} {v : Value}
    (h : During l sources (fun m => (m.heap.cell? g).isSome) moment m moment' m')
    (hr : Reached l moment m) (hm : m.Faithful sources) (hc : m.Constant g x v) :
    m'.Constant g x v := by
  induction h with
  | here => exact hc
  | next h ha hlive ih =>
    obtain ⟨hr', hm'⟩ := h.reached hr hm
    exact ha.constant hr' hm' ih hlive

end During

/-- A machine at its beginning has no functions. -/
theorem Machine.faithful_offering (assets : Assets) (world : ω) :
    (offering assets l world).Faithful sources := by
  rw [offering_eq]
  refine ⟨fun h d hd => ?_, fun b g hb => hb.elim⟩
  rw [Heap.closure?_eq, Heap.get?_empty] at hd
  cases hd

/-- **The variables of a call under way** are known, and those of the innermost call are all in scope. -/
theorem Machine.Running.inScope {m : Machine ω} (hr : m.Running) (hm : m.Faithful sources)
    {inner callers : List Frame} {f : Frame} (hf : m.frames = inner ++ f :: callers) :
    ∃ c r vars, m.heap.closure? f.closure = some c ∧ m.heap.Holds c.function r ∧ r.From sources ∧
      r.InScope f.chunk f.ip vars ∧ (inner = [] → ∀ (k : Nat) x, vars.reverse[k]? = some x →
        m.InScope ⟨callers.length, f.base + k, x⟩) := by
  have hframed : ∃ size limit, Machine.Framed m.heap m.Open size limit (f :: callers) ∧
      (inner = [] → size = m.stack.size) := by
    have hall : ∀ {inner : List Frame} {size limit : Nat},
        Machine.Framed m.heap m.Open size limit (inner ++ f :: callers) →
        ∃ size' limit', Machine.Framed m.heap m.Open size' limit' (f :: callers) ∧
          (inner = [] → size' = size) := by
      intro inner
      induction inner with
      | nil => exact fun h => ⟨_, _, h, fun _ => rfl⟩
      | cons g inner ih =>
        rintro size limit ⟨-, -, -, hrest⟩
        obtain ⟨size', limit', h, -⟩ := ih hrest
        exact ⟨size', limit', h, nofun⟩
    exact hall (hf ▸ hr.framed)
  obtain ⟨size, limit, ⟨⟨t, ⟨c, p, a, hc, hp, hchunk, ha, hk, hpath⟩, hheight, -⟩, -⟩, hsize⟩ := hframed
  obtain ⟨r, hholds, hfrom⟩ := hm.routines _ c hc
  obtain ⟨i, -, hdecode, -⟩ := ha.instr hk
  obtain ⟨paint, hpaint, hpaints⟩ := hholds.paints hp hpath hdecode
  have hscope : r.InScope f.chunk f.ip paint.vars := hchunk ▸ hpaints.scope
  refine ⟨c, r, paint.vars, hc, hholds, hfrom, hscope, ?_⟩
  rintro rfl k x hx
  have hindex := (List.getElem?_eq_some_iff.1 hx).1
  rw [List.length_reverse] at hindex
  have hle : paint.vars.length ≤ t.height := by
    rw [← hpaint, Paint.height]
    exact Nat.le_add_right _ _
  have hsize := hsize rfl
  unfold Machine.InScope
  rw [hf]
  refine .inl ⟨rfl, ?_, c, r, paint.vars, hc, hholds, hscope, Nat.le_add_right _ _, ?_⟩
  · change f.base + k < m.stack.size
    omega
  · change paint.vars.reverse[f.base + k - f.base]? = some x
    rwa [Nat.add_sub_cancel_left]

/-- **Immutable bindings never change.** On a machine on which nothing has failed since its beginning:

* every function is the code of a routine of one of the scripts that were started; so the variables of
  every call under way are known, and those of the innermost call are in scope;
* an immutable local variable has a value, which stays in its slot as long as it is in scope; and every
  cell by which closures share it has that value as long as the cell is there, be it by the slot or for
  its own, so that all closures with the cell read this value and no other;
* an immutable global is changed by nothing but a declaration of its name at the top of a script, or by
  the host; and an assignment to it fails and leaves all globals as they are. -/
theorem During.immutable_bindings_never_change {assets : Assets} {world : ω} {moment : Moment}
    {m : Machine ω}
    (h : During l sources (fun _ => True) .between (Machine.offering assets l world) moment m) :
    ((∀ g c, m.heap.closure? g = some c → ∃ r, m.heap.Holds c.function r ∧ r.From sources) ∧
      ∀ inner f callers, m.frames = inner ++ f :: callers → ∃ c r vars,
        m.heap.closure? f.closure = some c ∧ m.heap.Holds c.function r ∧ r.From sources ∧
        r.InScope f.chunk f.ip vars ∧ (inner = [] → ∀ (k : Nat) x, vars.reverse[k]? = some x →
          m.InScope ⟨callers.length, f.base + k, x⟩)) ∧
    (∀ b, m.InScope b → b.var.isMutable = false → ∃ v, m.stack[b.slot]? = some v ∧
      (∀ moment' m', During l sources (·.InScope b) moment m moment' m' →
        m'.stack[b.slot]? = some v) ∧
      ∀ g, m.heap.cell? g = some (.opened b.slot) → ∀ moment' m',
        During l sources (fun m => (m.heap.cell? g).isSome) moment m moment' m' →
          m'.cellValue? g = some v ∧ m'.heap.SharedAs g b.var ∧
          ∀ index, m'.captured? index = some g → m'.readCapture index = .next (m'.push v)) ∧
    (∀ name b, m.globals[name]? = some b → b.isMutable = false →
      (∀ moment' m', Advances l sources moment m moment' m' →
        m'.globals[name]? = some b ∨ m.Declares sources name ∨ m.Provides name m') ∧
      ∀ f callers w, moment = .inside → m.frames = f :: callers →
        Instr.decode f.chunk.code f.ip = .instr ⟨.setGlobal, w⟩ →
        f.chunk.names[w.toNat]? = some name →
        ∃ m', m.step = .raise (.immutableBinding name) m' ∧ m'.globals = m.globals) := by
  obtain ⟨hr, hm⟩ := h.reached (.new assets world) (Machine.faithful_offering assets world)
  refine ⟨⟨hm.routines, ?frames⟩, fun b hb himmutable => ?local_, fun name b hb himmutable =>
    ⟨fun _ _ ha => ha.global_kept hr hm hb himmutable, ?refused⟩⟩
  case frames =>
    intro inner f callers hf
    cases moment with
    | inside => exact Machine.Running.inScope hr.fine.2 hm hf
    | between =>
      rw [hr.fine.2.frames] at hf
      exact absurd hf.symm (List.append_ne_nil_of_right_ne_nil _ (List.cons_ne_nil _ _))
  case local_ =>
    have hv := Array.getElem?_eq_getElem (hr.inScope_lt hb)
    refine ⟨_, hv, fun _ _ hd => (hd.slot_kept hr hm himmutable).trans hv, fun g hg _ _ hd => ?_⟩
    have hc := hd.constant hr hm ⟨himmutable, hm.shared b g hb himmutable hg, .inr ⟨b, hb, rfl, hg, hv⟩⟩
    exact ⟨hc.cellValue?, hc.shared, fun _ hindex => Machine.readCapture_eq hindex hc.cellValue?⟩
  case refused =>
    rintro f callers w rfl hf hdecode hname
    obtain ⟨β, f', callers', c, p, i, u, ha⟩ := Machine.Running.at_ hr.fine.2
    have hframes := ha.frames
    rw [hf] at hframes
    obtain ⟨rfl, rfl⟩ := List.cons.inj hframes
    obtain rfl : ⟨.setGlobal, w⟩ = i := Instr.Decoded.instr.inj (hdecode.symm.trans ha.decode)
    exact ha.refuses hname hb himmutable

/-- A script has started on a machine without builtins. -/
def Machine.alone (c : Compiled) : Machine Unit :=
  let m : Machine Unit := Machine.offering {} Library.empty ()
  Machine.start { m with heap := (m.heap.install c).2 } (m.heap.install c).1

/-- The variables behind the first instruction are those at the second place. -/
theorem Routine.InScope.second {κ : Type} {r : Routine} {chunk : Chunk κ} {i : Instr}
    {vars : List Variable} (h : r.InScope chunk i.size vars) (hi : Instr.decode chunk.code 0 = .instr i) :
    r.scopes[1]? = some vars := by
  obtain ⟨code, n, hreads, hplace, hvars⟩ := h
  have hpos : 0 < i.size := by
    rw [Instr.size]
    omega
  cases code with
  | nil => cases hplace
  | cons e rest =>
    obtain rfl : i = e.1 := Instr.Decoded.instr.inj (hi.symm.trans hreads.has.decode)
    cases n with
    | zero => exact absurd (Option.some.inj hplace) hpos.ne
    | succ n =>
      have hplace : (Written.places (0 + e.1.size) rest)[n]? = some e.1.size := hplace
      rw [Nat.zero_add] at hplace
      cases rest with
      | nil => cases hplace
      | cons e' rest =>
        have hfirst : (Written.places e.1.size (e' :: rest))[0]? = some e.1.size := rfl
        obtain rfl : 0 = n := Written.places_inj hfirst hplace
        exact hvars

/-- Behind the first instruction of the script, its variable has its value. -/
theorem nil_let_runs : (match Compiled.ofSource "\x7blet a=nil\x7d" with
    | .ok c => match (Machine.alone c).step with
      | .next m => match m.frames, m.stack[1]? with
        | [f], some Value.nil => f.ip == 1 && f.base == 0 && match Instr.decode f.chunk.code 0 with
          | .instr i => i.size == 1
          | _ => false
        | _, _ => false
      | _ => false
    | .error _ => false) = true := by
  decide +kernel

/-- The script has no functions, and its variable is in scope at its second instruction. -/
theorem nil_let_scopes : (match Program.ofSource "\x7blet a=nil\x7d" with
    | .ok p => decide ((Routine.ofProgram p).functions = []) &&
        decide ((Routine.ofProgram p).scopes[1]? = some [⟨"a", false⟩, ⟨"", false⟩])
    | .error _ => false) = true := by
  decide +kernel

/-- An immutable local variable behind the instruction that gives it its value. -/
theorem nil_let_kept : ∃ c m, Compiled.ofSource "\x7blet a=nil\x7d" = .ok c ∧
    (Machine.alone c).step = .next m ∧ ∃ b, m.InScope b ∧ b.var = ⟨"a", false⟩ ∧
      m.stack[b.slot]? = some .nil ∧ ∀ moment' m',
        During Library.empty (· = "\x7blet a=nil\x7d") (·.InScope b) .inside m moment' m' →
          m'.stack[b.slot]? = some .nil := by
  have hrun := nil_let_runs
  have hscopes := nil_let_scopes
  cases hc : Compiled.ofSource "\x7blet a=nil\x7d" with
  | error e =>
    rw [hc] at hrun
    cases hrun
  | ok c =>
  rw [hc] at hrun
  dsimp only at hrun
  split at hrun
  case h_2 => cases hrun
  case h_1 m hstep =>
  split at hrun
  case h_2 => cases hrun
  case h_1 f hframes hvalue =>
  split at hrun
  case h_2 => simp at hrun
  case h_1 i hi =>
  simp only [Bool.and_eq_true, beq_iff_eq] at hrun
  obtain ⟨⟨hip, hbase⟩, hsize⟩ := hrun
  have hpath : During Library.empty (· = "\x7blet a=nil\x7d") (fun _ => True) .between
      (Machine.offering {} Library.empty ()) .inside m :=
    .next (.next (.here trivial) (.start rfl hc) trivial) (.step hstep) trivial
  obtain ⟨⟨-, hcalls⟩, hlocals, -⟩ := During.immutable_bindings_never_change hpath
  obtain ⟨d, r, vars, -, -, ⟨source, p, rfl, hp, hof⟩, hscope, hall⟩ := hcalls [] f [] hframes
  rw [hp] at hscopes
  simp only [Bool.and_eq_true, decide_eq_true_eq] at hscopes
  -- The script has no functions, so the call is that of the script itself.
  have hr : r = Routine.ofProgram p := by
    clear hscope
    induction hof with
    | script => rfl
    | function _ hf _ _ ih =>
      rw [ih, hscopes.1] at hf
      cases hf
  subst hr
  rw [hip, ← hsize] at hscope
  have hvars := hscope.second hi
  rw [hscopes.2] at hvars
  obtain rfl := Option.some.inj hvars
  have hb := hall rfl 1 ⟨"a", false⟩ rfl
  rw [hbase] at hb
  obtain ⟨v, hv, hkept, -⟩ := hlocals _ hb rfl
  obtain rfl : Value.nil = v := Option.some.inj (hvalue.symm.trans hv)
  exact ⟨c, m, rfl, hstep, _, hb, rfl, hvalue, hkept⟩

end DeployScript
