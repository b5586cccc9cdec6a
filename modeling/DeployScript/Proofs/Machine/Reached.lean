import DeployScript.Proofs.Machine.Collections
import DeployScript.Proofs.Machine.Safety
import DeployScript.Proofs.Program.Spelled

/-!
# Compiled code goes right

Scripts and calls, one after another, on a machine on which nothing has failed.

* `Reached` — the machines that there are between two operations and in front of an instruction.
* `Running.collect`, `Idle.start`, `Idle.calling` — what leads from one to another.
* `Machine.AtEase` — all that an instruction relies on; `Running.atEase`.
* `Reached.compiled_code_goes_right` — every machine that is reached is at ease, and what it comes to
  is no failure of the machine itself.
-/

namespace DeployScript

variable {ω : Type}

/-! ### Collections -/

section Collections

variable {β : Link} {heap next : Heap} {P : Handle → Prop} {h : Handle}

theorem Heap.Keeps.cell? (hk : Heap.Keeps heap next P) (hh : P h) :
    next.cell? h = heap.cell? h := by
  unfold Heap.cell?
  rw [hk.get? h hh]

theorem Frame.Stands.keep {f : Frame} {t : StackShape} (hs : f.Stands heap t)
    (hk : Heap.Keeps heap next P) (hf : P f.closure) : f.Stands next t := by
  obtain ⟨c, p, l, hc, hp, hchunk, hl, hknown, hpath⟩ := hs
  have hfunction := (hk.of_closure hf hc).1
  refine ⟨c, p, l, (hk.closure? hf).trans hc, (hk.function? hfunction).trans hp, hchunk, ?_, hknown,
    hpath⟩
  refine hl.mono fun g q hmem hq => (hk.function? ?_).trans hq
  refine hk.closed _ _ hfunction (Heap.function?_eq.1 hp) g ?_
  exact List.mem_flatMap.2 ⟨_, Array.mem_toList_iff.2 hmem, List.mem_cons_self⟩

/-- **A sound heap** stays sound when it loses what is not kept. -/
theorem Heap.Sound.restrict (hs : heap.Sound β) (hk : Heap.Keeps heap next P)
    (hgone : ∀ g, ¬ P g → next.get? g = none) : next.Sound (β.within P P) := by
  have hkept : ∀ {g o}, next.get? g = some o → P g := by
    intro g o hg
    by_contra hn
    rw [hgone g hn] at hg
    cases hg
  refine ⟨hs.twin.restrict hk hk, fun g g' hg => hs.functions g g' hg.1, fun g g' hg => ?_,
    fun g p hp => ?_, fun g c hc => ?_, fun g v hv => ?_⟩
  · rw [hk.closure? hg.2.1]
    exact hs.closures g g' hg.1
  · have hP := hkept (Heap.function?_eq.1 hp)
    rw [hk.function? hP] at hp
    obtain ⟨l, hl⟩ := hs.coded g p hp
    refine ⟨l, hl.mono fun k q hmem hq => (hk.function? ?_).trans hq⟩
    refine hk.closed _ _ hP (Heap.function?_eq.1 hp) k ?_
    exact List.mem_flatMap.2 ⟨_, Array.mem_toList_iff.2 hmem, List.mem_cons_self⟩
  · have hP := hkept (Heap.closure?_eq.1 hc)
    rw [hk.closure? hP] at hc
    obtain ⟨hfunction, hcells⟩ := hk.of_closure hP hc
    obtain ⟨p, hp, hsize, hlive⟩ := hs.captures g c hc
    refine ⟨p, (hk.function? hfunction).trans hp, hsize, fun k hmem => ?_⟩
    rw [hk.cell? (hcells k hmem)]
    exact hlive k hmem
  · have hP := hkept (Heap.cell?_eq.1 hv)
    rw [hk.cell? hP] at hv
    have hclosed := hk.closed _ _ hP (Heap.cell?_eq.1 hv)
    exact (hs.cells g v hv).within hclosed hclosed

end Collections

/-- A heap without objects is sound. -/
theorem Heap.sound_empty (library : Library ω) :
    Heap.empty.Sound ⟨fun _ _ _ => False, fun name => name ∈ library.names⟩ where
  twin := ⟨Heap.wf_empty, Heap.wf_empty, nofun, nofun, nofun, nofun, nofun,
    fun _ _ h => h.elim False.elim False.elim⟩
  functions _ _ := id
  closures := nofun
  coded h p hp := by
    rw [Heap.function?_eq, Heap.get?_empty] at hp
    cases hp
  captures h c hc := by
    rw [Heap.closure?_eq, Heap.get?_empty] at hc
    cases hc
  cells h v hv := by
    rw [Heap.cell?_eq, Heap.get?_empty] at hv
    cases hv

namespace Machine

/-- What is kept when a machine is collected, and nothing else. -/
theorem keeps_collect {m : Machine ω} (hw : m.heap.Wf) :
    Heap.Keeps m.heap m.collect.heap (m.heap.Reachable m.roots) ∧
      ∀ g, ¬ m.heap.Reachable m.roots g → m.collect.heap.get? g = none := by
  obtain ⟨-, -, hgone⟩ := Heap.get?_collected hw m.roots
  exact ⟨Heap.keeps_collected hw m.roots, hgone⟩

theorem mem_roots_stack {m : Machine ω} {v : Value} (hv : v ∈ m.stack) {h : Handle}
    (hh : h ∈ v.handles) : h ∈ m.roots :=
  List.mem_append_left _ (List.mem_append_left _ (List.mem_append_left _
    (List.mem_flatMap.2 ⟨v, Array.mem_toList_iff.2 hv, hh⟩)))

theorem mem_roots_globals {m : Machine ω} {b : Binding} (hb : b ∈ m.globals.values) {h : Handle}
    (hh : h ∈ b.value.handles) : h ∈ m.roots :=
  List.mem_append_left _ (List.mem_append_left _ (List.mem_append_right _
    (List.mem_flatMap.2 ⟨b, hb, hh⟩)))

theorem mem_roots_frames {m : Machine ω} {f : Frame} (hf : f ∈ m.frames) : f.closure ∈ m.roots :=
  List.mem_append_left _ (List.mem_append_right _ (List.mem_map_of_mem hf))

theorem mem_roots_opened {m : Machine ω} {h : Handle} (hh : h ∈ m.opened) : h ∈ m.roots :=
  List.mem_append_right _ hh

/-- The open cells are kept, and no others are open. -/
theorem Sound.opened_collect {β : Link} {m : Machine ω} (hs : m.Sound β) {h : Handle}
    {slot : Nat} : m.collect.heap.cell? h = some (.opened slot) ↔
      m.heap.cell? h = some (.opened slot) := by
  obtain ⟨hk, hgone⟩ := keeps_collect hs.heap.twin.wf
  constructor
  · intro hc
    have hP : m.heap.Reachable m.roots h := by
      by_contra hn
      have hnone := hgone h hn
      rw [Heap.cell?_eq.1 hc] at hnone
      cases hnone
    rwa [hk.cell? hP] at hc
  · intro hc
    have hP : m.heap.Reachable m.roots h :=
      .root (mem_roots_opened ((hs.opened h).2 ⟨slot, hc⟩))
    rwa [hk.cell? hP]

/-- **A sound machine** may be collected. -/
theorem Sound.collect {β : Link} {m : Machine ω} (hs : m.Sound β) :
    ∃ γ, m.collect.Sound γ := by
  obtain ⟨hk, hgone⟩ := keeps_collect hs.heap.twin.wf
  refine ⟨_, hs.heap.restrict hk hgone, fun v hv => ?_, ?_, hs.builtins, fun g => ?_,
    fun g g' slot hg hg' => ?_, hs.nodup⟩
  · have hroots : ∀ h ∈ v.handles, m.heap.Reachable m.roots h :=
      fun h hh => .root (mem_roots_stack hv hh)
    exact (hs.stack v hv).within hroots hroots
  · refine hs.globals.imp_mem fun b hb b' hb' hbb => ⟨hbb.value.within ?_ ?_, hbb.isMutable⟩
    · exact fun h hh => .root (mem_roots_globals hb hh)
    · exact fun h hh => .root (mem_roots_globals hb' hh)
  · simp only [hs.opened_collect]
    exact hs.opened g
  · exact hs.alone g g' slot (hs.opened_collect.1 hg) (hs.opened_collect.1 hg')

theorem Sound.open_collect {β : Link} {m : Machine ω} (hs : m.Sound β) (slot : Nat) :
    m.collect.Open slot ↔ m.Open slot :=
  exists_congr fun _ => hs.opened_collect

theorem Running.collect {m : Machine ω} (hr : m.Running) : m.collect.Running := by
  obtain ⟨β, hs⟩ := hr.sound
  obtain ⟨hk, -⟩ := keeps_collect hs.heap.twin.wf
  refine ⟨hs.collect, fun slot ho => hr.below slot ((hs.open_collect slot).1 ho), hr.busy, ?_⟩
  refine hr.framed.mono (fun f hf t ht => ?_) fun slot _ ho => (hs.open_collect slot).1 ho
  exact ht.keep hk (.root (mem_roots_frames hf))

theorem Idle.collect {m : Machine ω} (hi : m.Idle) : m.collect.Idle := by
  obtain ⟨β, hs⟩ := hi.sound
  exact ⟨hs.collect, hi.stack, hi.frames, hi.opened⟩

/-! ### Between two runs -/

theorem Idle.define {m : Machine ω} (hi : m.Idle) (name : String) (value : HostValue)
    (isMutable : Bool) :
    ({ m with heap := (Heap.ofHost value m.heap).2 }.define name (Heap.ofHost value m.heap).1
      isMutable : Machine ω).Idle := by
  obtain ⟨β, hs⟩ := hi.sound
  obtain ⟨γ, hx, hv⟩ := hs.heap.twin.ofHost value
  exact ⟨⟨γ, (hs.extend hx).define name hv isMutable⟩, hi.stack, hi.frames, hi.opened⟩

/-- No slot is open between two runs. -/
theorem Idle.not_open {m : Machine ω} (hi : m.Idle) (slot : Nat) : ¬ m.Open slot := by
  rintro ⟨h, hc⟩
  obtain ⟨β, hs⟩ := hi.sound
  have hmem := (hs.opened h).2 ⟨slot, hc⟩
  rw [hi.opened] at hmem
  cases hmem

/-- Globals are defined one after another. -/
theorem foldl_define {κ : Type} (l : List κ) (name : κ → String) (value : κ → Value)
    (m : Machine ω) : l.foldl (fun m a => m.define (name a) (value a) false) m
      = { m with globals := l.foldl (fun g a => g.insert (name a) ⟨value a, false⟩) m.globals } := by
  induction l generalizing m with
  | nil => rfl
  | cons a l ih => exact ih (m.define (name a) (value a) false)

theorem matching_insertAll {β : Link} {κ : Type} (l : List κ) (name : κ → String)
    (value : κ → Value) (hv : ∀ a ∈ l, (value a).Similar β (value a))
    {g : Std.TreeMap String Binding} (hg : Matching (Binding.Similar β) g g) :
    Matching (Binding.Similar β) (l.foldl (fun g a => g.insert (name a) ⟨value a, false⟩) g)
      (l.foldl (fun g a => g.insert (name a) ⟨value a, false⟩) g) := by
  induction l generalizing g with
  | nil => exact hg
  | cons a l ih =>
    exact ih (fun b hb => hv b (List.mem_cons_of_mem _ hb))
      (hg.insert (name a) ⟨hv a List.mem_cons_self, rfl⟩)

/-- The globals of a machine at its beginning. -/
def provided (library : Library ω) : Std.TreeMap String Binding :=
  library.names.foldl (fun g name => g.insert name ⟨.builtin name, false⟩)
    (Intrinsic.all.foldl (fun g f => g.insert f.name ⟨.intrinsic f, false⟩) {})

theorem offering_eq (assets : Assets) (library : Library ω) (world : ω) :
    offering assets library world
      = { stack := #[], frames := [], globals := provided library, heap := Heap.empty, opened := []
          assets, library, world, output := "" } := by
  unfold offering Machine.new
  rw [foldl_define Intrinsic.all Intrinsic.name .intrinsic]
  exact foldl_define library.names id .builtin _

/-- **A machine at its beginning** is between two runs. -/
theorem idle_offering (assets : Assets) (library : Library ω) (world : ω) :
    (offering assets library world).Idle := by
  rw [offering_eq]
  refine ⟨⟨_, Heap.sound_empty library, fun v hv => (Array.not_mem_empty v hv).elim, ?_, ?_, fun h => ?_,
    fun h h' slot hh => ?_, List.nodup_nil⟩, rfl, rfl, rfl⟩
  · refine matching_insertAll library.names id .builtin (fun name hname => .builtin hname) ?_
    exact matching_insertAll Intrinsic.all Intrinsic.name .intrinsic (fun f _ => .intrinsic f)
      matching_empty
  · intro name hname
    obtain ⟨b, hb, rfl⟩ := List.mem_map.1 hname
    exact List.find?_isSome.2 ⟨b, hb, by simp⟩
  · refine iff_of_false List.not_mem_nil ?_
    rintro ⟨slot, hc⟩
    rw [Heap.cell?_eq, Heap.get?_empty] at hc
    cases hc
  · rw [Heap.cell?_eq, Heap.get?_empty] at hh
    cases hh

/-! ### The beginning of a run -/

/-- Code may be added. -/
theorem Sound.addsCode {β : Link} {m : Machine ω} (hs : m.Sound β) {next : Heap}
    (ha : m.heap.AddsCode next) (hcoded : next.Coded) :
    ({ m with heap := next } : Machine ω).Sound β := by
  have hcell : ∀ h c, next.cell? h = some c ↔ m.heap.cell? h = some c := by
    intro h c
    rw [Heap.cell?_eq, Heap.cell?_eq]
    refine ⟨fun hc => ?_, ha.keep h _⟩
    obtain hold | ⟨p, hp⟩ := ha.new h _ hc
    · exact hold
    · cases hp
  have hclosure : ∀ h, next.closure? h = m.heap.closure? h := by
    intro h
    refine Option.ext fun c => ?_
    rw [Heap.closure?_eq, Heap.closure?_eq]
    refine ⟨fun hc => ?_, ha.keep h _⟩
    obtain hold | ⟨p, hp⟩ := ha.new h _ hc
    · exact hold
    · cases hp
  refine ⟨hs.heap.keep ha.wf ha.keep hclosure (fun h v hv => (hcell h _).1 hv) hcoded, hs.stack,
    hs.globals, hs.builtins, fun h => ?_, fun h h' slot hh hh' => ?_, hs.nodup⟩
  · simp only [hcell]
    exact hs.opened h
  · exact hs.alone h h' slot ((hcell h _).1 hh) ((hcell h' _).1 hh')

/-- **A script starts** on a machine between two runs. -/
theorem Idle.start {m : Machine ω} (hi : m.Idle) {c : Compiled} (hc : c.Sound) :
    (Machine.start { m with heap := (m.heap.install c).2 } (m.heap.install c).1).Running := by
  obtain ⟨β, hs⟩ := hi.sound
  obtain ⟨hadds, hcoded, l, hl⟩ := Heap.shaped_install hs.heap.twin.wf hs.heap.coded hc
  generalize (m.heap.install c).2 = heap at hadds hcoded hl ⊢
  generalize (m.heap.install c).1 = chunk at hl ⊢
  cases hf : heap.insert (.function (scriptPrototype chunk)) with
  | mk function heap' =>
  have hadds' := hadds.trans (Heap.addsCode_insert hadds.wf hf)
  obtain ⟨-, -, hget⟩ := Heap.get?_insert hadds.wf hf
  have hfunction : heap'.function? function = some (scriptPrototype chunk) := by
    rw [Heap.function?_eq, hget, if_pos rfl]
  have hkeep := Heap.kept_insert hadds.wf hf
  have hshaped : (scriptPrototype chunk).Shaped heap' l := hl.mono fun _ _ _ hq => hkeep.function? hq
  have hcoded' : heap'.Coded := by
    intro h p hp
    rw [Heap.function?_eq, hget] at hp
    split at hp
    · cases hp
      exact ⟨l, hshaped⟩
    · obtain ⟨l', hl'⟩ := hcoded h p (Heap.function?_eq.2 hp)
      exact ⟨l', hl'.mono fun _ _ _ hq => hkeep.function? hq⟩
  have hs' := hs.addsCode hadds' hcoded'
  cases hg : heap'.insert (.closure { function, cells := #[] }) with
  | mk closure heap'' =>
  obtain ⟨⟨γ, hs'', hv, -⟩, hopens, hclosure⟩ :=
    hs'.newClosure hfunction rfl (fun g hg => (Array.not_mem_empty g hg).elim) hg
  have hclosed : ∀ slot, ¬ ({ m with heap := heap'' } : Machine ω).Open slot := by
    intro slot ho
    obtain ⟨h, hcell⟩ := (hopens.opened slot ho).resolve_right List.not_mem_nil
    refine hi.not_open slot ⟨h, ?_⟩
    rw [Heap.cell?_eq] at hcell ⊢
    obtain hold | ⟨p, hp⟩ := hadds'.new h _ hcell
    · exact hold
    · cases hp
  have hstart : Machine.start { m with heap } chunk
      = { ({ m with heap := heap'' } : Machine ω).push (.closure closure) with
          frames := [{ closure, chunk, ip := 0, base := 0 }] } := by
    have hf' : heap.insert (.function { name := scriptName, params := [], captures := 0, chunk })
        = (function, heap') := hf
    unfold Machine.start
    simp only [hf', hg, hi.frames, Machine.push, hi.stack]
    rfl
  rw [hstart]
  refine ⟨⟨γ, { hs''.push hv with builtins := hs''.builtins }⟩, fun slot ho => (hclosed slot ho).elim,
    List.cons_ne_nil _ _, ⟨entryShape 0, ⟨_, _, l, hclosure, hopens.function? hfunction, rfl,
      hshaped.mono fun h q _ hq => hopens.function? hq, hshaped.entry, .start⟩, ?_,
      fun slot ho _ _ => (hclosed slot ho).elim⟩, Nat.zero_le _, fun _ => rfl, trivial⟩
  change 0 + 1 = (m.stack.push _).size
  rw [hi.stack]
  rfl

/-! ### Calls from outside -/

/-- A call of a function from outside: its arguments are stored, and it starts. -/
def calling (m : Machine ω) (callee : Value) (args : List HostValue) : Outcome ω :=
  let (values, heap) := Session.storeArgs args m.heap
  let m := values.toList.foldl push ({ m with heap }.push callee)
  m.call callee values.toList.length

theorem stack_pushAll (values : List Value) (m : Machine ω) :
    values.foldl Machine.push m = { m with stack := m.stack ++ values.toArray } := by
  induction values generalizing m with
  | nil => simp
  | cons v values ih =>
    rw [List.foldl_cons, ih]
    simp [Machine.push]

theorem Sound.pushAll {β : Link} {m : Machine ω} (hs : m.Sound β) {values : List Value}
    (hv : ∀ v ∈ values, v.Similar β v) : (values.foldl Machine.push m).Sound β := by
  induction values generalizing m with
  | nil => exact hs
  | cons v values ih =>
    exact ih (hs.push (hv v List.mem_cons_self)) fun w hw => hv w (List.mem_cons_of_mem _ hw)

/-- Nothing runs, nothing is on the stack, and no cell is a slot of it. -/
theorem Sound.idle {β : Link} {m : Machine ω} (hs : m.Sound β) (hstack : m.stack.size = 0)
    (hframes : m.frames = []) (hopen : ∀ slot, ¬ m.Open slot) : m.Idle := by
  refine ⟨⟨β, hs⟩, Array.size_eq_zero_iff.1 hstack, hframes, List.eq_nil_iff_forall_not_mem.2 ?_⟩
  intro h hh
  obtain ⟨slot, hc⟩ := (hs.opened h).1 hh
  exact hopen slot ⟨h, hc⟩

/-- A call starts, is complete, or fails; it does not end a run. -/
theorem call_ne_done (m m' : Machine ω) (callee : Value) (count : Nat) (v : Value) :
    m.call callee count ≠ .done v m' := by
  have henter : ∀ (m : Machine ω) (h : Handle), m.enter h count ≠ .done v m' := by
    intro m h
    unfold Machine.enter
    split
    · exact nofun
    · split
      · exact nofun
      · split <;> exact nofun
  unfold Machine.call
  split
  · exact henter _ _
  · exact henter _ _
  · unfold Machine.callIntrinsic
    dsimp only
    split
    · exact nofun
    · split <;> exact nofun
  · unfold Machine.callBuiltin
    split
    · exact nofun
    · split
      · exact nofun
      · dsimp only
        split <;> exact nofun
  · exact nofun

/-- **What a call from outside may come to:** it starts, or is complete, or fails for a reason of the
script or of the host. -/
inductive Called (l : Library ω) : Outcome ω → Prop
  | running {m : Machine ω} (hr : m.Running) (hl : m.library = l) : Called l (.next m)
  | complete {m : Machine ω} (hframes : m.frames = []) (hi : m.pop.2.Idle) (hl : m.library = l) :
    Called l (.next m)
  | raise {β : Link} {cause : Cause} {m : Machine ω} (h : l.MayRaise cause) (hs : m.Sound β) :
    Called l (.raise cause m)

theorem Idle.calling {m : Machine ω} (hi : m.Idle) {name : String} {callee : Value}
    (hg : m.global? name = some callee) (args : List HostValue) :
    Called m.library (m.calling callee args) := by
  obtain ⟨β, hs⟩ := hi.sound
  have hnone : List.Forall₂ (Value.Similar β) (#[] : Array Value).toList
      (#[] : Array Value).toList := .nil
  obtain ⟨γ, hx, hvalues⟩ := Heap.Twin.ofHostItems hs.heap.twin args hnone
  have hcallee : callee.Similar γ callee := by
    obtain ⟨b, hb, rfl⟩ := Option.map_eq_some_iff.1 hg
    exact (hs.global hb).mono hx.le
  unfold Machine.calling Session.storeArgs
  dsimp only
  generalize (Heap.ofHostItems args #[] m.heap).1.toList = values at hvalues ⊢
  generalize (Heap.ofHostItems args #[] m.heap).2 = heap at hx ⊢
  have hready := ((hs.extend hx).push hcallee).pushAll (List.forall₂_same.1 hvalues)
  have hsize : (values.foldl Machine.push (({ m with heap } : Machine ω).push callee)).stack.size
      = values.length + 1 := by
    rw [stack_pushAll]
    simp [Machine.push, hi.stack]
  have hframes : (values.foldl Machine.push (({ m with heap } : Machine ω).push callee)).frames
      = [] := by
    rw [stack_pushAll]
    exact hi.frames
  have hlibrary : (values.foldl Machine.push (({ m with heap } : Machine ω).push callee)).library
      = m.library := by
    rw [stack_pushAll]
    rfl
  have hclosed : ∀ slot, ¬ (values.foldl Machine.push
      (({ m with heap } : Machine ω).push callee)).Open slot := by
    rw [stack_pushAll]
    rintro slot ⟨h, hc⟩
    exact hi.not_open slot ⟨h, (hx.steady.cell h).symm.trans hc⟩
  -- Of the machine with its arguments in place, only these facts matter from here on.
  generalize values.foldl Machine.push (({ m with heap } : Machine ω).push callee) = ready
    at hready hsize hframes hlibrary hclosed ⊢
  have hcount : values.length < ready.stack.size := by omega
  have hcall := hready.call hcallee hcount (fun slot ho => (hclosed slot ho).elim)
    (fun _ => by omega) (by rw [hframes]; trivial)
  rw [← hlibrary]
  have hdone : ∀ v m', ready.call callee values.length ≠ .done v m' :=
    fun v m' => ready.call_ne_done m' callee _ v
  generalize ready.call callee values.length = outcome at hcall hdone ⊢
  rcases hcall with hsafe | hquiet
  · cases hsafe with
    | next hr hl => exact .running hr hl
    | done _ _ => exact absurd rfl (hdone _ _)
    | raise h hs => exact .raise h hs
  · cases hquiet with
    | raise h hs => exact .raise h hs
    | next hs' hq =>
      have hnone := hq.frames.trans hframes
      refine .complete hnone (hs'.pop.2.idle ?_ hnone fun slot ho => ?_) hq.library
      · rw [size_pop, hq.size, hsize]
        omega
      · exact hclosed slot ((hq.calm.open_iff slot).1 ho)

/-! ### Machines that are reached -/

end Machine

/-- When a machine is looked at: between two operations, or in front of an instruction. -/
inductive Moment
  | between | inside

open Machine in
/-- **The machines that there are** as long as nothing has failed: at the beginning; when a host
stores a value in a global; when a script or a call from outside starts, and behind each of its
instructions; when it has ended; and behind a collection, which may happen at any moment. -/
inductive Reached (l : Library ω) : Moment → Machine ω → Prop
  | new (assets : Assets) (world : ω) : Reached l .between (offering assets l world)
  | collect {moment : Moment} {m : Machine ω} (h : Reached l moment m) : Reached l moment m.collect
  | define {m : Machine ω} (h : Reached l .between m) (name : String) (value : HostValue)
    (isMutable : Bool) :
    Reached l .between ({ m with heap := (Heap.ofHost value m.heap).2 }.define name
      (Heap.ofHost value m.heap).1 isMutable)
  | start {m : Machine ω} (h : Reached l .between m) {source : String} {c : Compiled}
    (hc : Compiled.ofSource source = .ok c) :
    Reached l .inside
      (Machine.start { m with heap := (m.heap.install c).2 } (m.heap.install c).1)
  | call {m m' : Machine ω} (h : Reached l .between m) {name : String} {callee : Value}
    (hg : m.global? name = some callee) {args : List HostValue}
    (hc : m.calling callee args = .next m') (hbusy : m'.frames ≠ []) : Reached l .inside m'
  | called {m m' : Machine ω} (h : Reached l .between m) {name : String} {callee : Value}
    (hg : m.global? name = some callee) {args : List HostValue}
    (hc : m.calling callee args = .next m') (hidle : m'.frames = []) :
    Reached l .between m'.pop.2
  | step {m m' : Machine ω} (h : Reached l .inside m) (hs : m.step = .next m') :
    Reached l .inside m'
  | finish {m m' : Machine ω} {v : Value} (h : Reached l .inside m) (hs : m.step = .done v m') :
    Reached l .between m'

/-- What is known of a machine at a moment. -/
def Machine.Fine (l : Library ω) (moment : Moment) (m : Machine ω) : Prop :=
  m.library = l ∧ match moment with
    | .between => m.Idle
    | .inside => m.Running

/-- **Every machine that is reached** is between two runs, or running. -/
theorem Reached.fine {l : Library ω} {moment : Moment} {m : Machine ω} (h : Reached l moment m) :
    m.Fine l moment := by
  induction h with
  | new assets world => exact ⟨by rw [Machine.offering_eq], Machine.idle_offering assets l world⟩
  | @collect moment m _ ih =>
    cases moment with
    | between => exact ⟨ih.1, ih.2.collect⟩
    | inside => exact ⟨ih.1, ih.2.collect⟩
  | define _ name value isMutable ih => exact ⟨ih.1, ih.2.define name value isMutable⟩
  | start _ hc ih => exact ⟨ih.1, ih.2.start (Compiled.sound_ofSource hc)⟩
  | @call m _ _ name callee hg args hc hbusy ih =>
    have hcalled := Machine.Idle.calling ih.2 hg args
    rw [hc] at hcalled
    cases hcalled with
    | running hr hl => exact ⟨hl.trans ih.1, hr⟩
    | complete hframes _ _ => exact absurd hframes hbusy
  | @called m _ _ name callee hg args hc hidle ih =>
    have hcalled := Machine.Idle.calling ih.2 hg args
    rw [hc] at hcalled
    cases hcalled with
    | running hr _ => exact absurd hidle hr.busy
    | complete _ hi hl => exact ⟨hl.trans ih.1, hi⟩
  | step _ hs ih =>
    have hsafe := Machine.Running.step ih.2
    rw [hs] at hsafe
    cases hsafe with
    | next hr hl => exact ⟨hl.trans ih.1, hr⟩
  | finish _ hs ih =>
    have hsafe := Machine.Running.step ih.2
    rw [hs] at hsafe
    cases hsafe with
    | done hi hl => exact ⟨hl.trans ih.1, hi⟩

/-! ### What a reached machine relies on -/

/-- The name that an instruction refers to by its index. -/
def Instr.nameIndex? : Instr → Option UInt16
  | ⟨.defineLet, index⟩ | ⟨.defineVar, index⟩ | ⟨.getGlobal, index⟩ | ⟨.setGlobal, index⟩
  | ⟨.getProperty, index⟩ | ⟨.setProperty, index⟩ => some index
  | _ => none

/-- **A machine at ease** stands in front of an instruction `i` of a function `p` in a call `f`, and
all that the instruction relies on is there. -/
structure Machine.AtEase (m : Machine ω) (f : Frame) (p : Prototype Value) (i : Instr) : Prop where
  /-- The call runs the code of a function that lives. -/
  frame : m.frames.head? = some f ∧
    (m.heap.closure? f.closure).bind (fun c => m.heap.function? c.function) = some p ∧
    p.chunk = f.chunk
  /-- The byte at the place is an opcode, and the code holds all of its operand. -/
  instr : Instr.decode f.chunk.code f.ip = .instr i ∧ f.ip + i.size ≤ f.chunk.code.size
  /-- Constants exist; that of a closure is a function with as many captures. -/
  constant : ∀ index, i = ⟨.constant, index⟩ → index.toNat < f.chunk.constants.size
  closure : ∀ index sources, i = ⟨.closure, (index, sources)⟩ → ∃ function q,
    f.chunk.constants[index.toNat]? = some (.function function) ∧
    m.heap.function? function = some q ∧ q.captures = sources.length
  name : ∀ index, i.nameIndex? = some index → index.toNat < f.chunk.names.size
  /-- The values that are taken or looked at lie above the start of the call. -/
  deep : f.base + i.taken ≤ m.stack.size
  slot : ∀ slot, i = ⟨.getLocal, slot⟩ ∨ i = ⟨.setLocal, slot⟩ →
    f.base + slot.toNat < m.stack.size
  back : ∀ distance, i = ⟨.loop, distance⟩ → distance.toNat ≤ f.ip + i.size
  /-- A captured variable has its cell: one with a value of its own, or an open one. -/
  capture : ∀ index, i = ⟨.getCapture, index⟩ ∨ i = ⟨.setCapture, index⟩ → ∃ h,
    m.captured? index.toNat = some h ∧ ((∃ v, m.heap.cell? h = some (.closed v)) ∨ h ∈ m.opened)
  /-- The open cells are the listed ones; each is a slot of the stack, and no two are one slot. -/
  opened : ∀ h, h ∈ m.opened ↔ ∃ slot, m.heap.cell? h = some (.opened slot)
  below : ∀ h slot, m.heap.cell? h = some (.opened slot) → slot < m.stack.size
  alone : ∀ h h' slot, m.heap.cell? h = some (.opened slot) →
    m.heap.cell? h' = some (.opened slot) → h = h'
  /-- Every way through the code that leads here leaves the same height: that of the stack. -/
  height : ∀ n, Instr.Path f.chunk.code p.params.length f.ip n ↔ f.base + n = m.stack.size

/-- **A running machine** is at ease. -/
theorem Machine.Running.atEase {m : Machine ω} (hr : m.Running) : ∃ f p i, m.AtEase f p i := by
  obtain ⟨β, f, callers, c, p, i, u, ha⟩ := hr.at_
  have hoperand := ha.fits.operand
  have hheight := ha.height
  -- What is captured has its value in the cell, or is a slot on the list of open cells.
  have hcell : ∀ {index : UInt16}, index.toNat < p.captures → ∃ h,
      m.captured? index.toNat = some h ∧
        ((∃ v, m.heap.cell? h = some (.closed v)) ∨ h ∈ m.opened) := by
    intro index hindex
    obtain ⟨h, hh, hlive⟩ := ha.sound.captured? ha.frames ha.closure ha.function hindex
    obtain ⟨cell, hc⟩ := Option.isSome_iff_exists.1 hlive
    refine ⟨h, hh, ?_⟩
    cases cell with
    | opened slot => exact .inr ((ha.sound.opened h).2 ⟨slot, hc⟩)
    | closed v => exact .inl ⟨v, hc⟩
  have hslot : ∀ {slot : UInt16}, slot.toNat < u.height → f.base + slot.toNat < m.stack.size := by
    intro slot hlt
    omega
  refine ⟨f, p, i, ?frame, ⟨ha.decode, Instr.decode_le ha.decode⟩, ?constant, ?closure, ?name, ?deep,
    ?slot, ?back, ?capture, ha.sound.opened, ?below, ha.sound.alone, ?height⟩
  case frame =>
    refine ⟨by rw [ha.frames]; rfl, ?_, ha.chunk⟩
    rw [ha.closure]
    exact ha.function
  case constant =>
    rintro index rfl
    obtain ⟨v, hv, -⟩ := hoperand
    rw [ha.chunk] at hv
    exact (Array.getElem?_eq_some_iff.1 hv).1
  case closure =>
    rintro index sources rfl
    obtain ⟨⟨function, q, hconstant, hq, hcaptures⟩, -⟩ := hoperand
    exact ⟨function, q, ha.chunk ▸ hconstant, hq, hcaptures⟩
  case name =>
    intro index hindex
    rw [← ha.chunk]
    obtain ⟨op, operand⟩ := i
    cases op <;> cases hindex <;> exact hoperand
  case deep =>
    have hdeep := ha.fits.deep
    omega
  case slot =>
    rintro slot (rfl | rfl)
    · exact hslot hoperand
    · exact hslot hoperand
  case back =>
    rintro distance rfl
    exact hoperand
  case capture =>
    rintro index (rfl | rfl)
    · exact hcell hoperand
    · exact hcell hoperand
  case below => exact fun h slot hc => ha.below slot ⟨h, hc⟩
  case height =>
    intro n
    rw [← ha.chunk, ha.path]
    omega

/-- **How a run or a call ends** on a reached machine: with a value on a machine that is reached
again, with an error of the script or of the host, or not yet. -/
inductive Ended (l : Library ω) : Finish × Machine ω → Prop
  | value {v : Value} {m : Machine ω} (h : Reached l .between m) : Ended l (.value v, m)
  | error {e : ScriptError} {m : Machine ω} (h : l.MayRaise e.cause) : Ended l (.error e, m)
  | unfinished {m : Machine ω} : Ended l (.unfinished, m)

namespace Reached

variable {l : Library ω} {m : Machine ω}

theorem resume (h : Reached l .inside m) (fuel : Nat) : Ended l (m.resume fuel) := by
  induction fuel generalizing m with
  | zero => exact .unfinished
  | succ fuel ih =>
    have hsafe := Machine.Running.step h.fine.2
    rw [h.fine.1] at hsafe
    unfold Machine.resume
    cases hs : m.step with
    | next m' => exact ih (h.step hs)
    | done v m' => exact .value (h.finish hs)
    | raise cause m' =>
      rw [hs] at hsafe
      cases hsafe with
      | raise hmay _ => exact .error hmay
    | stuck m' =>
      rw [hs] at hsafe
      cases hsafe

theorem runCompiled (h : Reached l .between m) {source : String} {c : Compiled}
    (hc : Compiled.ofSource source = .ok c) (fuel : Nat) : Ended l (m.runCompiled c fuel) :=
  (h.start hc).resume fuel

theorem callGlobal (h : Reached l .between m) (name : String) (args : List HostValue)
    (fuel : Nat) :
    Ended l (({ m with heap := (Session.storeArgs args m.heap).2 } : Machine ω).callGlobal name
      (Session.storeArgs args m.heap).1.toList fuel) := by
  have hidle : m.Idle := h.fine.2
  unfold Machine.callGlobal
  cases hg : m.global? name with
  | none =>
    have hg' : Machine.global? { m with heap := (Session.storeArgs args m.heap).2 } name = none := hg
    rw [hg']
    exact .error fun hi => hi.elim
  | some callee =>
    have hg' : Machine.global? { m with heap := (Session.storeArgs args m.heap).2 } name
        = some callee := hg
    have hcalled := hidle.calling hg args
    have hdepth : ({ m with heap := (Session.storeArgs args m.heap).2 } : Machine ω).frames.length
        = 0 := by
      rw [show _ = m.frames from rfl, hidle.frames]
      rfl
    have hcall : Machine.call ((Session.storeArgs args m.heap).1.toList.foldl Machine.push
        (Machine.push { m with heap := (Session.storeArgs args m.heap).2 } callee)) callee
        (Session.storeArgs args m.heap).1.toList.length = m.calling callee args := rfl
    rw [hg', hdepth]
    dsimp only
    rw [hcall]
    cases hc : m.calling callee args with
    | next m' =>
      dsimp only
      split
      case isTrue hbusy => exact (h.call hg hc (List.length_pos_iff.1 hbusy)).resume fuel
      case isFalse hnone =>
        exact .value (h.called hg hc (List.length_eq_zero_iff.1 (Nat.eq_zero_of_not_pos hnone)))
    | done v m' =>
      rw [hc] at hcalled
      cases hcalled
    | raise cause m' =>
      rw [hc] at hcalled
      cases hcalled with
      | raise hmay _ => exact .error (h.fine.1 ▸ hmay)
    | stuck m' =>
      rw [hc] at hcalled
      cases hcalled

end Reached

/-- **Compiled code goes right.** As long as nothing has failed on a machine, every instruction that
it comes to finds all that it relies on, and nothing but a builtin of the host can fail with an error
that says that the machine is broken. Between two operations nothing is left behind, and every
script or call that ends with a value leaves a machine of which all this holds again. -/
theorem Reached.compiled_code_goes_right {l : Library ω} {moment : Moment} {m : Machine ω}
    (h : Reached l moment m) :
    (moment = .inside → (∃ f p i, m.AtEase f p i) ∧ ∀ fuel, Ended l (m.resume fuel)) ∧
      (moment = .between → (m.stack = #[] ∧ m.frames = [] ∧ m.opened = []) ∧
        (∀ source c, Compiled.ofSource source = .ok c → ∀ fuel, Ended l (m.runCompiled c fuel)) ∧
        ∀ name args fuel, Ended l
          (({ m with heap := (Session.storeArgs args m.heap).2 } : Machine ω).callGlobal name
            (Session.storeArgs args m.heap).1.toList fuel)) := by
  refine ⟨?inside, ?between⟩
  case inside =>
    rintro rfl
    have hr : m.Running := h.fine.2
    exact ⟨hr.atEase, h.resume⟩
  case between =>
    rintro rfl
    have hi : m.Idle := h.fine.2
    exact ⟨⟨hi.stack, hi.frames, hi.opened⟩, fun source c hc fuel => h.runCompiled hc fuel,
      h.callGlobal⟩

/-- A script with a loop, whose variable a function has captured, a call and a break starts at ease. -/
theorem loop_goes_right :
    let source := "var last\nfn same(a) \x7b return a \x7d\nfor x in [\"a\", \"b\"] \x7b\n fn show() \x7b return x \x7d\n " ++
    "last = show\n if same(x) == \"b\" \x7b break \x7d\n\x7d\nlast()"
    ∃ c, Compiled.ofSource source = .ok c ∧
    let m : Machine Unit := Machine.offering {} Library.empty ()
    let started := Machine.start { m with heap := (m.heap.install c).2 } (m.heap.install c).1
    (∃ f p i, started.AtEase f p i) ∧ ∀ fuel, Ended Library.empty (started.resume fuel) := by
  intro source
  obtain ⟨c, hc, -⟩ := Compiled.exists_of_any source (fun _ => true) (by decide +kernel)
  exact ⟨c, hc, (Reached.compiled_code_goes_right (.start (.new {} ()) hc)).1 rfl⟩

end DeployScript
