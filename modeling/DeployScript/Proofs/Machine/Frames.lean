import DeployScript.Proofs.Heap.Functions
import DeployScript.Proofs.Machine.Safety

/-!
# Where the calls are

An instruction moves the innermost call on, or begins another one at the start of a function of the heap,
or ends it. The calls around it stay where they are, and no instruction makes a function. Nothing is
assumed of the machine for that: it holds of any code on any heap, whatever has failed before.

* `Machine.Stays` — the calls and the functions are as they were; `Outcome.Stays` — behind an operation.
* `Outcome.Calls` — what a call comes to; `Machine.calls_call`.
* `Outcome.Leads` — what an instruction comes to; `Machine.leads_step`.
-/

namespace DeployScript

variable {ω : Type}

/-- **The same calls are under way,** each where it was, and no function is new. -/
structure Machine.Stays (m m' : Machine ω) : Prop where
  frames : m'.frames = m.frames
  code : m'.heap.code ⊆ m.heap.code

/-- The calls and the functions are as they were, and the outermost call has not ended. -/
inductive Outcome.Stays (m : Machine ω) : Outcome ω → Prop
  | next {m' : Machine ω} (h : m.Stays m') : Stays m (.next m')
  | raise {cause : Cause} {m' : Machine ω} (h : m.Stays m') : Stays m (.raise cause m')
  | stuck {m' : Machine ω} (h : m.Stays m') : Stays m (.stuck m')

/-- **What a call with `count` arguments comes to:** a result in the place of the callee and the arguments,
one more call at the start of a function, or a failure before that. -/
inductive Outcome.Calls (m : Machine ω) (count : Nat) : Outcome ω → Prop
  | complete {m' : Machine ω} {v : Value} (h : m.Stays m') (hstack : m'.stack = m.stack)
    (hopened : m'.opened = m.opened) : Calls m count (.next (m'.leave count v))
  | entered {m' : Machine ω} {g : Frame} {p : Prototype Value} (hframes : m'.frames = g :: m.frames)
    (hcode : m'.heap.code ⊆ m.heap.code) (hp : p ∈ m.heap.code) (hchunk : g.chunk = p.chunk)
    (hip : g.ip = 0) (hbase : g.base = m.stack.size - count - 1) (hfew : m.frames.length < maxFrames) :
    Calls m count (.next m')
  | raise {cause : Cause} {m' : Machine ω} (h : m.Stays m') : Calls m count (.raise cause m')
  | stuck {m' : Machine ω} (h : m.Stays m') : Calls m count (.stuck m')

/-- **What an instruction comes to** that is the next one of a call: the call goes on where the
instruction leads to; another one begins, if there may be more; the call ends; or the instruction fails,
and the call stands somewhere behind its first byte. -/
inductive Outcome.Leads (code : Set (Prototype Value)) (f : Frame) (callers : List Frame) (i : Instr) :
    Outcome ω → Prop
  | on {m : Machine ω} {place : Nat} (hplace : place ∈ i.targets (f.ip + i.size))
    (hframes : m.frames = { f with ip := place } :: callers) (hcode : m.heap.code ⊆ code) :
    Leads code f callers i (.next m)
  | into {m : Machine ω} {g : Frame} {p : Prototype Value} (hop : i.op = .call)
    (hplace : f.ip + i.size ∈ i.targets (f.ip + i.size))
    (hframes : m.frames = g :: { f with ip := f.ip + i.size } :: callers) (hcode : m.heap.code ⊆ code)
    (hp : p ∈ code) (hchunk : g.chunk = p.chunk) (hip : g.ip = 0)
    (hfew : callers.length + 1 < maxFrames) : Leads code f callers i (.next m)
  | out {m : Machine ω} (hop : i.op = .return_) (hframes : m.frames = callers) (hbusy : callers ≠ [])
    (hcode : m.heap.code ⊆ code) : Leads code f callers i (.next m)
  | done {v : Value} {m : Machine ω} (hop : i.op = .return_) (hcallers : callers = [])
    (hframes : m.frames = []) (hstack : m.stack.size ≤ f.base) (hopened : f.base = 0 → m.opened = [])
    (hcode : m.heap.code ⊆ code) : Leads code f callers i (.done v m)
  | raise {cause : Cause} {m : Machine ω} {ip : Nat} (hlt : f.ip < ip) (hle : ip ≤ f.ip + i.size)
    (hframes : m.frames = { f with ip } :: callers) (hcode : m.heap.code ⊆ code) :
    Leads code f callers i (.raise cause m)
  | stuck {m : Machine ω} (hframes : m.frames = { f with ip := f.ip + i.size } :: callers)
    (hcode : m.heap.code ⊆ code) : Leads code f callers i (.stuck m)

namespace Machine

variable {m m' : Machine ω} {f : Frame} {callers : List Frame} {i : Instr} {count : Nat}

theorem Stays.refl (m : Machine ω) : m.Stays m := ⟨rfl, subset_rfl⟩

theorem Stays.trans {m'' : Machine ω} (h : m.Stays m') (h' : m'.Stays m'') : m.Stays m'' :=
  ⟨h'.frames.trans h.frames, h'.code.trans h.code⟩

/-- What stays behind an operation on a machine stayed as it was before. -/
theorem Stays.of_outcome {o : Outcome ω} (h : m.Stays m') (ho : o.Stays m') : o.Stays m := by
  cases ho with
  | next h' => exact .next (h.trans h')
  | raise h' => exact .raise (h.trans h')
  | stuck h' => exact .stuck (h.trans h')

theorem stays_pop (m : Machine ω) : m.Stays m.pop.2 := ⟨rfl, subset_rfl⟩

/-! ### Operations that leave the calls alone -/

theorem stays_give (m : Machine ω) (result : Except Cause Value) : (m.give result).Stays m := by
  cases result with
  | ok v => exact .next ⟨rfl, subset_rfl⟩
  | error cause => exact .raise (.refl m)

theorem stays_binary (m : Machine ω) (op : BinaryOp) : (m.binary op).Stays m :=
  ((stays_pop m).trans (stays_pop m.pop.2)).of_outcome (stays_give _ _)

theorem stays_unary (m : Machine ω) (op : UnaryOp) : (m.unary op).Stays m :=
  (stays_pop m).of_outcome (stays_give _ _)

theorem stays_pushSome (m : Machine ω) (v? : Option Value) {o : Outcome ω} (ho : o.Stays m) :
    Outcome.Stays m (match v? with
      | some v => .next (m.push v)
      | none => o) := by
  cases v? with
  | some v => exact .next ⟨rfl, subset_rfl⟩
  | none => exact ho

theorem stays_write (m : Machine ω) (target : Except Cause Heap.Target) (v : Value) :
    (m.write target v).Stays m := by
  cases target with
  | ok t => exact .next ⟨rfl, Heap.code_store t v⟩
  | error cause => exact .raise (.refl m)

theorem stays_pushNew (m : Machine ω) {new : Heap → Value × Heap}
    (hnew : (new m.heap).2.code ⊆ m.heap.code) : (m.pushNew new).Stays m :=
  .next ⟨rfl, hnew⟩

theorem stays_defineGlobal (m : Machine ω) (name : String) (isMutable : Bool) :
    (m.defineGlobal name isMutable).Stays m := by
  unfold defineGlobal
  dsimp only
  split
  · split
    · exact .raise ⟨rfl, subset_rfl⟩
    · exact .next ⟨rfl, subset_rfl⟩
  · exact .next ⟨rfl, subset_rfl⟩

theorem stays_assignGlobal (m : Machine ω) (name : String) : (m.assignGlobal name).Stays m := by
  unfold assignGlobal
  split
  · split
    · exact .next ⟨rfl, subset_rfl⟩
    · exact .raise (.refl m)
  · exact .raise (.refl m)

theorem stays_setSlot (m : Machine ω) (slot : Nat) (v : Value) : (m.setSlot slot v).Stays m := by
  unfold setSlot
  split
  · exact .next ⟨rfl, subset_rfl⟩
  · exact .stuck (.refl m)

theorem stays_readCapture (m : Machine ω) (index : Nat) : (m.readCapture index).Stays m := by
  unfold readCapture
  split
  · exact .raise (.refl m)
  · split
    · split
      · exact .next ⟨rfl, subset_rfl⟩
      · exact .stuck (.refl m)
    · exact .next ⟨rfl, subset_rfl⟩
    · exact .next ⟨rfl, subset_rfl⟩

theorem stays_writeCapture (m : Machine ω) (index : Nat) : (m.writeCapture index).Stays m := by
  unfold writeCapture
  split
  · exact .raise (.refl m)
  · dsimp only
    split
    · exact stays_setSlot m _ _
    · exact .next ⟨rfl, Heap.code_setCell _ _⟩
    · exact .next (.refl m)

theorem stays_withName (m : Machine ω) (index : UInt16) {next : String → Outcome ω}
    (hnext : ∀ name, (next name).Stays m) : (m.withName index next).Stays m := by
  unfold withName
  split
  · exact hnext _
  · exact .stuck (.refl m)

/-- Values are taken off the stack without a call. -/
theorem stays_of_take? {values : Array Value} (h : m.take? count = some (values, m')) : m.Stays m' := by
  unfold take? at h
  split at h
  · cases h
    exact ⟨rfl, subset_rfl⟩
  · cases h

theorem stays_take? (m : Machine ω) (count : Nat) {next : Array Value → Machine ω → Outcome ω}
    (hnext : ∀ values m', m.Stays m' → (next values m').Stays m) :
    Outcome.Stays m (match m.take? count with
      | none => .stuck m
      | some (values, m) => next values m) := by
  cases h : m.take? count with
  | none => exact .stuck (.refl m)
  | some taken => exact hnext _ _ (stays_of_take? h)

theorem stays_closeFrom (m : Machine ω) (first : Nat) : m.Stays (m.closeFrom first) :=
  ⟨rfl, Heap.code_setCells _ _⟩

theorem stays_collect (m : Machine ω) : m.Stays m.collect := ⟨rfl, Heap.code_collect _⟩

/-! ### Closures -/

theorem stays_capture (m : Machine ω) (slot : Nat) : m.Stays (m.capture slot).2 := by
  unfold capture
  split
  · exact .refl m
  · exact ⟨rfl, Heap.code_insert_subset nofun⟩

/-- **Captured variables are gathered** up to the first that is missing, if one is. -/
theorem stays_gather (sources : List CaptureSource) (cells : Array Handle) (m : Machine ω) :
    m.Stays (gather sources cells m).2.2 ∧ ((gather sources cells m).2.1.isSome →
      (gather sources cells m).1.size < cells.size + sources.length) := by
  induction sources generalizing cells m with
  | nil => exact ⟨.refl m, nofun⟩
  | cons source sources ih =>
    have hmore : ∀ (h : Handle) {n : Nat}, n < (cells.push h).size + sources.length →
        n < cells.size + (source :: sources).length := by
      intro h n hn
      rw [Array.size_push] at hn
      rw [List.length_cons]
      omega
    unfold gather
    split
    · obtain ⟨hstays, hfew⟩ := ih (cells.push (m.capture (m.base + source.index.toNat)).1)
        (m.capture (m.base + source.index.toNat)).2
      exact ⟨(stays_capture m _).trans hstays, fun hmissing => hmore _ (hfew hmissing)⟩
    · split
      · obtain ⟨hstays, hfew⟩ := ih (cells.push _) m
        exact ⟨hstays, fun hmissing => hmore _ (hfew hmissing)⟩
      · exact ⟨.refl m, fun _ => Nat.lt_add_of_pos_right (Nat.succ_pos _)⟩

theorem code_moveTo (m : Machine ω) (ip : Nat) : (m.moveTo ip).heap = m.heap := by
  unfold moveTo
  split <;> rfl

/-- **A closure is made,** or the call stands somewhere in the operand. -/
theorem leads_makeClosure {start : Nat} {index : UInt16} {sources : List CaptureSource}
    (hf : m.frames = { f with ip := start + (4 + 2 * sources.length) } :: callers) :
    (m.makeClosure start index sources).Stays m ∨
      ∃ cause m' ip, m.makeClosure start index sources = .raise cause m' ∧ start < ip ∧
        ip ≤ start + (4 + 2 * sources.length) ∧ m'.frames = { f with ip } :: callers ∧
        m'.heap.code ⊆ m.heap.code := by
  unfold makeClosure
  split
  · exact .inl (.stuck (.refl m))
  · obtain ⟨hstays, hfew⟩ := stays_gather sources #[] m
    generalize gather sources #[] m = gathered at hstays hfew
    obtain ⟨cells, missing, m'⟩ := gathered
    dsimp only at hstays hfew ⊢
    cases missing with
    | none => exact .inl (hstays.of_outcome (stays_pushNew m' (Heap.code_insert_subset fun _ he => by cases he)))
    | some index =>
      have hlt : cells.size < 0 + sources.length := hfew rfl
      refine .inr ⟨_, _, start + 4 + 2 * (cells.size + 1), rfl, by omega, by omega, ?_, ?_⟩
      · rw [moveTo_eq (hstays.frames.trans hf)]
      · rw [code_moveTo]
        exact hstays.code
  · refine .inr ⟨_, _, start + 4, rfl, by omega, by omega, ?_, ?_⟩
    · rw [moveTo_eq hf]
    · rw [code_moveTo]

/-! ### Calls -/

theorem calls_enter (m : Machine ω) (closure : Handle) (count : Nat) :
    (m.enter closure count).Calls m count := by
  unfold enter
  split
  · exact .raise (.refl m)
  case h_2 p hp =>
    split
    · exact .raise (.refl m)
    · split
      · exact .raise (.refl m)
      case isFalse hfew =>
        obtain ⟨c, -, hp⟩ := Option.bind_eq_some_iff.1 hp
        exact .entered rfl subset_rfl ⟨_, hp⟩ rfl rfl rfl (Nat.lt_of_not_le hfew)

theorem calls_intrinsic (m : Machine ω) (f : Intrinsic) (count : Nat) :
    (m.callIntrinsic f count).Calls m count := by
  unfold callIntrinsic
  dsimp only
  split
  · exact .raise (.refl m)
  · split
    · exact .raise (.refl m)
    case h_2 effect _ =>
      have hstays : m.Stays { m with heap := (m.heap.perform effect).2 } :=
        ⟨rfl, Heap.code_perform effect⟩
      exact .complete hstays rfl rfl

theorem calls_builtin (m : Machine ω) (name : String) (count : Nat) :
    (m.callBuiltin name count).Calls m count := by
  unfold callBuiltin
  split
  · exact .stuck (.refl m)
  · split
    · exact .raise (.refl m)
    · dsimp only
      split
      · exact .raise ⟨rfl, subset_rfl⟩
      case h_2 result world _ =>
        have hstays : m.Stays { m with world, heap := (Heap.ofHost result m.heap).2 } :=
          ⟨rfl, Heap.code_ofHost result m.heap⟩
        exact .complete hstays rfl rfl

/-- **A call** completes, or begins at the start of a function, or fails before that. -/
theorem calls_call (m : Machine ω) (callee : Value) (count : Nat) :
    (m.call callee count).Calls m count := by
  cases callee with
  | closure h => exact calls_enter m h count
  | function g =>
    -- A function becomes a closure first.
    let inserted := m.heap.insert (.closure { function := g, cells := #[] })
    have hstays : m.Stays { m with heap := inserted.2 } := ⟨rfl, Heap.code_insert_subset nofun⟩
    have hcall := calls_enter { m with heap := inserted.2 } inserted.1 count
    change (({ m with heap := inserted.2 } : Machine ω).enter inserted.1 count).Calls m count
    generalize ({ m with heap := inserted.2 } : Machine ω).enter inserted.1 count = o at hcall ⊢
    cases hcall with
    | complete h hstack hopened => exact .complete (hstays.trans h) hstack hopened
    | entered hframes hcode hp hchunk hip hbase hfew =>
      exact .entered hframes (hcode.trans hstays.code) (hstays.code hp) hchunk hip hbase hfew
    | raise h => exact .raise (hstays.trans h)
    | stuck h => exact .stuck (hstays.trans h)
  | intrinsic f => exact calls_intrinsic m f count
  | builtin name => exact calls_builtin m name count
  | _ => exact .raise (.refl m)

/-! ### Instructions -/

theorem lt_behind (f : Frame) (i : Instr) : f.ip < f.ip + i.size := by
  rw [Instr.size]
  omega

/-- An operation that leaves the calls alone leads on behind the instruction. -/
theorem leads_of_stays {o : Outcome ω} (ho : o.Stays m)
    (hf : m.frames = { f with ip := f.ip + i.size } :: callers)
    (hplace : f.ip + i.size ∈ i.targets (f.ip + i.size)) : o.Leads m.heap.code f callers i := by
  cases ho with
  | next h => exact .on hplace (h.frames.trans hf) h.code
  | raise h => exact .raise (lt_behind f i) (Nat.le_refl _) (h.frames.trans hf) h.code
  | stuck h => exact .stuck (h.frames.trans hf) h.code

theorem leads_moveTo (hf : m.frames = { f with ip := f.ip + i.size } :: callers) {place : Nat}
    (hplace : place ∈ i.targets (f.ip + i.size)) :
    Outcome.Leads m.heap.code f callers i (.next (m.moveTo place)) := by
  rw [moveTo_eq hf]
  exact .on hplace rfl subset_rfl

theorem leads_jumpIf (hf : m.frames = { f with ip := f.ip + i.size } :: callers)
    (condition : Value → Bool) {distance : UInt16}
    (htargets : i.targets (f.ip + i.size) = [f.ip + i.size, f.ip + i.size + distance.toNat]) :
    (m.jumpIf condition distance).Leads m.heap.code f callers i := by
  have hip : m.ip = f.ip + i.size := by rw [ip, hf]; rfl
  unfold jumpIf
  split
  · exact leads_moveTo hf (by rw [htargets, hip]; simp)
  · exact .on (htargets ▸ List.mem_cons_self) hf subset_rfl

theorem leads_call (hf : m.frames = { f with ip := f.ip + i.size } :: callers) (hop : i.op = .call)
    (hplace : f.ip + i.size ∈ i.targets (f.ip + i.size)) (callee : Value) (count : Nat) :
    (m.call callee count).Leads m.heap.code f callers i := by
  have hcall := calls_call m callee count
  generalize m.call callee count = o at hcall ⊢
  cases hcall with
  | complete h _ _ => exact .on hplace (h.frames.trans hf) h.code
  | entered hframes hcode hp hchunk hip _ hfew =>
    rw [hf] at hframes hfew
    exact .into hop hplace hframes hcode hp hchunk hip hfew
  | raise h => exact leads_of_stays (.raise h) hf hplace
  | stuck h => exact leads_of_stays (.stuck h) hf hplace

/-- **A return** ends the innermost call. -/
theorem leads_return (hf : m.frames = { f with ip := f.ip + i.size } :: callers) (hop : i.op = .return_) :
    m.return_.Leads m.heap.code f callers i := by
  have hpop : m.pop.2.frames = { f with ip := f.ip + i.size } :: callers := hf
  have hcode : (({ m.pop.2 with frames := callers } : Machine ω).closeFrom f.base).heap.code ⊆ m.heap.code :=
    (stays_closeFrom _ _).code
  unfold return_
  dsimp only
  rw [hpop]
  cases callers with
  | nil =>
    refine .done hop rfl rfl ?_ (fun hzero => ?_) hcode
    · dsimp only
      rw [Array.size_shrink]
      exact Nat.min_le_left _ _
    · simp [closeFrom, hzero]
  | cons g callers => exact .out hop rfl (List.cons_ne_nil _ _) hcode

/-- **What an instruction comes to,** behind which the call already stands. -/
theorem leads_exec (hf : m.frames = { f with ip := f.ip + i.size } :: callers) :
    (m.exec f.ip i).Leads m.heap.code f callers i := by
  have hip : m.ip = f.ip + i.size := by rw [ip, hf]; rfl
  obtain ⟨op, operand⟩ := i
  have hon : ∀ {o : Outcome ω}, o.Stays m →
      f.ip + Instr.size ⟨op, operand⟩ ∈ Instr.targets ⟨op, operand⟩ (f.ip + Instr.size ⟨op, operand⟩) →
      o.Leads m.heap.code f callers ⟨op, operand⟩ := fun ho hplace => leads_of_stays ho hf hplace
  cases op with
  | call => exact leads_call hf rfl List.mem_cons_self _ _
  | return_ => exact leads_return hf rfl
  | jump => exact leads_moveTo hf (hip ▸ List.mem_cons_self)
  | jumpIfFalse => exact leads_jumpIf hf (fun v => !v.isTruthy) rfl
  | jumpIfTrue => exact leads_jumpIf hf Value.isTruthy rfl
  | loop =>
    change Outcome.Leads _ _ _ _ (if operand.toNat ≤ m.ip then _ else _)
    split
    · exact leads_moveTo hf (hip ▸ List.mem_cons_self)
    · exact .stuck hf subset_rfl
  | closure =>
    obtain ⟨index, sources⟩ := operand
    have hsize : f.ip + Instr.size ⟨.closure, (index, sources)⟩ = f.ip + (4 + 2 * sources.length) := by
      simp only [Instr.size, Layout.size]
      omega
    rw [hsize] at hf
    rcases leads_makeClosure hf with hstays | ⟨cause, m', ip, hraise, hlt, hle, hframes, hcode⟩
    · exact hon hstays List.mem_cons_self
    · change Outcome.Leads _ _ _ _ (m.makeClosure f.ip index sources)
      rw [hraise]
      exact .raise hlt (hsize ▸ hle) hframes hcode
  | constant => exact hon (stays_pushSome m _ (.stuck (.refl m))) List.mem_cons_self
  | defineLet => exact hon (stays_withName m _ fun name => stays_defineGlobal m name _) List.mem_cons_self
  | defineVar => exact hon (stays_withName m _ fun name => stays_defineGlobal m name _) List.mem_cons_self
  | getGlobal =>
    exact hon (stays_withName m _ fun name => stays_pushSome m (m.global? name) (.raise (.refl m)))
      List.mem_cons_self
  | setGlobal => exact hon (stays_withName m _ fun name => stays_assignGlobal m name) List.mem_cons_self
  | getLocal => exact hon (stays_pushSome m _ (.stuck (.refl m))) List.mem_cons_self
  | setLocal => exact hon (stays_setSlot m _ _) List.mem_cons_self
  | add | sub | mul | div | mod | lt | le | gt | ge => exact hon (stays_binary m _) List.mem_cons_self
  | eq => exact hon (stays_binary m .eq) List.mem_cons_self
  | ne => exact hon (stays_binary m .ne) List.mem_cons_self
  | neg => exact hon (stays_unary m .neg) List.mem_cons_self
  | not => exact hon (stays_unary m .not) List.mem_cons_self
  | getCapture => exact hon (stays_readCapture m _) List.mem_cons_self
  | setCapture => exact hon (stays_writeCapture m _) List.mem_cons_self
  | closeCapture => exact hon (.next ((stays_closeFrom m _).trans (stays_pop _))) List.mem_cons_self
  | print =>
    exact hon (stays_take? m _ fun _ _ h => .next ⟨h.frames, h.code⟩) List.mem_cons_self
  | array =>
    exact hon (stays_take? m _ fun values m' h => h.of_outcome (stays_pushNew m' (Heap.code_newArray values)))
      List.mem_cons_self
  | record =>
    exact hon (stays_take? m _ fun values m' h => h.of_outcome (stays_pushNew m' (Heap.code_newRecord _)))
      List.mem_cons_self
  | len =>
    refine hon ?_ List.mem_cons_self
    rw [exec.eq_def]
    dsimp only
    split
    · exact .next ⟨rfl, subset_rfl⟩
    · exact .raise (stays_pop m)
  | index => exact hon (((stays_pop m).trans (stays_pop _)).of_outcome (stays_give _ _)) List.mem_cons_self
  | setIndex =>
    exact hon ((((stays_pop m).trans (stays_pop _)).trans (stays_pop _)).of_outcome (stays_write _ _ _))
      List.mem_cons_self
  | getProperty =>
    exact hon (stays_withName m _ fun name => (stays_pop m).of_outcome (stays_give _ _)) List.mem_cons_self
  | setProperty =>
    exact hon (stays_withName m _ fun name =>
      ((stays_pop m).trans (stays_pop _)).of_outcome (stays_write _ _ _)) List.mem_cons_self
  | nil | true_ | false_ | pop => exact hon (.next ⟨rfl, subset_rfl⟩) List.mem_cons_self

/-- **What the next instruction comes to.** -/
theorem leads_step (hf : m.frames = f :: callers) (hi : Instr.decode f.chunk.code f.ip = .instr i) :
    m.step.Leads m.heap.code f callers i := by
  have hexec := leads_exec (m := { m with frames := { f with ip := f.ip + i.size } :: callers })
    (f := f) (i := i) rfl
  unfold step
  rw [hf]
  dsimp only
  rw [hi]
  dsimp only
  rwa [moveTo_eq hf]

end Machine

end DeployScript
