import DeployScript.Proofs.Heap.Spared
import DeployScript.Proofs.Machine.Effects
import DeployScript.Proofs.Machine.Guarded

/-!
# What an instruction does to closures and their variables

Whatever the code, the stack and the heap are: an instruction changes no closure, and no cell that is closed but
by an assignment to a captured variable; and a closure that it makes has no closed cell but those that the
function which is running has itself. Most instructions do not change the heap at all.

* `Machine.own` — the cells of the function that is running.
* `heap_*` — instructions that leave the heap alone; `spares_*` — those that do not.
* `spares_gather`, `spares_makeClosure` — the cells of a new closure.
* `Machine.assignment?` — what the next instruction assigns to a captured variable.
* `spares_exec`, `spares_step` — one instruction.
-/

namespace DeployScript.Machine

variable {ω : Type}

/-- **The cells of the function that is running.** -/
def own (m : Machine ω) : Set Handle := {h | ∃ index, m.captured? index = some h}

variable {own : Set Handle} {m m' : Machine ω} {h : Handle}

/-! ### Instructions that leave the heap alone -/

/-- An outcome on the same heap. -/
theorem spares_same (hw : m.heap.Wf) {o : Outcome ω} (h : o.machine.heap = m.heap) :
    m.heap.Spares own [] o.machine.heap := by
  rw [h]
  exact .refl hw

theorem heap_moveTo (m : Machine ω) (ip : Nat) : (m.moveTo ip).heap = m.heap := by
  unfold moveTo
  split <;> rfl

theorem heap_give (m : Machine ω) (result : Except Cause Value) : (m.give result).machine.heap = m.heap := by
  cases result <;> rfl

theorem heap_binary (m : Machine ω) (op : BinaryOp) : (m.binary op).machine.heap = m.heap :=
  heap_give m.pop.2.pop.2 _

theorem heap_unary (m : Machine ω) (op : UnaryOp) : (m.unary op).machine.heap = m.heap :=
  heap_give m.pop.2 _

theorem heap_setSlot (m : Machine ω) (slot : Nat) (v : Value) : (m.setSlot slot v).machine.heap = m.heap := by
  unfold setSlot
  split <;> rfl

theorem heap_readCapture (m : Machine ω) (index : Nat) : (m.readCapture index).machine.heap = m.heap := by
  unfold readCapture
  split
  · rfl
  · split
    · split <;> rfl
    · rfl
    · rfl

theorem heap_jumpIf (m : Machine ω) (condition : Value → Bool) (distance : UInt16) :
    (m.jumpIf condition distance).machine.heap = m.heap := by
  unfold jumpIf
  split
  · exact heap_moveTo m _
  · rfl

theorem heap_defineGlobal (m : Machine ω) (name : String) (isMutable : Bool) :
    (m.defineGlobal name isMutable).machine.heap = m.heap := by
  unfold defineGlobal
  dsimp only
  split
  · split <;> rfl
  · rfl

theorem heap_assignGlobal (m : Machine ω) (name : String) : (m.assignGlobal name).machine.heap = m.heap := by
  unfold assignGlobal
  split
  · split <;> rfl
  · rfl

theorem heap_enter (m : Machine ω) (closure : Handle) (count : Nat) :
    (m.enter closure count).machine.heap = m.heap := by
  unfold enter
  split
  · rfl
  · split
    · rfl
    · split <;> rfl

theorem heap_take? {count : Nat} {values : Array Value} (h : m.take? count = some (values, m')) :
    m'.heap = m.heap := by
  unfold take? at h
  split at h
  · cases h
    rfl
  · cases h

/-! ### Instructions that change data -/

theorem spares_withName (hw : m.heap.Wf) (index : UInt16) {f : String → Outcome ω}
    (hf : ∀ name, m.heap.Spares own [] (f name).machine.heap) :
    m.heap.Spares own [] (m.withName index f).machine.heap := by
  unfold withName
  split
  · exact hf _
  · exact .refl hw

theorem spares_write (hw : m.heap.Wf) (target : Except Cause Heap.Target) (v : Value) :
    m.heap.Spares own [] (m.write target v).machine.heap := by
  cases target with
  | error cause => exact .refl hw
  | ok target => exact Heap.spares_store hw target v

/-- **Slots that become cells of their own** were none before. -/
theorem spares_closeFrom (hw : m.heap.Wf) (first : Nat) : m.heap.Spares own [] (m.closeFrom first).heap := by
  refine Heap.Spares.setCells (.refl hw) fun c hc v hv => ?_
  obtain ⟨s, hs, rfl⟩ := List.mem_map.1 hc
  obtain ⟨g, -, hg⟩ := List.mem_filterMap.1 (List.mem_filter.1 hs).1
  obtain ⟨slot, hslot, rfl⟩ := Option.map_eq_some_iff.1 hg
  rw [openSlot?_eq.1 hslot] at hv
  cases hv

theorem spares_return (hw : m.heap.Wf) : m.heap.Spares own [] m.return_.machine.heap := by
  unfold return_
  dsimp only
  split
  · exact .refl hw
  case h_2 f callers hf =>
    have hclosed : m.heap.Spares own [] (({ m.pop.2 with frames := callers } : Machine ω).closeFrom f.base).heap :=
      spares_closeFrom (m := { m.pop.2 with frames := callers }) hw f.base
    split <;> exact hclosed

theorem spares_callIntrinsic (hw : m.heap.Wf) (f : Intrinsic) (count : Nat) :
    m.heap.Spares own [] (m.callIntrinsic f count).machine.heap := by
  unfold callIntrinsic
  dsimp only
  split
  · exact .refl hw
  · split
    · exact .refl hw
    · exact Heap.spares_perform hw _

theorem spares_callBuiltin (hw : m.heap.Wf) (name : String) (count : Nat) :
    m.heap.Spares own [] (m.callBuiltin name count).machine.heap := by
  unfold callBuiltin
  split
  · exact .refl hw
  · split
    · exact .refl hw
    · dsimp only
      split
      · exact .refl hw
      · exact Heap.spares_ofHost hw _

/-- **A call** brings a closure without cells at most, before an instruction of it is carried out. -/
theorem spares_call (hw : m.heap.Wf) (callee : Value) (count : Nat) :
    m.heap.Spares own [] (m.call callee count).machine.heap := by
  cases callee with
  | closure h => exact spares_same hw (heap_enter m h count)
  | function function =>
    have hheap : (m.call (.function function) count).machine.heap
        = (m.heap.insert (.closure { function, cells := #[] })).2 := heap_enter _ _ count
    rw [hheap]
    exact .insert_plain hw _ fun d hd => by cases hd; rfl
  | intrinsic f => exact spares_callIntrinsic hw f count
  | builtin name => exact spares_callBuiltin hw name count
  | _ => exact .refl hw

/-! ### New closures -/

/-- New cells that are slots. -/
theorem Captures.spares (hm : m.Captures m') : m.heap.Spares own [] m'.heap :=
  ⟨hm.wf, fun g _ hd => (hm.closure? g).trans hd, fun _ _ hv => hm.cell? hv,
    fun g _ hd => .inl ((hm.closure? g).symm.trans hd), fun _ hi => Heap.Kept.array hm.keep hi⟩

theorem Captures.own_eq (hm : m.Captures m') : m'.own = m.own := by
  have hframes : m'.frames = m.frames := by
    obtain ⟨heap, opened, rfl⟩ := hm.rest
    rfl
  unfold Machine.own captured?
  rw [hframes]
  simp only [hm.closure?]

/-- **The cells of a new closure** are slots, or cells that the function which makes it has itself. -/
theorem spares_gather (hw : m.heap.Wf) (sources : List CaptureSource) (cells : Array Handle)
    (hcells : ∀ h ∈ cells, ∀ v, m.heap.cell? h = some (.closed v) → h ∈ m.own) :
    m.heap.Spares m.own [] (gather sources cells m).2.2.heap ∧
      ∀ h ∈ (gather sources cells m).1, ∀ v,
        (gather sources cells m).2.2.heap.cell? h = some (.closed v) → h ∈ m.own := by
  induction sources generalizing m cells with
  | nil => exact ⟨.refl hw, hcells⟩
  | cons s sources ih =>
    unfold gather
    split
    case isTrue =>
      -- The new cell is a slot, and the others are as they were.
      obtain ⟨hcaptures, hopen⟩ := captures_capture hw (m.base + s.index.toNat)
      have hcells' : ∀ h ∈ cells.push (m.capture (m.base + s.index.toNat)).1, ∀ v,
          (m.capture (m.base + s.index.toNat)).2.heap.cell? h = some (.closed v) →
            h ∈ (m.capture (m.base + s.index.toNat)).2.own := by
        intro h hh v hv
        rw [hcaptures.own_eq]
        rcases Array.mem_push.1 hh with hh | rfl
        · have hne : ∀ slot, Object.cell (.closed v) ≠ .cell (.opened slot) := by simp
          have hold := (hcaptures.same hne h).1 (Heap.cell?_eq.1 hv)
          exact hcells h hh v (Heap.cell?_eq.2 hold)
        · rw [hopen] at hv
          cases hv
      have hrest := ih hcaptures.wf _ hcells'
      rw [hcaptures.own_eq] at hrest
      exact ⟨hcaptures.spares.trans hrest.1, hrest.2⟩
    case isFalse =>
      split
      case h_1 k hk =>
        refine ih hw _ fun h hh v hv => ?_
        rcases Array.mem_push.1 hh with hh | rfl
        · exact hcells h hh v hv
        · exact ⟨_, hk⟩
      case h_2 => exact ⟨.refl hw, hcells⟩

/-- **A new closure** shares no closed cell but those of the function that makes it. -/
theorem spares_makeClosure (hw : m.heap.Wf) (start : Nat) (index : UInt16) (sources : List CaptureSource) :
    m.heap.Spares m.own [] (m.makeClosure start index sources).machine.heap := by
  unfold makeClosure
  split
  · exact .refl hw
  case h_2 function _ =>
    obtain ⟨hgather, hcells⟩ := spares_gather hw sources #[] fun h hh => (Array.not_mem_empty h hh).elim
    generalize gather sources #[] m = gathered at hgather hcells ⊢
    obtain ⟨cells, missing, m'⟩ := gathered
    cases missing with
    | some index =>
      change m.heap.Spares m.own [] (m'.moveTo _).heap
      rw [heap_moveTo]
      exact hgather
    | none =>
      refine hgather.trans (.insert hgather.wf (.closure { function, cells }) ?_)
      rintro d ⟨⟩
      exact hcells
  · exact spares_same hw (heap_moveTo m _)

/-! ### Assignments -/

/-- What an instruction assigns to a captured variable. -/
def assignmentOf? (m : Machine ω) : Instr → Option Assignment
  | ⟨.setCapture, index⟩ => (m.captured? index.toNat).map (·, m.peek 0)
  | _ => none

/-- **What the next instruction assigns to a captured variable.** -/
def assignment? (m : Machine ω) : Option Assignment :=
  match m.frames with
  | [] => none
  | f :: _ =>
    match Instr.decode f.chunk.code f.ip with
    | .instr i => m.assignmentOf? i
    | _ => none

/-- **An assignment to a captured variable.** If the variable is a slot of the stack, then the heap stays as it
is. -/
theorem spares_writeCapture (hw : m.heap.Wf) (index : Nat) :
    m.heap.Spares own ((m.captured? index).map (·, m.peek 0)).toList (m.writeCapture index).machine.heap := by
  unfold writeCapture
  cases m.captured? index with
  | none => exact .refl hw
  | some h =>
    dsimp only
    cases hcell : m.heap.cell? h with
    | none => exact .assign_open hw (by simp [hcell]) _
    | some c =>
      cases c with
      | opened slot =>
        change m.heap.Spares own _ (m.setSlot slot (m.peek 0)).machine.heap
        rw [heap_setSlot]
        exact .assign_open hw (by simp [hcell]) _
      | closed v => exact .assign hw hcell _

/-! ### One instruction -/

/-- **An instruction** changes no closure, and no closed cell but by an assignment. -/
theorem spares_exec (hw : m.heap.Wf) (start : Nat) (i : Instr) :
    m.heap.Spares m.own (m.assignmentOf? i).toList (m.exec start i).machine.heap := by
  obtain ⟨op, operand⟩ := i
  cases op with
  | setCapture => exact spares_writeCapture hw _
  | closure => exact spares_makeClosure hw _ _ _
  | call => exact spares_call hw _ _
  | return_ => exact spares_return hw
  | closeCapture => exact spares_closeFrom hw _
  | defineLet => exact spares_withName hw _ fun name => spares_same hw (heap_defineGlobal m name false)
  | defineVar => exact spares_withName hw _ fun name => spares_same hw (heap_defineGlobal m name true)
  | setGlobal => exact spares_withName hw _ fun name => spares_same hw (heap_assignGlobal m name)
  | getGlobal =>
    refine spares_withName hw _ fun name => ?_
    split <;> exact .refl hw
  | setLocal => exact spares_same hw (heap_setSlot m _ _)
  | add | sub | mul | div | mod | lt | le | gt | ge => exact spares_same hw (heap_binary m _)
  | eq => exact spares_same hw (heap_binary m .eq)
  | ne => exact spares_same hw (heap_binary m .ne)
  | neg => exact spares_same hw (heap_unary m .neg)
  | not => exact spares_same hw (heap_unary m .not)
  | jump => exact spares_same hw (heap_moveTo m _)
  | jumpIfFalse => exact spares_same hw (heap_jumpIf m (fun v => !v.isTruthy) _)
  | jumpIfTrue => exact spares_same hw (heap_jumpIf m Value.isTruthy _)
  | loop =>
    rw [exec.eq_def]
    dsimp only
    split
    · exact spares_same hw (heap_moveTo m _)
    · exact .refl hw
  | getCapture => exact spares_same hw (heap_readCapture m _)
  | print =>
    rw [exec.eq_def]
    dsimp only
    split
    · exact .refl hw
    case h_2 values m' h =>
      have hheap : m'.heap = m.heap := heap_take? h
      exact spares_same hw hheap
  | array =>
    rw [exec.eq_def]
    dsimp only
    split
    · exact .refl hw
    case h_2 values m' h =>
      change m.heap.Spares m.own [] (m'.heap.newArray values).2
      rw [heap_take? h]
      exact Heap.spares_newArray hw values
  | record =>
    rw [exec.eq_def]
    dsimp only
    split
    · exact .refl hw
    case h_2 values m' h =>
      change m.heap.Spares m.own [] (m'.heap.newRecord (fieldsOf values.toList {})).2
      rw [heap_take? h]
      exact Heap.spares_newRecord hw _
  | constant | getLocal | len =>
    rw [exec.eq_def]
    dsimp only
    split <;> exact .refl hw
  | index => exact spares_same hw (heap_give m.pop.2.pop.2 _)
  | setIndex => exact spares_write (m := m.pop.2.pop.2.pop.2) hw _ _
  | getProperty => exact spares_withName hw _ fun name => spares_same hw (heap_give m.pop.2 _)
  | setProperty => exact spares_withName hw _ fun name => spares_write (m := m.pop.2.pop.2) hw _ _
  | _ => exact .refl hw

/-- **The next instruction** changes no closure, no closed cell but by an assignment, and gives a new closure no
closed cell that the function which is running does not have. -/
theorem spares_step (hw : m.heap.Wf) :
    m.heap.Spares m.own m.assignment?.toList m.step.machine.heap := by
  unfold step assignment?
  cases hf : m.frames with
  | nil => exact .refl hw
  | cons f callers =>
    dsimp only
    cases hi : Instr.decode f.chunk.code f.ip with
    | cut => exact .refl hw
    | invalid byte => exact spares_same hw (heap_moveTo m _)
    | instr i =>
      -- Moving on changes neither the heap nor the cells of the function nor what is assigned.
      have hexec := spares_exec (m := m.moveTo (f.ip + i.size)) ((heap_moveTo m _).symm ▸ hw) f.ip i
      have hown : (m.moveTo (f.ip + i.size)).own = m.own := by
        unfold Machine.own captured?
        rw [moveTo_eq hf, hf]
        rfl
      have hsame : (m.moveTo (f.ip + i.size)).assignmentOf? i = m.assignmentOf? i := by
        unfold assignmentOf? captured?
        rw [moveTo_eq hf, hf]
        rfl
      rwa [hown, hsame, heap_moveTo] at hexec

end DeployScript.Machine
