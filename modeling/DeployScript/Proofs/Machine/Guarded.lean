import Mathlib
import DeployScript.Machine.Run
import DeployScript.Proofs.Heap.Confined

/-!
# Machines under guard

A script gets at a builtin by reading a global that is bound to it, and what it has read it may keep
anywhere: on the stack, in an object, in a variable. A guarded machine has no other builtins in these
places but given ones. What is known of the host and of the globals beside that is left open, as long as
it withstands what builtins do to the host and what scripts bind.

* `Guard` — the builtins that may be anywhere, and what is known of the host and of the globals.
* `Machine.Guarded` — the invariant; `Outcome.Guarded` — of what an instruction comes to.
* `Guarded.define` — the only change of the globals; `callBuiltin` — the only change of the host.
* `Guarded.exec`, `step` — one instruction, which may read a global.
-/

namespace DeployScript

variable {ω : Type}

/-- **A guard:** builtins, and a condition on the library, the state of the host and the globals. Builtins
that act on the host keep the condition, and so do scripts that bind a name which is not that of a
function of the language or of the host. -/
structure Guard (ω : Type) where
  within : Set String
  holds : Library ω → ω → Std.TreeMap String Binding → Prop
  acts : ∀ {l : Library ω} {world : ω} {globals : Std.TreeMap String Binding} {b : Builtin ω},
    holds l world globals → b ∈ l.builtins → ∀ context args, holds l (b.run context args world).2 globals
  binds : ∀ {l : Library ω} {world : ω} {globals : Std.TreeMap String Binding} {name : String}
    {v : Value} {isMutable : Bool}, holds l world globals → v.Within within →
    (∀ b, globals[name]? = some b → Machine.isFixed b = false) →
    holds l world (globals.insert name ⟨v, isMutable⟩)

/-- **A guarded machine:** on the stack, in the heap and in code that runs there are no builtins but
those of the guard. -/
structure Machine.Guarded (G : Guard ω) (m : Machine ω) : Prop where
  stack : ∀ v ∈ m.stack, v.Within G.within
  heap : m.heap.Within G.within
  frames : ∀ f ∈ m.frames, f.chunk.Within G.within
  host : G.holds m.library m.world m.globals

/-- The machine that an instruction leaves behind. -/
def Outcome.machine : Outcome ω → Machine ω
  | .next m | .done _ m | .raise _ m | .stuck m => m

/-- What an instruction comes to on a guarded machine. -/
def Outcome.Guarded (G : Guard ω) (o : Outcome ω) : Prop := o.machine.Guarded G

/-- What an instruction reads from a global is no builtin but one of `A`. -/
def Machine.ReadsWithin (A : Set String) (m : Machine ω) (i : Instr) : Prop :=
  ∀ index name v, i = ⟨.getGlobal, index⟩ → m.name? index = some name → m.global? name = some v →
    v.Within A

namespace Machine.Guarded

variable {G : Guard ω} {m : Machine ω} {v : Value}

theorem withHeap (hm : m.Guarded G) {heap : Heap} (hh : heap.Within G.within) :
    ({ m with heap } : Machine ω).Guarded G :=
  { hm with heap := hh }

/-! ### The stack -/

theorem push (hm : m.Guarded G) (hv : v.Within G.within) : (m.push v).Guarded G :=
  { hm with stack := fun w hw => (Array.mem_push.1 hw).elim (hm.stack w) fun he => he ▸ hv }

theorem pushAll (hm : m.Guarded G) {values : List Value}
    (hv : ∀ v ∈ values, v.Within G.within) : (values.foldl Machine.push m).Guarded G := by
  induction values generalizing m with
  | nil => exact hm
  | cons v values ih =>
    exact ih (hm.push (hv v List.mem_cons_self)) fun w hw => hv w (List.mem_cons_of_mem _ hw)

theorem get (hm : m.Guarded G) {i : Nat} (hv : m.stack[i]? = some v) :
    v.Within G.within :=
  hm.stack v (Array.mem_of_getElem? hv)

theorem peek (hm : m.Guarded G) (depth : Nat) : (m.peek depth).Within G.within := by
  unfold Machine.peek
  split
  · exact Value.within_getD fun v hv => hm.get hv
  · trivial

theorem extract (hm : m.Guarded G) (start stop : Nat) :
    ∀ v ∈ (m.stack.extract start stop).toList, v.Within G.within := by
  intro v hv
  rw [Array.toList_extract] at hv
  exact hm.stack v (Array.mem_toList_iff.1 (List.mem_of_mem_drop (List.mem_of_mem_take hv)))

theorem shrink (hm : m.Guarded G) (size : Nat) :
    ({ m with stack := m.stack.shrink size } : Machine ω).Guarded G := by
  refine { hm with stack := fun v hv => hm.stack v ?_ }
  rw [← Array.mem_toList_iff, Array.toList_shrink] at hv
  exact Array.mem_toList_iff.1 (List.mem_of_mem_take hv)

theorem pop (hm : m.Guarded G) :
    m.pop.1.Within G.within ∧ m.pop.2.Guarded G := by
  constructor
  · exact Value.within_getD fun v hv => hm.stack v (Array.mem_of_back? hv)
  · refine { hm with stack := fun v hv => hm.stack v ?_ }
    change v ∈ m.stack.pop at hv
    rw [← Array.mem_toList_iff, Array.toList_pop] at hv
    exact Array.mem_toList_iff.1 (List.mem_of_mem_dropLast hv)

theorem leave (hm : m.Guarded G) (count : Nat) (hv : v.Within G.within) :
    (m.leave count v).Guarded G :=
  (hm.shrink _).push hv

theorem take? (hm : m.Guarded G) {count : Nat} {values : Array Value} {m' : Machine ω}
    (ht : m.take? count = some (values, m')) :
    (∀ v ∈ values, v.Within G.within) ∧ m'.Guarded G := by
  unfold Machine.take? at ht
  split at ht
  · cases ht
    exact ⟨fun v hv => hm.extract _ _ v (Array.mem_toList_iff.2 hv), hm.shrink _⟩
  · cases ht

theorem setSlot (hm : m.Guarded G) (slot : Nat) (hv : v.Within G.within) :
    (m.setSlot slot v).Guarded G := by
  unfold Machine.setSlot
  split
  · refine { hm with stack := fun w hw => ?_ }
    rcases Array.mem_or_eq_of_mem_setIfInBounds hw with hw | rfl
    · exact hm.stack w hw
    · exact hv
  · exact hm

theorem moveTo (hm : m.Guarded G) (ip : Nat) : (m.moveTo ip).Guarded G := by
  unfold Machine.moveTo
  split
  case h_1 stack f frames globals heap opened assets library world' output =>
    refine { hm with frames := fun g hg => ?_ }
    rcases List.mem_cons.1 hg with rfl | hg
    · exact hm.frames f List.mem_cons_self
    · exact hm.frames g (List.mem_cons_of_mem _ hg)
  case h_2 => exact hm

theorem constant? (hm : m.Guarded G) {index : UInt16} (hv : m.constant? index = some v) :
    v.Within G.within := by
  obtain ⟨f, hf, hv⟩ := Option.bind_eq_some_iff.1 hv
  exact hm.frames f (List.mem_of_mem_head? hf) v (Array.mem_of_getElem? hv)

/-! ### Results of operations -/

theorem give (hm : m.Guarded G) {result : Except Cause Value}
    (hr : Value.Yields G.within result) : (m.give result).Guarded G := by
  cases result with
  | error cause => exact hm
  | ok v => exact hm.push (hr v rfl)

theorem binary (hm : m.Guarded G) (op : BinaryOp) : (m.binary op).Guarded G :=
  hm.pop.2.pop.2.give (Heap.Within.binary _ _ _ _)

theorem unary (hm : m.Guarded G) (op : UnaryOp) : (m.unary op).Guarded G :=
  hm.pop.2.give (Heap.Within.unary _ _)

theorem write (hm : m.Guarded G) (target : Except Cause Heap.Target)
    (hv : v.Within G.within) : (m.write target v).Guarded G := by
  cases target with
  | error cause => exact hm
  | ok target =>
    exact (hm.withHeap (hm.heap.store target hv)).push hv

theorem pushNew (hm : m.Guarded G) {new : Heap → Value × Heap}
    (hnew : (new m.heap).1.Within G.within ∧ (new m.heap).2.Within G.within) :
    (m.pushNew new).Guarded G :=
  (hm.withHeap hnew.2).push hnew.1

theorem fieldsOf {values : List Value} {fields : Fields} (hv : ∀ v ∈ values, v.Within G.within)
    (hf : Fields.Within G.within fields) :
    Fields.Within G.within (Machine.fieldsOf values fields) := by
  induction values, fields using Machine.fieldsOf.induct with
  | case1 key value rest fields ih =>
    have hrest := fun v h => hv v (List.mem_cons_of_mem _ (List.mem_cons_of_mem _ h))
    have hvalue := hv value (List.mem_cons_of_mem _ List.mem_cons_self)
    exact ih hrest (Heap.Within.insertField hf key hvalue)
  | case2 first second rest fields hfirst ih =>
    have hrest := fun v h => hv v (List.mem_cons_of_mem _ (List.mem_cons_of_mem _ h))
    cases first with
    | text key => exact absurd rfl (hfirst key)
    | _ => exact ih hrest hf
  | case3 values fields hone htwo =>
    cases values with
    | nil => exact hf
    | cons first rest =>
      cases rest with
      | nil => cases first <;> exact hf
      | cons second rest => exact absurd rfl (htwo _ _ _)

/-! ### Globals -/

/-- **A name that a script binds** was not that of a function of the language or of the host. -/
theorem define (hm : m.Guarded G) (name : String) (hv : v.Within G.within) (isMutable : Bool)
    (hfree : ∀ b, m.globals[name]? = some b → isFixed b = false) :
    (m.define name v isMutable).Guarded G :=
  { hm with host := G.binds hm.host hv hfree }

theorem defineGlobal (hm : m.Guarded G) (name : String) (isMutable : Bool) :
    (m.defineGlobal name isMutable).Guarded G := by
  obtain ⟨hv, hm'⟩ := hm.pop
  unfold Machine.defineGlobal
  dsimp only
  cases hb : m.pop.2.globals[name]? with
  | none =>
    refine hm'.define name hv isMutable fun b hb' => ?_
    rw [hb] at hb'
    cases hb'
  | some b =>
    dsimp only
    split
    case isTrue => exact hm'
    case isFalse hfixed =>
      refine hm'.define name hv isMutable fun b' hb' => ?_
      rw [hb] at hb'
      cases hb'
      exact Bool.eq_false_iff.2 hfixed

theorem assignGlobal (hm : m.Guarded G) (name : String) :
    (m.assignGlobal name).Guarded G := by
  unfold Machine.assignGlobal
  cases hb : m.globals[name]? with
  | none => exact hm
  | some b =>
    dsimp only
    split
    case isTrue hmutable =>
      refine hm.define name (hm.peek 0) true fun b' hb' => ?_
      rw [hb] at hb'
      cases hb'
      -- What may be assigned to is mutable, and a function of the host is not.
      unfold isFixed
      split <;> simp [hmutable]
    case isFalse => exact hm

/-! ### Captured variables -/

theorem capture (hm : m.Guarded G) (slot : Nat) :
    (m.capture slot).2.Guarded G := by
  unfold Machine.capture
  split
  · exact hm
  · exact { hm with heap := hm.heap.insert (Object.within_opened slot) }

theorem gather (hm : m.Guarded G) (sources : List CaptureSource) (cells : Array Handle) :
    (Machine.gather sources cells m).2.2.Guarded G := by
  induction sources generalizing cells m with
  | nil => exact hm
  | cons source sources ih =>
    unfold Machine.gather
    split
    · exact ih (hm.capture _) _
    · split
      · exact ih hm _
      · exact hm

theorem makeClosure (hm : m.Guarded G) (start : Nat) (index : UInt16)
    (sources : List CaptureSource) : (m.makeClosure start index sources).Guarded G := by
  unfold Machine.makeClosure
  split
  · exact hm
  · have hgathered := hm.gather sources #[]
    generalize Machine.gather sources #[] m = gathered at hgathered ⊢
    obtain ⟨cells, missing, m'⟩ := gathered
    dsimp only at hgathered ⊢
    split
    · exact hgathered.moveTo _
    · exact hgathered.pushNew ⟨trivial, hgathered.heap.insert (Object.within_closure _)⟩
  · exact hm.moveTo _

theorem readCapture (hm : m.Guarded G) (index : Nat) :
    (m.readCapture index).Guarded G := by
  unfold Machine.readCapture
  split
  · exact hm
  · split
    · split
      case h_1 v hv => exact hm.push (hm.get hv)
      case h_2 => exact hm
    case h_2 v hc => exact hm.push (hm.heap.cell? hc)
    · exact hm.push trivial

theorem writeCapture (hm : m.Guarded G) (index : Nat) :
    (m.writeCapture index).Guarded G := by
  unfold Machine.writeCapture
  split
  · exact hm
  · dsimp only
    split
    · exact hm.setSlot _ (hm.peek 0)
    · exact hm.withHeap (hm.heap.setCell (hm.peek 0))
    · exact hm

/-- Cells get values from the stack. -/
theorem closeFrom (hm : m.Guarded G) (first : Nat) :
    (m.closeFrom first).Guarded G := by
  have hset : ∀ (closing : List (Handle × Value)) {heap : Heap}, heap.Within G.within →
      (∀ c ∈ closing, c.2.Within G.within) →
        (closing.foldl (fun heap c => heap.setCell c.1 (.closed c.2)) heap).Within G.within := by
    intro closing
    induction closing with
    | nil => exact fun hh _ => hh
    | cons c closing ih =>
      intro heap hh hc
      exact ih (hh.setCell (hc c List.mem_cons_self)) fun c' hc' => hc c' (List.mem_cons_of_mem _ hc')
  refine { hm with heap := hset _ hm.heap fun c hc => ?_ }
  obtain ⟨s, -, rfl⟩ := List.mem_map.1 hc
  exact Value.within_getD fun v hv => hm.get hv

/-! ### Calls -/

theorem enter (hm : m.Guarded G) (h : Handle) (count : Nat) :
    (m.enter h count).Guarded G := by
  unfold Machine.enter
  split
  · exact hm
  case h_2 p hp =>
    obtain ⟨c, -, hp⟩ := Option.bind_eq_some_iff.1 hp
    split
    · exact hm
    · split
      · exact hm
      · exact { hm with frames := List.forall_mem_cons.2 ⟨hm.heap.function? hp, hm.frames⟩ }

theorem callIntrinsic (hm : m.Guarded G) (f : Intrinsic) (count : Nat) :
    (m.callIntrinsic f count).Guarded G := by
  unfold Machine.callIntrinsic
  dsimp only
  split
  · exact hm
  · split
    · exact hm
    case h_2 effect he =>
      have hstored := hm.heap.perform (Heap.Within.effect? (hm.extract _ _) he)
      exact (hm.withHeap hstored.2).leave count hstored.1

/-- **A call of a builtin** is the only thing that acts on the host. -/
theorem callBuiltin (hm : m.Guarded G) (name : String) (count : Nat) :
    (m.callBuiltin name count).Guarded G := by
  unfold Machine.callBuiltin
  split
  · exact hm
  case h_2 b hb =>
    have hmem : b ∈ m.library.builtins := List.mem_of_find?_eq_some hb
    split
    · exact hm
    case h_2 args _ =>
      have hacted := G.acts hm.host hmem { caller := m.callerName, assets := m.assets } args
      dsimp only
      split
      case h_1 cause world' hrun =>
        rw [hrun] at hacted
        exact { hm with host := hacted }
      case h_2 result world' hrun =>
        rw [hrun] at hacted
        obtain ⟨hv, hheap⟩ := hm.heap.ofHost result
        have hdone : ({ m with world := world', heap := (Heap.ofHost result m.heap).2 }
            : Machine ω).Guarded G := { hm with heap := hheap, host := hacted }
        exact hdone.leave count hv

theorem call (hm : m.Guarded G) (callee : Value) (count : Nat) :
    (m.call callee count).Guarded G := by
  unfold Machine.call
  split
  · exact hm.enter _ _
  case h_2 function =>
    have hstored := hm.heap.insert (Object.within_closure { function, cells := #[] })
    exact (hm.withHeap hstored).enter _ _
  · exact hm.callIntrinsic _ _
  · exact hm.callBuiltin _ _
  · exact hm

theorem return_ (hm : m.Guarded G) : m.return_.Guarded G := by
  obtain ⟨hv, hm'⟩ := hm.pop
  unfold Machine.return_
  dsimp only
  cases hf : m.pop.2.frames with
  | nil => exact hm'
  | cons f frames =>
    have hleft : ({ m.pop.2 with frames } : Machine ω).Guarded G :=
      { hm' with frames := fun g hg => hm'.frames g (hf ▸ List.mem_cons_of_mem _ hg) }
    have hcut := (hleft.closeFrom f.base).shrink f.base
    cases frames with
    | nil => exact hcut
    | cons _ _ => exact hcut.push hv

/-! ### Instructions -/

theorem jumpIf (hm : m.Guarded G) (condition : Value → Bool) (distance : UInt16) :
    (m.jumpIf condition distance).Guarded G := by
  unfold Machine.jumpIf
  split
  · exact hm.moveTo _
  · exact hm

theorem withName (hm : m.Guarded G) (index : UInt16) {f : String → Outcome ω}
    (hf : ∀ name, (f name).Guarded G) : (m.withName index f).Guarded G := by
  unfold Machine.withName
  split
  · exact hf _
  · exact hm

/-- **One instruction** brings no builtin that was not there, unless it reads one from a global. -/
theorem exec (hm : m.Guarded G) (start : Nat) {i : Instr} (hi : m.ReadsWithin G.within i) :
    (m.exec start i).Guarded G := by
  obtain ⟨op, operand⟩ := i
  cases op with
  | constant =>
    unfold Machine.exec
    dsimp only
    split
    case h_1 v hv => exact hm.push (hm.constant? hv)
    case h_2 => exact hm
  | nil | true_ | false_ => exact hm.push trivial
  | pop => exact hm.pop.2
  | defineLet => exact hm.withName _ fun name => hm.defineGlobal name false
  | defineVar => exact hm.withName _ fun name => hm.defineGlobal name true
  | getGlobal =>
    unfold Machine.exec Machine.withName
    dsimp only
    split
    case h_1 name hname =>
      split
      case h_1 v hv => exact hm.push (hi operand name v rfl hname hv)
      case h_2 => exact hm
    case h_2 => exact hm
  | setGlobal => exact hm.withName _ fun name => hm.assignGlobal name
  | getLocal =>
    unfold Machine.exec
    dsimp only
    split
    case h_1 v hv => exact hm.push (hm.get hv)
    case h_2 => exact hm
  | setLocal => exact hm.setSlot _ (hm.peek 0)
  | add => exact hm.binary .add
  | sub => exact hm.binary .sub
  | mul => exact hm.binary .mul
  | div => exact hm.binary .div
  | mod => exact hm.binary .mod
  | eq => exact hm.binary .eq
  | ne => exact hm.binary .ne
  | lt => exact hm.binary .lt
  | le => exact hm.binary .le
  | gt => exact hm.binary .gt
  | ge => exact hm.binary .ge
  | neg => exact hm.unary .neg
  | not => exact hm.unary .not
  | jump => exact hm.moveTo _
  | jumpIfFalse => exact hm.jumpIf (fun v => !v.isTruthy) operand
  | jumpIfTrue => exact hm.jumpIf Value.isTruthy operand
  | loop =>
    unfold Machine.exec
    dsimp only
    split
    · exact hm.moveTo _
    · exact hm
  | call => exact hm.call _ _
  | return_ => exact hm.return_
  | closure => exact hm.makeClosure _ _ _
  | getCapture => exact hm.readCapture _
  | setCapture => exact hm.writeCapture _
  | closeCapture => exact (hm.closeFrom _).pop.2
  | print =>
    unfold Machine.exec
    dsimp only
    split
    · exact hm
    case h_2 values m' ht =>
      -- No condition reads what was printed.
      have hprinted : ∀ output, ({ m' with output } : Machine ω).Guarded G :=
        fun output => { (hm.take? ht).2 with host := (hm.take? ht).2.host }
      exact (hprinted _).push trivial
  | len =>
    unfold Machine.exec
    dsimp only
    split
    · exact hm.pop.2.push trivial
    · exact hm.pop.2
  | array =>
    unfold Machine.exec
    dsimp only
    split
    · exact hm
    case h_2 values m' ht =>
      obtain ⟨hv, hm'⟩ := hm.take? ht
      exact hm'.pushNew (hm'.heap.newArray hv)
  | record =>
    unfold Machine.exec
    dsimp only
    split
    · exact hm
    case h_2 values m' ht =>
      obtain ⟨hv, hm'⟩ := hm.take? ht
      have hnone : Fields.Within G.within {} := fun key v hv => by simp at hv
      have hfields := fieldsOf (fun v h => hv v (Array.mem_toList_iff.1 h)) hnone
      exact hm'.pushNew (hm'.heap.newRecord hfields)
  | index => exact hm.pop.2.pop.2.give (hm.heap.index _ _)
  | setIndex => exact hm.pop.2.pop.2.pop.2.write _ hm.pop.1
  | getProperty => exact hm.withName _ fun name => hm.pop.2.give (hm.heap.property name _)
  | setProperty => exact hm.withName _ fun name => hm.pop.2.pop.2.write _ hm.pop.1

/-- **The next instruction,** where it reads no other builtin from a global. -/
theorem step (hm : m.Guarded G) (hread : ∀ f callers i, m.frames = f :: callers →
    Instr.decode f.chunk.code f.ip = .instr i → (m.moveTo (f.ip + i.size)).ReadsWithin G.within i) :
    m.step.Guarded G := by
  unfold Machine.step
  split
  · exact hm
  case h_2 f callers hframes =>
    split
    · exact hm
    · exact hm.moveTo _
    case h_3 i hi => exact (hm.moveTo _).exec _ (hread f callers i hframes hi)

/-! ### The beginning and the end of a run -/

theorem reset (hm : m.Guarded G) : m.reset.Guarded G :=
  { hm with
    stack := fun v hv => (Array.not_mem_empty v hv).elim
    frames := fun _ hf => (List.not_mem_nil hf).elim }

theorem collect (hm : m.Guarded G) : m.collect.Guarded G :=
  hm.withHeap (hm.heap.collect m.roots)

theorem start (hm : m.Guarded G) {chunk : Chunk Value} (hc : chunk.Within G.within) :
    (m.start chunk).Guarded G := by
  let prototype : Prototype Value := { name := scriptName, params := [], captures := 0, chunk }
  have hfunction := hm.heap.insert (Object.within_function (p := prototype).2 hc)
  let closure : Closure := { function := (m.heap.insert (.function prototype)).1, cells := #[] }
  have hclosure := hfunction.insert (Object.within_closure closure)
  let callee := ((m.heap.insert (.function prototype)).2.insert (.closure closure)).1
  have hpushed := push (v := .closure callee) (hm.withHeap hclosure) trivial
  exact { hpushed with frames := List.forall_mem_cons.2 ⟨hc, hm.frames⟩ }

end Machine.Guarded

end DeployScript
