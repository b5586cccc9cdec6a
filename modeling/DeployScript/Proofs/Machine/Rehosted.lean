import DeployScript.Proofs.Machine.Globals
import DeployScript.Proofs.Bindings.Mentioned

/-!
# Machines under another host

Most of what a machine does has nothing to do with its host: with other globals and another library it does
the same. What is left are the instructions that name a global, and a call of a builtin, which is the same if
both libraries have the same builtin of that name.

* `Machine.under`, `Outcome.under` — another host.
* `Machine.exec_under` — the instructions that do not look at the host.
* `Machine.call_under` — calls.
-/

namespace DeployScript

variable {ω : Type}

/-- A machine with other globals and another library. -/
def Machine.under (m : Machine ω) (globals : Globals) (library : Library ω) : Machine ω :=
  { m with globals, library }

/-- What an instruction comes to, on a machine with other globals and another library. -/
def Outcome.under (o : Outcome ω) (globals : Globals) (library : Library ω) : Outcome ω :=
  match o with
  | .next m => .next (m.under globals library)
  | .done v m => .done v (m.under globals library)
  | .raise cause m => .raise cause (m.under globals library)
  | .stuck m => .stuck (m.under globals library)

namespace Machine

variable (m : Machine ω) (g : Globals) (l : Library ω)

@[simp] theorem stack_under : (m.under g l).stack = m.stack := rfl
@[simp] theorem frames_under : (m.under g l).frames = m.frames := rfl
@[simp] theorem heap_under : (m.under g l).heap = m.heap := rfl
@[simp] theorem opened_under : (m.under g l).opened = m.opened := rfl
@[simp] theorem captured?_under (index : Nat) : (m.under g l).captured? index = m.captured? index := rfl
@[simp] theorem constant?_under (index : UInt16) : (m.under g l).constant? index = m.constant? index := rfl
@[simp] theorem name?_under (index : UInt16) : (m.under g l).name? index = m.name? index := rfl
@[simp] theorem peek_under (depth : Nat) : (m.under g l).peek depth = m.peek depth := rfl
@[simp] theorem push_under (v : Value) : (m.under g l).push v = (m.push v).under g l := rfl

/-! ### Instructions that do not look at the host -/

theorem moveTo_under (ip : Nat) : (m.under g l).moveTo ip = (m.moveTo ip).under g l := by
  obtain ⟨stack, frames, globals, heap, opened, assets, library, world, output⟩ := m
  cases frames <;> rfl

theorem give_under (result : Except Cause Value) : (m.under g l).give result = (m.give result).under g l := by
  cases result <;> rfl

theorem binary_under (op : BinaryOp) : (m.under g l).binary op = (m.binary op).under g l :=
  give_under m.pop.2.pop.2 g l _

theorem unary_under (op : UnaryOp) : (m.under g l).unary op = (m.unary op).under g l :=
  give_under m.pop.2 g l _

theorem write_under (target : Except Cause Heap.Target) (v : Value) :
    (m.under g l).write target v = (m.write target v).under g l := by
  cases target <;> rfl

theorem setSlot_under (slot : Nat) (v : Value) : (m.under g l).setSlot slot v = (m.setSlot slot v).under g l := by
  change (if slot < m.stack.size then _ else _) = _
  unfold setSlot
  split <;> rfl

theorem capture_under (slot : Nat) :
    (m.under g l).capture slot = ((m.capture slot).1, (m.capture slot).2.under g l) := by
  unfold capture
  rw [show ((m.under g l).opened.find? fun h => (m.under g l).openSlot? h = some slot)
    = m.opened.find? fun h => m.openSlot? h = some slot from rfl]
  cases m.opened.find? fun h => m.openSlot? h = some slot <;> rfl

theorem gather_under (sources : List CaptureSource) (cells : Array Handle) (m : Machine ω) :
    gather sources cells (m.under g l)
      = ((gather sources cells m).1, (gather sources cells m).2.1, (gather sources cells m).2.2.under g l) := by
  induction sources generalizing cells m with
  | nil => rfl
  | cons source sources ih =>
    unfold gather
    split
    · rw [capture_under]
      exact ih _ _
    · rw [show (m.under g l).captured? source.index.toNat = m.captured? source.index.toNat from rfl]
      cases m.captured? source.index.toNat with
      | none => rfl
      | some h => exact ih _ m

theorem makeClosure_under (start : Nat) (index : UInt16) (sources : List CaptureSource) :
    (m.under g l).makeClosure start index sources = (m.makeClosure start index sources).under g l := by
  unfold makeClosure
  rw [show (m.under g l).constant? index = m.constant? index from rfl]
  split
  · rfl
  · rw [gather_under]
    generalize gather sources #[] m = gathered
    obtain ⟨cells, missing, m'⟩ := gathered
    cases missing with
    | none => rfl
    | some index =>
      change Outcome.raise _ ((m'.under g l).moveTo _) = Outcome.raise _ ((m'.moveTo _).under g l)
      rw [moveTo_under]
  · change Outcome.raise _ ((m.under g l).moveTo _) = Outcome.raise _ ((m.moveTo _).under g l)
    rw [moveTo_under]

theorem readCapture_under (index : Nat) :
    (m.under g l).readCapture index = (m.readCapture index).under g l := by
  unfold readCapture
  simp only [captured?_under, heap_under, stack_under, push_under]
  cases m.captured? index with
  | none => rfl
  | some h =>
    dsimp only
    cases m.heap.cell? h with
    | none => rfl
    | some c =>
      cases c with
      | closed v => rfl
      | opened slot =>
        dsimp only
        cases m.stack[slot]? <;> rfl

theorem writeCapture_under (index : Nat) :
    (m.under g l).writeCapture index = (m.writeCapture index).under g l := by
  unfold writeCapture
  simp only [captured?_under, heap_under, peek_under]
  cases m.captured? index with
  | none => rfl
  | some h =>
    dsimp only
    cases m.heap.cell? h with
    | none => rfl
    | some c =>
      cases c with
      | closed v => rfl
      | opened slot => exact setSlot_under m g l slot _

theorem enter_under (closure : Handle) (count : Nat) :
    (m.under g l).enter closure count = (m.enter closure count).under g l := by
  unfold enter
  rw [heap_under]
  cases (m.heap.closure? closure).bind fun c => m.heap.function? c.function with
  | none => rfl
  | some p =>
    dsimp only
    by_cases hcount : count ≠ p.params.length
    · rw [if_pos hcount, if_pos hcount]
      rfl
    · rw [if_neg hcount, if_neg hcount]
      by_cases hfull : maxFrames ≤ m.frames.length
      · have hfull' : maxFrames ≤ (m.under g l).frames.length := hfull
        rw [if_pos hfull, if_pos hfull']
        rfl
      · have hfull' : ¬maxFrames ≤ (m.under g l).frames.length := hfull
        rw [if_neg hfull, if_neg hfull']
        rfl

theorem callIntrinsic_under (f : Intrinsic) (count : Nat) :
    (m.under g l).callIntrinsic f count = (m.callIntrinsic f count).under g l := by
  unfold callIntrinsic
  rw [show (m.under g l).arguments count = m.arguments count from rfl, heap_under]
  dsimp only
  split
  · rfl
  · cases f.effect? m.heap (m.arguments count) <;> rfl

/-- **A builtin is called** alike if both libraries have the same one of the name. -/
theorem callBuiltin_under {name : String} (h : l.get? name = m.library.get? name) (count : Nat) :
    (m.under g l).callBuiltin name count = (m.callBuiltin name count).under g l := by
  unfold callBuiltin
  rw [show (m.under g l).library.get? name = m.library.get? name from h,
    show (m.under g l).arguments count = m.arguments count from rfl, heap_under]
  cases m.library.get? name with
  | none => rfl
  | some b =>
    dsimp only
    cases m.heap.unpack b.name b.params (m.arguments count) with
    | error cause => rfl
    | ok args =>
      dsimp only
      rw [show (m.under g l).callerName = m.callerName from rfl,
        show (m.under g l).assets = m.assets from rfl, show (m.under g l).world = m.world from rfl]
      generalize b.run { caller := m.callerName, assets := m.assets } args m.world = result
      obtain ⟨result, world⟩ := result
      cases result <;> rfl

theorem call_under {callee : Value} (h : ∀ name, callee = .builtin name → l.get? name = m.library.get? name)
    (count : Nat) : (m.under g l).call callee count = (m.call callee count).under g l := by
  cases callee with
  | closure c => exact enter_under m g l c count
  | function f => exact enter_under { m with heap := (m.heap.insert (.closure ⟨f, #[]⟩)).2 } g l _ count
  | intrinsic f => exact callIntrinsic_under m g l f count
  | builtin name => exact callBuiltin_under m g l (h name rfl) count
  | _ => rfl

theorem return_under : (m.under g l).return_ = m.return_.under g l := by
  unfold return_
  dsimp only
  rw [show (m.under g l).pop.2.frames = m.pop.2.frames from rfl]
  cases m.pop.2.frames with
  | nil => rfl
  | cons f frames => cases frames <;> rfl

theorem jumpIf_under (condition : Value → Bool) (distance : UInt16) :
    (m.under g l).jumpIf condition distance = (m.jumpIf condition distance).under g l := by
  unfold jumpIf
  rw [peek_under]
  split
  · rw [moveTo_under]
    rfl
  · rfl

theorem withName_under (index : UInt16) {f f' : String → Outcome ω}
    (h : ∀ name, m.name? index = some name → f' name = (f name).under g l) :
    (m.under g l).withName index f' = (m.withName index f).under g l := by
  unfold withName
  rw [name?_under]
  cases hn : m.name? index with
  | none => rfl
  | some name => exact h name hn

theorem take?_under (count : Nat) :
    (m.under g l).take? count = (m.take? count).map fun taken => (taken.1, taken.2.under g l) := by
  unfold take?
  rw [stack_under]
  split <;> rfl

/-- **Most instructions do not look at the host.** -/
theorem exec_under (start : Nat) (i : Instr)
    (hop : i.op ∉ [Opcode.defineLet, .defineVar, .getGlobal, .setGlobal, .call]) :
    (m.under g l).exec start i = (m.exec start i).under g l := by
  obtain ⟨op, operand⟩ := i
  cases op with
  | defineLet | defineVar | getGlobal | setGlobal | call => exact absurd hop (by simp)
  | return_ => exact return_under m g l
  | setLocal => exact setSlot_under m g l _ _
  | add | sub | mul | div | mod | lt | le | gt | ge => exact binary_under m g l _
  | eq => exact binary_under m g l .eq
  | ne => exact binary_under m g l .ne
  | neg => exact unary_under m g l .neg
  | not => exact unary_under m g l .not
  | jump => exact congrArg Outcome.next (moveTo_under m g l _)
  | jumpIfFalse => exact jumpIf_under m g l (fun v => !v.isTruthy) _
  | jumpIfTrue => exact jumpIf_under m g l Value.isTruthy _
  | loop =>
    rw [exec.eq_def, exec.eq_def]
    dsimp only
    rw [show (m.under g l).ip = m.ip from rfl, moveTo_under]
    split <;> rfl
  | closure => exact makeClosure_under m g l _ _ _
  | getCapture => exact readCapture_under m g l _
  | setCapture => exact writeCapture_under m g l _
  | print | array | record =>
    rw [exec.eq_def, exec.eq_def]
    dsimp only
    rw [take?_under]
    cases m.take? _ <;> rfl
  | constant =>
    rw [exec.eq_def, exec.eq_def]
    dsimp only
    rw [constant?_under]
    cases m.constant? _ <;> rfl
  | getLocal =>
    rw [exec.eq_def, exec.eq_def]
    dsimp only
    rw [show (m.under g l).base = m.base from rfl, stack_under]
    cases m.stack[m.base + UInt16.toNat operand]? <;> rfl
  | len =>
    rw [exec.eq_def, exec.eq_def]
    dsimp only
    rw [show (m.under g l).pop.1 = m.pop.1 from rfl, show (m.under g l).pop.2 = m.pop.2.under g l from rfl,
      heap_under]
    cases m.pop.2.heap.length? m.pop.1 <;> rfl
  | index => exact give_under m.pop.2.pop.2 g l _
  | setIndex => exact write_under m.pop.2.pop.2.pop.2 g l _ _
  | getProperty => exact withName_under m g l _ fun name _ => give_under m.pop.2 g l _
  | setProperty => exact withName_under m g l _ fun name _ => write_under m.pop.2.pop.2 g l _ _
  | _ => rfl

end Machine

end DeployScript
