import Mathlib
import DeployScript.Proofs.Machine.Confined
import DeployScript.Proofs.Machine.Reached

/-!
# Who binds the globals

The globals of a machine are those that it was provided with and those that scripts have declared.
Nothing but two kinds of instructions changes them, whatever the code, the values and the heap are:
one declares a name, if it is not refused, and one assigns a mutable global.

* `Declaration` — a name and the binding that it is declared with.
* `Declaration.latest?` — the binding that a name was declared with last.
* `Rebound` — globals that come from others by declarations, and by assignments in between.
* `Machine.declaration?` — what the next instruction declares; `Machine.declarations` — a whole run.
* `rebound_step`, `rebound_resume` — an instruction and a run declare that, and change nothing else.
-/

namespace DeployScript

/-- The bindings of names. -/
abbrev Globals := Std.TreeMap String Binding

/-- **A declaration:** a name, and what it is bound to. -/
structure Declaration where
  name : String
  binding : Binding

namespace Declaration

/-- The binding that a name was declared with last. -/
def latest? (ds : List Declaration) (name : String) : Option Binding :=
  (ds.reverse.find? fun d => d.name == name).map (·.binding)

theorem latest?_concat (ds : List Declaration) (d : Declaration) (name : String) :
    latest? (ds ++ [d]) name = if d.name = name then some d.binding else latest? ds name := by
  rw [latest?, List.reverse_append, List.reverse_singleton, List.singleton_append, List.find?_cons]
  by_cases hn : d.name = name
  · simp [hn]
  · simp [beq_false_of_ne hn, hn, latest?]

theorem isSome_latest? {ds : List Declaration} {name : String} :
    (latest? ds name).isSome ↔ ∃ d ∈ ds, d.name = name := by
  simp [latest?]

end Declaration

/-- **Globals that come from others** by declarations that are not refused, in their order, and by
assignments to mutable globals. -/
inductive Rebound (g₀ : Globals) : List Declaration → Globals → Prop
  | start : Rebound g₀ [] g₀
  | declared {ds : List Declaration} {g : Globals} (h : Rebound g₀ ds g) (d : Declaration)
    (hfree : ∀ b, g[d.name]? = some b → Machine.isFixed b = false) :
    Rebound g₀ (ds ++ [d]) (g.insert d.name d.binding)
  | assigned {ds : List Declaration} {g : Globals} (h : Rebound g₀ ds g) {name : String} {b : Binding}
    (hb : g[name]? = some b) (hmutable : b.isMutable = true) (v : Value) :
    Rebound g₀ ds (g.insert name ⟨v, true⟩)

variable {ω : Type} {g₀ g g' : Globals} {ds ds' : List Declaration} {name : String} {b : Binding}

theorem Globals.getElem?_insert (g : Globals) (name : String) (b : Binding) (name' : String) :
    (g.insert name b)[name']? = if name = name' then some b else g[name']? := by
  rw [Std.TreeMap.getElem?_insert]
  simp only [compare_eq_iff_eq]

/-- A function of the language or of the host, bound immutably. -/
theorem Machine.isFixed_iff : Machine.isFixed b = true ↔
    b.isMutable = false ∧ ((∃ f, b.value = .intrinsic f) ∨ ∃ n, b.value = .builtin n) := by
  obtain ⟨v, isMutable⟩ := b
  cases v <;> simp [Machine.isFixed]

namespace Rebound

theorem trans (h : Rebound g₀ ds g) (h' : Rebound g ds' g') : Rebound g₀ (ds ++ ds') g' := by
  induction h' with
  | start => rwa [List.append_nil]
  | declared _ d hfree ih =>
    rw [← List.append_assoc]
    exact ih.declared d hfree
  | assigned _ hb hmutable v ih => exact ih.assigned hb hmutable v

/-- What is fixed stays, and is not declared. -/
theorem of_fixed (h : Rebound g₀ ds g) (hb : g₀[name]? = some b) (hfixed : Machine.isFixed b = true) :
    g[name]? = some b ∧ Declaration.latest? ds name = none := by
  induction h with
  | start => exact ⟨hb, rfl⟩
  | declared _ d hfree ih =>
    -- A declaration of the name would have been refused.
    have hne : d.name ≠ name := by
      rintro rfl
      rw [hfree b ih.1] at hfixed
      cases hfixed
    rw [Globals.getElem?_insert, Declaration.latest?_concat, if_neg hne, if_neg hne]
    exact ih
  | @assigned ds g _ name' b' hb' hmutable v ih =>
    -- What is assigned is mutable, and what is fixed is not.
    have hne : name' ≠ name := by
      rintro rfl
      obtain rfl := Option.some.inj (ih.1.symm.trans hb')
      rw [(Machine.isFixed_iff.1 hfixed).1] at hmutable
      cases hmutable
    rw [Globals.getElem?_insert, if_neg hne]
    exact ih

/-- **What was declared last** is bound: as mutable as it was declared, and to the same value unless
it is mutable. -/
theorem of_latest (h : Rebound g₀ ds g) {d : Binding} (hd : Declaration.latest? ds name = some d) :
    ∃ b, g[name]? = some b ∧ b.isMutable = d.isMutable ∧ (d.isMutable = false → b = d) := by
  -- An assignment keeps a binding mutable, and there is none to an immutable one.
  induction h with
  | start => cases hd
  | declared _ d' _ ih =>
    rw [Declaration.latest?_concat] at hd
    rw [Globals.getElem?_insert]
    split at hd
    case isTrue hn =>
      cases hd
      exact ⟨_, if_pos hn, rfl, fun _ => rfl⟩
    case isFalse hn =>
      rw [if_neg hn]
      exact ih hd
  | @assigned ds g _ name' b' hb' hmutable v ih =>
    obtain ⟨b, hb, hsame, hkept⟩ := ih hd
    rw [Globals.getElem?_insert]
    by_cases hn : name' = name
    · subst hn
      obtain rfl := Option.some.inj (hb.symm.trans hb')
      rw [hmutable] at hsame
      refine ⟨_, if_pos rfl, hsame, fun himmutable => ?_⟩
      rw [← hsame] at himmutable
      cases himmutable
    · rw [if_neg hn]
      exact ⟨b, hb, hsame, hkept⟩

/-- What is not declared is bound only if it was. -/
theorem of_not_declared (h : Rebound g₀ ds g) (hd : Declaration.latest? ds name = none) :
    g[name]? = none ↔ g₀[name]? = none := by
  induction h with
  | start => exact Iff.rfl
  | declared _ d' _ ih =>
    rw [Declaration.latest?_concat] at hd
    rw [Globals.getElem?_insert]
    split at hd
    case isTrue => cases hd
    case isFalse hn =>
      rw [if_neg hn]
      exact ih hd
  | @assigned ds g _ name' b' hb' _ v ih =>
    rw [Globals.getElem?_insert]
    by_cases hn : name' = name
    · subst hn
      rw [← ih hd, if_pos rfl, hb']
      exact iff_of_false (Option.some_ne_none _) (Option.some_ne_none _)
    · rw [if_neg hn]
      exact ih hd

end Rebound

namespace Machine

variable {m : Machine ω}

/-! ### Instructions that bind nothing -/

theorem globals_moveTo (m : Machine ω) (ip : Nat) : (m.moveTo ip).globals = m.globals := by
  unfold moveTo
  split <;> rfl

theorem globals_give (m : Machine ω) (result : Except Cause Value) :
    (m.give result).machine.globals = m.globals := by
  cases result <;> rfl

theorem globals_binary (m : Machine ω) (op : BinaryOp) :
    (m.binary op).machine.globals = m.globals := globals_give m.pop.2.pop.2 _

theorem globals_unary (m : Machine ω) (op : UnaryOp) : (m.unary op).machine.globals = m.globals :=
  globals_give m.pop.2 _

theorem globals_write (m : Machine ω) (target : Except Cause Heap.Target) (v : Value) :
    (m.write target v).machine.globals = m.globals := by
  cases target <;> rfl

theorem globals_setSlot (m : Machine ω) (slot : Nat) (v : Value) :
    (m.setSlot slot v).machine.globals = m.globals := by
  unfold setSlot
  split <;> rfl

theorem globals_readCapture (m : Machine ω) (index : Nat) :
    (m.readCapture index).machine.globals = m.globals := by
  unfold readCapture
  split
  · rfl
  · split
    · split <;> rfl
    · rfl
    · rfl

theorem globals_writeCapture (m : Machine ω) (index : Nat) :
    (m.writeCapture index).machine.globals = m.globals := by
  unfold writeCapture
  split
  · rfl
  · dsimp only
    split
    · exact globals_setSlot m _ _
    · rfl
    · rfl

theorem globals_capture (m : Machine ω) (slot : Nat) : (m.capture slot).2.globals = m.globals := by
  unfold capture
  split <;> rfl

theorem globals_gather (sources : List CaptureSource) (cells : Array Handle) (m : Machine ω) :
    (gather sources cells m).2.2.globals = m.globals := by
  induction sources generalizing cells m with
  | nil => rfl
  | cons source sources ih =>
    unfold gather
    split
    · exact (ih _ _).trans (globals_capture m _)
    · split
      · exact ih _ _
      · rfl

theorem globals_makeClosure (m : Machine ω) (start : Nat) (index : UInt16)
    (sources : List CaptureSource) : (m.makeClosure start index sources).machine.globals = m.globals := by
  unfold makeClosure
  split
  · rfl
  · have hgather := globals_gather sources #[] m
    generalize gather sources #[] m = gathered at hgather
    obtain ⟨cells, missing, m'⟩ := gathered
    cases missing with
    | some index => exact (globals_moveTo m' _).trans hgather
    | none => exact hgather
  · exact globals_moveTo m _

theorem globals_jumpIf (m : Machine ω) (condition : Value → Bool) (distance : UInt16) :
    (m.jumpIf condition distance).machine.globals = m.globals := by
  unfold jumpIf
  split
  · exact globals_moveTo m _
  · rfl

theorem globals_withName (m : Machine ω) (index : UInt16) {f : String → Outcome ω}
    (hf : ∀ name, (f name).machine.globals = m.globals) :
    (m.withName index f).machine.globals = m.globals := by
  unfold withName
  split
  · exact hf _
  · rfl

theorem globals_take? {count : Nat} {values : Array Value} {m' : Machine ω}
    (h : m.take? count = some (values, m')) : m'.globals = m.globals := by
  unfold take? at h
  split at h
  · cases h
    rfl
  · cases h

theorem globals_enter (m : Machine ω) (closure : Handle) (count : Nat) :
    (m.enter closure count).machine.globals = m.globals := by
  unfold enter
  split
  · rfl
  · split
    · rfl
    · split <;> rfl

theorem globals_callIntrinsic (m : Machine ω) (f : Intrinsic) (count : Nat) :
    (m.callIntrinsic f count).machine.globals = m.globals := by
  unfold callIntrinsic
  dsimp only
  split
  · rfl
  · split <;> rfl

theorem globals_callBuiltin (m : Machine ω) (name : String) (count : Nat) :
    (m.callBuiltin name count).machine.globals = m.globals := by
  unfold callBuiltin
  split
  · rfl
  · split
    · rfl
    · dsimp only
      split <;> rfl

/-- **A call** binds nothing before an instruction of it does. -/
theorem globals_call (m : Machine ω) (callee : Value) (count : Nat) :
    (m.call callee count).machine.globals = m.globals := by
  cases callee with
  | closure h => exact globals_enter m h count
  | function f => exact globals_enter _ _ count
  | intrinsic f => exact globals_callIntrinsic m f count
  | builtin name => exact globals_callBuiltin m name count
  | _ => rfl

theorem globals_return (m : Machine ω) : m.return_.machine.globals = m.globals := by
  unfold return_
  dsimp only
  split
  · rfl
  · split <;> rfl

/-- **Most instructions bind nothing.** -/
theorem globals_exec (m : Machine ω) (start : Nat) (i : Instr)
    (hop : i.op ∉ [Opcode.defineLet, .defineVar, .setGlobal]) :
    (m.exec start i).machine.globals = m.globals := by
  obtain ⟨op, operand⟩ := i
  cases op with
  | defineLet | defineVar | setGlobal => exact absurd hop (by simp)
  | call => exact globals_call m _ _
  | return_ => exact globals_return m
  | getGlobal =>
    refine globals_withName m _ fun name => ?_
    split <;> rfl
  | setLocal => exact globals_setSlot m _ _
  | add | sub | mul | div | mod | lt | le | gt | ge => exact globals_binary m _
  | eq => exact globals_binary m .eq
  | ne => exact globals_binary m .ne
  | neg => exact globals_unary m .neg
  | not => exact globals_unary m .not
  | jump => exact globals_moveTo m _
  | jumpIfFalse => exact globals_jumpIf m (fun v => !v.isTruthy) _
  | jumpIfTrue => exact globals_jumpIf m Value.isTruthy _
  | loop =>
    rw [exec.eq_def]
    dsimp only
    split
    · exact globals_moveTo m _
    · rfl
  | closure => exact globals_makeClosure m _ _ _
  | getCapture => exact globals_readCapture m _
  | setCapture => exact globals_writeCapture m _
  | print | array | record =>
    rw [exec.eq_def]
    dsimp only
    split
    · rfl
    case h_2 values m' h => exact (globals_take? h : m'.globals = m.globals)
  | constant | getLocal | len =>
    rw [exec.eq_def]
    dsimp only
    split <;> rfl
  | index => exact globals_give m.pop.2.pop.2 _
  | setIndex => exact globals_write m.pop.2.pop.2.pop.2 _ _
  | getProperty => exact globals_withName m _ fun name => globals_give m.pop.2 _
  | setProperty => exact globals_withName m _ fun name => globals_write m.pop.2.pop.2 _ _
  | _ => rfl

/-! ### Declarations -/

/-- Whether a name is bound for good. -/
def isTaken (m : Machine ω) (name : String) : Bool := (m.globals[name]?).any isFixed

/-- The declaration of a name for the value on top of the stack, unless it is refused. -/
def declare? (m : Machine ω) (name : String) (isMutable : Bool) : Option Declaration :=
  if m.isTaken name then none else some ⟨name, m.pop.1, isMutable⟩

/-- What an instruction declares. -/
def declarationOf? (m : Machine ω) : Instr → Option Declaration
  | ⟨.defineLet, index⟩ => (m.name? index).bind fun name => m.declare? name false
  | ⟨.defineVar, index⟩ => (m.name? index).bind fun name => m.declare? name true
  | _ => none

/-- **What the next instruction declares.** -/
def declaration? (m : Machine ω) : Option Declaration :=
  match m.frames with
  | [] => none
  | f :: _ =>
    match Instr.decode f.chunk.code f.ip with
    | .instr i => m.declarationOf? i
    | _ => none

/-- What is declared in a run. -/
def declarations : (fuel : Nat) → Machine ω → List Declaration
  | 0, _ => []
  | fuel + 1, m =>
    m.declaration?.toList ++
      match m.step with
      | .next m => declarations fuel m
      | _ => []

theorem defineGlobal_of_isTaken (m : Machine ω) {name : String} (isMutable : Bool)
    (h : m.isTaken name = true) :
    m.defineGlobal name isMutable = .raise (.immutableBinding name) m.pop.2 := by
  obtain ⟨b, hb, hfixed⟩ := (Option.any_eq_true _ _).1 h
  unfold defineGlobal
  dsimp only
  have hpop : m.pop.2.globals[name]? = some b := hb
  rw [hpop]
  exact if_pos hfixed

theorem defineGlobal_of_not_isTaken (m : Machine ω) {name : String} (isMutable : Bool)
    (h : m.isTaken name = false) :
    m.defineGlobal name isMutable = .next (m.pop.2.define name m.pop.1 isMutable) := by
  unfold defineGlobal
  dsimp only
  cases hb : m.pop.2.globals[name]? with
  | none => rfl
  | some b =>
    have hfixed : isFixed b = false := by
      rw [isTaken, show m.globals[name]? = some b from hb] at h
      exact h
    exact if_neg (Bool.eq_false_iff.1 hfixed)

/-- **A declaration** that is not refused is carried out. -/
theorem rebound_defineGlobal (m : Machine ω) (name : String) (isMutable : Bool) :
    Rebound m.globals (m.declare? name isMutable).toList
      (m.defineGlobal name isMutable).machine.globals := by
  unfold declare?
  cases ht : m.isTaken name with
  | true =>
    rw [m.defineGlobal_of_isTaken isMutable ht]
    exact .start
  | false =>
    rw [m.defineGlobal_of_not_isTaken isMutable ht]
    refine Rebound.start.declared ⟨name, m.pop.1, isMutable⟩ fun b hb => ?_
    exact (Option.any_eq_false _ _).1 ht b hb

theorem rebound_withName (m : Machine ω) (index : UInt16) (isMutable : Bool) :
    Rebound m.globals ((m.name? index).bind fun name => m.declare? name isMutable).toList
      (m.withName index fun name => m.defineGlobal name isMutable).machine.globals := by
  unfold withName
  cases m.name? index with
  | none => exact .start
  | some name => exact m.rebound_defineGlobal name isMutable

theorem rebound_assignGlobal (m : Machine ω) (name : String) :
    Rebound m.globals [] (m.assignGlobal name).machine.globals := by
  unfold assignGlobal
  split
  case h_1 b hb =>
    split
    case isTrue hmutable => exact Rebound.start.assigned hb hmutable _
    case isFalse => exact .start
  case h_2 => exact .start

theorem rebound_exec (m : Machine ω) (start : Nat) (i : Instr) :
    Rebound m.globals (m.declarationOf? i).toList (m.exec start i).machine.globals := by
  -- The instructions that touch the globals one by one, and all others together.
  by_cases hop : i.op ∈ [Opcode.defineLet, .defineVar, .setGlobal]
  · obtain ⟨op, operand⟩ := i
    simp only [List.mem_cons, List.not_mem_nil, or_false] at hop
    obtain rfl | rfl | rfl := hop
    · exact m.rebound_withName operand false
    · exact m.rebound_withName operand true
    · change Rebound m.globals [] (m.withName operand fun name => m.assignGlobal name).machine.globals
      unfold withName
      split
      · exact m.rebound_assignGlobal _
      · exact .start
  · rw [globals_exec m start i hop]
    have hnone : m.declarationOf? i = none := by
      unfold declarationOf?
      split
      · exact absurd List.mem_cons_self hop
      · exact absurd (List.mem_cons_of_mem _ List.mem_cons_self) hop
      · rfl
    rw [hnone]
    exact .start

/-- **An instruction** declares what it says, and changes no other binding but by an assignment. -/
theorem rebound_step (m : Machine ω) :
    Rebound m.globals m.declaration?.toList m.step.machine.globals := by
  unfold step declaration?
  cases hf : m.frames with
  | nil => exact .start
  | cons f callers =>
    dsimp only
    cases hi : Instr.decode f.chunk.code f.ip with
    | cut => exact .start
    | invalid byte =>
      change Rebound m.globals [] (m.moveTo (f.ip + 1)).globals
      rw [globals_moveTo]
      exact .start
    | instr i =>
      -- Moving on changes neither the names of the code nor the top of the stack.
      have hexec := (m.moveTo (f.ip + i.size)).rebound_exec f.ip i
      have hsame : (m.moveTo (f.ip + i.size)).declarationOf? i = m.declarationOf? i := by
        unfold declarationOf? name?
        rw [moveTo_eq hf, hf]
        rfl
      rw [hsame, globals_moveTo] at hexec
      exact hexec

/-- **A run** declares what its instructions declare. -/
theorem rebound_resume (m : Machine ω) (fuel : Nat) :
    Rebound m.globals (m.declarations fuel) (m.resume fuel).2.globals := by
  induction fuel generalizing m with
  | zero => exact .start
  | succ fuel ih =>
    have hstep := m.rebound_step
    unfold resume declarations
    generalize m.step = o at hstep ⊢
    cases o with
    | next m' => exact hstep.trans (ih m')
    | done v m' => exact hstep.trans .start
    | raise cause m' => exact hstep.trans .start
    | stuck m' => exact hstep.trans .start

/-- What is declared in a call from outside. -/
def declarationsOfCall (m : Machine ω) (name : String) (args : List Value) (fuel : Nat) :
    List Declaration :=
  match m.global? name with
  | none => []
  | some callee =>
    match (args.foldl push (m.push callee)).call callee args.length with
    | .next m' => if m.frames.length < m'.frames.length then m'.declarations fuel else []
    | _ => []

theorem globals_pushAll (values : List Value) (m : Machine ω) :
    (values.foldl push m).globals = m.globals := by
  rw [stack_pushAll]

/-- **A call from outside** declares what its instructions declare. -/
theorem rebound_callGlobal (m : Machine ω) (name : String) (args : List Value) (fuel : Nat) :
    Rebound m.globals (m.declarationsOfCall name args fuel)
      (m.callGlobal name args fuel).2.globals := by
  unfold callGlobal declarationsOfCall
  cases m.global? name with
  | none => exact .start
  | some callee =>
    have hcall := globals_call (args.foldl push (m.push callee)) callee args.length
    rw [globals_pushAll] at hcall
    change _ = m.globals at hcall
    dsimp only
    generalize (args.foldl push (m.push callee)).call callee args.length = o at hcall ⊢
    cases o with
    | next m' =>
      dsimp only
      split
      · rw [← hcall]
        exact m'.rebound_resume fuel
      · rw [← hcall]
        exact .start
    | done v m' | raise cause m' | stuck m' =>
      rw [← hcall]
      exact .start

end Machine

end DeployScript
