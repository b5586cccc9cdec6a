import DeployScript.Host.Standard
import DeployScript.Proofs.Code.Refusals
import DeployScript.Proofs.Machine.Failures
import DeployScript.Proofs.Machine.Globals
import DeployScript.Proofs.Program.Spelled

/-!
# Which errors are of syntax

A source that spells no script, and a program that has no code, are refused for their syntax. While code
runs there is one such failure, whatever is on the machine and whatever has failed on it before: an
instruction declares or assigns a global that is bound for good, which has the cause of an assignment that
is refused by the compiler. A builtin could say the same, but those of the standard library do not.

* `Library.Plain` — a library of which no builtin speaks of syntax.
* `Machine.Clashes` — the next instruction declares or assigns a name that is bound for good.
* `Machine.late_exec` — all other instructions; `Machine.clashes_of_step`, `Machine.raise_of_clashes` — the
  next instruction, in both directions.
* `Machine.errors_of_syntax` — scripts that do not run, runs and calls.
-/

namespace DeployScript

variable {ω : Type}

/-- **A library that does not speak of syntax** when a builtin fails. -/
def Library.Plain (l : Library ω) : Prop :=
  ∀ b ∈ l.builtins, ∀ context args world cause,
    (b.run context args world).1 = .error cause → cause.isSyntax = false

/-- The standard builtins fail only on arguments that they do not get. -/
theorem Library.plain_standard (s : Surroundings := {}) : (Library.standard s).Plain := by
  have hof : ∀ name params act, ∀ context args world cause,
      ((Builtin.of name params act).run context args world).1 = .error cause →
        cause.isSyntax = false := by
    intro name params act context args world cause h
    simp only [Builtin.of] at h
    split at h <;> cases h
    rfl
  intro b hb
  simp only [Library.standard, List.mem_cons, List.not_mem_nil, or_false] at hb
  obtain rfl | rfl | rfl | rfl | rfl | rfl | rfl | rfl | rfl | rfl | rfl | rfl | rfl | rfl | rfl := hb
  all_goals exact hof _ _ _

/-- An outcome that is no failure of syntax. -/
def Outcome.Late (o : Outcome ω) : Prop := ∀ cause m, o = .raise cause m → cause.isSyntax = false

namespace Machine

variable {m m' : Machine ω} {cause : Cause} {name : String}

/-! ### Instructions that do not speak of syntax -/

theorem late_next (m : Machine ω) : (Outcome.next m).Late := nofun

theorem late_stuck (m : Machine ω) : (Outcome.stuck m).Late := nofun

theorem late_raise (m : Machine ω) (h : cause.isSyntax = false) : (Outcome.raise cause m).Late := by
  intro cause' m' he
  cases he
  exact h

theorem late_give (m : Machine ω) {result : Except Cause Value} (h : External result) :
    (m.give result).Late := by
  cases result with
  | ok v => exact late_next _
  | error cause => exact late_raise m (h cause rfl).late

theorem late_write (m : Machine ω) {target : Except Cause Heap.Target} {v : Value}
    (h : ∀ cause, target = .error cause → cause.isSyntax = false) : (m.write target v).Late := by
  cases target with
  | ok target => exact late_next _
  | error cause => exact late_raise m (h cause rfl)

theorem late_binary (m : Machine ω) (op : BinaryOp) : (m.binary op).Late :=
  late_give _ (Heap.external_binary op _ _)

theorem late_unary (m : Machine ω) (op : UnaryOp) : (m.unary op).Late :=
  late_give _ (Heap.external_unary op _)

theorem late_withName (m : Machine ω) (index : UInt16) {next : String → Outcome ω}
    (h : ∀ name, (next name).Late) : (m.withName index next).Late := by
  unfold withName
  split
  · exact h _
  · exact late_stuck m

theorem late_setSlot (m : Machine ω) (slot : Nat) (v : Value) : (m.setSlot slot v).Late := by
  unfold setSlot
  split
  · exact late_next _
  · exact late_stuck m

theorem late_makeClosure (m : Machine ω) (start : Nat) (index : UInt16)
    (sources : List CaptureSource) : (m.makeClosure start index sources).Late := by
  unfold makeClosure
  split
  · exact late_stuck m
  · generalize gather sources #[] m = gathered
    obtain ⟨cells, missing, m'⟩ := gathered
    cases missing with
    | some index => exact late_raise _ rfl
    | none => exact late_next _
  · exact late_raise _ rfl

theorem late_readCapture (m : Machine ω) (index : Nat) : (m.readCapture index).Late := by
  unfold readCapture
  split
  · exact late_raise m rfl
  · split
    · split
      · exact late_next _
      · exact late_stuck m
    · exact late_next _
    · exact late_next _

theorem late_writeCapture (m : Machine ω) (index : Nat) : (m.writeCapture index).Late := by
  unfold writeCapture
  split
  · exact late_raise m rfl
  · dsimp only
    split
    · exact late_setSlot m _ _
    · exact late_next _
    · exact late_next _

theorem late_jumpIf (m : Machine ω) (condition : Value → Bool) (distance : UInt16) :
    (m.jumpIf condition distance).Late := by
  unfold jumpIf
  split <;> exact late_next _

theorem late_enter (m : Machine ω) (closure : Handle) (count : Nat) : (m.enter closure count).Late := by
  unfold enter
  split
  · exact late_raise m rfl
  · split
    · exact late_raise m rfl
    · split
      · exact late_raise m rfl
      · exact late_next _

theorem late_callIntrinsic (m : Machine ω) (f : Intrinsic) (count : Nat) :
    (m.callIntrinsic f count).Late := by
  unfold callIntrinsic
  dsimp only
  split
  · exact late_raise m rfl
  · split
    · exact late_raise m rfl
    · exact late_next _

theorem late_callBuiltin (hl : m.library.Plain) (name : String) (count : Nat) :
    (m.callBuiltin name count).Late := by
  unfold callBuiltin
  cases hb : m.library.get? name with
  | none => exact late_stuck m
  | some b =>
    dsimp only
    split
    case h_1 cause hargs => exact late_raise m (Heap.external_unpack _ _ _ cause hargs).late
    case h_2 args _ =>
      split
      case h_1 cause world hrun =>
        exact late_raise _ (hl b (List.mem_of_find?_eq_some hb) _ args m.world cause (by rw [hrun]))
      case h_2 => exact late_next _

/-- **A call** fails for no reason of syntax before it has started. -/
theorem late_call (hl : m.library.Plain) (callee : Value) (count : Nat) :
    (m.call callee count).Late := by
  cases callee with
  | closure h => exact late_enter m h count
  | function f => exact late_enter _ _ count
  | intrinsic f => exact late_callIntrinsic m f count
  | builtin name => exact late_callBuiltin hl name count
  | _ => exact late_raise m rfl

theorem late_return (m : Machine ω) : m.return_.Late := by
  unfold return_
  dsimp only
  split
  · nofun
  · split <;> nofun

/-- **Most instructions** do not speak of syntax. -/
theorem late_exec (hl : m.library.Plain) (start : Nat) (i : Instr)
    (hop : i.op ∉ [Opcode.defineLet, .defineVar, .setGlobal]) : (m.exec start i).Late := by
  obtain ⟨op, operand⟩ := i
  cases op with
  | defineLet | defineVar | setGlobal => exact absurd hop (by simp)
  | call => exact late_call hl _ _
  | return_ => exact late_return m
  | getGlobal =>
    refine late_withName m _ fun name => ?_
    split
    · exact late_next _
    · exact late_raise m rfl
  | setLocal => exact late_setSlot m _ _
  | add | sub | mul | div | mod | lt | le | gt | ge => exact late_binary m _
  | eq => exact late_binary m .eq
  | ne => exact late_binary m .ne
  | neg => exact late_unary m .neg
  | not => exact late_unary m .not
  | jumpIfFalse => exact late_jumpIf m (fun v => !v.isTruthy) _
  | jumpIfTrue => exact late_jumpIf m Value.isTruthy _
  | closure => exact late_makeClosure m _ _ _
  | getCapture => exact late_readCapture m _
  | setCapture => exact late_writeCapture m _
  | len =>
    rw [exec.eq_def]
    dsimp only
    split
    · exact late_next _
    · exact late_raise _ rfl
  | constant | getLocal | loop | print | array | record =>
    rw [exec.eq_def]
    dsimp only
    split
    all_goals first
      | exact late_next _
      | exact late_stuck m
  | index => exact late_give _ (Heap.external_index _ _)
  | setIndex => exact late_write _ fun _ => Heap.late_target
  | getProperty => exact late_withName m _ fun name => late_give _ (Heap.external_property name _)
  | setProperty =>
    exact late_withName m _ fun name =>
      late_write _ fun cause h => (Heap.external_propertyTarget name _ cause h).late
  | nil | true_ | false_ | pop | jump | closeCapture => exact late_next _

/-! ### Names that are bound for good -/

/-- **A machine clashes over a name:** the next instruction declares it, and it is taken by a function of the
language or of the host; or the next instruction assigns it, and it is immutable. -/
inductive Clashes (m : Machine ω) (name : String) : Prop
  | declared {f : Frame} {callers : List Frame} {index : UInt16} (hf : m.frames = f :: callers)
    (hi : Instr.decode f.chunk.code f.ip = .instr ⟨.defineLet, index⟩ ∨
      Instr.decode f.chunk.code f.ip = .instr ⟨.defineVar, index⟩)
    (hname : f.chunk.names[index.toNat]? = some name) (htaken : m.isTaken name = true)
  | assigned {f : Frame} {callers : List Frame} {index : UInt16} {b : Binding}
    (hf : m.frames = f :: callers) (hi : Instr.decode f.chunk.code f.ip = .instr ⟨.setGlobal, index⟩)
    (hname : f.chunk.names[index.toNat]? = some name) (hb : m.globals[name]? = some b)
    (himmutable : b.isMutable = false)

/-- The name of an operand, for a machine that has moved on in its code. -/
theorem name?_moveTo {f : Frame} {callers : List Frame} (hf : m.frames = f :: callers) (ip : Nat)
    (index : UInt16) : (m.moveTo ip).name? index = f.chunk.names[index.toNat]? := by
  rw [moveTo_eq hf]
  rfl

theorem defineGlobal_eq_raise {isMutable : Bool} (h : m.defineGlobal name isMutable = .raise cause m') :
    m.isTaken name = true ∧ cause = .immutableBinding name := by
  cases ht : m.isTaken name with
  | true =>
    rw [m.defineGlobal_of_isTaken isMutable ht] at h
    cases h
    exact ⟨rfl, rfl⟩
  | false =>
    rw [m.defineGlobal_of_not_isTaken isMutable ht] at h
    cases h

theorem assignGlobal_eq_raise (h : m.assignGlobal name = .raise cause m')
    (hs : cause.isSyntax = true) :
    ∃ b, m.globals[name]? = some b ∧ b.isMutable = false ∧ cause = .immutableBinding name := by
  unfold assignGlobal at h
  split at h
  case h_1 b hb =>
    split at h
    case isTrue => cases h
    case isFalse himmutable =>
      cases h
      exact ⟨b, hb, Bool.eq_false_iff.2 himmutable, rfl⟩
  case h_2 =>
    cases h
    cases hs

/-- **A failure of syntax** is a clash. -/
theorem clashes_of_step (hl : m.library.Plain) (h : m.step = .raise cause m')
    (hs : cause.isSyntax = true) : ∃ name, m.Clashes name ∧ cause = .immutableBinding name := by
  unfold step at h
  split at h
  case h_1 => cases h
  case h_2 f callers hf =>
  split at h
  case h_1 => cases h
  case h_2 =>
    cases h
    cases hs
  case h_3 i hi =>
  have hnames := name?_moveTo hf (f.ip + i.size)
  have htaken : ∀ name, (m.moveTo (f.ip + i.size)).isTaken name = m.isTaken name := fun name => by
    rw [isTaken, isTaken, globals_moveTo]
  have hglobals := globals_moveTo m (f.ip + i.size)
  have hplain : (m.moveTo (f.ip + i.size)).library.Plain := by
    rw [moveTo_eq hf]
    exact hl
  generalize m.moveTo (f.ip + i.size) = n at h hnames htaken hglobals hplain
  -- All instructions but the three that write a global are late.
  by_cases hop : i.op ∈ [Opcode.defineLet, .defineVar, .setGlobal]
  case neg => exact absurd hs (Bool.eq_false_iff.1 (late_exec hplain f.ip i hop cause m' h))
  obtain ⟨op, index⟩ := i
  have hwith : ∀ {index : UInt16} {next : String → Outcome ω},
      n.withName index next = .raise cause m' →
        ∃ name, f.chunk.names[index.toNat]? = some name ∧ next name = .raise cause m' := by
    intro index next h
    unfold withName at h
    rw [hnames] at h
    split at h
    case h_1 name hname => exact ⟨name, hname, h⟩
    case h_2 => cases h
  simp only [List.mem_cons, List.not_mem_nil, or_false] at hop
  obtain rfl | rfl | rfl := hop
  · obtain ⟨name, hname, h⟩ := hwith h
    obtain ⟨ht, rfl⟩ := defineGlobal_eq_raise h
    exact ⟨name, .declared hf (.inl hi) hname (htaken name ▸ ht), rfl⟩
  · obtain ⟨name, hname, h⟩ := hwith h
    obtain ⟨ht, rfl⟩ := defineGlobal_eq_raise h
    exact ⟨name, .declared hf (.inr hi) hname (htaken name ▸ ht), rfl⟩
  · obtain ⟨name, hname, h⟩ := hwith h
    obtain ⟨b, hb, himmutable, rfl⟩ := assignGlobal_eq_raise h hs
    exact ⟨name, .assigned hf hi hname (hglobals ▸ hb) himmutable, rfl⟩

/-- **A clash** is a failure, and one of syntax. -/
theorem raise_of_clashes (h : m.Clashes name) :
    ∃ m', m.step = .raise (.immutableBinding name) m' := by
  have hwith : ∀ {n : Machine ω} {index : UInt16} {next : String → Outcome ω},
      n.name? index = some name → n.withName index next = next name := by
    intro n index next hname
    rw [withName, hname]
  cases h with
  | @declared f callers index hf hi hname htaken =>
    have hraise : ∀ (ip : Nat) (isMutable : Bool), ∃ m', ((m.moveTo ip).withName index fun name =>
        (m.moveTo ip).defineGlobal name isMutable) = .raise (.immutableBinding name) m' := by
      intro ip isMutable
      rw [hwith ((name?_moveTo hf ip index).trans hname)]
      refine ⟨_, defineGlobal_of_isTaken _ isMutable ?_⟩
      rw [isTaken, globals_moveTo]
      exact htaken
    unfold step
    rw [hf]
    dsimp only
    obtain hi | hi := hi <;> rw [hi]
    · exact hraise _ false
    · exact hraise _ true
  | @assigned f callers index b hf hi hname hb himmutable =>
    have hraise : ∀ ip : Nat, (m.moveTo ip).assignGlobal name
        = .raise (.immutableBinding name) (m.moveTo ip) := by
      intro ip
      unfold assignGlobal
      rw [globals_moveTo, hb]
      exact if_neg (Bool.eq_false_iff.1 himmutable)
    unfold step
    rw [hf]
    dsimp only
    rw [hi]
    exact ⟨_, (hwith ((name?_moveTo hf _ index).trans hname)).trans (hraise _)⟩

/-! ### Runs -/

/-- A machine of which nothing is asked but that it has a library. -/
def keeper (l : Library ω) : Guard ω where
  within := Set.univ
  holds l' _ _ := l' = l
  acts h _ _ _ := h
  binds h _ _ := h

theorem guarded_keeper (m : Machine ω) : m.Guarded (keeper m.library) := by
  have hvalue : ∀ v : Value, v.Within Set.univ := fun v => by cases v <;> trivial
  exact ⟨fun v _ => hvalue v, fun _ _ _ v _ => hvalue v, fun _ _ v _ => hvalue v, rfl⟩

/-- **The library** of a machine stays the same. -/
theorem library_step (m : Machine ω) : m.step.machine.library = m.library :=
  (m.guarded_keeper.step fun _ _ _ _ _ _ _ v _ _ _ => by cases v <;> trivial).host

theorem library_call (m : Machine ω) (callee : Value) (count : Nat) :
    (m.call callee count).machine.library = m.library :=
  (m.guarded_keeper.call callee count).host

theorem Reaches.library (h : Reaches m m') : m'.library = m.library := by
  induction h with
  | here => rfl
  | collect _ ih => exact ih
  | @step m' m'' _ hs ih =>
    have hlibrary := library_step m'
    rw [hs] at hlibrary
    exact hlibrary.trans ih

/-- **An error of syntax in a run** is that of a clash which the run has come to. -/
theorem clashes_of_error (hl : m.library.Plain) {due : Nat → Bool} {fuel clock : Nat} {e : ScriptError}
    (h : (resumeOn due fuel clock m).1.1 = .error e) (hs : e.cause.isSyntax = true) :
    ∃ m' name, Reaches m m' ∧ m'.Clashes name ∧ e.cause = .immutableBinding name := by
  obtain ⟨m', cause, m'', hreaches, hraise, rfl, -⟩ := reaches_of_error h
  obtain ⟨name, hclash, hcause⟩ := clashes_of_step (hreaches.library ▸ hl) hraise hs
  exact ⟨m', name, hreaches, hclash, hcause⟩

/-- An error of a call from outside is not one of syntax unless a function has started. -/
theorem late_or_enters (hl : m.library.Plain) {due : Nat → Bool} {fuel clock : Nat} {name : String}
    {args : List Value} {e : ScriptError} (h : (callGlobalOn due fuel clock m name args).1.1 = .error e) :
    e.cause.isSyntax = false ∨
      ∃ m', m.Enters name args m' ∧ (resumeOn due fuel clock m').1.1 = .error e := by
  rw [callGlobalOn_eq] at h
  split at h
  case h_1 =>
    cases h
    exact .inl rfl
  case h_2 callee hg =>
    have hplain : (m.withArgs callee args).library.Plain := by
      rw [withArgs_eq]
      exact hl
    have hlate := late_call hplain callee args.length
    cases hcall : (m.withArgs callee args).call callee args.length with
    | next m' =>
      rw [hcall] at h
      dsimp only at h
      split at h
      case isTrue hlt => exact .inr ⟨m', ⟨callee, hg, hcall, hlt⟩, h⟩
      case isFalse => cases h
    | raise cause m' =>
      rw [hcall] at h
      cases h
      exact .inl (hlate cause m' hcall)
    | done value m' =>
      rw [hcall] at h
      cases h
    | stuck m' =>
      rw [hcall] at h
      cases h

theorem Enters.library {args : List Value} (h : m.Enters name args m') : m'.library = m.library := by
  obtain ⟨callee, -, hcall, -⟩ := h
  have hlibrary := library_call (m.withArgs callee args) callee args.length
  rw [hcall] at hlibrary
  rw [withArgs_eq] at hlibrary
  exact hlibrary

/-- **Errors of syntax** are those of sources and programs that do not run, and those of clashes, each of which
is one. Whatever is on a machine, an error of a run or of a call from outside is of syntax if and only if the run
has come to a clash and its cause says so. -/
theorem errors_of_syntax (m : Machine ω) (hl : m.library.Plain) (due : Nat → Bool) (fuel clock : Nat) :
    (∀ source e, TokenStream.ofSource source = .error e → e.cause.isSyntax = true) ∧
    (∀ source e, Program.ofSource source = .error e → e.cause.isSyntax = true) ∧
    (∀ p e, Compiled.ofProgram p = .error e → e.cause.isSyntax = true) ∧
    (∀ chunk e, (m.serve due fuel clock (.run chunk)).1 = .error e → (e.cause.isSyntax = true ↔
      ∃ m' name, Reaches (m.start chunk) m' ∧ m'.Clashes name ∧ e.cause = .immutableBinding name)) ∧
    (∀ function args e, (m.serve due fuel clock (.call function args)).1 = .error e →
      (e.cause.isSyntax = true ↔ ∃ m₀ m' name, m.Enters function args m₀ ∧ Reaches m₀ m' ∧
        m'.Clashes name ∧ e.cause = .immutableBinding name)) ∧
    ∀ (m' : Machine ω) name, m'.Clashes name → ∃ m'', m'.step = .raise (.immutableBinding name) m'' := by
  have hsyntax : ∀ {e : ScriptError} {name : String}, e.cause = .immutableBinding name →
      e.cause.isSyntax = true := fun he => by rw [he]; rfl
  refine ⟨fun _ _ => TokenStream.isSyntax_ofSource, fun _ _ => Program.isSyntax_ofSource, fun p e he => ?compiled,
    fun chunk e he => ⟨fun hs => ?run, fun ⟨_, _, _, _, hcause⟩ => hsyntax hcause⟩,
    fun function args e he => ⟨fun hs => ?call, fun ⟨_, _, _, _, _, _, hcause⟩ => hsyntax hcause⟩,
    fun _ _ => raise_of_clashes⟩
  case compiled =>
    cases Compiled.refusal_ofProgram he <;> rfl
  case run =>
    have hstart : (m.start chunk).library.Plain := hl
    exact clashes_of_error hstart he hs
  case call =>
    obtain hlate | ⟨m₀, henters, herror⟩ := late_or_enters hl he
    · exact absurd hs (Bool.eq_false_iff.1 hlate)
    · obtain ⟨m', name, hreaches, hclash, hcause⟩ := clashes_of_error (henters.library ▸ hl) herror hs
      exact ⟨m₀, m', name, henters, hreaches, hclash, hcause⟩

end Machine

/-! ### A script that fails for its syntax while it runs -/

/-- **An error of syntax of a script that has started:** its first statement is carried out, and the second
assigns what that has bound for good. -/
theorem assigned_while_running : ∃ c e, Compiled.ofSource "let a=nil\na=nil" = .ok c ∧
    ((Machine.new (ω := Unit) {} ()).runCompiled c 10).1 = .error e ∧ e.cause.isSyntax = true ∧
      e.span = some (.ofLine 2) := by
  let fails : ScriptError → Bool := fun e => e.cause.isSyntax && decide (e.span = some (.ofLine 2))
  obtain ⟨c, hc, hrun⟩ := Compiled.exists_of_any "let a=nil\na=nil" (fun c =>
    ((Machine.new (ω := Unit) {} ()).runCompiled c 10).1.error?.any fails) (by decide +kernel)
  obtain ⟨e, he, hsyntax⟩ := (Option.any_eq_true _ _).1 hrun
  simp only [fails, Bool.and_eq_true, decide_eq_true_eq] at hsyntax
  exact ⟨c, e, hc, Finish.error?_eq_some.1 he, hsyntax⟩

open Machine in
/-- The same script on a machine with the standard library comes to a clash. -/
theorem assigned_clashes : ∃ (m : Machine World) (chunk : Chunk Value) (e : ScriptError),
    m.library.Plain ∧ (m.serve (fun _ => false) 10 0 (.run chunk)).1 = .error e ∧
      ∃ m' name, Reaches (m.start chunk) m' ∧ m'.Clashes name ∧ e.cause = .immutableBinding name := by
  let m : Machine World := { Machine.new {} default with library := Library.standard }
  let run : Chunk Value → Finish := fun chunk => (m.serve (fun _ => false) 10 0 (.run chunk)).1
  obtain ⟨c, hc, hsyntax⟩ := Compiled.exists_of_any "let a=nil\na=nil" (fun c =>
    (run (c.main.mapConstants (Heap.literalValue #[]))).error?.any fun e : ScriptError => e.cause.isSyntax) (by decide +kernel)
  obtain ⟨e, he, hsyntax⟩ := (Option.any_eq_true _ _).1 hsyntax
  have he := Finish.error?_eq_some.1 he
  exact ⟨m, _, e, Library.plain_standard, he,
    ((m.errors_of_syntax Library.plain_standard (fun _ => false) 10 0).2.2.2.1 _ e he).1 hsyntax⟩

end DeployScript
