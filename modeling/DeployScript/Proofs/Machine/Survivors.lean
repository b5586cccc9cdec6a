import DeployScript.Proofs.Machine.Collections
import DeployScript.Proofs.Machine.Failures
import DeployScript.Proofs.Machine.Neutral
import DeployScript.Proofs.Machine.Spared

/-!
# Captured variables that outlive an error

An operation that fails leaves nothing on the stack, and a host goes on with what is on the heap. A captured
variable whose block or call was over by then has a cell of its own there, and nothing that happens later
changes it but an assignment to it. Nothing is assumed of the code that runs: the instructions are gone through
once, in `spares_step`, and `Later.holds` follows them by induction over all that may happen to a machine. A
variable that is still a slot of the stack where the operation fails has no cell of its own.

* `Machine.Later` — what a machine may come to, with the assignments to captured variables on the way;
  `later_perform` — each operation is among it.
* `Machine.Holds`, `Later.holds` — a closure with a variable of its own, and that it keeps the variable.
* `Machine.Apart` — how such a variable is read, assigned and shared.
* `Machine.Raises`, `raises_of_error` — where an operation fails, and what it leaves.
* `closed_captures_survive` — the main statement; `open_capture_lost` — what it does not say.
-/

namespace DeployScript.Machine

variable {ω : Type} {P : Machine ω → Prop} {m m' : Machine ω} {as : List Assignment} {g h : Handle} {v : Value}

/-! ### What happens to a machine -/

/-- A machine with values from the host on its heap. -/
def storing (m : Machine ω) (args : List HostValue) : Machine ω :=
  { m with heap := (Session.storeArgs args m.heap).2 }

/-- A machine at the start of a script. -/
def starting (m : Machine ω) (c : Compiled) : Machine ω :=
  start { m with heap := (m.heap.install c).2 } (m.heap.install c).1

/-- **What a machine may come to,** with the assignments to captured variables on the way: instructions are
carried out, a run ends and leaves nothing on the stack, or a call its result, and a host starts scripts, stores
values, calls functions and binds globals. A collection happens only where `P` holds. A machine that has failed
is counted as if it went on. -/
inductive Later (P : Machine ω → Prop) (m : Machine ω) : List Assignment → Machine ω → Prop
  | here : Later P m [] m
  | step {as : List Assignment} {m' : Machine ω} (h : Later P m as m') :
    Later P m (as ++ m'.assignment?.toList) m'.step.machine
  | collect {as : List Assignment} {m' : Machine ω} (h : Later P m as m') (hP : P m') : Later P m as m'.collect
  | reset {as : List Assignment} {m' : Machine ω} (h : Later P m as m') : Later P m as m'.reset
  | pop {as : List Assignment} {m' : Machine ω} (h : Later P m as m') : Later P m as m'.pop.2
  | start {as : List Assignment} {m' : Machine ω} (h : Later P m as m') (c : Compiled) :
    Later P m as (m'.starting c)
  | store {as : List Assignment} {m' : Machine ω} (h : Later P m as m') (args : List HostValue) :
    Later P m as (m'.storing args)
  | call {as : List Assignment} {m' : Machine ω} (h : Later P m as m') (callee : Value) (args : List Value) :
    Later P m as ((m'.withArgs callee args).call callee args.length).machine
  | define {as : List Assignment} {m' : Machine ω} (h : Later P m as m') (name : String) (v : Value)
    (isMutable : Bool) : Later P m as (m'.define name v isMutable)

/-- **A closure is in use** if the machine refers to it. -/
def InUse (g : Handle) (m : Machine ω) : Prop := m.heap.Reachable m.roots g

/-- **A closure has a variable** that is no slot of the stack but a cell of its own. -/
structure Holds (m : Machine ω) (g h : Handle) (v : Value) : Prop where
  captured : ∃ d, m.heap.closure? g = some d ∧ h ∈ d.cells
  value : m.heap.cell? h = some (.closed v)

theorem Holds.of_spares {own : Set Handle} (hm : m.Holds g h v) (hs : m.heap.Spares own as m'.heap) :
    m'.Holds g h (Assignment.latest as h v) := by
  obtain ⟨d, hd, hh⟩ := hm.captured
  exact ⟨⟨d, hs.closure g d hd, hh⟩, hs.closed h v hm.value⟩

theorem Holds.collect (hm : m.Holds g h v) (hw : m.heap.Wf) (hused : m.InUse g) : m.collect.Holds g h v := by
  obtain ⟨d, hd, hh⟩ := hm.captured
  obtain ⟨hkeeps, -⟩ := keeps_collect hw
  obtain ⟨-, hcells⟩ := hkeeps.of_closure hused hd
  refine ⟨⟨d, (hkeeps.closure? hused).trans hd, hh⟩, ?_⟩
  rw [hkeeps.cell? (hcells h hh)]
  exact hm.value

theorem spares_start {own : Set Handle} (hw : m.heap.Wf) (chunk : Chunk Value) :
    m.heap.Spares own [] (m.start chunk).heap := by
  have hfunction : m.heap.Spares own [] (m.heap.insert (.function (scriptPrototype chunk))).2 :=
    .insert_plain hw _ nofun
  refine hfunction.trans (.insert_plain hfunction.wf _ fun d hd => ?_)
  cases hd
  rfl

theorem spares_starting (hw : m.heap.Wf) (c : Compiled) : m.heap.Spares m.own [] (m.starting c).heap := by
  have hinstall : m.heap.Spares m.own [] (m.heap.install c).2 := Heap.spares_install hw c
  exact hinstall.trans (spares_start (m := { m with heap := (m.heap.install c).2 }) hinstall.wf _)

theorem spares_storing (hw : m.heap.Wf) (args : List HostValue) :
    m.heap.Spares m.own [] (m.storing args).heap :=
  Heap.spares_ofHostItems hw args #[]

theorem spares_calling (hw : m.heap.Wf) (callee : Value) (args : List Value) :
    m.heap.Spares m.own [] ((m.withArgs callee args).call callee args.length).machine.heap := by
  rw [withArgs_eq]
  exact spares_call (m := { m with stack := m.stack.push callee ++ args.toArray }) hw callee args.length

theorem Later.wf (h : m.Later P as m') (hw : m.heap.Wf) : m'.heap.Wf := by
  induction h with
  | here => exact hw
  | step _ ih => exact (spares_step ih).wf
  | collect _ _ ih => exact (keeps_collect ih).1.wf
  | reset _ ih | pop _ ih | define _ _ _ _ ih => exact ih
  | start _ c ih => exact (spares_starting ih c).wf
  | store _ args ih => exact (spares_storing ih args).wf
  | call _ callee args ih => exact (spares_calling ih callee args).wf

/-- **A closure keeps its variables** as long as it is in use. -/
theorem Later.holds (hl : m.Later (InUse g) as m') (hw : m.heap.Wf) (hm : m.Holds g h v) :
    m'.Holds g h (Assignment.latest as h v) := by
  induction hl with
  | here => exact hm
  | @step as m' hl ih =>
    rw [Assignment.latest_append]
    exact ih.of_spares (spares_step (hl.wf hw))
  | collect hl hused ih => exact ih.collect (hl.wf hw) hused
  | reset _ ih | pop _ ih | define _ _ _ _ ih => exact ⟨ih.captured, ih.value⟩
  | start hl c ih => exact ih.of_spares (spares_starting (hl.wf hw) c)
  | store hl args ih => exact ih.of_spares (spares_storing (hl.wf hw) args)
  | call hl callee args ih => exact ih.of_spares (spares_calling (hl.wf hw) callee args)

/-! ### A variable of its own -/

/-- **A cell that is no slot of the stack:** a function that has captured it reads its value and assigns it
without touching the stack, and it comes to be shared in calls of such functions only. -/
structure Apart (m : Machine ω) (h : Handle) (v : Value) : Prop where
  read : ∀ index, m.captured? index = some h → m.readCapture index = .next (m.push v)
  write : ∀ index, m.captured? index = some h →
    m.writeCapture index = .next { m with heap := m.heap.setCell h (.closed (m.peek 0)) }
  shared : ∀ g d, m.step.machine.heap.closure? g = some d → h ∈ d.cells →
    m.heap.closure? g = some d ∨ h ∈ m.own

theorem apart (hw : m.heap.Wf) (hv : m.heap.cell? h = some (.closed v)) : m.Apart h v where
  read index hi := by simp [readCapture, hi, hv]
  write index hi := by simp [writeCapture, hi, hv]
  shared g d hd hh := ((spares_step hw).made g d hd).imp_right fun hown => hown h hh v hv

/-! ### Operations -/

theorem later_collectIf {m₀ : Machine ω} (h : m₀.Later P as m) (due : Bool) (hP : due = true → P m) :
    m₀.Later P as (m.collectIf due) := by
  unfold collectIf
  split
  case isTrue hdue => exact h.collect (hP hdue)
  case isFalse => exact h

theorem later_resumeOn {m₀ : Machine ω} {due : Nat → Bool} (hP : ∀ n m, due n = true → P m)
    (fuel clock : Nat) (h : m₀.Later P as m) :
    ∃ as', m₀.Later P as' (resumeOn due fuel clock m).1.2 := by
  induction fuel generalizing as clock m with
  | zero => exact ⟨as, h⟩
  | succ fuel ih =>
    have hstep := (later_collectIf h (due clock) (hP clock m)).step
    unfold resumeOn
    cases hs : (m.collectIf (due clock)).step <;> rw [hs] at hstep
    case next => exact ih _ hstep
    case done | stuck => exact ⟨_, hstep⟩
    case raise => exact ⟨_, hstep.reset⟩

theorem later_callGlobalOn {m₀ : Machine ω} {due : Nat → Bool} (hP : ∀ n m, due n = true → P m)
    (fuel clock : Nat) (h : m₀.Later P as m) (name : String) (args : List Value) :
    ∃ as', m₀.Later P as' (callGlobalOn due fuel clock m name args).1.2 := by
  rw [callGlobalOn_eq]
  cases m.global? name with
  | none => exact ⟨as, h⟩
  | some callee =>
    have hcall := h.call callee args
    dsimp only
    cases hs : (m.withArgs callee args).call callee args.length <;> rw [hs] at hcall <;> dsimp only
    case next m' =>
      split
      · exact later_resumeOn hP fuel clock hcall
      · exact ⟨_, hcall.pop⟩
    case done | stuck => exact ⟨_, hcall⟩
    case raise => exact ⟨_, hcall.reset⟩

/-- **An operation** is among what may happen to a machine. -/
theorem later_perform {m₀ : Machine ω} {due : Nat → Bool} (hP : ∀ n m, due n = true → P m)
    (fuel clock : Nat) (h : m₀.Later P as m) (op : Operation) :
    ∃ as', m₀.Later P as' (m.perform due fuel clock op).1.2 := by
  have hcollect := later_collectIf h (due clock) (hP clock m)
  unfold perform
  generalize m.collectIf (due clock) = m at hcollect ⊢
  cases op with
  | exec source =>
    dsimp only
    cases Compiled.ofSource source with
    | error e => exact ⟨_, hcollect⟩
    | ok c => exact later_resumeOn hP fuel _ (hcollect.start c)
  | call name args => exact later_callGlobalOn hP fuel _ (hcollect.store args) name _
  | define name value isMutable =>
    have hstored := (hcollect.store [value]).define name (Heap.ofHost value m.heap).1 isMutable
    exact ⟨_, hstored⟩
  | get name =>
    dsimp only
    cases m.global? name <;> exact ⟨_, hcollect⟩
  | globals => exact ⟨_, hcollect⟩

/-! ### Failures -/

/-- **Where an operation fails,** with what, and on which machine: a source that spells no script, an instruction
of a script that has started, a global that there is not, a call that does not start, or an instruction of a call
that has started. -/
inductive Raises (m : Machine ω) : Operation → ScriptError → Machine ω → Prop
  | refused {source : String} {e : ScriptError} (h : Compiled.ofSource source = .error e) :
    Raises m (.exec source) e m
  | exec {source : String} {c : Compiled} {m' raised : Machine ω} {cause : Cause}
    (hc : Compiled.ofSource source = .ok c) (hr : (m.starting c).Reaches m')
    (hs : m'.step = .raise cause raised) : Raises m (.exec source) (raised.errorHere cause) raised
  | absent {name : String} (hg : m.global? name = none) (args : List HostValue) :
    Raises m (.call name args) (.ofCause (.undefinedVariable name)) (m.storing args)
  | call {name : String} {args : List HostValue} {callee : Value} {raised : Machine ω} {cause : Cause}
    (hg : m.global? name = some callee) (hc : m.calling callee args = .raise cause raised) :
    Raises m (.call name args) (.ofCause cause) raised
  | called {name : String} {args : List HostValue} {callee : Value} {m' m'' raised : Machine ω} {cause : Cause}
    (hg : m.global? name = some callee) (hc : m.calling callee args = .next m') (hr : m'.Reaches m'')
    (hs : m''.step = .raise cause raised) : Raises m (.call name args) (raised.errorHere cause) raised

theorem raises_of_error_call {due : Nat → Bool} {fuel clock : Nat} {name : String} {args : List HostValue}
    {e : ScriptError} (h : (callGlobalOn due fuel clock (m.storing args) name
      (Session.storeArgs args m.heap).1.toList).1 = (.error e, m')) :
    ∃ raised, m.Raises (.call name args) e raised ∧ m'.heap = raised.heap := by
  let values := (Session.storeArgs args m.heap).1.toList
  have hcalling : ∀ callee, ((m.storing args).withArgs callee values).call callee values.length
      = m.calling callee args := fun _ => rfl
  rw [callGlobalOn_eq, show (m.storing args).global? name = m.global? name from rfl] at h
  cases hg : m.global? name with
  | none =>
    rw [hg] at h
    cases h
    exact ⟨_, .absent hg args, rfl⟩
  | some callee =>
    rw [hg] at h
    dsimp only at h
    rw [hcalling] at h
    cases hc : m.calling callee args with
    | next m₁ =>
      rw [hc] at h
      dsimp only at h
      split at h
      case isTrue =>
        obtain ⟨m₂, cause, raised, hr, hs, rfl, hreset⟩ := reaches_of_error (congrArg Prod.fst h)
        refine ⟨raised, .called hg hc hr hs, ?_⟩
        rw [show m' = raised.reset from (congrArg Prod.snd h).symm.trans hreset]
        rfl
      case isFalse => cases h
    | raise cause raised =>
      rw [hc] at h
      cases h
      exact ⟨raised, .call hg hc, rfl⟩
    | done v m₁ | stuck m₁ =>
      rw [hc] at h
      cases h

/-- **An operation that fails** leaves the objects as they are where it fails. -/
theorem raises_of_error {due : Nat → Bool} {fuel clock : Nat} {op : Operation} {e : ScriptError}
    (h : (m.perform due fuel clock op).1 = (.error e, m')) :
    ∃ raised, (m.collectIf (due clock)).Raises op e raised ∧ m'.heap = raised.heap := by
  unfold perform at h
  generalize m.collectIf (due clock) = m at h ⊢
  -- The answer to a run is an error only if the run ends with it.
  have hanswer : ∀ {m : Machine ω} {finish : Finish}, m.answer finish = .error e → finish = .error e := by
    intro m finish h
    cases finish <;> cases h
    rfl
  cases op with
  | exec source =>
    dsimp only at h
    cases hc : Compiled.ofSource source with
    | error e' =>
      rw [hc] at h
      cases h
      exact ⟨_, .refused hc, rfl⟩
    | ok c =>
      rw [hc] at h
      obtain ⟨he, rfl⟩ := Prod.mk.inj h
      obtain ⟨m₁, cause, raised, hr, hs, rfl, hreset⟩ := reaches_of_error (hanswer he)
      refine ⟨raised, .exec hc hr hs, ?_⟩
      rw [hreset]
      rfl
  | call name args =>
    obtain ⟨he, rfl⟩ := Prod.mk.inj h
    exact raises_of_error_call (Prod.ext (hanswer he) rfl)
  | define name value isMutable => cases h
  | get name =>
    dsimp only at h
    cases hg : m.global? name <;> rw [hg] at h <;> cases h
  | globals => cases h

theorem Reaches.wf (h : m.Reaches m') (hw : m.heap.Wf) : m'.heap.Wf := by
  induction h with
  | here => exact hw
  | collect _ ih => exact (keeps_collect ih).1.wf
  | step _ hs ih =>
    have hstep := (spares_step ih).wf
    rwa [hs] at hstep

theorem Raises.wf {op : Operation} {e : ScriptError} {raised : Machine ω} (h : m.Raises op e raised)
    (hw : m.heap.Wf) : raised.heap.Wf := by
  have hraise : ∀ {m' : Machine ω} {cause : Cause}, m'.heap.Wf → m'.step = .raise cause raised →
      raised.heap.Wf := by
    intro m' cause hw' hs
    have hstep := (spares_step hw').wf
    rwa [hs] at hstep
  have hcalling : ∀ callee args, (m.calling callee args).machine.heap.Wf := fun callee args =>
    (spares_calling (m := m.storing args) (spares_storing hw args).wf callee _).wf
  cases h with
  | refused => exact hw
  | exec _ hr hs => exact hraise (hr.wf (spares_starting hw _).wf) hs
  | absent _ args => exact (spares_storing hw args).wf
  | @call _ args callee _ _ _ hc =>
    have hcall := hcalling callee args
    rwa [hc] at hcall
  | @called _ args callee _ _ _ _ _ hc hr hs =>
    have hcall := hcalling callee args
    rw [hc] at hcall
    exact hraise (hr.wf hcall) hs

theorem wf_offering (assets : Assets) (library : Library ω) (world : ω) :
    (offering assets library world).heap.Wf := by
  rw [offering_eq]
  exact Heap.wf_empty

/-- **What a closure has captured for good outlives a failure.** Whatever has happened to a machine, let an
operation fail, and let a closure have captured a variable that is no slot of the stack any more where it fails.
Then the closure keeps the variable for as long as it is in use, and at each moment the value of the variable is
the one that it had at the failure or the one that was assigned last: by a function that had captured it, since
nothing else changes it. A function that has captured it reads that value and assigns a new one without touching
the stack, and a new closure comes to share it only where such a function makes the closure. -/
theorem closed_captures_survive {assets : Assets} {library : Library ω} {world : ω} {before : List Assignment}
    {m m₁ : Machine ω} (hm : (offering assets library world).Later (fun _ => True) before m)
    {due : Nat → Bool} {fuel clock : Nat} {op : Operation} {e : ScriptError}
    (hfail : (m.perform due fuel clock op).1 = (.error e, m₁)) :
    ∃ raised, (m.collectIf (due clock)).Raises op e raised ∧ m₁.heap = raised.heap ∧
      ∀ g h v, raised.Holds g h v → ∀ as m', m₁.Later (InUse g) as m' →
        m'.Holds g h (Assignment.latest as h v) ∧ m'.Apart h (Assignment.latest as h v) := by
  obtain ⟨raised, hraises, hheap⟩ := raises_of_error hfail
  have hw := (later_collectIf hm (due clock) fun _ => trivial).wf (wf_offering assets library world)
  have hw₁ : m₁.heap.Wf := hheap ▸ hraises.wf hw
  refine ⟨raised, hraises, hheap, fun g h v hholds as m' hlater => ?_⟩
  have hholds₁ : m₁.Holds g h v := ⟨hheap ▸ hholds.captured, hheap ▸ hholds.value⟩
  have hholds' := hlater.holds hw₁ hholds₁
  exact ⟨hholds', apart (hlater.wf hw₁) hholds'.value⟩

/-- Whether an answer is an error. -/
def isFailure : Answer → Bool
  | .error _ => true
  | _ => false

/-- The text that an answer is. -/
def textOf? : Answer → Option String
  | .value (.text s) _ => some s
  | _ => none

/-- The text that a cell has for its own. -/
def ownText? : Cell → Option String
  | .closed (.text s) => some s
  | _ => none

theorem error_of_isFailure {answer : Answer} (h : isFailure answer = true) : ∃ e, answer = .error e := by
  cases answer <;> cases h
  exact ⟨_, rfl⟩

theorem value_of_textOf? {answer : Answer} {s : String} (h : textOf? answer = some s) :
    ∃ report, answer = .value (.text s) report := by
  cases answer with
  | value v report => cases v <;> cases h; exact ⟨report, rfl⟩
  | _ => cases h

theorem closed_of_ownText? {c : Cell} {s : String} (h : ownText? c = some s) : c = .closed (.text s) := by
  cases c with
  | closed v => cases v <;> cases h; rfl
  | opened slot => cases h

/-- A script makes a function that has captured a text, and another one fails. -/
theorem captured_text_survives :
    let m : Machine Unit := ((offering {} Library.empty ()).perform (fun _ => false) 60 0 (.exec
      "var g\nfn f() \x7b var x = \"x\"\n fn h() \x7b return x \x7d\n return h \x7d\ng = f()")).1.2
    let op := Operation.exec "nil.x"
    ∃ e m₁ raised, (m.perform (fun _ => false) 60 0 op).1 = (.error e, m₁) ∧ m.Raises op e raised ∧
      raised.Holds ⟨6⟩ ⟨5⟩ (.text "x") ∧ ∀ as m', m₁.Later (InUse ⟨6⟩) as m' →
        m'.Holds ⟨6⟩ ⟨5⟩ (Assignment.latest as ⟨5⟩ (.text "x")) ∧
        m'.Apart ⟨5⟩ (Assignment.latest as ⟨5⟩ (.text "x")) := by
  intro m op
  have hrun : isFailure (m.perform (fun _ => false) 60 0 op).1.1 = true ∧
      ((m.perform (fun _ => false) 60 0 op).1.2.heap.closure? ⟨6⟩).any (fun d => d.cells.contains ⟨5⟩) = true ∧
      ((m.perform (fun _ => false) 60 0 op).1.2.heap.cell? ⟨5⟩).bind ownText? = some "x" := by decide +kernel
  obtain ⟨hfailed, hclosure, hcell⟩ := hrun
  obtain ⟨e, he⟩ := error_of_isFailure hfailed
  obtain ⟨d, hd, hmem⟩ := (Option.any_eq_true _ _).1 hclosure
  obtain ⟨c, hc, htext⟩ := Option.bind_eq_some_iff.1 hcell
  have hresult : (m.perform (fun _ => false) 60 0 op).1 = (.error e, (m.perform (fun _ => false) 60 0 op).1.2) :=
    Prod.ext he rfl
  obtain ⟨before, hbefore⟩ := later_perform (P := fun _ => True) (fun _ _ _ => trivial) 60 0 .here _
  obtain ⟨raised, hraises, hheap, hsurvive⟩ := closed_captures_survive hbefore hresult
  have hholds : raised.Holds ⟨6⟩ ⟨5⟩ (.text "x") := by
    rw [hheap] at hd hc
    exact ⟨⟨d, hd, by simpa using hmem⟩, closed_of_ownText? htext ▸ hc⟩
  exact ⟨e, _, raised, hresult, hraises, hholds, hsurvive _ _ _ hholds⟩

/-- **A variable that is still a slot of the stack where an operation fails** is lost with the stack. A later
script reads a variable of its own through the function that had captured it. -/
theorem open_capture_lost :
    let m : Machine Unit := offering {} Library.empty ()
    let failed := (m.perform (fun _ => false) 60 0 (.exec
      "var g\nfn f() \x7b var x = \"x\"\n fn h() \x7b return x \x7d\n g = h\n nil.x \x7d\nf()")).1
    let later := (failed.2.perform (fun _ => false) 60 0 (.exec
      "\x7b var a = \"a\"\n var b = \"b\"\n return g() \x7d")).1
    (∃ e, failed.1 = .error e) ∧ ∃ report, later.1 = .value (.text "b") report := by
  intro m failed later
  have hrun : isFailure failed.1 = true ∧ textOf? later.1 = some "b" := by decide +kernel
  exact ⟨error_of_isFailure hrun.1, value_of_textOf? hrun.2⟩

end DeployScript.Machine
