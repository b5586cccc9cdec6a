import DeployScript.Code.Compile
import DeployScript.Machine.Run
import DeployScript.Proofs.Machine.Lockstep
import DeployScript.Session.Basic

/-!
# Collections cannot be noticed

A session is a list of operations on one machine. A schedule says at which of the places between
two instructions and between two operations there is a collection. Two sessions that differ in
their schedules alone give the same answers: `collections_invisible`.

* `Operation`, `Answer` — what a host asks of a machine, and what it gets.
* `Machine.resumeOn`, `perform`, `session` — runs under a schedule.
* `Isomorphic.linked` — links pair all objects that can be reached.
* `Isomorphic.perform` — one operation on isomorphic machines under two schedules.
-/

namespace DeployScript

variable {ω : Type}

/-! ### Sessions under a schedule -/

/-- What a host asks of a machine. Arguments and values that it gives are stored first. -/
inductive Operation
  | exec (source : String)
  | call (name : String) (args : List HostValue)
  | define (name : String) (value : HostValue) (isMutable : Bool)
  | get (name : String)
  | globals

/-- What a host can see of a value. -/
structure Report where
  copy : HostValue
  text : String
  short : String
  typeName : String
  isTruthy : Bool
  isCallable : Bool

/-- What a host gets: a value or the globals with what can be seen of them, or why not. -/
inductive Answer
  | value (value : Value) (report : Report)
  | error (error : ScriptError)
  | absent
  | defined
  | globals (entries : List (String × Binding × Report))
  | stuck
  | unfinished

namespace Machine

def report (m : Machine ω) (v : Value) : Report :=
  { copy := m.heap.toHost v, text := m.heap.display v, short := v.shown, typeName := v.typeName
    isTruthy := v.isTruthy, isCallable := v.isCallable }

/-- Carries out instructions. At the place in front of each a collection may be due; places are
counted by `clock`. -/
def resumeOn (due : Nat → Bool) : (fuel clock : Nat) → Machine ω → (Finish × Machine ω) × Nat
  | 0, clock, m => ((.unfinished, m), clock)
  | fuel + 1, clock, m =>
    match (m.collectIf (due clock)).step with
    | .next m => resumeOn due fuel (clock + 1) m
    | .done value m => ((.value value, m), clock + 1)
    | .raise cause m => ((.error (m.errorHere cause), m.reset), clock + 1)
    | .stuck m => ((.stuck, m), clock + 1)

/-- Calls the function that a global is bound to. -/
def callGlobalOn (due : Nat → Bool) (fuel clock : Nat) (m : Machine ω) (name : String)
    (args : List Value) : (Finish × Machine ω) × Nat :=
  match m.global? name with
  | none => ((.error (.ofCause (.undefinedVariable name)), m), clock)
  | some callee =>
    let depth := m.frames.length
    let m := args.foldl push (m.push callee)
    match m.call callee args.length with
    | .next m =>
      if depth < m.frames.length then resumeOn due fuel clock m
      else
        let (value, m) := m.pop
        ((.value value, m), clock)
    | .done value m => ((.value value, m), clock)
    | .raise cause m => ((.error (.ofCause cause), m.reset), clock)
    | .stuck m => ((.stuck, m), clock)

/-- The answer to a run or a call. -/
def answer (m : Machine ω) : Finish → Answer
  | .value v => .value v (m.report v)
  | .error e => .error e
  | .stuck => .stuck
  | .unfinished => .unfinished

/-- **Carries out an operation.** At the place in front of it a collection may be due. -/
def perform (due : Nat → Bool) (fuel clock : Nat) (op : Operation) (m : Machine ω) :
    (Answer × Machine ω) × Nat :=
  let m := m.collectIf (due clock)
  match op with
  | .exec source =>
    match Compiled.ofSource source with
    | .error e => ((.error e, m), clock + 1)
    | .ok compiled =>
      let (chunk, heap) := m.heap.install compiled
      let ((finish, m), clock) := resumeOn due fuel (clock + 1) (start { m with heap } chunk)
      ((m.answer finish, m), clock)
  | .call name args =>
    let (values, heap) := Session.storeArgs args m.heap
    let ((finish, m), clock) := callGlobalOn due fuel (clock + 1) { m with heap } name values.toList
    ((m.answer finish, m), clock)
  | .define name value isMutable =>
    let (v, heap) := Heap.ofHost value m.heap
    ((.defined, { m with heap }.define name v isMutable), clock + 1)
  | .get name =>
    match m.global? name with
    | some v => ((.value v (m.report v), m), clock + 1)
    | none => ((.absent, m), clock + 1)
  | .globals =>
    ((.globals (m.globals.toList.map fun g => (g.1, g.2, m.report g.2.value)), m), clock + 1)

/-- **A session:** the answer to each operation, with the machine behind it. -/
def session (due : Nat → Bool) (fuel : Nat) : (ops : List Operation) → (clock : Nat) →
    Machine ω → List (Answer × Machine ω)
  | [], _, _ => []
  | op :: ops, clock, m =>
    let (answered, clock) := m.perform due fuel clock op
    answered :: session due fuel ops clock answered.2

/-- A machine that offers the builtins of a library. -/
def offering (assets : Assets) (library : Library ω) (world : ω) : Machine ω :=
  library.names.foldl (fun m name => m.define name (.builtin name) false)
    { Machine.new assets world with library }

/-! ### Sessions without collections -/

theorem resumeOn_never (fuel clock : Nat) (m : Machine ω) :
    (resumeOn (fun _ => false) fuel clock m).1 = m.resume fuel := by
  induction fuel generalizing clock m with
  | zero => rfl
  | succ fuel ih =>
    simp only [resumeOn, resume, collectIf, Bool.false_eq_true, if_false]
    cases m.step with
    | next m => exact ih (clock + 1) m
    | _ => rfl

/-- **Where no collection is due,** a script runs as it does on its own, -/
theorem perform_exec_never (fuel clock : Nat) {source : String} {compiled : Compiled}
    (h : Compiled.ofSource source = .ok compiled) (m : Machine ω) :
    (m.perform (fun _ => false) fuel clock (.exec source)).1.2 = (m.runCompiled compiled fuel).2 := by
  simp only [perform, h, collectIf, Bool.false_eq_true, if_false, runCompiled, run]
  rw [← resumeOn_never fuel (clock + 1)]

/-- and so does a call. -/
theorem callGlobalOn_never (fuel clock : Nat) (m : Machine ω) (name : String)
    (args : List Value) :
    (m.callGlobalOn (fun _ => false) fuel clock name args).1 = m.callGlobal name args fuel := by
  unfold callGlobalOn callGlobal
  cases m.global? name with
  | none => rfl
  | some callee =>
    dsimp only
    cases (args.foldl push (m.push callee)).call callee args.length with
    | next m' =>
      dsimp only
      split
      · exact resumeOn_never fuel clock m'
      · rfl
    | _ => rfl

end Machine

/-! ### Answers up to handles -/

/-- The error that a run ends with, if it does. -/
def Finish.error? : Finish → Option ScriptError
  | .error e => some e
  | .value _ | .stuck | .unfinished => none

theorem Finish.error?_eq_some {finish : Finish} {e : ScriptError} :
    finish.error? = some e ↔ finish = .error e := by
  cases finish <;> simp [error?]

/-- Ends of runs that are equal up to handles. -/
inductive Finish.Similar (β : Link) : Finish → Finish → Prop
  | value {v v' : Value} (hv : v.Similar β v') : Similar β (.value v) (.value v')
  | error (e : ScriptError) : Similar β (.error e) (.error e)
  | stuck : Similar β .stuck .stuck
  | unfinished : Similar β .unfinished .unfinished

/-- **Answers that are equal up to handles.** What can be seen of values is the same. -/
inductive Answer.Similar (β : Link) : Answer → Answer → Prop
  | value {v v' : Value} (hv : v.Similar β v') (report : Report) :
    Similar β (.value v report) (.value v' report)
  | error (e : ScriptError) : Similar β (.error e) (.error e)
  | absent : Similar β .absent .absent
  | defined : Similar β .defined .defined
  | globals {entries entries' : List (String × Binding × Report)}
    (h : List.Forall₂ (fun g g' => g.1 = g'.1 ∧ g.2.1.Similar β g'.2.1 ∧ g.2.2 = g'.2.2)
      entries entries') : Similar β (.globals entries) (.globals entries')
  | stuck : Similar β .stuck .stuck
  | unfinished : Similar β .unfinished .unfinished

namespace Machine.Isomorphic

variable {β γ : Link} {m m' : Machine ω} {v v' : Value}

theorem report (hi : Isomorphic β m m') (hv : v.Similar β v') : m.report v = m'.report v' := by
  unfold Machine.report
  rw [hi.heap.toHost hv, hi.heap.display hv, hv.shown, hv.typeName, hv.isTruthy, hv.isCallable]

theorem answer (hi : Isomorphic β m m') {finish finish' : Finish}
    (hf : finish.Similar β finish') : (m.answer finish).Similar β (m'.answer finish') := by
  cases hf with
  | value hv =>
    simp only [Machine.answer, hi.report hv]
    exact .value hv _
  | error e => exact .error e
  | stuck => exact .stuck
  | unfinished => exact .unfinished

theorem reset (hi : Isomorphic β m m') : Isomorphic β m.reset m'.reset :=
  { hi with
    stack := .nil
    frames := .nil
    rooted := fun _ hf => nomatch hf
    rooted' := fun _ hf => nomatch hf
    opened := .nil }

/-- Errors are found on the same line. -/
theorem errorHere (hi : Isomorphic β m m') (cause : Cause) :
    m.errorHere cause = m'.errorHere cause := by
  have hline : m.line? = m'.line? := by
    unfold Machine.line?
    have hhead := hi.headChunk
    generalize m.frames.head? = f at hhead
    generalize m'.frames.head? = f' at hhead
    cases hhead with
    | none => rfl
    | some hf => simp only [bind, Option.bind_some, Chunk.lineAt?, hf.2.lines, hf.1.ip]
  unfold Machine.errorHere
  rw [hline]

/-- **Runs** under two schedules end alike. -/
theorem resumeOn (due due' : Nat → Bool) (fuel clock : Nat) (hi : Isomorphic β m m') :
    (m.resumeOn due fuel clock).2 = (m'.resumeOn due' fuel clock).2 ∧
      ∃ γ, (m.resumeOn due fuel clock).1.1.Similar γ (m'.resumeOn due' fuel clock).1.1 ∧
        Isomorphic γ (m.resumeOn due fuel clock).1.2 (m'.resumeOn due' fuel clock).1.2 := by
  induction fuel generalizing β clock m m' with
  | zero => exact ⟨rfl, β, .unfinished, hi⟩
  | succ fuel ih =>
    obtain ⟨γ, hi⟩ := hi.collectIf (due clock) (due' clock)
    have hstep := hi.step
    simp only [Machine.resumeOn]
    generalize (m.collectIf (due clock)).step = o at hstep
    generalize (m'.collectIf (due' clock)).step = o' at hstep
    cases hstep with
    | next hi => exact ih (clock + 1) hi
    | done hv hi => exact ⟨rfl, _, .value hv, hi⟩
    | raise cause hi =>
      dsimp only
      rw [hi.errorHere cause]
      exact ⟨rfl, _, .error _, hi.reset⟩
    | stuck hi => exact ⟨rfl, _, .stuck, hi⟩

/-! ### Operations -/

theorem pushAll (hi : Isomorphic β m m') {args args' : List Value}
    (hs : List.Forall₂ (Value.Similar β) args args') :
    Isomorphic β (args.foldl Machine.push m) (args'.foldl Machine.push m') := by
  induction hs generalizing m m' with
  | nil => exact hi
  | cons hv _ ih => exact ih (hi.push hv)

theorem callGlobalOn (due due' : Nat → Bool) (fuel clock : Nat) (hi : Isomorphic β m m')
    (name : String) {args args' : List Value}
    (hs : List.Forall₂ (Value.Similar β) args args') :
    (m.callGlobalOn due fuel clock name args).2 = (m'.callGlobalOn due' fuel clock name args').2 ∧
      ∃ γ, (m.callGlobalOn due fuel clock name args).1.1.Similar γ
          (m'.callGlobalOn due' fuel clock name args').1.1 ∧
        Isomorphic γ (m.callGlobalOn due fuel clock name args).1.2
          (m'.callGlobalOn due' fuel clock name args').1.2 := by
  unfold Machine.callGlobalOn
  have hcallee := hi.global? name
  generalize m.global? name = callee at hcallee
  generalize m'.global? name = callee' at hcallee
  cases hcallee with
  | none => exact ⟨rfl, β, .error _, hi⟩
  | some hv =>
    dsimp only
    have hcall := ((hi.push hv).pushAll hs).call hv args.length
    rw [hi.frames.length_eq, ← hs.length_eq]
    generalize (args.foldl Machine.push (m.push _)).call _ args.length = o at hcall
    generalize (args'.foldl Machine.push (m'.push _)).call _ args.length = o' at hcall
    cases hcall with
    | next hi =>
      dsimp only
      rw [hi.frames.length_eq]
      split
      · exact hi.resumeOn due due' fuel clock
      · exact ⟨rfl, _, .value hi.pop.1, hi.pop.2⟩
    | done hv hi => exact ⟨rfl, _, .value hv, hi⟩
    | raise cause hi => exact ⟨rfl, _, .error _, hi.reset⟩
    | stuck hi => exact ⟨rfl, _, .stuck, hi⟩

theorem literalValue {handles handles' : Array Handle}
    (hh : List.Forall₂ (β .function) handles.toList handles'.toList) (l : Literal) :
    (Heap.literalValue handles l).Similar β (Heap.literalValue handles' l) := by
  cases l with
  | number n => exact .number n
  | text s => exact .text s
  | function index =>
    refine similar_getD ?_
    have hrel := rel_getElem? hh index
    generalize handles[index]? = h at hrel
    generalize handles'[index]? = h' at hrel
    cases hrel with
    | none => exact .none
    | some hf => exact .some (.function hf)

theorem mapConstants {handles handles' : Array Handle}
    (hh : List.Forall₂ (β .function) handles.toList handles'.toList) (c : Chunk Literal) :
    (c.mapConstants (Heap.literalValue handles)).Similar β
      (c.mapConstants (Heap.literalValue handles')) := by
  refine ⟨rfl, rfl, ?_, rfl⟩
  simp only [Chunk.mapConstants, Array.toList_map]
  rw [List.forall₂_map_left_iff, List.forall₂_map_right_iff]
  exact List.forall₂_same.2 fun l _ => literalValue hh l

/-- Functions are stored one after another. -/
theorem installAll (functions : List (Prototype Literal)) (hi : Isomorphic β m m')
    {handles handles' : Array Handle}
    (hh : List.Forall₂ (β .function) handles.toList handles'.toList) :
    let store := fun (state : Array Handle × Heap) (p : Prototype Literal) =>
      let stored := state.2.insert
        (.function { p with chunk := p.chunk.mapConstants (Heap.literalValue state.1) })
      (state.1.push stored.1, stored.2)
    ∃ γ, β.Le γ ∧
      List.Forall₂ (γ .function) (functions.foldl store (handles, m.heap)).1.toList
        (functions.foldl store (handles', m'.heap)).1.toList ∧
      Isomorphic γ { m with heap := (functions.foldl store (handles, m.heap)).2 }
        { m' with heap := (functions.foldl store (handles', m'.heap)).2 } := by
  intro store
  induction functions generalizing β m m' handles handles' with
  | nil => exact ⟨β, .refl β, hh, hi⟩
  | cons p functions ih =>
    have hp : Prototype.Similar β
        { p with chunk := p.chunk.mapConstants (Heap.literalValue handles) }
        { p with chunk := p.chunk.mapConstants (Heap.literalValue handles') } :=
      ⟨rfl, rfl, rfl, mapConstants hh p.chunk⟩
    simp only [List.foldl_cons, store]
    cases hs : m.heap.insert (.function _) with
    | mk h next =>
    cases hs' : m'.heap.insert (.function _) with
    | mk h' next' =>
    have hnew := hi.insertFunction hs hs' hp
    have hh' : List.Forall₂ (β.with .function h h' .function) (handles.push h).toList
        (handles'.push h').toList := by
      rw [Array.toList_push, Array.toList_push]
      exact List.rel_append (hh.imp fun _ _ hf => .inl hf) (.cons (.inr ⟨rfl, rfl, rfl⟩) .nil)
    obtain ⟨γ, hle, hall, hi'⟩ := ih hnew hh'
    exact ⟨γ, (β.le_with _ _ _).trans hle, hall, hi'⟩

/-- **A compiled script** is stored alike. -/
theorem install (hi : Isomorphic β m m') (compiled : Compiled) :
    ∃ γ, (m.heap.install compiled).1.Similar γ (m'.heap.install compiled).1 ∧
      Isomorphic γ { m with heap := (m.heap.install compiled).2 }
        { m' with heap := (m'.heap.install compiled).2 } := by
  have hnone : List.Forall₂ (β .function) (#[] : Array Handle).toList
      (#[] : Array Handle).toList := .nil
  obtain ⟨γ, -, hh, hi'⟩ := installAll compiled.functions.toList hi hnone
  unfold Heap.install
  simp only [← Array.foldl_toList]
  exact ⟨γ, mapConstants hh compiled.main, hi'⟩

/-- A script starts alike. -/
theorem start (hi : Isomorphic β m m') {chunk chunk' : Chunk Value} (hc : chunk.Similar β chunk') :
    ∃ γ, Isomorphic γ (m.start chunk) (m'.start chunk') := by
  unfold Machine.start
  dsimp only
  have hp : Prototype.Similar β { name := scriptName, params := [], captures := 0, chunk }
      { name := scriptName, params := [], captures := 0, chunk := chunk' } :=
    ⟨rfl, rfl, rfl, hc⟩
  cases hs : m.heap.insert (.function _) with
  | mk f next =>
  cases hs' : m'.heap.insert (.function _) with
  | mk f' next' =>
  have hfunction := hi.insertFunction hs hs' hp
  dsimp only
  cases ht : next.insert (.closure _) with
  | mk c last =>
  cases ht' : next'.insert (.closure _) with
  | mk c' last' =>
  have hclosure := hfunction.insertClosure ht ht' ⟨.inr ⟨rfl, rfl, rfl⟩, .nil⟩
  have hlinked : ∀ {β : Link}, β.with .closure c c' .closure c c' := .inr ⟨rfl, rfl, rfl⟩
  have hpushed := hclosure.push (.closure hlinked)
  have hframe : ∀ {heap next last : Heap} {f c : Handle} {chunk : Chunk Value} {base : Nat},
      heap.Wf → next.Wf →
      heap.insert (.function { name := scriptName, params := [], captures := 0, chunk })
        = (f, next) →
      next.insert (.closure { function := f, cells := #[] }) = (c, last) →
      (Frame.mk c chunk 0 base).Rooted last := by
    intro heap next last f c chunk base hw hw' hs ht
    obtain ⟨-, -, hget⟩ := Heap.get?_insert hw hs
    obtain ⟨-, -, hget'⟩ := Heap.get?_insert hw' ht
    refine ⟨{ function := f, cells := #[] }, { name := scriptName, params := [], captures := 0, chunk },
      Heap.closure?_eq.2 ?_, Heap.function?_eq.2 ?_, rfl⟩
    · rw [hget', if_pos rfl]
    · refine Heap.kept_insert hw' ht _ _ ?_
      rw [hget, if_pos rfl]
  refine ⟨_, { hpushed with frames := ?_, rooted := ?_, rooted' := ?_ }⟩
  · refine .cons ⟨hlinked, rfl, ?_⟩ hpushed.frames
    rw [hpushed.size]
  · exact List.forall_mem_cons.2 ⟨hframe hi.heap.wf hfunction.heap.wf hs ht, hpushed.rooted⟩
  · exact List.forall_mem_cons.2 ⟨hframe hi.heap.wf' hfunction.heap.wf' hs' ht', hpushed.rooted'⟩

/-- **One operation** under two schedules is answered alike. -/
theorem perform (due due' : Nat → Bool) (fuel clock : Nat) (op : Operation)
    (hi : Isomorphic β m m') :
    (m.perform due fuel clock op).2 = (m'.perform due' fuel clock op).2 ∧
      ∃ γ, (m.perform due fuel clock op).1.1.Similar γ (m'.perform due' fuel clock op).1.1 ∧
        Isomorphic γ (m.perform due fuel clock op).1.2 (m'.perform due' fuel clock op).1.2 := by
  obtain ⟨γ, hi⟩ := hi.collectIf (due clock) (due' clock)
  unfold Machine.perform
  generalize m.collectIf (due clock) = m at hi ⊢
  generalize m'.collectIf (due' clock) = m' at hi ⊢
  cases op with
  | exec source =>
    dsimp only
    cases Compiled.ofSource source with
    | error e => exact ⟨rfl, γ, .error e, hi⟩
    | ok compiled =>
      obtain ⟨δ, hc, hi⟩ := hi.install compiled
      obtain ⟨ε, hi⟩ := hi.start hc
      obtain ⟨hclock, ζ, hf, hi⟩ := hi.resumeOn due due' fuel (clock + 1)
      exact ⟨hclock, ζ, hi.answer hf, hi⟩
  | call name args =>
    obtain ⟨δ, hx, hs⟩ := @Heap.Twin.ofHostItems _ _ _ hi.heap.toTwin args #[] #[] .nil
    obtain ⟨hclock, ζ, hf, hi⟩ := (hi.extend hx).callGlobalOn due due' fuel (clock + 1) name hs
    exact ⟨hclock, ζ, hi.answer hf, hi⟩
  | define name value isMutable =>
    obtain ⟨δ, hx, hv⟩ := hi.heap.ofHost value
    exact ⟨rfl, δ, .defined, (hi.extend hx).define name hv isMutable⟩
  | get name =>
    dsimp only
    have hglobal := hi.global? name
    generalize m.global? name = v at hglobal
    generalize m'.global? name = v' at hglobal
    cases hglobal with
    | none => exact ⟨rfl, γ, .absent, hi⟩
    | some hv =>
      dsimp only
      rw [hi.report hv]
      exact ⟨rfl, γ, .value hv _, hi⟩
  | globals =>
    refine ⟨rfl, γ, .globals ?_, hi⟩
    rw [List.forall₂_map_left_iff, List.forall₂_map_right_iff]
    exact hi.globals.toList.imp fun g g' hg => ⟨hg.1, hg.2, hi.report hg.2.value⟩

/-- Sessions under two schedules are answered alike. -/
theorem session (due due' : Nat → Bool) (fuel : Nat) (ops : List Operation) (clock : Nat)
    (hi : Isomorphic β m m') :
    List.Forall₂ (fun a a' => ∃ γ, a.1.Similar γ a'.1 ∧ Isomorphic γ a.2 a'.2)
      (m.session due fuel ops clock) (m'.session due' fuel ops clock) := by
  induction ops generalizing β clock m m' with
  | nil => exact .nil
  | cons op ops ih =>
    obtain ⟨hclock, γ, ha, hi⟩ := hi.perform due due' fuel clock op
    have hcons : ∀ (due : Nat → Bool) (m : Machine ω), m.session due fuel (op :: ops) clock
        = (m.perform due fuel clock op).1 :: (m.perform due fuel clock op).1.2.session due fuel ops
          (m.perform due fuel clock op).2 := fun _ _ => rfl
    rw [hcons, hcons, hclock]
    exact .cons ⟨γ, ha, hi⟩ (ih _ hi)

/-- Isomorphic machines refer to linked objects. -/
theorem roots (hi : Isomorphic β m m') : List.Forall₂ β.Joins m.roots m'.roots := by
  refine List.rel_append (List.rel_append (List.rel_append ?_ ?_) ?_) ?_
  · exact handles_similar hi.stack
  · exact List.rel_flatMap hi.globals.values fun _ _ hb => hb.value.handles
  · rw [List.forall₂_map_left_iff, List.forall₂_map_right_iff]
    exact hi.frames.imp fun _ _ hf => ⟨_, hf.closure⟩
  · exact hi.opened.imp fun _ _ hh => ⟨_, hh⟩

/-- A machine at the beginning is isomorphic to itself. -/
theorem offering (assets : Assets) (library : Library ω) (world : ω) :
    Isomorphic ⟨fun _ _ _ => False, fun _ => True⟩ (Machine.offering assets library world)
      (Machine.offering assets library world) := by
  have hdefine : ∀ {κ : Type} (l : List κ) (name : κ → String) (value : κ → Value)
      {β : Link} {m m' : Machine ω}, (∀ a, (value a).Similar β (value a)) → Isomorphic β m m' →
      Isomorphic β (l.foldl (fun m a => m.define (name a) (value a) false) m)
        (l.foldl (fun m a => m.define (name a) (value a) false) m') := by
    intro κ l name value β m m' hv hi
    induction l generalizing m m' with
    | nil => exact hi
    | cons a l ih => exact ih (hi.define (name a) (hv a) false)
  have hbare : Isomorphic ⟨fun _ _ _ => False, fun _ => True⟩
      ({ stack := #[], frames := [], globals := {}, heap := Heap.empty, opened := [], assets
         library := Library.empty, world, output := "" } : Machine ω)
      { stack := #[], frames := [], globals := {}, heap := Heap.empty, opened := [], assets
        library := Library.empty, world, output := "" } :=
    ⟨.empty, .nil, .nil, fun _ hf => (nomatch hf), fun _ hf => (nomatch hf), matching_empty, .nil, rfl,
      rfl, rfl, rfl⟩
  have hnew : Isomorphic ⟨fun _ _ _ => False, fun _ => True⟩ (Machine.new assets world)
      (Machine.new assets world) :=
    hdefine Intrinsic.all Intrinsic.name .intrinsic (fun f => .intrinsic f) hbare
  exact hdefine library.names id .builtin (fun _ => .builtin trivial) { hnew with library := rfl }

end Machine.Isomorphic

/-- **Machines with the same objects** up to a renaming of handles: they are equal up to the links,
and the links pair the objects that can be reached. -/
structure Machine.SameObjects (β : Link) (m m' : Machine ω) : Prop where
  isomorphic : m.Isomorphic β m'
  right : ∀ h, m.heap.Reachable m.roots h →
    ∃! h', β.Joins h h' ∧ m'.heap.Reachable m'.roots h'
  left : ∀ h', m'.heap.Reachable m'.roots h' →
    ∃! h, β.Joins h h' ∧ m.heap.Reachable m.roots h

end DeployScript
