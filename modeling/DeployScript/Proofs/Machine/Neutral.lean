import Mathlib
import DeployScript.Proofs.Machine.Confined
import DeployScript.Proofs.Machine.Frames
import DeployScript.Proofs.Machine.Reached

/-!
# Operations leave nothing behind

A host runs code on a machine, calls functions, binds globals and asks for collections, one after
another and whatever comes of it. Between two operations nothing runs and nothing lies on the stack,
and never are there more calls under way than a machine allows. Nothing is assumed of the code that is
run, of the values that are called and of the objects on the heap: an instruction changes the calls
that are under way in four ways only (`Outcome.Levels`), and the outermost call starts at the bottom of
the stack.

* `Machine.bases` — where on the stack the calls start.
* `Machine.levels_step` — what an instruction does to the calls.
* `Errand`, `Machine.serve` — what a host asks of a machine, and what comes of it.
* `Served`, `Machine.Passes` — machines between two operations, and in the midst of one.
* `Served.stack_neutral` — the main statement.
-/

namespace DeployScript

variable {ω : Type}

namespace Machine

/-- Where on the stack the calls start that are under way, the innermost first. -/
def bases (m : Machine ω) : List Nat := m.frames.map (·.base)

/-- Nothing runs, nothing lies on the stack, and no cell is a slot of it. -/
structure Bare (m : Machine ω) : Prop where
  stack : m.stack = #[]
  frames : m.frames = []
  opened : m.opened = []

/-- The outermost call starts at the bottom of the stack, and there are not too many calls. -/
structure Grounded (m : Machine ω) : Prop where
  bottom : m.bases.getLast? = some 0
  few : m.frames.length ≤ maxFrames

end Machine

/-! ### One instruction -/

/-- The same calls are under way. -/
inductive Outcome.Still (bases : List Nat) : Outcome ω → Prop
  | next {m : Machine ω} (h : m.bases = bases) : Still bases (.next m)
  | raise {cause : Cause} {m : Machine ω} (h : m.bases = bases) : Still bases (.raise cause m)
  | stuck {m : Machine ω} (h : m.bases = bases) : Still bases (.stuck m)

/-- **What an instruction does to the calls** that are under way: nothing, or there is one more, if there
may be, or one less, or the outermost one ends and takes all that lies above its start with it. -/
inductive Outcome.Levels (bases : List Nat) : Outcome ω → Prop
  | still {o : Outcome ω} (h : o.Still bases) : Levels bases o
  | entered {m : Machine ω} {base : Nat} (h : m.bases = base :: bases)
    (hfew : bases.length < maxFrames) : Levels bases (.next m)
  | returned {m : Machine ω} {base : Nat} (h : bases = base :: m.bases) (hbusy : m.bases ≠ []) :
    Levels bases (.next m)
  | ended {v : Value} {m : Machine ω} {base : Nat} (h : bases = [base]) (hframes : m.frames = [])
    (hstack : m.stack.size ≤ base) (hopened : base = 0 → m.opened = []) : Levels bases (.done v m)

namespace Machine

variable {m : Machine ω}

theorem length_bases (m : Machine ω) : m.bases.length = m.frames.length := List.length_map _

/-- **What an instruction does** to the calls. -/
theorem levels_step (hbusy : m.frames ≠ []) : m.step.Levels m.bases := by
  obtain ⟨f, callers, hf⟩ := List.exists_cons_of_ne_nil hbusy
  have hbases : m.bases = f.base :: callers.map (·.base) := by rw [bases, hf, List.map_cons]
  -- Wherever the innermost call stands, it starts where it did.
  have hmoved : ∀ {m' : Machine ω} {ip : Nat}, m'.frames = { f with ip } :: callers →
      m'.bases = m.bases := by
    intro m' ip hframes
    rw [hbases, bases, hframes, List.map_cons]
  cases hi : Instr.decode f.chunk.code f.ip with
  | cut =>
    have hstep : m.step = .stuck m := by
      unfold step
      rw [hf]
      dsimp only
      rw [hi]
    rw [hstep]
    exact .still (.stuck rfl)
  | invalid byte =>
    have hstep : m.step = .raise (.failure (.invalidOpcode byte)) (m.moveTo (f.ip + 1)) := by
      unfold step
      rw [hf]
      dsimp only
      rw [hi]
    rw [hstep, moveTo_eq hf]
    exact .still (.raise (hmoved rfl))
  | instr i =>
    have hleads := leads_step hf hi
    generalize m.step = o at hleads
    cases hleads with
    | on _ hframes _ => exact .still (.next (hmoved hframes))
    | @into m' g _ _ _ hframes _ _ _ _ hfew =>
      have hinto : m'.bases = g.base :: m.bases := by
        rw [hbases, bases, hframes, List.map_cons, List.map_cons]
      exact .entered hinto (by rwa [hbases, List.length_cons, List.length_map])
    | @out m' _ hframes hbusy' _ =>
      have hout : m'.bases = callers.map (·.base) := by rw [bases, hframes]
      refine .returned (hbases.trans (congrArg _ hout.symm)) ?_
      rw [hout]
      exact fun hnone => hbusy' (List.map_eq_nil_iff.1 hnone)
    | done _ hcallers hframes hstack hopened _ =>
      exact .ended (by rw [hbases, hcallers]; rfl) hframes hstack hopened
    | raise _ _ hframes _ => exact .still (.raise (hmoved hframes))
    | stuck hframes _ => exact .still (.stuck (hmoved hframes))

/-! ### Many instructions -/

theorem Grounded.busy (h : m.Grounded) : m.frames ≠ [] := by
  intro hnone
  have hbottom := h.bottom
  rw [bases, hnone] at hbottom
  cases hbottom

theorem Grounded.of_bases {m' : Machine ω} (h : m.Grounded) (hbases : m'.bases = m.bases) :
    m'.Grounded := by
  refine ⟨hbases ▸ h.bottom, ?_⟩
  rw [← length_bases, hbases, length_bases]
  exact h.few

/-- **The next instruction** finds a machine like this one. -/
theorem Grounded.next {m' : Machine ω} (h : m.Grounded) (hs : m.step = .next m') : m'.Grounded := by
  have hlevels := levels_step h.busy
  rw [hs] at hlevels
  cases hlevels with
  | still hstill =>
    cases hstill with
    | next hbases => exact h.of_bases hbases
  | entered hbases hfew =>
    refine ⟨?_, ?_⟩
    · rw [hbases, List.getLast?_cons, h.bottom]
      rfl
    · rw [← length_bases, hbases, List.length_cons]
      exact hfew
  | returned hbases hbusy =>
    refine ⟨?_, ?_⟩
    · have hbottom := h.bottom
      rw [hbases] at hbottom
      rwa [List.getLast?_cons_of_ne_nil hbusy] at hbottom
    · have hfew := h.few
      rw [← length_bases, hbases, List.length_cons] at hfew
      rw [← length_bases]
      omega

/-- **The end of the outermost call** leaves nothing behind. -/
theorem Grounded.done {m' : Machine ω} {v : Value} (h : m.Grounded) (hs : m.step = .done v m') :
    m'.Bare := by
  have hlevels := levels_step h.busy
  rw [hs] at hlevels
  cases hlevels with
  | still hstill => cases hstill
  | ended hbases hframes hstack hopened =>
    have hbottom := h.bottom
    rw [hbases] at hbottom
    obtain rfl : _ = 0 := Option.some.inj hbottom
    exact ⟨Array.eq_empty_of_size_eq_zero (Nat.le_zero.1 hstack), hframes, hopened rfl⟩

/-- **Behind an instruction** a machine is like this one, or nothing runs. -/
theorem Grounded.step (h : m.Grounded) : m.step.machine.frames = [] ∨ m.step.machine.Grounded := by
  have hlevels := levels_step h.busy
  cases hs : m.step with
  | next m' => exact .inr (h.next hs)
  | done v m' => exact .inl (h.done hs).frames
  | raise cause m' =>
    rw [hs] at hlevels
    cases hlevels with
    | still hstill =>
      cases hstill with
      | raise hbases => exact .inr (h.of_bases hbases)
  | stuck m' =>
    rw [hs] at hlevels
    cases hlevels with
    | still hstill =>
      cases hstill with
      | stuck hbases => exact .inr (h.of_bases hbases)

theorem Grounded.collectIf (h : m.Grounded) (due : Bool) : (m.collectIf due).Grounded :=
  h.of_bases (by cases due <;> rfl)

end Machine

/-- A run or a call has returned to the host. -/
def Finish.Returned : Finish → Prop
  | .value _ | .error _ => True
  | .stuck | .unfinished => False

theorem Finish.returned_of_error {finish : Finish} {e : ScriptError} (h : finish = .error e) : finish.Returned :=
  h ▸ trivial

namespace Machine

variable {m : Machine ω}

theorem bare_reset (m : Machine ω) : m.reset.Bare := ⟨rfl, rfl, rfl⟩

/-- **A run that returns** leaves nothing behind, however it ends. -/
theorem Grounded.resumeOn (h : m.Grounded) (due : Nat → Bool) (fuel clock : Nat)
    (hr : (resumeOn due fuel clock m).1.1.Returned) : (resumeOn due fuel clock m).1.2.Bare := by
  induction fuel generalizing clock m with
  | zero => exact hr.elim
  | succ fuel ih =>
    have hg := h.collectIf (due clock)
    unfold Machine.resumeOn at hr ⊢
    cases hs : (m.collectIf (due clock)).step with
    | next m' =>
      rw [hs] at hr
      exact ih (hg.next hs) (clock + 1) hr
    | done v m' => exact hg.done hs
    | raise cause m' => exact bare_reset m'
    | stuck m' =>
      rw [hs] at hr
      exact hr.elim

end Machine

/-! ### Operations -/

/-- What a host asks of a machine: to run code, to call the function that a global is bound to, to bind
a global, to say what it is bound to, to free what is not in use, or to put anything on the heap, such
as the functions of a script or the containers in arguments. -/
inductive Errand
  | run (chunk : Chunk Value)
  | call (name : String) (args : List Value)
  | define (name : String) (value : Value) (isMutable : Bool)
  | get (name : String)
  | collect
  | store (heap : Heap)

namespace Machine

/-- **Carries out an errand.** Collections happen between instructions when they are due. -/
def serve (due : Nat → Bool) (fuel clock : Nat) (m : Machine ω) : Errand → Finish × Machine ω
  | .run chunk => (resumeOn due fuel clock (m.start chunk)).1
  | .call name args => (callGlobalOn due fuel clock m name args).1
  | .define name value isMutable => (.value .nil, m.define name value isMutable)
  | .get name => (.value ((m.global? name).getD .nil), m)
  | .collect => (.value .nil, m.collect)
  | .store heap => (.value .nil, { m with heap })

/-- A machine with a callee and its arguments on the stack. -/
def withArgs (m : Machine ω) (callee : Value) (args : List Value) : Machine ω :=
  args.foldl push (m.push callee)

/-- **The machines that an operation passes through:** at its start, with the arguments on the stack,
behind the call, behind each instruction and each collection. A machine that has failed is counted as if
it went on. -/
inductive Passes (m : Machine ω) : Errand → Machine ω → Prop
  | idle (r : Errand) : Passes m r m
  | start (chunk : Chunk Value) : Passes m (.run chunk) (m.start chunk)
  | push {name : String} {callee : Value} (hg : m.global? name = some callee)
    (args more : List Value) : Passes m (.call name (args ++ more)) (m.withArgs callee args)
  | call {name : String} {callee : Value} (hg : m.global? name = some callee) (args : List Value) :
    Passes m (.call name args) ((m.withArgs callee args).call callee args.length).machine
  | collect {r : Errand} {m' : Machine ω} (h : Passes m r m') : Passes m r m'.collect
  | step {r : Errand} {m' m'' : Machine ω} (h : Passes m r m') (hbusy : m'.frames ≠ []) :
    Passes m r m'.step.machine

/-! ### Starts -/

section Start

variable {m : Machine ω}

/-- A machine with a callee and its arguments on the stack. -/
theorem withArgs_eq (m : Machine ω) (callee : Value) (args : List Value) :
    m.withArgs callee args = { m with stack := m.stack.push callee ++ args.toArray } := by
  rw [withArgs, stack_pushAll]
  rfl

/-- One call is under way, from the bottom of the stack. -/
theorem grounded_of_bases {m : Machine ω} (hbases : m.bases = [0]) : m.Grounded := by
  refine ⟨by rw [hbases]; rfl, ?_⟩
  rw [← length_bases, hbases]
  decide

theorem Bare.start (h : m.Bare) (chunk : Chunk Value) : (m.start chunk).Grounded := by
  refine grounded_of_bases ?_
  simp [Machine.start, bases, Machine.push, h.stack, h.frames]

/-- **A call from outside** starts at the bottom of the stack. -/
theorem Bare.withArgs (h : m.Bare) (callee : Value) (args : List Value) :
    (m.withArgs callee args).bases = [] ∧ (m.withArgs callee args).opened = [] ∧
      (m.withArgs callee args).stack.size - args.length - 1 = 0 := by
  rw [withArgs_eq]
  refine ⟨?_, h.opened, ?_⟩
  · rw [bases, h.frames, List.map_nil]
  · simp [h.stack]

/-- A call that has completed leaves its result and nothing else. -/
theorem bare_pop_leave {m : Machine ω} {count : Nat} (v : Value) (hframes : m.frames = [])
    (hopened : m.opened = []) (hsize : m.stack.size - count - 1 = 0) :
    (m.leave count v).pop.2.Bare := by
  refine ⟨?_, hframes, hopened⟩
  change ((m.stack.shrink (m.stack.size - count - 1)).push v).pop = #[]
  rw [Array.pop_push, hsize]
  exact Array.eq_empty_of_size_eq_zero (by simp)

/-- **A call from outside that returns** leaves nothing behind. -/
theorem Bare.callGlobalOn (h : m.Bare) (due : Nat → Bool) (fuel clock : Nat) (name : String)
    (args : List Value) (hr : (callGlobalOn due fuel clock m name args).1.1.Returned) :
    (callGlobalOn due fuel clock m name args).1.2.Bare := by
  unfold Machine.callGlobalOn at hr ⊢
  split
  case h_1 => exact h
  case h_2 callee hg =>
    rw [hg] at hr
    obtain ⟨hbases, hopened, hsize⟩ := h.withArgs callee args
    have hcall := calls_call (m.withArgs callee args) callee args.length
    have hlength : m.frames.length = 0 := by rw [h.frames, List.length_nil]
    unfold Machine.withArgs at hcall hbases hopened hsize
    dsimp only at hr ⊢
    rw [hlength] at hr ⊢
    generalize (args.foldl push (m.push callee)).call callee args.length = o at hcall hr ⊢
    cases hcall with
    | @complete m' v hstays hstack hopened' =>
      have hnone : m'.frames = [] := by
        rw [hstays.frames]
        exact List.map_eq_nil_iff.1 hbases
      have hidle : ¬ 0 < (m'.leave args.length v).frames.length := by
        rw [show (m'.leave args.length v).frames = m'.frames from rfl, hnone]
        exact Nat.lt_irrefl 0
      dsimp only
      rw [if_neg hidle]
      exact bare_pop_leave v hnone (hopened'.trans hopened) (by rw [hstack]; exact hsize)
    | @entered m' g p hframes hcode hp hchunk hip hbase hfew =>
      have hg : m'.Grounded := by
        refine grounded_of_bases ?_
        rw [bases, hframes, List.map_cons, hbase, hsize]
        exact congrArg (List.cons 0) hbases
      have hbusy : 0 < m'.frames.length := List.length_pos_iff.2 hg.busy
      dsimp only at hr ⊢
      rw [if_pos hbusy] at hr ⊢
      exact hg.resumeOn due fuel clock hr
    | raise _ => exact bare_reset _
    | stuck _ => exact hr.elim

end Start

/-- **An operation that returns** leaves nothing behind. -/
theorem Bare.serve {m : Machine ω} (h : m.Bare) (due : Nat → Bool) (fuel clock : Nat) (r : Errand)
    (hr : (m.serve due fuel clock r).1.Returned) : (m.serve due fuel clock r).2.Bare := by
  cases r with
  | run chunk => exact (h.start chunk).resumeOn due fuel clock hr
  | call name args => exact h.callGlobalOn due fuel clock name args hr
  | define name value isMutable => exact ⟨h.stack, h.frames, h.opened⟩
  | get name => exact h
  | collect => exact ⟨h.stack, h.frames, h.opened⟩
  | store heap => exact ⟨h.stack, h.frames, h.opened⟩

/-- **Each machine that an operation passes through** is one where nothing runs, or like one that has
just started. -/
theorem Bare.passes {m m' : Machine ω} {r : Errand} (h : m.Bare) (hp : m.Passes r m') :
    m'.frames = [] ∨ m'.Grounded := by
  induction hp with
  | idle r => exact .inl h.frames
  | start chunk => exact .inr (h.start chunk)
  | push hg args more => exact .inl (List.map_eq_nil_iff.1 (h.withArgs _ args).1)
  | @call name callee hg args =>
    obtain ⟨hbases, -, hsize⟩ := h.withArgs callee args
    have hcall := calls_call (m.withArgs callee args) callee args.length
    have hnone : (m.withArgs callee args).frames = [] := List.map_eq_nil_iff.1 hbases
    generalize (m.withArgs callee args).call callee args.length = o at hcall ⊢
    cases hcall with
    | complete hstays _ _ => exact .inl (hstays.frames.trans hnone)
    | @entered m' g p hframes hcode hp hchunk hip hbase hfew =>
      refine .inr (grounded_of_bases ?_)
      change m'.bases = [0]
      rw [bases, hframes, hnone, List.map_singleton, hbase, hsize]
    | raise hstays => exact .inl (hstays.frames.trans hnone)
    | stuck hstays => exact .inl (hstays.frames.trans hnone)
  | collect _ ih => exact ih.imp id fun hg => hg.collectIf true
  | step _ hbusy ih => exact (ih.resolve_left hbusy).step

end Machine

/-- **The machines between operations:** a new one, with builtins of a host that any global may be bound
to, and one behind an operation that has returned. -/
inductive Served : Machine ω → Prop
  | new (assets : Assets) (library : Library ω) (world : ω) :
    Served { Machine.new assets world with library }
  | returned {m : Machine ω} (h : Served m) (due : Nat → Bool) (fuel clock : Nat) (r : Errand)
    (hr : (m.serve due fuel clock r).1.Returned) : Served (m.serve due fuel clock r).2

open Machine in
theorem Machine.bare_new (assets : Assets) (world : ω) : (Machine.new assets world).Bare := by
  have hdefine : ∀ (fs : List Intrinsic) (m : Machine ω), m.Bare →
      (fs.foldl (fun m f => m.define f.name (.intrinsic f) false) m).Bare := by
    intro fs
    induction fs with
    | nil => exact fun m h => h
    | cons f fs ih => exact fun m h => ih _ ⟨h.stack, h.frames, h.opened⟩
  exact hdefine _ _ ⟨rfl, rfl, rfl⟩

/-- **Operations are neutral.** Whatever code a host runs, whatever it calls with whatever arguments, and
however each operation returns: between two operations nothing runs, nothing lies on the stack and no
cell is a slot of it; and in the midst of the next operation there are never more calls than there may
be. -/
theorem Served.stack_neutral {m : Machine ω} (h : Served m) :
    (m.stack = #[] ∧ m.frames = [] ∧ m.opened = []) ∧
      ∀ (r : Errand) (m' : Machine ω), m.Passes r m' → m'.frames.length ≤ maxFrames := by
  have hbare : m.Bare := by
    induction h with
    | new assets library world =>
      have hnew := Machine.bare_new assets world
      exact ⟨hnew.stack, hnew.frames, hnew.opened⟩
    | returned _ due fuel clock r hr ih => exact ih.serve due fuel clock r hr
  refine ⟨⟨hbare.stack, hbare.frames, hbare.opened⟩, fun r m' hp => ?_⟩
  rcases hbare.passes hp with hnone | hg
  · rw [hnone]
    exact Nat.zero_le _
  · exact hg.few

/-- A script fails at its first instruction, with a collection in front of that. -/
theorem Served.failed_script_neutral :
    let m : Machine Unit := { Machine.new {} () with library := Library.empty }
    let code : Chunk Value := { code := #[255], lines := #[1], constants := #[], names := #[] }
    let failed := m.serve (fun _ => true) 1 0 (.run code)
    failed.1.Returned ∧ (failed.2.stack = #[] ∧ failed.2.frames = [] ∧ failed.2.opened = []) ∧
      ∀ (r : Errand) (m' : Machine Unit), failed.2.Passes r m' → m'.frames.length ≤ maxFrames := by
  intro m code failed
  have hreturned : failed.1.Returned := trivial
  exact ⟨hreturned, (Served.returned (.new {} Library.empty ()) _ _ _ _ hreturned).stack_neutral⟩

end DeployScript
