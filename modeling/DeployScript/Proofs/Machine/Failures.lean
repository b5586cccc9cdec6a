import DeployScript.Heap.Compile
import DeployScript.Proofs.Code.Lined
import DeployScript.Proofs.Code.Stores
import DeployScript.Proofs.Machine.Frames
import DeployScript.Proofs.Machine.Neutral

/-!
# Where failures are

An error of a script says on which line the script failed: that of the instruction which failed, in the
function that ran innermost. Whatever is on a machine and whatever has failed on it before, as long as all
its functions were compiled from sources, this is a line of the source of that function. What fails before
a function has started has no place in a script, and its error has no line.

* `Chunk.From` — the code of a source; `Chunk.Records` — an instruction with its line.
* `Machine.Sourced` — all code is from sources, and all calls are on a way through theirs.
* `Sourced.next`, `Sourced.reaches` — this is so behind an instruction, and all along a run;
  `Sourced.serve` — and between operations, whatever has come of them.
* `Sourced.raise` — what fails has a line.
* `Sourced.errors_have_lines` — the main statement.
-/

namespace DeployScript

variable {ω : Type}

/-! ### Code from a source -/

/-- **The code of a source:** one of the chunks that it compiles to, with values for its constants. -/
def Chunk.From (source : String) (c : Chunk Value) : Prop :=
  ∃ compiled, Compiled.ofSource source = .ok compiled ∧
    ∃ q ∈ compiled.chunks, ∃ f : Literal → Value, c = q.mapConstants f

/-- **An instruction with the line** that is recorded for it. -/
structure Chunk.Records {κ : Type} (c : Chunk κ) (ip : Nat) (i : Instr) (line : Nat) : Prop where
  decode : Instr.decode c.code ip = .instr i
  lines : ∀ k < i.size, c.lineAt? (ip + k) = some line

namespace Chunk.From

variable {source : String} {c : Chunk Value} {ip params height line : Nat} {i : Instr}

/-- **A way through the code** of a source leads from one instruction to another. -/
theorem records (h : c.From source) (hp : Instr.Path c.code params ip height) :
    ∃ i line, c.Records ip i line := by
  obtain ⟨compiled, hcompiled, q, hq, f, rfl⟩ := h
  obtain ⟨p, n, rfl, hfinished⟩ := (Compiled.sound_ofSource hcompiled).finished_of_mem hq
  obtain ⟨b, hb, hsealed⟩ := hfinished.code
  have hp : Instr.Path p.chunk.code params ip height := hp
  rw [hb] at hp
  obtain ⟨before, i, line, after, hitems, rfl, hw⟩ := hsealed.instr_of_path hp
  refine ⟨i, line, ?_, fun k hk => ?_⟩
  · change Instr.decode p.chunk.code _ = _
    rw [hb]
    exact Block.decode_toChunk _ _ hitems hw
  · change p.chunk.lineAt? _ = _
    rw [hb]
    exact Block.lineAt?_toChunk _ _ hitems hk

/-- **The line of an instruction** is one of the source, or 0, and the instruction is tacit. -/
theorem lineOf (h : c.From source) (hr : c.Records ip i line) :
    LineOf source line ∨ line = 0 ∧ i.op.isTacit = true := by
  obtain ⟨compiled, hcompiled, q, hq, f, rfl⟩ := h
  have hfirst : q.lineAt? ip = some line := hr.lines 0 (Nat.lt_of_lt_of_le Nat.zero_lt_one (Nat.le_add_right 1 _))
  refine ((Compiled.lined_ofSource hcompiled q hq).lineAt? hfirst).imp_right fun ⟨hzero, j, hj, hdecode⟩ => ?_
  obtain rfl := Instr.Decoded.instr.inj (hdecode.symm.trans hr.decode)
  exact ⟨hzero, hj⟩

end Chunk.From

/-- **A call runs the code of a source** and is on a way through it. -/
structure Frame.Sourced (f : Frame) : Prop where
  source : ∃ source, f.chunk.From source
  path : ∃ params height, Instr.Path f.chunk.code params f.ip height

namespace Machine

variable {m m' m'' : Machine ω} {f : Frame} {callers : List Frame} {i : Instr} {cause : Cause}

/-! ### Instructions that cannot fail -/

/-- **A tacit instruction** does not fail. -/
theorem step_tacit (hf : m.frames = f :: callers) (hi : Instr.decode f.chunk.code f.ip = .instr i)
    (htacit : i.op.isTacit = true) : m.step ≠ .raise cause m' := by
  have hreturn : ∀ m : Machine ω, m.return_ ≠ .raise cause m' := by
    intro m
    unfold return_
    dsimp only
    split
    · nofun
    · split <;> nofun
  unfold step
  rw [hf]
  dsimp only
  rw [hi]
  obtain ⟨op, operand⟩ := i
  cases op with
  | return_ => exact hreturn _
  | nil | pop | closeCapture => nofun
  | _ => cases htacit

/-! ### Machines with code from sources -/

/-- **All code is from sources:** that of the functions on the heap, and that of the calls that are under
way. -/
structure Sourced (m : Machine ω) : Prop where
  functions : ∀ p ∈ m.heap.code, ∃ source, p.chunk.From source
  frames : ∀ f ∈ m.frames, f.Sourced

/-- **A machine fails with an error:** the next instruction of the innermost call raises its cause, and its
line is that of the instruction, which is a line of any source that the function is from. -/
def FailsWith (m : Machine ω) (e : ScriptError) : Prop :=
  ∃ f callers i n m', m.frames = f :: callers ∧ f.chunk.Records f.ip i n ∧ m.step = .raise e.cause m' ∧
    e.span = some (.ofLine n) ∧ (∃ source, f.chunk.From source) ∧
      ∀ source, f.chunk.From source → LineOf source n

theorem FailsWith.span {e : ScriptError} (h : m.FailsWith e) : ∃ n, e.span = some (.ofLine n) := by
  obtain ⟨_, _, _, n, _, _, _, _, hspan, _⟩ := h
  exact ⟨n, hspan⟩

namespace Sourced

theorem of_frames (hm : m.Sourced) (hcode : m'.heap.code ⊆ m.heap.code)
    (hframes : ∀ f ∈ m'.frames, f.Sourced) : m'.Sourced :=
  ⟨fun p hp => hm.functions p (hcode hp), hframes⟩

theorem stays (hm : m.Sourced) (h : m.Stays m') : m'.Sourced :=
  hm.of_frames h.code (h.frames ▸ hm.frames)

/-- A call that begins is at the start of its function. -/
theorem enter (hm : m.Sourced) {p : Prototype Value} {callers : List Frame}
    (hframes : m'.frames = f :: callers) (hcode : m'.heap.code ⊆ m.heap.code) (hp : p ∈ m.heap.code)
    (hchunk : f.chunk = p.chunk) (hip : f.ip = 0) (hcallers : ∀ g ∈ callers, g.Sourced) : m'.Sourced := by
  refine hm.of_frames hcode ?_
  rw [hframes, List.forall_mem_cons]
  refine ⟨⟨hchunk ▸ hm.functions p hp, 0, 1, ?_⟩, hcallers⟩
  rw [hip]
  exact .start

/-- **The next instruction** of a machine with code from sources, if there is one. -/
theorem instr (hm : m.Sourced) (hs : ∀ m', m.step ≠ .stuck m') : ∃ f callers i n,
    m.frames = f :: callers ∧ f.chunk.Records f.ip i n ∧ m.step.Leads m.heap.code f callers i := by
  cases hf : m.frames with
  | nil =>
    refine absurd ?_ (hs m)
    unfold Machine.step
    rw [hf]
  | cons f callers =>
    obtain ⟨⟨source, hsource⟩, params, height, hpath⟩ := hm.frames f (hf ▸ List.mem_cons_self)
    obtain ⟨i, n, hrecords⟩ := hsource.records hpath
    exact ⟨f, callers, i, n, rfl, hrecords, leads_step hf hrecords.decode⟩

/-- **An instruction** leaves all calls on ways through code from sources. -/
theorem next (hm : m.Sourced) (hs : m.step = .next m') : m'.Sourced := by
  obtain ⟨f, callers, i, n, hf, hrecords, hleads⟩ := hm.instr (by rw [hs]; nofun)
  have hframes := hm.frames
  rw [hf, List.forall_mem_cons] at hframes
  obtain ⟨⟨hsource, params, height, hpath⟩, hcallers⟩ := hframes
  rw [hs] at hleads
  cases hleads with
  | on hplace hframes' hcode =>
    refine hm.of_frames hcode ?_
    rw [hframes', List.forall_mem_cons]
    exact ⟨⟨hsource, params, _, .next hpath hrecords.decode hplace⟩, hcallers⟩
  | into _ hplace hframes' hcode hp hchunk hip _ =>
    refine hm.enter hframes' hcode hp hchunk hip (List.forall_mem_cons.2 ⟨?_, hcallers⟩)
    exact ⟨hsource, params, _, .next hpath hrecords.decode hplace⟩
  | out _ hframes' _ hcode => exact hm.of_frames hcode (hframes' ▸ hcallers)

/-- The end of the outermost call. -/
theorem done (hm : m.Sourced) {v : Value} (hs : m.step = .done v m') : m'.Sourced := by
  obtain ⟨f, callers, i, n, hf, hrecords, hleads⟩ := hm.instr (by rw [hs]; nofun)
  rw [hs] at hleads
  cases hleads with
  | done _ _ hframes _ _ hcode => exact hm.of_frames hcode (by rw [hframes]; nofun)

/-- **What fails** has the line of its instruction, and leaves the code as it was. -/
theorem raise (hm : m.Sourced) (hs : m.step = .raise cause m') :
    m.FailsWith (m'.errorHere cause) ∧ m'.heap.code ⊆ m.heap.code := by
  obtain ⟨f, callers, i, n, hf, hrecords, hleads⟩ := hm.instr (by rw [hs]; nofun)
  obtain ⟨source, hfrom⟩ := (hm.frames f (hf ▸ List.mem_cons_self)).source
  have hline : ∀ source, f.chunk.From source → LineOf source n := fun source hfrom =>
    (hfrom.lineOf hrecords).resolve_right fun htacit => step_tacit hf hrecords.decode htacit.2 hs
  have hpos : 0 < n := (hline source hfrom).1
  rw [hs] at hleads
  cases hleads with
  | @raise _ _ ip hlt hle hframes hcode =>
    refine ⟨⟨f, callers, i, n, m', hf, hrecords, hs, ?_, ⟨source, hfrom⟩, hline⟩, hcode⟩
    -- The call stands behind a byte of the instruction, and each of them has its line.
    have hbyte := hrecords.lines (ip - 1 - f.ip) (by omega)
    rw [show f.ip + (ip - 1 - f.ip) = ip - 1 by omega] at hbyte
    have hline? : m'.line? = some n := by
      unfold line?
      rw [hframes]
      simp [hbyte, hpos]
    rw [errorHere, hline?]
    rfl

theorem reset (hm : m.Sourced) (hcode : m'.heap.code ⊆ m.heap.code) : m'.reset.Sourced :=
  hm.of_frames hcode nofun

end Sourced

/-! ### Runs -/

/-- **The machines of a run,** one instruction behind another, with collections between them. -/
inductive Reaches (m : Machine ω) : Machine ω → Prop
  | here : Reaches m m
  | collect {m' : Machine ω} (h : Reaches m m') : Reaches m m'.collect
  | step {m' m'' : Machine ω} (h : Reaches m m') (hs : m'.step = .next m'') : Reaches m m''

theorem Reaches.trans (h : Reaches m m') (h' : Reaches m' m'') : Reaches m m'' := by
  induction h' with
  | here => exact h
  | collect _ ih => exact .collect ih
  | step _ hs ih => exact .step ih hs

/-- **All along a run** the code is from sources. -/
theorem Sourced.reaches (hm : m.Sourced) (h : Reaches m m') : m'.Sourced := by
  induction h with
  | here => exact hm
  | collect _ ih => exact ih.stays (stays_collect _)
  | step _ hs ih => exact ih.next hs

theorem reaches_collectIf (m : Machine ω) (due : Bool) : Reaches m (m.collectIf due) := by
  unfold collectIf
  split
  · exact .collect .here
  · exact .here

/-- **A run that ends with an error** has come to an instruction that failed, and leaves the machine of the
failure with nothing running. -/
theorem reaches_of_error {due : Nat → Bool} {fuel clock : Nat} {e : ScriptError}
    (h : (resumeOn due fuel clock m).1.1 = .error e) :
    ∃ m' cause m'', Reaches m m' ∧ m'.step = .raise cause m'' ∧ e = m''.errorHere cause ∧
      (resumeOn due fuel clock m).1.2 = m''.reset := by
  induction fuel generalizing clock m with
  | zero => cases h
  | succ fuel ih =>
    have hcollect := reaches_collectIf m (due clock)
    unfold resumeOn at h ⊢
    cases hs : (m.collectIf (due clock)).step with
    | next m₁ =>
      rw [hs] at h
      obtain ⟨m', cause, m'', hreaches, hraise, he, hreset⟩ := ih h
      exact ⟨m', cause, m'', (Reaches.step hcollect hs).trans hreaches, hraise, he, hreset⟩
    | raise cause m'' =>
      rw [hs] at h
      cases h
      exact ⟨_, cause, m'', hcollect, hs, rfl, rfl⟩
    | done v m' =>
      rw [hs] at h
      cases h
    | stuck m' =>
      rw [hs] at h
      cases h

/-- **An error of a run** has a line. -/
theorem Sourced.error_resumeOn (hm : m.Sourced) {due : Nat → Bool} {fuel clock : Nat} {e : ScriptError}
    (h : (Machine.resumeOn due fuel clock m).1.1 = .error e) : ∃ m', Reaches m m' ∧ m'.FailsWith e := by
  obtain ⟨m', cause, m'', hreaches, hraise, rfl, -⟩ := reaches_of_error h
  exact ⟨m', hreaches, ((hm.reaches hreaches).raise hraise).1⟩

/-! ### Starts -/

/-- **A call from outside starts a function:** there is one more call than before. -/
def Enters (m : Machine ω) (name : String) (args : List Value) (m' : Machine ω) : Prop :=
  ∃ callee, m.global? name = some callee ∧
    (m.withArgs callee args).call callee args.length = .next m' ∧ m.frames.length < m'.frames.length

/-- There is one call from outside, so that it starts one function. -/
theorem Enters.unique {name : String} {args : List Value} (h : m.Enters name args m')
    (h' : m.Enters name args m'') : m' = m'' := by
  obtain ⟨callee, hg, hcall, -⟩ := h
  obtain ⟨callee', hg', hcall', -⟩ := h'
  obtain rfl := Option.some.inj (hg.symm.trans hg')
  exact Outcome.next.inj (hcall.symm.trans hcall')

/-- A call from outside, with the callee and its arguments on the stack. -/
theorem callGlobalOn_eq (due : Nat → Bool) (fuel clock : Nat) (m : Machine ω) (name : String)
    (args : List Value) : callGlobalOn due fuel clock m name args =
      match m.global? name with
      | none => ((.error (.ofCause (.undefinedVariable name)), m), clock)
      | some callee =>
        match (m.withArgs callee args).call callee args.length with
        | .next m' => if m.frames.length < m'.frames.length then resumeOn due fuel clock m'
          else ((.value m'.pop.1, m'.pop.2), clock)
        | .done value m' => ((.value value, m'), clock)
        | .raise cause m' => ((.error (.ofCause cause), m'.reset), clock)
        | .stuck m' => ((.stuck, m'), clock) := rfl

/-- An error of a call from outside comes from the function that was started, or from before that. -/
theorem enters_of_error {due : Nat → Bool} {fuel clock : Nat} {name : String} {args : List Value}
    {e : ScriptError} (h : (callGlobalOn due fuel clock m name args).1.1 = .error e) :
    (e.span = none ∧ ∀ m', ¬ m.Enters name args m') ∨
      ∃ m', m.Enters name args m' ∧ (resumeOn due fuel clock m').1.1 = .error e := by
  rw [callGlobalOn_eq] at h
  split at h
  case h_1 hnone =>
    cases h
    refine .inl ⟨rfl, fun m' ⟨callee, hcallee, _⟩ => ?_⟩
    rw [hnone] at hcallee
    cases hcallee
  case h_2 callee hg =>
    cases hcall : (m.withArgs callee args).call callee args.length with
    | next m' =>
      rw [hcall] at h
      dsimp only at h
      split at h
      case isTrue hlt => exact .inr ⟨m', ⟨callee, hg, hcall, hlt⟩, h⟩
      case isFalse => cases h
    | raise cause m' =>
      rw [hcall] at h
      cases h
      refine .inl ⟨rfl, fun m'' ⟨callee', hg', hcall', _⟩ => ?_⟩
      obtain rfl := Option.some.inj (hg.symm.trans hg')
      rw [hcall] at hcall'
      cases hcall'
    | done value m' =>
      rw [hcall] at h
      cases h
    | stuck m' =>
      rw [hcall] at h
      cases h

namespace Sourced

theorem start (hm : m.Sourced) {source : String} {chunk : Chunk Value} (h : chunk.From source) :
    (m.start chunk).Sourced := by
  refine ⟨fun p hp => ?_, List.forall_mem_cons.2 ⟨⟨⟨source, h⟩, 0, 1, .start⟩, hm.frames⟩⟩
  obtain hnew | hold := Heap.code_insert (Heap.code_insert_subset (fun _ he => by cases he) hp)
  · cases hnew
    exact ⟨source, h⟩
  · exact hm.functions p hold

theorem withArgs (hm : m.Sourced) (callee : Value) (args : List Value) :
    (m.withArgs callee args).Sourced := by
  rw [withArgs_eq]
  exact hm.stays ⟨rfl, subset_rfl⟩

theorem call (hm : m.Sourced) {callee : Value} {count : Nat} (h : m.call callee count = .next m') :
    m'.Sourced := by
  have hcalls := calls_call m callee count
  rw [h] at hcalls
  cases hcalls with
  | complete hstays _ _ => exact hm.stays ⟨hstays.frames, hstays.code⟩
  | entered hframes hcode hp hchunk hip _ _ => exact hm.enter hframes hcode hp hchunk hip hm.frames

theorem enters (hm : m.Sourced) {name : String} {args : List Value} (h : m.Enters name args m') :
    m'.Sourced := by
  obtain ⟨callee, -, hcall, -⟩ := h
  exact (hm.withArgs callee args).call hcall

/-- **A source that is compiled** into a machine brings its own code. -/
theorem compile (hm : m.Sourced) {source : String} {p : Program} {chunk : Chunk Value} {heap : Heap}
    (hp : Program.ofSource source = .ok p) (hc : m.heap.compile p = .ok (chunk, heap)) :
    ({ m with heap } : Machine ω).Sourced ∧ chunk.From source := by
  rw [Heap.compile_eq] at hc
  cases hcompiled : Compiled.ofProgram p with
  | error e =>
    rw [hcompiled] at hc
    cases hc
  | ok c =>
    rw [hcompiled] at hc
    cases hc
    have hsource : Compiled.ofSource source = .ok c := by
      simp only [Compiled.ofSource, hp, bind, Except.bind, hcompiled]
    refine ⟨⟨fun p hp => ?_, hm.frames⟩, c, hsource, c.main, List.mem_cons_self, _, rfl⟩
    obtain hold | ⟨q, hq, handles, hchunk⟩ := Heap.code_install hp
    · exact hm.functions p hold
    · refine ⟨source, c, hsource, q.chunk, List.mem_cons_of_mem _ ?_, _, hchunk⟩
      exact List.mem_map_of_mem (Array.mem_toList_iff.2 hq)

/-- Whatever a run leaves on a machine when it returns, its code is from sources. -/
theorem resumeOn (hm : m.Sourced) (due : Nat → Bool) (fuel clock : Nat)
    (hr : (Machine.resumeOn due fuel clock m).1.1.Returned) :
    (Machine.resumeOn due fuel clock m).1.2.Sourced := by
  induction fuel generalizing clock m with
  | zero => exact hr.elim
  | succ fuel ih =>
    have hcollected := hm.reaches (reaches_collectIf m (due clock))
    unfold Machine.resumeOn at hr ⊢
    cases hs : (m.collectIf (due clock)).step with
    | next m' =>
      rw [hs] at hr
      exact ih (hcollected.next hs) (clock + 1) hr
    | done v m' => exact hcollected.done hs
    | raise cause m' => exact hcollected.reset (hcollected.raise hs).2
    | stuck m' =>
      rw [hs] at hr
      exact hr.elim

theorem callGlobalOn (hm : m.Sourced) (due : Nat → Bool) (fuel clock : Nat) (name : String)
    (args : List Value) (hr : (Machine.callGlobalOn due fuel clock m name args).1.1.Returned) :
    (Machine.callGlobalOn due fuel clock m name args).1.2.Sourced := by
  rw [callGlobalOn_eq] at hr ⊢
  split
  case h_1 => exact hm
  case h_2 callee hg =>
    rw [hg] at hr
    have hready := hm.withArgs callee args
    have hcalls := calls_call (m.withArgs callee args) callee args.length
    dsimp only at hr ⊢
    cases hcall : (m.withArgs callee args).call callee args.length with
    | next m' =>
      rw [hcall] at hr
      dsimp only at hr ⊢
      by_cases hlt : m.frames.length < m'.frames.length
      · rw [if_pos hlt] at hr ⊢
        exact (hready.call hcall).resumeOn due fuel clock hr
      · rw [if_neg hlt]
        exact (hready.call hcall).stays (stays_pop m')
    | raise cause m' =>
      rw [hcall] at hcalls
      cases hcalls with
      | raise h => exact hready.reset h.code
    | done v m' =>
      rw [hcall] at hcalls
      cases hcalls
    | stuck m' =>
      rw [hcall] at hr
      exact hr.elim

/-- **Between operations** the code stays from sources if that is true of what is run and stored. -/
theorem serve (hm : m.Sourced) (due : Nat → Bool) (fuel clock : Nat) (r : Errand)
    (hrun : ∀ chunk, r = .run chunk → ∃ source, chunk.From source)
    (hstore : ∀ heap, r = .store heap → heap.code ⊆ m.heap.code)
    (hr : (m.serve due fuel clock r).1.Returned) : (m.serve due fuel clock r).2.Sourced := by
  cases r with
  | run chunk =>
    obtain ⟨source, hfrom⟩ := hrun chunk rfl
    exact (hm.start hfrom).resumeOn due fuel clock hr
  | call name args => exact hm.callGlobalOn due fuel clock name args hr
  | define name value isMutable => exact hm.stays ⟨rfl, subset_rfl⟩
  | get name => exact hm
  | collect => exact hm.stays (stays_collect m)
  | store heap => exact hm.stays ⟨rfl, hstore heap rfl⟩

/-- **Errors have lines.** On a machine with code from sources, an error of the code of a source has the
line of the instruction that failed, which is a line of the source of the function that ran innermost. An
error of a call from outside has such a line if the function has started, and no line otherwise. No
instruction on line 0 fails. And a source that is compiled into such a machine leaves it such a machine. -/
theorem errors_have_lines (hm : m.Sourced) (due : Nat → Bool) (fuel clock : Nat) :
    (∀ source p chunk heap, Program.ofSource source = .ok p → m.heap.compile p = .ok (chunk, heap) →
      ({ m with heap } : Machine ω).Sourced ∧ chunk.From source) ∧
    (∀ source chunk e, chunk.From source → (m.serve due fuel clock (.run chunk)).1 = .error e →
      ∃ m', Reaches (m.start chunk) m' ∧ m'.FailsWith e) ∧
    (∀ name args e, (m.serve due fuel clock (.call name args)).1 = .error e →
      (e.span.isSome ↔ ∃ m', m.Enters name args m') ∧
      ∀ m', m.Enters name args m' → ∃ m'', Reaches m' m'' ∧ m''.FailsWith e) ∧
    ∀ (m' : Machine ω) f callers source i cause m'', m'.frames = f :: callers → f.chunk.From source →
      f.chunk.Records f.ip i 0 → m'.step ≠ .raise cause m'' := by
  refine ⟨fun source p chunk heap hp hc => hm.compile hp hc, fun source chunk e hfrom he => ?_,
    fun name args e he => ?_, fun m' f callers source i cause m'' hf hfrom hrecords => ?_⟩
  · exact (hm.start hfrom).error_resumeOn he
  · rcases enters_of_error he with ⟨hspan, hnone⟩ | ⟨m', henters, he'⟩
    · refine ⟨?_, fun m' h => absurd h (hnone m')⟩
      rw [hspan]
      exact ⟨nofun, fun ⟨m', h⟩ => absurd h (hnone m')⟩
    · have hfails := (hm.enters henters).error_resumeOn he'
      obtain ⟨n, hspan⟩ : ∃ n, e.span = some (.ofLine n) := by
        obtain ⟨_, _, hfails⟩ := hfails
        exact hfails.span
      refine ⟨⟨fun _ => ⟨m', henters⟩, fun _ => by rw [hspan]; rfl⟩, fun m₁ henters₁ => ?_⟩
      rw [← henters.unique henters₁]
      exact hfails
  · rcases hfrom.lineOf hrecords with hline | ⟨-, htacit⟩
    · exact absurd hline.1 (Nat.not_lt_zero 0)
    · exact step_tacit hf hrecords.decode htacit

end Sourced

/-- A new machine has no code at all. -/
theorem sourced_new (assets : Assets) (library : Library ω) (world : ω) :
    ({ Machine.new assets world with library } : Machine ω).Sourced := by
  have hheap : ({ Machine.new assets world with library } : Machine ω).heap = Heap.empty := rfl
  have hframes : ({ Machine.new assets world with library } : Machine ω).frames = [] := rfl
  refine ⟨fun p hp => ?_, fun f hf => ?_⟩
  · rw [hheap, Heap.code_empty] at hp
    exact hp.elim
  · rw [hframes] at hf
    cases hf

end Machine

/-- What a script comes to, and behind it the call of a function. -/
def Machine.runThenCall (m : Machine ω) (c : Compiled) (name : String) : Finish × Finish :=
  let (chunk, heap) := m.heap.install c
  let ran := Machine.serve (fun _ => false) 40 0 { m with heap } (.run chunk)
  (ran.1, (ran.2.serve (fun _ => false) 40 0 (.call name [])).1)

open Machine in
/-- A function that is called by another one reads a variable that there is not. The script that makes the call
fails with the line of the function, and so does a host that makes it later. -/
theorem missing_within_calls :
    let source := "fn f() \x7b\n return missing\n\x7d\nfn g() \x7b return f() \x7d\ng()"
    ∃ (m : Machine Unit) (chunk : Chunk Value) (e e' : ScriptError), m.Sourced ∧ chunk.From source ∧
      let ran := m.serve (fun _ => false) 40 0 (.run chunk)
      ran.1 = .error e ∧ e.span = some (.ofLine 2) ∧ (∃ m', Reaches (m.start chunk) m' ∧ m'.FailsWith e) ∧
      (ran.2.serve (fun _ => false) 40 0 (.call "g" [])).1 = .error e' ∧ e'.span = some (.ofLine 2) ∧
      ∃ m' m'', ran.2.Enters "g" [] m' ∧ Reaches m' m'' ∧ m''.FailsWith e' := by
  intro source
  let m : Machine Unit := { Machine.new {} () with library := Library.empty }
  have hm : m.Sourced := sourced_new {} Library.empty ()
  obtain ⟨c, hc, hlines⟩ := Compiled.exists_of_any source (fun c =>
    ((m.runThenCall c "g").1.error?.bind (·.span)) = some (.ofLine 2) &&
      ((m.runThenCall c "g").2.error?.bind (·.span)) = some (.ofLine 2)) (by decide +kernel)
  rw [Bool.and_eq_true, decide_eq_true_eq, decide_eq_true_eq] at hlines
  obtain ⟨e, he, hspan⟩ := Option.bind_eq_some_iff.1 hlines.1
  obtain ⟨e', he', hspan'⟩ := Option.bind_eq_some_iff.1 hlines.2
  have he := Finish.error?_eq_some.1 he
  have he' := Finish.error?_eq_some.1 he'
  -- The source is compiled into the machine, and its code is run there.
  obtain ⟨p, hp, hcompiled⟩ := Compiled.of_ofSource hc
  have hinstall : m.heap.compile p = .ok (m.heap.install c) := by
    rw [Heap.compile_eq, hcompiled]
    rfl
  obtain ⟨hm', hfrom⟩ := (hm.errors_have_lines (fun _ => false) 40 0).1 source p _ _ hp hinstall
  have hlines' := hm'.errors_have_lines (fun _ => false) 40 0
  obtain ⟨m₁, hreaches, hfails⟩ := hlines'.2.1 source _ e hfrom he
  have hran := hm'.serve (fun _ => false) 40 0 (.run (m.heap.install c).1)
    (fun _ h => Errand.run.inj h ▸ ⟨source, hfrom⟩) nofun (Finish.returned_of_error he)
  obtain ⟨hspanned, hcalled⟩ := (hran.errors_have_lines (fun _ => false) 40 0).2.2.1 "g" [] e' he'
  obtain ⟨m₂, henters⟩ := hspanned.1 (by rw [hspan']; rfl)
  obtain ⟨m₃, hreaches', hfails'⟩ := hcalled m₂ henters
  exact ⟨{ m with heap := (m.heap.install c).2 }, (m.heap.install c).1, e, e', hm', hfrom, he, hspan,
    ⟨m₁, hreaches, hfails⟩, he', hspan', m₂, m₃, henters, hreaches', hfails'⟩

end DeployScript
