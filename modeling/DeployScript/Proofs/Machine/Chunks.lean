import DeployScript.Proofs.Machine.Failures
import DeployScript.Proofs.Machine.Guarded

/-!
# No code is made by running

Code comes onto a machine when a script is stored or started. Whatever runs then, for however long and however
it ends, the functions of the heap and the calls that are under way have code that was there before.

* `Machine.chunks` — the code on a machine.
* `chunks_step`, `chunks_reaches`, `chunks_resumeOn`, `chunks_callGlobalOn` — what brings no code.
* `chunks_start`, `chunks_install` — what brings that of a script.
-/

namespace DeployScript.Machine

variable {ω : Type} {m m' : Machine ω} {f : Frame} {callers : List Frame}

/-- **The code on a machine:** that of the functions of its heap, and that of the calls under way. -/
def chunks (m : Machine ω) : Set (Chunk Value) :=
  {c | (∃ p ∈ m.heap.code, p.chunk = c) ∨ ∃ f ∈ m.frames, f.chunk = c}

theorem chunks_subset (hcode : m'.heap.code ⊆ m.heap.code) (hframes : ∀ f ∈ m'.frames, f.chunk ∈ m.chunks) :
    m'.chunks ⊆ m.chunks := by
  rintro c (⟨p, hp, rfl⟩ | ⟨f, hf, rfl⟩)
  · exact .inl ⟨p, hcode hp, rfl⟩
  · exact hframes f hf

theorem Stays.chunks (h : m.Stays m') : m'.chunks ⊆ m.chunks :=
  chunks_subset h.code fun f hf => .inr ⟨f, h.frames ▸ hf, rfl⟩

theorem chunks_reset (h : m'.chunks ⊆ m.chunks) : m'.reset.chunks ⊆ m.chunks := by
  rintro c (hcode | ⟨f, hf, -⟩)
  · exact h (.inl hcode)
  · cases hf

/-! ### Runs -/

/-- The innermost call at another place of its code. -/
theorem chunks_moved {ip : Nat} (hf : m.frames = f :: callers) (hcode : m'.heap.code ⊆ m.heap.code)
    (hframes : m'.frames = { f with ip } :: callers) : m'.chunks ⊆ m.chunks := by
  refine chunks_subset hcode ?_
  rw [hframes, List.forall_mem_cons]
  exact ⟨.inr ⟨f, hf ▸ List.mem_cons_self, rfl⟩,
    fun g hg => .inr ⟨g, hf ▸ List.mem_cons_of_mem _ hg, rfl⟩⟩

/-- **An instruction** brings no code. -/
theorem chunks_step (m : Machine ω) : m.step.machine.chunks ⊆ m.chunks := by
  cases hf : m.frames with
  | nil =>
    unfold step
    rw [hf]
    exact subset_rfl
  | cons f callers =>
    cases hi : Instr.decode f.chunk.code f.ip with
    | cut =>
      unfold step
      rw [hf]
      dsimp only
      rw [hi]
      exact subset_rfl
    | invalid byte =>
      unfold step
      rw [hf]
      dsimp only
      rw [hi]
      dsimp only
      rw [moveTo_eq hf]
      exact chunks_moved hf subset_rfl rfl
    | instr i =>
      have hleads := leads_step hf hi
      have hcallers : ∀ g ∈ callers, g.chunk ∈ m.chunks := fun g hg =>
        .inr ⟨g, hf ▸ List.mem_cons_of_mem _ hg, rfl⟩
      have hinner : f.chunk ∈ m.chunks := .inr ⟨f, hf ▸ List.mem_cons_self, rfl⟩
      generalize m.step = o at hleads ⊢
      cases hleads with
      | on _ hframes hcode | raise _ _ hframes hcode | stuck hframes hcode =>
        exact chunks_moved hf hcode hframes
      | into _ _ hframes hcode hp hchunk =>
        refine chunks_subset hcode ?_
        rw [Outcome.machine, hframes, List.forall_mem_cons, List.forall_mem_cons]
        exact ⟨.inl ⟨_, hp, hchunk.symm⟩, hinner, hcallers⟩
      | out _ hframes _ hcode =>
        refine chunks_subset hcode ?_
        rw [Outcome.machine, hframes]
        exact hcallers
      | done _ _ hframes _ _ hcode =>
        refine chunks_subset hcode ?_
        rw [Outcome.machine, hframes]
        exact nofun

/-- **A run** brings no code. -/
theorem chunks_reaches (h : Reaches m m') : m'.chunks ⊆ m.chunks := by
  induction h with
  | here => exact subset_rfl
  | collect _ ih => exact (stays_collect _).chunks.trans ih
  | @step m' m'' _ hs ih =>
    have hstep := chunks_step m'
    rw [hs] at hstep
    exact hstep.trans ih

/-- **What a run leaves** has no code that was not there, however it ends. -/
theorem chunks_resumeOn (due : Nat → Bool) (fuel clock : Nat) (m : Machine ω) :
    (resumeOn due fuel clock m).1.2.chunks ⊆ m.chunks := by
  induction fuel generalizing clock m with
  | zero => exact subset_rfl
  | succ fuel ih =>
    have hstep := (chunks_step (m.collectIf (due clock))).trans
      (chunks_reaches (reaches_collectIf m (due clock)))
    unfold resumeOn
    cases hs : (m.collectIf (due clock)).step <;> rw [hs] at hstep
    case next m' => exact (ih _ m').trans hstep
    case done => exact hstep
    case raise => exact chunks_reset hstep
    case stuck => exact hstep

/-! ### Starts -/

/-- A call brings no code. -/
theorem chunks_call (m : Machine ω) (callee : Value) (count : Nat) :
    (m.call callee count).machine.chunks ⊆ m.chunks := by
  have hcalls := calls_call m callee count
  generalize m.call callee count = o at hcalls ⊢
  cases hcalls with
  | complete hstays _ _ => exact Stays.chunks ⟨hstays.frames, hstays.code⟩
  | entered hframes hcode hp hchunk _ _ _ =>
    refine chunks_subset hcode ?_
    rw [Outcome.machine, hframes, List.forall_mem_cons]
    exact ⟨.inl ⟨_, hp, hchunk.symm⟩, fun g hg => .inr ⟨g, hg, rfl⟩⟩
  | raise hstays | stuck hstays => exact hstays.chunks

theorem chunks_withArgs (m : Machine ω) (callee : Value) (args : List Value) :
    (m.withArgs callee args).chunks = m.chunks := by
  rw [withArgs_eq]
  rfl

theorem Enters.chunks {name : String} {args : List Value} (h : m.Enters name args m') :
    m'.chunks ⊆ m.chunks := by
  obtain ⟨callee, -, hcall, -⟩ := h
  have hchunks := chunks_call (m.withArgs callee args) callee args.length
  rwa [hcall, chunks_withArgs] at hchunks

/-- **A call from outside** brings no code. -/
theorem chunks_callGlobalOn (due : Nat → Bool) (fuel clock : Nat) (m : Machine ω) (name : String)
    (args : List Value) : (callGlobalOn due fuel clock m name args).1.2.chunks ⊆ m.chunks := by
  rw [callGlobalOn_eq]
  split
  case h_1 => exact subset_rfl
  case h_2 callee _ =>
    have hcall := chunks_call (m.withArgs callee args) callee args.length
    rw [chunks_withArgs] at hcall
    cases hs : (m.withArgs callee args).call callee args.length <;> rw [hs] at hcall <;> dsimp only
    case next m' =>
      split
      · exact (chunks_resumeOn due fuel clock m').trans hcall
      · exact (stays_pop m').chunks.trans hcall
    case done => exact hcall
    case raise => exact chunks_reset hcall
    case stuck => exact hcall

/-- **A start** brings the code that is started. -/
theorem chunks_start (m : Machine ω) (chunk : Chunk Value) :
    (m.start chunk).chunks ⊆ insert chunk m.chunks := by
  rintro c (⟨p, hp, rfl⟩ | ⟨f, hf, rfl⟩)
  · obtain hnew | hold := Heap.code_insert (Heap.code_insert_subset (fun _ he => by cases he) hp)
    · cases hnew
      exact .inl rfl
    · exact .inr (.inl ⟨p, hold, rfl⟩)
  · obtain rfl | hold := List.mem_cons.1 hf
    · exact .inl rfl
    · exact .inr (.inr ⟨f, hold, rfl⟩)

/-- **A script that is stored** brings its own code. -/
theorem chunks_install (m : Machine ω) {source : String} {c : Compiled}
    (hc : Compiled.ofSource source = .ok c) :
    ({ m with heap := (m.heap.install c).2 } : Machine ω).chunks ⊆ m.chunks ∪ {chunk | chunk.From source} := by
  rintro chunk (⟨p, hp, rfl⟩ | ⟨f, hf, rfl⟩)
  · obtain hold | ⟨q, hq, handles, hchunk⟩ := Heap.code_install hp
    · exact .inl (.inl ⟨p, hold, rfl⟩)
    · refine .inr ⟨c, hc, q.chunk, List.mem_cons_of_mem _ ?_, _, hchunk⟩
      exact List.mem_map_of_mem (Array.mem_toList_iff.2 hq)
  · exact .inl (.inr ⟨f, hf, rfl⟩)

end DeployScript.Machine
