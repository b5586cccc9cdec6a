import DeployScript.Proofs.Code.Statements
import DeployScript.Proofs.Program.Spelled

/-!
# Compiled scripts

All code of a compiled script is sealed: that of its functions, and that which runs first.
-/

namespace DeployScript

open Compile Compile.State

/-- The function that a script as a whole is. -/
def scriptPrototype {κ : Type} (main : Chunk κ) : Prototype κ :=
  { name := scriptName, params := [], captures := 0, chunk := main }

/-- **Sound code:** every function is finished, and so is the script. -/
structure Compiled.Sound (c : Compiled) : Prop where
  functions : ∀ n (p : Prototype Literal), c.functions[n]? = some p → p.Finished c.functions n
  main : (scriptPrototype c.main).Finished c.functions c.functions.size

/-- The state in front of a script. -/
def Compile.State.initial : State := { current := Scope.start, enclosing := [], functions := #[] }

theorem Compile.wf_initial : State.initial.Wf where
  linked := rfl
  depths l hl := by
    rw [List.mem_singleton.1 hl]
    exact Nat.le_refl 0
  starts loop hl := nomatch hl
  bounded c hc k hk := by
    rw [List.mem_singleton.1 hc] at hk
    exact absurd hk (by simp [State.initial, Scope.start])
  finished n p hp := by cases hp

/-- The code of a program, taken apart. -/
theorem Compiled.ofProgram_eq {p : Program} {c : Compiled} (h : Compiled.ofProgram p = .ok c) :
    ∃ b s₁ b₂ s₂, Gives (stmts (splitLast p.statements).1 #[]) State.initial b s₁ ∧
      Gives (valueOrNil (splitLast p.statements).2 0) s₁ b₂ s₂ ∧
      c = { main := (b ++ (b₂ ++ #[Item.instr ⟨.return_, ()⟩ 0])).toChunk s₂.current.constants
              s₂.current.names
            functions := s₂.functions } := by
  unfold Compiled.ofProgram at h
  simp only [bind, Except.bind] at h
  split at h
  case h_1 => cases h
  case h_2 r hr =>
    obtain ⟨code, s'⟩ := r
    have hgives : Gives (do
        return (← script p.statements #[]) ++ (← emit ⟨.return_, ()⟩ 0)) State.initial code s' := hr
    simp only [gives_bind, gives_emit, gives_pure] at hgives
    obtain ⟨b₀, s₂, h₁, _, _, ⟨rfl, rfl⟩, rfl, rfl⟩ := hgives
    obtain ⟨b₁, s₁, b₂, hstmts, h₂, rfl⟩ := h₁.script
    cases h
    exact ⟨b₁, s₁, b₂, s₂, hstmts, h₂, by simp [State.over]⟩

theorem Compile.splitLast_regular {ps : List Stmt} (h : Stmt.AllRegular ps) :
    Stmt.AllRegular (splitLast ps).1 := by
  induction ps using splitLast.induct with
  | case1 => trivial
  | case2 value => trivial
  | case3 p ps hlast ih =>
    rw [Stmt.AllRegular] at h
    rw [splitLast]
    · exact ⟨h.1, ih h.2⟩
    · exact hlast

/-- The code of a script that runs first is sealed, and all its functions are finished. -/
theorem Compile.sealed_script {ps : List Stmt} {s₁ s₂ : State} {b₁ b₂ : Block}
    (hp : Stmt.AllRegular ps) (h₁ : Gives (stmts (splitLast ps).1 #[]) State.initial b₁ s₁)
    (h₂ : Gives (valueOrNil (splitLast ps).2 0) s₁ b₂ s₂) :
    Executes State.initial b₁ s₁ ∧ Computes s₁ b₂ s₂ 1 ∧
      Sealed (poolOf s₂.current.constants s₂.functions s₂.current.names.size 0)
        (b₁ ++ (b₂ ++ #[Item.instr ⟨.return_, ()⟩ 0])) (entryShape 0) := by
  have hin : State.initial.Inside := fun loop hl => nomatch hl
  have hfirst := sound_stmts _ (splitLast_regular hp) wf_initial hin h₁
  have hvalue := computes_valueOrNil hfirst.wf h₂
  have hgrows := hfirst.grows.trans hvalue.grows
  refine ⟨hfirst, hvalue, ?_⟩
  have htfirst := hfirst.typed s₂.pool (fun _ _ => False) (fun _ => False) hvalue.grows.pool_le
    (fun j hj => absurd hj (Nat.not_lt_zero j)) (fun loop hl => nomatch hl)
  have htvalue := hvalue.shaped (E := fun _ _ => False) (fun _ => False) s₂.pool.le_refl
  rw [hfirst.size] at htvalue
  have hentry : entryShape 0 ≤ State.initial.shape fun _ => False := ⟨rfl, fun j hj => hj.elim⟩
  have hall := ((htfirst.append htvalue).weaken hentry (StackShape.le_refl _)).sealed
    (Nat.succ_pos _) 0
  rw [Array.append_assoc] at hall
  have hcaptures : s₂.current.captures.size = 0 := by
    have hlinked := hvalue.wf.linked
    have henclosing : s₂.enclosing = [] := by
      have hnoted : List.Forall₂ _ [] s₂.enclosing := hgrows.enclosing
      exact List.forall₂_nil_left_iff.1 hnoted
    rwa [henclosing] at hlinked
  unfold State.pool at hall
  rwa [hcaptures] at hall

/-- **A script becomes sound code.** -/
theorem Compiled.sound_ofProgram {p : Program} {c : Compiled}
    (hp : Stmt.AllRegular p.statements) (h : Compiled.ofProgram p = .ok c) : c.Sound := by
  obtain ⟨b₁, s₁, b₂, s₂, h₁, h₂, rfl⟩ := Compiled.ofProgram_eq h
  obtain ⟨-, hvalue, hsealed⟩ := sealed_script hp h₁ h₂
  refine ⟨hvalue.wf.finished, fun k hk => ?_, b₁ ++ (b₂ ++ #[Item.instr ⟨.return_, ()⟩ 0]), ?_, ?_⟩
  · simp only [scriptPrototype, Block.toChunk_eq] at hk
    exact hvalue.wf.bounded s₂.current List.mem_cons_self k hk
  · simp only [scriptPrototype, Block.toChunk_eq]
  · simp only [scriptPrototype, Block.toChunk_eq]
    exact hsealed

/-- Code of a source is that of its program. -/
theorem Compiled.of_ofSource {source : String} {c : Compiled} (h : Compiled.ofSource source = .ok c) :
    ∃ p, Program.ofSource source = .ok p ∧ Compiled.ofProgram p = .ok c := by
  simp only [Compiled.ofSource, bind, Except.bind] at h
  split at h
  case h_1 => cases h
  case h_2 p hp => exact ⟨p, hp, h⟩

/-- **What a source compiles to** is sound. -/
theorem Compiled.sound_ofSource {source : String} {c : Compiled}
    (h : Compiled.ofSource source = .ok c) : c.Sound := by
  obtain ⟨p, hp, hc⟩ := Compiled.of_ofSource h
  exact Compiled.sound_ofProgram (Program.spelled_ofSource hp).1 hc

/-- What is checked of the code of a source is true of code that there is. -/
theorem Compiled.exists_of_any (source : String) (p : Compiled → Bool)
    (h : (Compiled.ofSource source).toOption.any p = true) :
    ∃ c, Compiled.ofSource source = .ok c ∧ p c = true := by
  cases hc : Compiled.ofSource source with
  | error e =>
    rw [hc] at h
    cases h
  | ok c =>
    rw [hc] at h
    exact ⟨c, rfl, h⟩

end DeployScript
