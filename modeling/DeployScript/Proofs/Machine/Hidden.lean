import DeployScript.Proofs.Bindings.Mentioned
import DeployScript.Proofs.Machine.Causes
import DeployScript.Proofs.Machine.Rehosted

/-!
# Builtins that a script does not mention

A script runs alike whether or not its host has the builtins that it does not mention. It reads and assigns
none of their names, and what it calls is none of them; but it may declare one of these names, and that is
refused where the name is bound for good, and carried out where it is not bound.

* `Globals.Hides` — globals in which some of the builtins are missing.
* `Machine.Alike`, `Refuses` — outcomes on two hosts; the refusal of a declaration.
* `Machine.refuses_or_alike_exec`, `refuses_or_alike_step` — one instruction.
* `Machine.refused_or_alike_resume` — a run.
-/

namespace DeployScript

variable {ω : Type} {H : Set String}

/-! ### Globals -/

/-- **Globals without some of the builtins:** those of `H` are missing, where others have them bound for good. -/
structure Globals.Hides (H : Set String) (g g' : Globals) : Prop where
  same : ∀ n ∉ H, g'[n]? = g[n]?
  taken : ∀ n ∈ H, (g[n]?).any Machine.isFixed = true
  absent : ∀ n ∈ H, g'[n]? = none

theorem Globals.Hides.insert {g g' : Globals} (h : Globals.Hides H g g') {name : String} (hname : name ∉ H)
    (b : Binding) : Globals.Hides H (g.insert name b) (g'.insert name b) where
  same n hn := by
    rw [Globals.getElem?_insert, Globals.getElem?_insert, h.same n hn]
  taken n hn := by
    have hne : name ≠ n := fun he => hname (he ▸ hn)
    rw [Globals.getElem?_insert, if_neg hne]
    exact h.taken n hn
  absent n hn := by
    have hne : name ≠ n := fun he => hname (he ▸ hn)
    rw [Globals.getElem?_insert, if_neg hne]
    exact h.absent n hn

/-- The builtins of a library that a program does not mention. -/
def Library.unmentioned (l : Library ω) (p : Program) : Set String :=
  {name | name ∈ l.names ∧ name ∉ p.mentions}

/-! ### One instruction -/

namespace Machine

variable {m m' : Machine ω} {g : Globals} {l : Library ω}

/-- **An outcome without some of the builtins** is the same on a machine without them. -/
def Alike (H : Set String) (l : Library ω) (o o' : Outcome ω) : Prop :=
  ∃ g, o' = o.under g l ∧ Globals.Hides H o.machine.globals g

/-- **The declaration of a name of `H` is refused.** -/
def Refuses (H : Set String) (o : Outcome ω) : Prop :=
  ∃ name ∈ H, ∃ m, o = .raise (.immutableBinding name) m

theorem alike_same {o : Outcome ω} (hg : Globals.Hides H m.globals g) (ho : o.machine.globals = m.globals) :
    Alike H l o (o.under g l) := ⟨g, rfl, ho ▸ hg⟩

theorem alike_define (hg : Globals.Hides H m.globals g) {name : String} (hname : name ∉ H) (isMutable : Bool) :
    Alike H l (m.defineGlobal name isMutable) ((m.under g l).defineGlobal name isMutable) := by
  unfold defineGlobal
  dsimp only
  rw [show (m.under g l).pop.2.globals[name]? = m.pop.2.globals[name]? from hg.same name hname]
  have hnext : Alike H l (.next (m.pop.2.define name m.pop.1 isMutable))
      (.next ((m.under g l).pop.2.define name (m.under g l).pop.1 isMutable)) :=
    ⟨_, rfl, hg.insert hname _⟩
  cases m.pop.2.globals[name]? with
  | none => exact hnext
  | some b =>
    dsimp only
    split
    · exact ⟨g, rfl, hg⟩
    · exact hnext

theorem alike_assign (hg : Globals.Hides H m.globals g) {name : String} (hname : name ∉ H) :
    Alike H l (m.assignGlobal name) ((m.under g l).assignGlobal name) := by
  unfold assignGlobal
  rw [show (m.under g l).globals[name]? = m.globals[name]? from hg.same name hname]
  cases m.globals[name]? with
  | none => exact ⟨g, rfl, hg⟩
  | some b =>
    dsimp only
    split
    · exact ⟨_, rfl, hg.insert hname _⟩
    · exact ⟨g, rfl, hg⟩

/-- An instruction with a name: it finds the same one. -/
theorem alike_withName {index : UInt16} {f f' : String → Outcome ω} (hg : Globals.Hides H m.globals g)
    (hf : ∀ name, m.name? index = some name → Refuses H (f name) ∨ Alike H l (f name) (f' name)) :
    Refuses H (m.withName index f) ∨ Alike H l (m.withName index f) ((m.under g l).withName index f') := by
  unfold withName
  rw [name?_under]
  cases hn : m.name? index with
  | none => exact .inr ⟨g, rfl, hg⟩
  | some name => exact hf name hn

theorem refuses_or_alike_define (hg : Globals.Hides H m.globals g) (name : String) (isMutable : Bool) :
    Refuses H (m.defineGlobal name isMutable) ∨
      Alike H l (m.defineGlobal name isMutable) ((m.under g l).defineGlobal name isMutable) := by
  by_cases hname : name ∈ H
  · exact .inl ⟨name, hname, _, m.defineGlobal_of_isTaken isMutable (hg.taken name hname)⟩
  · exact .inr (alike_define hg hname isMutable)

/-- **An instruction that touches no name of `H`,** where no builtin of such a name is on the stack. -/
theorem refuses_or_alike_exec (hg : Globals.Hides H m.globals g) (hl : ∀ n ∉ H, l.get? n = m.library.get? n)
    (start : Nat) (i : Instr)
    (htouch : ∀ index name, i.global? = some index → m.name? index = some name → name ∉ H)
    (hcallee : ∀ depth name, m.peek depth = .builtin name → name ∉ H) :
    Refuses H (m.exec start i) ∨ Alike H l (m.exec start i) ((m.under g l).exec start i) := by
  by_cases hop : i.op ∈ [Opcode.defineLet, .defineVar, .getGlobal, .setGlobal, .call]
  · obtain ⟨op, operand⟩ := i
    simp only [List.mem_cons, List.not_mem_nil, or_false] at hop
    obtain rfl | rfl | rfl | rfl | rfl := hop
    · exact alike_withName hg fun name _ => refuses_or_alike_define hg name false
    · exact alike_withName hg fun name _ => refuses_or_alike_define hg name true
    · refine alike_withName hg fun name hname => .inr ?_
      have hglobal : (m.under g l).global? name = m.global? name :=
        congrArg (Option.map Binding.value) (hg.same name (htouch _ name rfl hname))
      rw [hglobal]
      cases m.global? name <;> exact ⟨g, rfl, hg⟩
    · exact alike_withName hg fun name hname => .inr (alike_assign hg (htouch _ name rfl hname))
    · have hcall := call_under m g l
        (fun name hname => hl name (hcallee (UInt8.toNat operand) name hname)) (UInt8.toNat operand)
      change _ ∨ Alike H l _ ((m.under g l).call _ _)
      rw [peek_under, hcall]
      exact .inr (alike_same hg (globals_call m _ _))
  · rw [exec_under m g l start i hop]
    refine .inr (alike_same hg (globals_exec m start i fun hmem => hop ?_))
    simp only [List.mem_cons, List.not_mem_nil, or_false] at hmem ⊢
    tauto

/-- **The next instruction,** if it touches no name of `H`, where no builtin of such a name is on the stack. -/
theorem refuses_or_alike_step (hg : Globals.Hides H m.globals g) (hl : ∀ n ∉ H, l.get? n = m.library.get? n)
    (htouch : ∀ name, m.Touches name → name ∉ H)
    (hcallee : ∀ depth name, m.peek depth = .builtin name → name ∉ H) :
    Refuses H m.step ∨ Alike H l m.step (m.under g l).step := by
  unfold step
  rw [frames_under]
  cases hf : m.frames with
  | nil => exact .inr ⟨g, rfl, hg⟩
  | cons f callers =>
    dsimp only
    cases hi : Instr.decode f.chunk.code f.ip with
    | cut => exact .inr ⟨g, rfl, hg⟩
    | invalid byte =>
      dsimp only
      rw [moveTo_under]
      exact .inr ⟨g, rfl, (globals_moveTo m _).symm ▸ hg⟩
    | instr i =>
      dsimp only
      rw [moveTo_under, moveTo_eq hf]
      refine refuses_or_alike_exec (m := m.behind f callers i) hg hl f.ip i (fun index name hindex hname => ?_)
        hcallee
      exact htouch name ⟨f, callers, i, index, hf, hi, hindex, hname⟩

/-! ### Runs -/

/-- **A run of a script** on a machine and on one without the builtins that the script does not mention: they end
alike, unless the first one is refused the declaration of such a name. -/
theorem refused_or_alike_resume {l₀ : Library ω} {assets : Assets} {world : ω} {source : String} {p : Program}
    (hp : Program.ofSource source = .ok p) (hl : ∀ n ∉ l₀.unmentioned p, l.get? n = l₀.get? n) (fuel : Nat)
    (hm : During l₀ (· = source) (fun _ => True) .between (offering assets l₀ world) .inside m)
    (hg : Globals.Hides (l₀.unmentioned p) m.globals g) :
    (∃ name ∈ l₀.unmentioned p, ∃ e, (m.resume fuel).1 = .error e ∧ e.cause = .immutableBinding name) ∨
      ∃ g', (m.under g l).resume fuel = ((m.resume fuel).1, (m.resume fuel).2.under g' l) ∧
        Globals.Hides (l₀.unmentioned p) (m.resume fuel).2.globals g' := by
  induction fuel generalizing m g with
  | zero => exact .inr ⟨g, rfl, hg⟩
  | succ fuel ih =>
    obtain ⟨hr, hfaithful⟩ := hm.reached (.new assets world) (faithful_offering assets world)
    have htouch : ∀ name, m.Touches name → name ∉ l₀.unmentioned p := fun name ht hname =>
      hname.2 (hfaithful.touches hr.fine.2 hp ht)
    have hcallee : ∀ depth name, m.peek depth = .builtin name → name ∉ l₀.unmentioned p := by
      intro depth name hpeek hname
      have hwithin := (hm.guarded hp).peek depth
      rw [hpeek] at hwithin
      exact hname.2 (Library.mem_mentioned.1 hwithin).2
    have hl' : ∀ n ∉ l₀.unmentioned p, l.get? n = m.library.get? n := by
      rw [hr.fine.1]
      exact hl
    rcases refuses_or_alike_step hg hl' htouch hcallee with ⟨name, hname, m', hs⟩ | ⟨g', hs', hg'⟩
    · refine .inl ⟨name, hname, m'.errorHere (.immutableBinding name), ?_, rfl⟩
      rw [resume, hs]
    · unfold resume
      rw [hs']
      cases hs : m.step with
      | next m' =>
        rw [hs] at hg'
        exact ih (.next hm (.step hs) trivial) hg'
      | done v m' | raise cause m' | stuck m' =>
        rw [hs] at hg'
        exact .inr ⟨g', rfl, hg'⟩

end Machine

end DeployScript
