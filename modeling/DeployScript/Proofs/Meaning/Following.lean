import Mathlib
import DeployScript.Machine.Run
import DeployScript.Proofs.Machine.Safety
import DeployScript.Proofs.Meaning.Variables

/-!
# Machines that follow an evaluation

What it means that a machine does, instruction by instruction, what evaluation does at once: it comes
to a machine that stands for the memory of the result, or it fails for the same cause, or it is still
running after as many instructions as evaluation was given rounds and calls.

* `Machine.Runs` — so many instructions, one after another.
* `Follows` — a machine follows an evaluation; `Follows.bind` puts two parts together.
* `Chunk.Has` — code that stands at a place.
* `Site`, `Here` — a call that runs compiled code, and a machine that stands at a place of it.
* `Leaves` — values on top of the stack; `Leaves.given`, `change` and `write` are the instructions
  that take them.
-/

namespace DeployScript

variable {ω α ι : Type}

/-! ### Runs -/

namespace Machine

/-- **So many instructions,** behind each of which there is a next one. -/
inductive Runs : (count : Nat) → (m m' : Machine ω) → Prop
  | refl (m : Machine ω) : Runs 0 m m
  | next {count : Nat} {m m' m'' : Machine ω} (hs : m.step = .next m') (h : Runs count m' m'') :
    Runs (count + 1) m m''

namespace Runs

variable {m m' m'' : Machine ω} {count count' : Nat}

theorem one (hs : m.step = .next m') : Runs 1 m m' := .next hs (.refl m')

theorem trans (h : Runs count m m') (h' : Runs count' m' m'') : Runs (count + count') m m'' := by
  induction h with
  | refl m => rwa [Nat.zero_add]
  | next hs _ ih =>
    rw [Nat.succ_add]
    exact .next hs (ih h')

theorem running (h : Runs count m m') (hr : m.Running) : m'.Running := by
  induction h with
  | refl m => exact hr
  | next hs _ ih =>
    have hsafe := hr.step
    rw [hs] at hsafe
    cases hsafe with
    | next hr' _ => exact ih hr'

/-- The instructions of a run come first. -/
theorem resume (h : Runs count m m') (fuel : Nat) : m.resume (count + fuel) = m'.resume fuel := by
  induction h with
  | refl m => rw [Nat.zero_add]
  | next hs _ ih =>
    rw [Nat.succ_add, Machine.resume, hs]
    exact ih

end Runs

end Machine

/-! ### Following -/

/-- **A machine follows an evaluation.** If that has a result, then the machine comes to one for which
`Q` holds; if it fails, then the machine fails for the same cause, where it stands for the memory; and if it
has no end within its rounds and calls, then the machine runs on for `bound` instructions. -/
inductive Follows (bound : Nat) (m : Machine ω) (Q : α → Memory ω → Machine ω → Prop) :
    Result ω α → Prop
  | ok {count : Nat} {a : α} {μ : Memory ω} {m' : Machine ω} (hr : m.Runs count m') (hq : Q a μ m') :
    Follows bound m Q (.ok a μ)
  | error {count : Nat} {cause : Cause} {μ : Memory ω} {m' m'' : Machine ω} {β : Link}
    {φ : Roles} (hr : m.Runs count m') (hs : m'.step = .raise cause m'') (hm : m''.Models β φ μ) :
    Follows bound m Q (.error cause μ)
  | unfinished {count : Nat} {m' : Machine ω} (hle : bound ≤ count) (hr : m.Runs count m') :
    Follows bound m Q .unfinished

namespace Follows

variable {bound bound' : Nat} {m m' : Machine ω} {Q : α → Memory ω → Machine ω → Prop}
  {R : ι → Memory ω → Machine ω → Prop} {r : Result ω α} {μ : Memory ω} {a : α}

/-- Nothing is left to do. -/
theorem refl (hq : Q a μ m) : Follows bound m Q (.ok a μ) := .ok (.refl m) hq

theorem mono (h : Follows bound m Q r) (hle : bound' ≤ bound) : Follows bound' m Q r := by
  cases h with
  | ok hr hq => exact .ok hr hq
  | error hr hs hm => exact .error hr hs hm
  | unfinished hle' hr => exact .unfinished (Nat.le_trans hle hle') hr

theorem imp {Q' : α → Memory ω → Machine ω → Prop} (h : Follows bound m Q r)
    (hq : ∀ a μ m', Q a μ m' → Q' a μ m') : Follows bound m Q' r := by
  cases h with
  | ok hr h => exact .ok hr (hq _ _ _ h)
  | error hr hs hm => exact .error hr hs hm
  | unfinished hle hr => exact .unfinished hle hr

/-- Some instructions come first. -/
theorem after {count : Nat} (hr : m.Runs count m') (h : Follows bound m' Q r) :
    Follows (count + bound) m Q r := by
  cases h with
  | ok hr' hq => exact .ok (hr.trans hr') hq
  | error hr' hs hm => exact .error (hr.trans hr') hs hm
  | unfinished hle hr' => exact .unfinished (Nat.add_le_add_left hle _) (hr.trans hr')

theorem behind {count : Nat} (hr : m.Runs count m') (h : Follows bound m' Q r) : Follows bound m Q r :=
  (h.after hr).mono (Nat.le_add_left _ _)

/-- One instruction comes first. -/
theorem step (hs : m.step = .next m') (h : Follows bound m' Q r) : Follows bound m Q r :=
  h.behind (.one hs)

/-- **One evaluation behind another.** -/
theorem bind {x : Eval ω α} {f : α → Eval ω ι} (hm : m.Running) (hx : Follows bound m Q (x μ))
    (hf : ∀ a μ' m', m'.Running → Q a μ' m' → Follows bound m' R (f a μ')) :
    Follows bound m R ((x >>= f) μ) := by
  change Follows bound m R (Eval.andThen x f μ)
  unfold Eval.andThen
  generalize x μ = r at hx
  cases hx with
  | ok hr hq => exact (hf _ _ _ (hr.running hm) hq).behind hr
  | error hr hs hm => exact .error hr hs hm
  | unfinished hle hr => exact .unfinished hle hr

/-- Code that evaluation has nothing for comes first. -/
theorem first (hm : m.Running) (h : Follows bound m Q (.ok a μ)) {r : Result ω ι}
    (hf : ∀ m', m'.Running → Q a μ m' → Follows bound m' R r) : Follows bound m R r := by
  cases h with
  | ok hr hq => exact (hf _ (hr.running hm) hq).behind hr

/-- Code that evaluation has nothing for comes last. -/
theorem last {R : α → Memory ω → Machine ω → Prop} (hm : m.Running) (h : Follows bound m Q r)
    (hf : ∀ a μ m', m'.Running → Q a μ m' → Follows bound m' R (.ok a μ)) : Follows bound m R r := by
  cases h with
  | ok hr hq => exact (hf _ _ _ (hr.running hm) hq).behind hr
  | error hr hs hm => exact .error hr hs hm
  | unfinished hle hr => exact .unfinished hle hr

/-- What is known of a result is known behind the code. -/
theorem known {P : α → Prop} (h : Follows bound m Q r) (hP : ∀ a μ, r = .ok a μ → P a) :
    Follows bound m (fun a μ m' => P a ∧ Q a μ m') r := by
  cases h with
  | ok hr hq => exact .ok hr ⟨hP _ _ rfl, hq⟩
  | error hr hs hm => exact .error hr hs hm
  | unfinished hle hr => exact .unfinished hle hr

end Follows

/-! ### Code at a place -/

section Has

variable {κ : Type} {c : Chunk κ} {place line : Nat} {i : Instr} {code code' : Written}

/-- **Code stands at a place** of a chunk. -/
def Chunk.Has (c : Chunk κ) (place : Nat) (code : Written) : Prop := ∃ rest, c.Reads place (code ++ rest)

theorem Chunk.Reads.has (h : c.Reads place code) : c.Has place code := ⟨[], by rwa [List.append_nil]⟩

theorem Chunk.Has.left (h : c.Has place (code ++ code')) : c.Has place code := by
  obtain ⟨rest, h⟩ := h
  exact ⟨code' ++ rest, by rwa [← List.append_assoc]⟩

theorem Chunk.Has.right (h : c.Has place (code ++ code')) :
    c.Has (place + Written.size code) code' := by
  obtain ⟨rest, h⟩ := h
  refine ⟨rest, ?_⟩
  induction code generalizing place with
  | nil => exact h
  | cons e code ih =>
    cases h with
    | next hi hline h =>
      rw [Written.size_cons, ← Nat.add_assoc]
      exact ih h

theorem Chunk.Has.decode (h : c.Has place ((i, line) :: code)) :
    Instr.decode c.code place = .instr i := by
  obtain ⟨rest, h⟩ := h
  cases h with
  | next hi _ _ => exact hi

theorem Chunk.Has.tail (h : c.Has place ((i, line) :: code)) : c.Has (place + i.size) code := by
  obtain ⟨rest, h⟩ := h
  cases h with
  | next _ _ h => exact ⟨rest, h⟩

/-- A place may be given by another sum of sizes. -/
theorem Chunk.Has.moved {place' : Nat} (h : c.Has place code) (he : place = place') :
    c.Has place' code := he ▸ h

/-- Constants do not matter to what is read. -/
theorem Chunk.Reads.mapConstants {ι : Type} (h : c.Reads place code) (f : κ → ι) :
    (c.mapConstants f).Reads place code := by
  induction h with
  | done => exact .done
  | next hi hline _ ih => exact .next hi hline ih

end Has

/-! ### Calls of compiled code -/

/-- A call that runs compiled code: its frame, the calls around it, what the operands of the code refer
to, the cells of its closure, the variables in scope around the function, and the name of that. -/
structure Site where
  frame : Frame
  callers : List Frame
  tables : Tables
  handles : Array Handle
  cells : Array Handle
  outer : Env
  name : String

namespace Site

/-- The frames when the call is at a place. -/
def at_ (S : Site) (place : Nat) : List Frame := { S.frame with ip := place } :: S.callers

/-- Code stands at a place of the function that is called. -/
abbrev Has (S : Site) (place : Nat) (code : Written) : Prop := S.frame.chunk.Has place code

/-- **The call is one of a closure of a machine,** whose cells are those of the variables around it. -/
structure Fits (S : Site) (β : Link) (m : Machine ω) : Prop where
  closure : ∃ function, m.heap.closure? S.frame.closure = some { function, cells := S.cells }
  closes : Closes β S.cells S.tables.captures S.tables.enclosing S.outer
  fill : S.tables.Fill S.handles S.frame.chunk
  installed : m.heap.Installed S.tables.functions S.handles
  name : (m.heap.functionName? S.frame.closure).getD scriptName = S.name
  named : (m.heap.functionName? S.frame.closure).isSome

theorem Fits.later {S : Site} {β γ : Link} {m m' : Machine ω} (h : S.Fits β m)
    (hl : Later β m γ m') : S.Fits γ m' := by
  obtain ⟨function, hc⟩ := h.closure
  obtain ⟨name, hn⟩ := Option.isSome_iff_exists.1 h.named
  have hn' := hl.functionName? hn
  refine ⟨⟨function, hl.closure _ _ hc⟩, h.closes.mono hl.le, h.fill, h.installed.mono hl.function, ?_, ?_⟩
  · rw [hn', ← h.name, hn]
  · rw [hn']
    rfl

end Site

/-- **A machine stands at a place of a call,** for a memory. -/
structure Here (S : Site) (β : Link) (φ : Roles) (place : Nat) (m : Machine ω) (μ : Memory ω) :
    Prop where
  models : m.Models β φ μ
  fits : S.Fits β m
  frames : m.frames = S.at_ place

namespace Here

variable {S : Site} {β γ : Link} {φ ψ : Roles} {place place' line : Nat} {m m' : Machine ω}
  {μ μ' : Memory ω} {i : Instr} {rest : Written}

/-- The next instruction is the one that stands at the place. -/
theorem step (h : Here S β φ place m μ) (hc : S.Has place ((i, line) :: rest)) (size : Nat)
    (hsize : i.size = size) :
    m.step = ({ m with frames := S.at_ (place + size) } : Machine ω).exec place i := by
  subst hsize
  have hdecode := hc.decode
  have hframes := h.frames
  unfold Machine.step
  rw [hframes]
  unfold Site.at_ at hframes ⊢
  simp only [hdecode, Machine.moveTo_eq hframes]

/-- The machine goes on to another place. -/
theorem next (h : Here S β φ place m μ) (hl : Later β m γ m') (hm : m'.Models γ ψ μ')
    (hframes : m'.frames = S.at_ place') : Here S γ ψ place' m' μ' :=
  ⟨hm, h.fits.later hl, hframes⟩

/-- The machine goes on and nothing else happens. -/
theorem moved (h : Here S β φ place m μ) (place' : Nat) :
    Here S β φ place' ({ m with frames := S.at_ place' } : Machine ω) μ :=
  h.next (.of_heap rfl) (h.models.withFrames _) rfl

end Here

/-! ### Values on the stack -/

/-- The slots that are no variables of the program have the values that they had. -/
structure Keeps (φ : Roles) (stack stack' : Array Value) : Prop where
  size : stack'.size = stack.size
  same : ∀ k, (∀ g, φ k ≠ .bound g) → stack'[k]? = stack[k]?

namespace Keeps

variable {φ : Roles} {stack stack' stack'' : Array Value}

theorem refl (φ : Roles) (stack : Array Value) : Keeps φ stack stack := ⟨rfl, fun _ _ => rfl⟩

theorem trans (h : Keeps φ stack stack') (h' : Keeps φ stack' stack'') : Keeps φ stack stack'' :=
  ⟨h'.size.trans h.size, fun k hk => (h'.same k hk).trans (h.same k hk)⟩

/-- Values above the variables are kept. -/
theorem append (hφ : φ.Under stack.size) {values : List Value}
    (h : Keeps φ (stack ++ values.toArray) stack') :
    ∃ kept, Keeps φ stack kept ∧ stack' = kept ++ values.toArray := by
  have hsize : stack'.size = stack.size + values.length := h.size.trans (by simp)
  refine ⟨stack'.extract 0 stack.size, ⟨?_, fun k hk => ?_⟩, Array.ext_getElem? fun k => ?_⟩
  · rw [Array.size_extract]
    omega
  · rw [Array.getElem?_extract]
    split
    case isTrue hlt =>
      rw [Nat.zero_add, h.same k hk, Array.getElem?_append_left (by omega)]
    case isFalse hle => rw [Array.getElem?_eq_none (by omega)]
  · by_cases hlt : k < stack.size
    · rw [Array.getElem?_append_left (by rw [Array.size_extract]; omega), Array.getElem?_extract,
        if_pos (by omega), Nat.zero_add]
    · rw [h.same k (by rw [hφ k (Nat.le_of_not_lt hlt)]; exact nofun),
        Array.getElem?_append_right (Nat.le_of_not_lt hlt), Array.getElem?_append_right
          (by rw [Array.size_extract]; omega)]
      congr 1
      rw [Array.size_extract]
      omega

end Keeps

/-- The values that `Leaves` speaks of: `values` lie as `vs` on top of the stack `kept`. -/
structure Left (S : Site) (φ : Roles) (β : Link) (m : Machine ω) (place : Nat) (values : List Value)
    (μ : Memory ω) (m' : Machine ω) (γ : Link) (kept : Array Value) (vs : List Value) : Prop where
  under : φ.Under m.stack.size
  later : Later β m γ m'
  here : Here S γ φ place m' μ
  keeps : Keeps φ m.stack kept
  stack : m'.stack = kept ++ vs.toArray
  similar : List.Forall₂ (Value.Similar γ) vs values

/-- **Values are left** on top of the stack that a machine `m` had, by code that ends at a place. -/
def Leaves (S : Site) (φ : Roles) (β : Link) (m : Machine ω) (place : Nat) (values : List Value)
    (μ : Memory ω) (m' : Machine ω) : Prop :=
  ∃ γ kept vs, Left S φ β m place values μ m' γ kept vs

section Leaves

variable {S : Site} {β γ δ : Link} {φ : Roles} {place place' bound : Nat} {m m' m'' : Machine ω}
  {μ μ' : Memory ω} {values values' vs ws : List Value} {kept : Array Value}

/-- Nothing was left yet. -/
theorem Here.leaves (h : Here S β φ place m μ) (hφ : φ.Under m.stack.size) :
    Leaves S φ β m place [] μ m :=
  ⟨β, m.stack, [], hφ, .refl β m, h, .refl φ _, by simp, .nil⟩

/-- More values are left. -/
theorem Left.trans (h : Left S φ β m place values μ m' γ kept vs)
    (h' : Leaves S φ γ m' place' values' μ' m'') :
    Leaves S φ β m place' (values ++ values') μ' m'' := by
  obtain ⟨δ, kept', ws, h'⟩ := h'
  have hφ : φ.Under kept.size := h.keeps.size ▸ h.under
  have hkeeps := h'.keeps
  rw [h.stack] at hkeeps
  obtain ⟨kept'', hkept, rfl⟩ := hkeeps.append hφ
  refine ⟨δ, kept'', vs ++ ws, h.under, h.later.trans h'.later, h'.here, h.keeps.trans hkept, ?_, ?_⟩
  · rw [h'.stack, Array.append_assoc, ← List.append_toArray]
  · exact List.rel_append (similar_mono h'.later.le h.similar) h'.similar

/-- Variables have their values under what is left. -/
theorem Left.bound_lt (h : Left S φ β m place values μ m' γ kept vs) {k : Nat} {g : Handle}
    (hg : φ k = .bound g) : k < kept.size :=
  h.keeps.size ▸ h.under.lt hg

/-- What was left is replaced. -/
theorem Left.withStack (h : Left S φ β m place values μ m' γ kept vs) (ws : List Value)
    (frames : List Frame) :
    ({ m' with stack := kept ++ ws.toArray, frames } : Machine ω).Models γ φ μ := by
  refine (h.here.models.withFrames frames).withStack fun k g hg => ?_
  have hlt := h.bound_lt hg
  rw [h.stack, Array.getElem?_append_left hlt, Array.getElem?_append_left hlt]

/-- An instruction replaces what was left. -/
theorem Left.next (h : Left S φ β m place values μ m' γ kept vs) (hl : Later γ m' δ m'')
    (hm : m''.Models δ φ μ') (hframes : m''.frames = S.at_ place')
    (hstack : m''.stack = kept ++ ws.toArray) (hws : List.Forall₂ (Value.Similar δ) ws values') :
    Leaves S φ β m place' values' μ' m'' :=
  ⟨δ, kept, ws, h.under, h.later.trans hl, h.here.next hl hm hframes, h.keeps, hstack, hws⟩

/-- **An instruction that reads:** it replaces values by what an operation gives, or fails with it. -/
theorem Leaves.given (h : Leaves S φ β m place values μ m') {read : Heap → Except Cause Value}
    (hread : ∀ γ kept vs, Left S φ β m place values μ m' γ kept vs → ∃ result,
      m'.step = ({ m' with stack := kept, frames := S.at_ place' } : Machine ω).give result ∧
      Heap.Agrees (Value.Similar γ) result (read μ.heap)) :
    Follows bound m' (fun r => Leaves S φ β m place' [r]) (Eval.given read μ) := by
  obtain ⟨γ, kept, vs, h⟩ := h
  obtain ⟨result, hs, ha⟩ := hread γ kept vs h
  unfold Eval.given
  generalize read μ.heap = result' at ha
  have hstill := h.withStack [] (S.at_ place')
  rw [Array.append_empty] at hstill
  cases ha with
  | @ok v v' hv =>
    have hm := h.withStack [v] (S.at_ place')
    rw [← Array.push_eq_append] at hm
    exact .ok (.one hs) (h.next (.of_heap rfl) hm rfl Array.push_eq_append (.cons hv .nil))
  | error cause => exact .error (.refl _) hs hstill

/-- **An instruction that makes or changes data:** it replaces values by what an operation gives. -/
theorem Leaves.change (h : Leaves S φ β m place values μ m') {new : Heap → Value × Heap}
    (hnew : ∀ γ kept vs, Left S φ β m place values μ m' γ kept vs → ∃ δ v next,
      m'.step = .next { m' with stack := kept.push v, frames := S.at_ place', heap := next } ∧
      Heap.Extends γ m'.heap μ.heap δ next (new μ.heap).2 ∧ v.Similar δ (new μ.heap).1) :
    Follows bound m' (fun r => Leaves S φ β m place' [r]) (Eval.change new μ) := by
  obtain ⟨γ, kept, vs, h⟩ := h
  obtain ⟨δ, v, next, hs, hx, hv⟩ := hnew γ kept vs h
  have hm := (h.withStack [v] (S.at_ place')).extend hx
  rw [← Array.push_eq_append] at hm
  exact .ok (.one hs) (h.next (.of_extends hx rfl) hm rfl Array.push_eq_append (.cons hv .nil))

/-- **An instruction that writes** to a container and leaves the written value. -/
theorem Leaves.write (h : Leaves S φ β m place values μ m')
    {target : Heap → Except Cause Heap.Target} {v : Value}
    (hwrite : ∀ γ kept vs, Left S φ β m place values μ m' γ kept vs → ∃ result w,
      m'.step = ({ m' with stack := kept, frames := S.at_ place' } : Machine ω).write result w ∧
      Heap.Agrees (Heap.Target.Similar γ) result (target μ.heap) ∧ w.Similar γ v) :
    Follows bound m' (fun r => Leaves S φ β m place' [r]) (Eval.write target v μ) := by
  obtain ⟨γ, kept, vs, h⟩ := h
  obtain ⟨result, w, hs, ha, hv⟩ := hwrite γ kept vs h
  change Follows bound m' _ (Eval.andThen _ _ μ)
  unfold Eval.andThen Eval.given
  generalize target μ.heap = result' at ha
  have hstill := h.withStack [] (S.at_ place')
  rw [Array.append_empty] at hstill
  cases ha with
  | @ok t t' ht =>
    have hx := h.here.models.twin.store ht hv
    have hm := (h.withStack [w] (S.at_ place')).extend hx
    rw [← Array.push_eq_append] at hm
    exact .ok (.one hs) (h.next (.of_extends hx rfl) hm rfl Array.push_eq_append (.cons hv .nil))
  | error cause => exact .error (.refl _) hs hstill

/-- **An instruction that only leaves a value.** -/
theorem Left.push (h : Left S φ β m place values μ m' γ kept vs) {v v' : Value}
    (hstep : m'.step = .next { m' with stack := m'.stack.push v, frames := S.at_ place' })
    (hv : v.Similar γ v') :
    Follows bound m' (fun r => Leaves S φ β m place' (values ++ [r])) (.ok v' μ) := by
  have hm := h.withStack (vs ++ [v]) (S.at_ place')
  have hstack : m'.stack.push v = kept ++ (vs ++ [v]).toArray := by
    rw [h.stack, Array.push_eq_append, Array.append_assoc, ← List.append_toArray]
  rw [← hstack] at hm
  exact .ok (.one hstep) (h.next (.of_heap rfl) hm rfl hstack
    (List.rel_append h.similar (.cons hv .nil)))

end Leaves

end DeployScript
