import DeployScript.Proofs.Bindings.Scopes

/-!
# The stack of a frame at each instruction

At every instruction of a routine the stack of its frame is known: there are the variables in scope, and
above them values that belong to no variable yet. Every instruction takes values of the second kind only,
unless it takes the innermost variable out of scope.

* `Paint` — the variables of a frame, and how many values lie above them.
* `Instr.Moves` — from which paint to which an instruction leads.
* `Instr.Sits` — where an instruction may stand: what it assigns may be assigned.
* `Painted` — code with a paint for each instruction; `Painted.append`, `Painted.close`.
-/

namespace DeployScript

/-- What is known of the stack of a frame: the variables that are in scope, the innermost first, and how
many values lie above them. -/
structure Paint where
  vars : List Variable
  temps : Nat

/-- How high the stack of the frame is. -/
def Paint.height (p : Paint) : Nat := p.vars.length + p.temps

/-- A value is there: above the variables, or as a variable that is now in scope. -/
def Paint.Settles (vars : List Variable) (temps : Nat) (q : Paint) : Prop :=
  q = ⟨vars, temps + 1⟩ ∨ (temps = 0 ∧ ∃ x, q = ⟨x :: vars, 0⟩)

theorem Paint.settles (vars : List Variable) (temps : Nat) : Paint.Settles vars temps ⟨vars, temps + 1⟩ :=
  .inl rfl

theorem Paint.settles_variable (x : Variable) (vars : List Variable) :
    Paint.Settles vars 0 ⟨x :: vars, 0⟩ := .inr ⟨rfl, x, rfl⟩

/-- **Where an instruction leads:** it takes values from above the variables and gives others; or what it
gives becomes a variable; or it takes the innermost variable off the stack. -/
inductive Instr.Moves (i : Instr) : Paint → Paint → Prop
  | keeps {vars : List Variable} {temps : Nat} (h : i.given = 0) :
    Moves i ⟨vars, temps + i.taken⟩ ⟨vars, temps⟩
  | gives {vars : List Variable} {temps : Nat} {q : Paint} (h : i.given = 1)
    (hq : Paint.Settles vars temps q) : Moves i ⟨vars, temps + i.taken⟩ q
  | drops {x : Variable} {vars : List Variable} (h : i.op = .pop ∨ i.op = .closeCapture) :
    Moves i ⟨x :: vars, 0⟩ ⟨vars, 0⟩

/-- The height of the stack changes as the instruction says. -/
theorem Instr.Moves.height {i : Instr} {p q : Paint} (h : i.Moves p q) :
    i.taken ≤ p.height ∧ q.height = p.height - i.taken + i.given := by
  cases h with
  | @keeps vars temps hgiven =>
    rw [hgiven]
    simp only [Paint.height]
    omega
  | @gives vars temps q hgiven hq =>
    rw [hgiven]
    rcases hq with rfl | ⟨rfl, x, rfl⟩
    · simp only [Paint.height]
      omega
    · simp only [Paint.height, List.length_cons]
      omega
  | @drops x vars hop =>
    obtain ⟨op, operand⟩ := i
    have htaken : Instr.taken ⟨op, operand⟩ = 1 ∧ Instr.given ⟨op, operand⟩ = 0 := by
      rcases hop with hop | hop
      · obtain rfl : op = .pop := hop
        exact ⟨rfl, rfl⟩
      · obtain rfl : op = .closeCapture := hop
        exact ⟨rfl, rfl⟩
    rw [htaken.1, htaken.2]
    simp only [Paint.height, List.length_cons]
    omega

/-- **A closure is made of a function of the routine.** The slots that its sources name are those of the
variables that are in scope behind the instruction. -/
def Routine.Makes (r : Routine) (T : Tables) (vars : List Variable) (index : UInt16)
    (sources : List CaptureSource) : Prop :=
  ∃ k q params body, T.constants[index.toNat]? = some (.function k) ∧ T.functions[k]? = some q ∧
    q.captures = sources.length ∧ (params, body) ∈ r.functions ∧
    Routine.Codes ⟨.function params body, sources, ⟨vars, r.captures⟩ :: r.outer⟩ T.functions q

/-- **Where an instruction may stand:** a variable that it assigns may be assigned, a global that it
defines is one that the routine declares, and what is returned belongs to no variable. -/
structure Instr.Sits (r : Routine) (T : Tables) (p : Paint) (i : Instr) : Prop where
  slot : ∀ w, i = ⟨.setLocal, w⟩ → ∃ x, p.vars.reverse[w.toNat]? = some x ∧ x.isMutable = true
  capture : ∀ w, i = ⟨.setCapture, w⟩ → ∃ x, r.captured? w.toNat = some x ∧ x.isMutable = true
  declaration : ∀ w, i = ⟨.defineLet, w⟩ ∨ i = ⟨.defineVar, w⟩ →
    ∃ name, T.names[w.toNat]? = some name ∧ r.Declares name
  result : i.op = .return_ → 0 < p.temps

/-- An instruction that assigns and defines nothing, and does not return. -/
def Opcode.isPlain : Opcode → Bool
  | setLocal | setCapture | defineLet | defineVar | return_ | closure => false
  | _ => true

theorem Instr.sits_of_isPlain {r : Routine} {T : Tables} {p : Paint} {i : Instr}
    (h : i.op.isPlain = true) : i.Sits r T p := by
  refine ⟨?_, ?_, ?_, ?_⟩
  · rintro w rfl
    cases h
  · rintro w rfl
    cases h
  · rintro w (rfl | rfl) <;> cases h
  · intro hop
    rw [hop] at h
    cases h

section Sits

variable {r : Routine} {T : Tables} {p : Paint} {w : UInt16} {x : Variable}

theorem Instr.sits_setLocal (hx : p.vars.reverse[w.toNat]? = some x) (hm : x.isMutable = true) :
    Instr.Sits r T p ⟨.setLocal, w⟩ := by
  refine ⟨fun w' he => ?_, nofun, nofun, nofun⟩
  cases he
  exact ⟨x, hx, hm⟩

theorem Instr.sits_setCapture (hx : r.captured? w.toNat = some x) (hm : x.isMutable = true) :
    Instr.Sits r T p ⟨.setCapture, w⟩ := by
  refine ⟨nofun, fun w' he => ?_, nofun, nofun⟩
  cases he
  exact ⟨x, hx, hm⟩

theorem Instr.sits_define (isMutable : Bool) {name : String} (hw : T.names[w.toNat]? = some name)
    (hname : r.Declares name) : (Compile.defineInstr isMutable w).Sits r T p := by
  cases isMutable
  · refine ⟨nofun, nofun, ?_, nofun⟩
    rintro w' (he | he)
    · cases he
      exact ⟨name, hw, hname⟩
    · cases he
  · refine ⟨nofun, nofun, ?_, nofun⟩
    rintro w' (he | he)
    · cases he
    · cases he
      exact ⟨name, hw, hname⟩

theorem Instr.sits_return (h : 0 < p.temps) : Instr.Sits r T p ⟨.return_, ()⟩ :=
  ⟨nofun, nofun, (by rintro w (he | he) <;> cases he), fun _ => h⟩

theorem Instr.sits_closure {operand : UInt16 × List CaptureSource} :
    Instr.Sits r T p ⟨.closure, operand⟩ :=
  ⟨nofun, nofun, (by rintro w (he | he) <;> cases he), nofun⟩

end Sits

/-- What is asked of a way from an instruction on. -/
structure Instr.Leads (r : Routine) (T : Tables) (i : Instr) (p q : Paint) : Prop where
  moves : i.Moves p q
  makes : ∀ w sources, i = ⟨.closure, (w, sources)⟩ → r.Makes T q.vars w sources

theorem Instr.leads_of_moves {r : Routine} {T : Tables} {i : Instr} {p q : Paint} (hi : i.op ≠ .closure)
    (h : i.Moves p q) : i.Leads r T p q :=
  ⟨h, fun _ _ he => absurd (congrArg Instr.op he) hi⟩

/-! ### Painted code -/

/-- Instructions with the paint in front of each. -/
abbrev Painting := List ((Instr × Nat) × Paint)

namespace Painting

/-- How many bytes the instructions have. -/
def size (l : Painting) : Nat := Written.size (l.map Prod.fst)

@[simp] theorem size_nil : size [] = 0 := rfl

@[simp] theorem size_cons (e : Instr × Nat) (p : Paint) (l : Painting) :
    size ((e, p) :: l) = e.1.size + size l := by
  simp [size]

@[simp] theorem size_append (l l' : Painting) : size (l ++ l') = size l + size l' := by
  simp [size]

/-- The paint at a place. -/
def Shows : (start : Nat) → Painting → (place : Nat) → Paint → Prop
  | _, [], _, _ => False
  | start, (e, p) :: rest, place, q => (place = start ∧ q = p) ∨ Shows (start + e.1.size) rest place q

/-- The paint in front of the first instruction, where `exit` is the one behind the last. -/
def Enters (exit : Paint) : Painting → Paint → Prop
  | [], p => p = exit
  | (_, q) :: _, p => p = q

/-- Every instruction may stand where it is, and leads where the paint is one that it leaves. -/
def Checked (r : Routine) (T : Tables) (E : Nat → Paint → Prop) : (start : Nat) → Painting → Prop
  | _, [] => True
  | start, ((i, _), p) :: rest => i.Sits r T p ∧
      (∀ place ∈ i.targets (start + i.size), ∃ q, i.Leads r T p q ∧ E place q) ∧
      Checked r T E (start + i.size) rest

/-- The places of the instructions and the place behind them, beside those of `E`. -/
def Around (E : Nat → Paint → Prop) (start : Nat) (l : Painting) (exit : Paint) :
    Nat → Paint → Prop :=
  fun place p => E place p ∨ Shows start l place p ∨ (place = start + size l ∧ p = exit)

variable {r : Routine} {T : Tables} {E F : Nat → Paint → Prop} {start place : Nat} {l l' : Painting}
  {p q exit : Paint}

theorem shows_append :
    Shows start (l ++ l') place p ↔ Shows start l place p ∨ Shows (start + size l) l' place p := by
  induction l generalizing start with
  | nil => simp [Shows]
  | cons a l ih =>
    rw [List.cons_append, Shows, Shows, ih, size_cons, Nat.add_assoc, or_assoc]

theorem checked_append : Checked r T E start (l ++ l') ↔
    Checked r T E start l ∧ Checked r T E (start + size l) l' := by
  induction l generalizing start with
  | nil => simp [Checked]
  | cons a l ih =>
    rw [List.cons_append, Checked, Checked, ih, size_cons, Nat.add_assoc]
    simp only [and_assoc]

theorem Checked.mono (hE : ∀ place p, E place p → F place p) (h : Checked r T E start l) :
    Checked r T F start l := by
  induction l generalizing start with
  | nil => trivial
  | cons a l ih =>
    refine ⟨h.1, fun place hplace => ?_, ih h.2.2⟩
    obtain ⟨q, hq, hE'⟩ := h.2.1 place hplace
    exact ⟨q, hq, hE _ _ hE'⟩

theorem Enters.shows (h : Enters exit l p) (hl : l ≠ []) : Shows start l start p := by
  cases l with
  | nil => exact absurd rfl hl
  | cons a l => exact .inl ⟨rfl, h⟩

/-- The paint at a place is that of an instruction. -/
theorem Shows.instr (h : Shows start l place p) : ∃ before e after,
    l = before ++ (e, p) :: after ∧ place = start + size before := by
  induction l generalizing start with
  | nil => exact h.elim
  | cons a l ih =>
    obtain ⟨e, q⟩ := a
    rcases h with ⟨rfl, rfl⟩ | h
    · exact ⟨[], e, l, rfl, rfl⟩
    · obtain ⟨before, e', after, rfl, rfl⟩ := ih h
      exact ⟨(e, q) :: before, e', after, rfl, by rw [size_cons, Nat.add_assoc]⟩

/-- The first instruction of what follows. -/
theorem Checked.head {before after : Painting} {e : Instr × Nat} (h : Checked r T E start l)
    (hl : l = before ++ (e, p) :: after) : e.1.Sits r T p ∧
      ∀ place ∈ e.1.targets (start + size before + e.1.size), ∃ q, e.1.Leads r T p q ∧ E place q := by
  rw [hl, checked_append] at h
  exact ⟨h.2.1, h.2.2.1⟩

end Painting

open Painting in
/-- **Painted code:** at its start the paint is `p`, and behind it `q`; `scopes` are the variables in
scope at its instructions. Beside its own places it leads only to those of `E`. -/
def Painted (r : Routine) (T : Tables) (E : Nat → Paint → Prop) (start : Nat) (code : Written)
    (scopes : List (List Variable)) (p q : Paint) : Prop :=
  ∃ l : Painting, l.map Prod.fst = code ∧ l.map (·.2.vars) = scopes ∧ Enters q l p ∧
    Checked r T (Around E start l q) start l

namespace Painted

open Painting

variable {r : Routine} {T : Tables} {E F : Nat → Paint → Prop} {start : Nat} {code code' : Written}
  {scopes scopes' : List (List Variable)} {p q u : Paint} {i : Instr} {line : Nat}

theorem mono (hE : ∀ place p, E place p → F place p) (h : Painted r T E start code scopes p q) :
    Painted r T F start code scopes p q := by
  obtain ⟨l, hl, hscopes, henter, hcheck⟩ := h
  exact ⟨l, hl, hscopes, henter, hcheck.mono fun place s hs => hs.imp_left (hE place s)⟩

/-- The place at which code starts, in another form. -/
theorem cast {start' : Nat} (h : Painted r T E start code scopes p q) (hstart : start = start') :
    Painted r T E start' code scopes p q := hstart ▸ h

theorem nil : Painted r T E start [] [] p p := ⟨[], rfl, rfl, rfl, trivial⟩

/-- One instruction leads behind itself or where it may lead anyway. -/
theorem single (hsits : i.Sits r T p)
    (hleads : ∀ place ∈ i.targets (start + i.size), (place = start + i.size ∧ i.Leads r T p q) ∨
      ∃ s, i.Leads r T p s ∧ E place s) :
    Painted r T E start [(i, line)] [p.vars] p q := by
  refine ⟨[((i, line), p)], rfl, rfl, rfl, hsits, fun place hplace => ?_, trivial⟩
  rcases hleads place hplace with ⟨rfl, hq⟩ | ⟨s, hs, hE⟩
  · exact ⟨q, hq, .inr (.inr ⟨by simp, rfl⟩)⟩
  · exact ⟨s, hs, .inl hE⟩

/-- An instruction that leads behind itself and nowhere else. -/
theorem instr (hsits : i.Sits r T p) (htargets : i.targets (start + i.size) = [start + i.size])
    (hleads : i.Leads r T p q) : Painted r T E start [(i, line)] [p.vars] p q := by
  refine single hsits fun place hplace => .inl ⟨?_, hleads⟩
  rwa [htargets, List.mem_singleton] at hplace

/-- **Code behind code.** -/
theorem append (h : Painted r T E start code scopes p q)
    (h' : Painted r T E (start + Written.size code) code' scopes' q u) :
    Painted r T E start (code ++ code') (scopes ++ scopes') p u := by
  obtain ⟨l, rfl, rfl, henter, hcheck⟩ := h
  obtain ⟨l', rfl, rfl, henter', hcheck'⟩ := h'
  change Checked r T _ (start + size l) l' at hcheck'
  refine ⟨l ++ l', List.map_append, List.map_append, ?_, checked_append.2 ⟨hcheck.mono ?_,
    hcheck'.mono ?_⟩⟩
  · cases l with
    | nil =>
      obtain rfl : p = q := henter
      exact henter'
    | cons a l => exact henter
  · rintro place s (hs | hs | ⟨rfl, rfl⟩)
    · exact .inl hs
    · exact .inr (.inl (shows_append.2 (.inl hs)))
    · cases l' with
      | nil =>
        obtain rfl : s = u := henter'
        exact .inr (.inr ⟨by simp, rfl⟩)
      | cons a l' => exact .inr (.inl (shows_append.2 (.inr (henter'.shows (List.cons_ne_nil a l')))))
  · rintro place s (hs | hs | ⟨rfl, rfl⟩)
    · exact .inl hs
    · exact .inr (.inl (shows_append.2 (.inr hs)))
    · exact .inr (.inr ⟨by rw [size_append, Nat.add_assoc]; rfl, rfl⟩)

/-- **Code that leads to its own start or end** leads nowhere else by that. -/
theorem close (h : Painted r T (fun place s => E place s ∨ (place = start ∧ s = p) ∨
      (place = start + Written.size code ∧ s = q)) start code scopes p q) :
    Painted r T E start code scopes p q := by
  obtain ⟨l, rfl, rfl, henter, hcheck⟩ := h
  refine ⟨l, rfl, rfl, henter, hcheck.mono ?_⟩
  rintro place s ((hs | ⟨rfl, rfl⟩ | ⟨rfl, rfl⟩) | hs)
  · exact .inl hs
  · cases l with
    | nil => exact .inr (.inr ⟨rfl, henter⟩)
    | cons a l => exact .inr (.inl (henter.shows (List.cons_ne_nil a l)))
  · exact .inr (.inr ⟨rfl, rfl⟩)
  · exact .inr hs

/-- The same for the end alone. -/
theorem closeEnd (h : Painted r T (fun place s => E place s ∨
      (place = start + Written.size code ∧ s = q)) start code scopes p q) :
    Painted r T E start code scopes p q :=
  close (h.mono fun _ _ => Or.imp_right .inr)

/-- An instruction in front of code. -/
theorem cons (hsits : i.Sits r T p) (htargets : i.targets (start + i.size) = [start + i.size])
    (hleads : i.Leads r T p q) (h : Painted r T E (start + i.size) code scopes q u) :
    Painted r T E start ((i, line) :: code) (p.vars :: scopes) p u :=
  (instr hsits htargets hleads).append (by simpa using h)

end Painted

end DeployScript
