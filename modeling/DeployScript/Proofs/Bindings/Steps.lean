import DeployScript.Proofs.Bindings.Stored
import DeployScript.Proofs.Machine.Effects

/-!
# The variables of a running machine

Which slots of the stack are variables in scope, which variables the cells of closures stand for, and
what one instruction leaves of this.

A slot of the stack is used by one variable after another, so a statement about a variable has to say
how long it is there: `Machine.InScope` says it at a moment, and a variable is the same one as long as
it is in scope at every moment. A call that has been suspended stands behind its call instruction,
where a variable may be in scope that gets its value only by the result; this is why the slot of a
variable has to lie under the call above.

The two ways to assign a variable are refuted differently. A slot is assigned by the code that has the
variable in scope, and there the painting of the code says that it may be assigned. A capture is assigned
by code that may be far away, and this is what `Heap.SharedAs` is for: every closure with the cell of a
variable has captured that variable, so that the text of the closure says that it may be assigned.

* `LocalVariable.In`, `Machine.InScope` — a local variable is in scope.
* `Heap.SharedAs` — the variable that a cell stands for in all closures.
* `Machine.Faithful` — cells of immutable variables are shared as these, and functions are routines.
* `At.inScope`, `At.wasInScope`, `At.slot_kept` — variables and slots.
* `Machine.Constant`, `At.constant` — cells of immutable variables keep their values.
-/

namespace DeployScript

variable {ω : Type}

/-! ### Variables in scope -/

/-- **A local variable** of a call that is under way: how many calls are around this call, the slot of
the variable, and how it was declared. -/
structure LocalVariable where
  depth : Nat
  slot : Nat
  var : Variable

/-- A slot is that of a variable in scope in a call. -/
def Frame.Has (heap : Heap) (f : Frame) (slot : Nat) (x : Variable) : Prop :=
  ∃ c r vars, heap.closure? f.closure = some c ∧ heap.Holds c.function r ∧
    r.InScope f.chunk f.ip vars ∧ f.base ≤ slot ∧ vars.reverse[slot - f.base]? = some x

/-- **A variable is in scope** in one of the calls, under the start of the call above it or the top of
the stack. -/
def LocalVariable.In (heap : Heap) (b : LocalVariable) : (limit : Nat) → List Frame → Prop
  | _, [] => False
  | limit, f :: callers =>
    (callers.length = b.depth ∧ b.slot < limit ∧ f.Has heap b.slot b.var) ∨ b.In heap f.base callers

/-- **A local variable is in scope.** -/
def Machine.InScope (m : Machine ω) (b : LocalVariable) : Prop := b.In m.heap m.stack.size m.frames

namespace LocalVariable.In

variable {heap next : Heap} {b : LocalVariable} {limit limit' size : Nat} {frames : List Frame}
  {isOpen : Nat → Prop}

theorem depth_lt (h : b.In heap limit frames) : b.depth < frames.length := by
  induction frames generalizing limit with
  | nil => exact h.elim
  | cons f callers ih =>
    rcases h with ⟨hdepth, -, -⟩ | h
    · exact hdepth ▸ Nat.lt_succ_self _
    · exact Nat.lt_succ_of_lt (ih h)

/-- Calls lie above one another, and so do their variables. -/
theorem slot_lt (hf : Machine.Framed heap isOpen size limit frames) (h : b.In heap limit frames) :
    b.slot < limit := by
  induction frames generalizing size limit with
  | nil => exact h.elim
  | cons f callers ih =>
    obtain ⟨-, hlimit, -, hrest⟩ := hf
    rcases h with ⟨-, hlt, -⟩ | h
    · exact hlt
    · exact Nat.lt_of_lt_of_le (ih hrest h) hlimit

/-- Another limit may be given. -/
theorem under (h : b.In heap limit frames) (hlt : b.slot < limit') : b.In heap limit' frames := by
  cases frames with
  | nil => exact h.elim
  | cons f callers => exact h.imp_left fun ⟨hdepth, _, hhas⟩ => ⟨hdepth, hlt, hhas⟩

theorem mono (h : b.In heap limit frames)
    (hclosure : ∀ f ∈ frames, ∀ d, heap.closure? f.closure = some d → next.closure? f.closure = some d)
    (hholds : ∀ f ∈ frames, ∀ d, heap.closure? f.closure = some d → ∀ r, heap.Holds d.function r →
      next.Holds d.function r) : b.In next limit frames := by
  induction frames generalizing limit with
  | nil => exact h.elim
  | cons f callers ih =>
    rcases h with ⟨hdepth, hlt, c, r, vars, hc, hr, hhas⟩ | h
    · exact .inl ⟨hdepth, hlt, c, r, vars, hclosure f List.mem_cons_self c hc,
        hholds f List.mem_cons_self c hc r hr, hhas⟩
    · exact .inr (ih h (fun g hg => hclosure g (List.mem_cons_of_mem _ hg))
        fun g hg => hholds g (List.mem_cons_of_mem _ hg))

end LocalVariable.In

/-! ### Shared variables -/

/-- **A cell stands for a variable** in every closure that has it. -/
def Heap.SharedAs (heap : Heap) (g : Handle) (x : Variable) : Prop :=
  ∀ h d (k : Nat), heap.closure? h = some d → d.cells[k]? = some g →
    ∃ r, heap.Holds d.function r ∧ r.captured? k = some x

/-- The routines of the scripts with some sources. -/
def Routine.From (sources : String → Prop) (r : Routine) : Prop :=
  ∃ source p, sources source ∧ Program.ofSource source = .ok p ∧ Routine.Of p r

/-- **Functions are routines** of scripts, and open cells of immutable variables stand for these. -/
structure Machine.Faithful (sources : String → Prop) (m : Machine ω) : Prop where
  routines : ∀ h d, m.heap.closure? h = some d → ∃ r, m.heap.Holds d.function r ∧ r.From sources
  shared : ∀ b g, m.InScope b → b.var.isMutable = false → m.heap.cell? g = some (.opened b.slot) →
    m.heap.SharedAs g b.var

/-! ### One instruction -/

namespace Machine.At

variable {β : Link} {m m' : Machine ω} {f : Frame} {callers : List Frame} {c : Closure}
  {p : Prototype Value} {i : Instr} {u : StackShape} {r : Routine} {b : LocalVariable}
  {sources : String → Prop} {x : Variable} {v : Value} {g : Handle}

/-- **The paint in front of the instruction,** for every routine that the function is the code of. -/
theorem paints (ha : m.At β f callers c p i u) (hr : m.heap.Holds c.function r) :
    ∃ paint, f.base + paint.height = m.stack.size ∧ m.heap.Paints r p f.ip i paint := by
  have hdecode : Instr.decode p.chunk.code f.ip = .instr i := by
    rw [ha.chunk]
    exact ha.decode
  obtain ⟨paint, hheight, hpaints⟩ := hr.paints ha.function ((ha.path _).2 rfl) hdecode
  exact ⟨paint, hheight ▸ ha.height, hpaints⟩

/-- The variables in front of the instruction, if it leads anywhere: those that stay have their slots
below what it takes. -/
theorem slot_of_moves {paint q : Paint} {slot : Nat} (hmoves : i.Moves paint q)
    (hsize : f.base + paint.height = m.stack.size) (hge : f.base ≤ slot)
    (hx : paint.vars.reverse[slot - f.base]? = some x)
    (hlt : i.given = 0 → slot < m.stack.size - i.taken) :
    slot < m.stack.size - i.taken ∧ q.vars.reverse[slot - f.base]? = some x := by
  have hindex := (List.getElem?_eq_some_iff.1 hx).1
  rw [List.length_reverse] at hindex
  cases hmoves with
  | @keeps vars temps hgiven =>
    simp only [Paint.height] at hsize hindex
    exact ⟨by omega, hx⟩
  | @gives vars temps q hgiven hq =>
    simp only [Paint.height] at hsize hindex
    refine ⟨by omega, ?_⟩
    rcases hq with rfl | ⟨rfl, y, rfl⟩
    · exact hx
    · rw [List.reverse_cons, List.getElem?_append_left (by rwa [List.length_reverse])]
      exact hx
  | @drops y vars hop =>
    have htaken : i.taken = 1 ∧ i.given = 0 := by
      obtain ⟨op, operand⟩ := i
      rcases hop with hop | hop
      · obtain rfl : op = .pop := hop
        exact ⟨rfl, rfl⟩
      · obtain rfl : op = .closeCapture := hop
        exact ⟨rfl, rfl⟩
    simp only [Paint.height, List.length_cons] at hsize hindex
    have hbelow := hlt htaken.2
    rw [htaken.1] at hbelow ⊢
    refine ⟨hbelow, ?_⟩
    rwa [List.reverse_cons, List.getElem?_append_left (by rw [List.length_reverse]; omega)] at hx

/-- The variables behind the instruction were there, but for one in the slot of its result. -/
theorem slot_of_moves_back {paint q : Paint} {slot : Nat} (hmoves : i.Moves paint q)
    (hsize : f.base + paint.height = m.stack.size) (hge : f.base ≤ slot)
    (hx : q.vars.reverse[slot - f.base]? = some x) :
    (slot < m.stack.size ∧ paint.vars.reverse[slot - f.base]? = some x) ∨
      (i.given = 1 ∧ slot = m.stack.size - i.taken) := by
  have hindex := (List.getElem?_eq_some_iff.1 hx).1
  rw [List.length_reverse] at hindex
  cases hmoves with
  | @keeps vars temps hgiven =>
    simp only [Paint.height] at hsize hindex
    exact .inl ⟨by omega, hx⟩
  | @gives vars temps q hgiven hq =>
    simp only [Paint.height] at hsize
    rcases hq with rfl | ⟨rfl, y, rfl⟩
    · simp only at hindex
      exact .inl ⟨by omega, hx⟩
    · simp only [List.length_cons] at hindex
      by_cases hnew : slot - f.base = vars.length
      · exact .inr ⟨hgiven, by omega⟩
      · refine .inl ⟨by omega, ?_⟩
        rwa [List.reverse_cons, List.getElem?_append_left (by rw [List.length_reverse]; omega)] at hx
  | @drops y vars hop =>
    simp only [Paint.height, List.length_cons] at hsize hindex
    refine .inl ⟨by omega, ?_⟩
    rw [List.reverse_cons, List.getElem?_append_left (by rwa [List.length_reverse])]
    exact hx

/-! ### Variables that stay in scope -/

/-- The code of the caller is not touched. -/
theorem callers_closure (ha : m.At β f callers c p i u) (he : m.Effect f callers c i m') :
    ∀ g ∈ callers, m'.heap.closure? g.closure = m.heap.closure? g.closure := by
  have hall : ∀ {frames : List Frame} {size limit : Nat}, Framed m.heap m.Open size limit frames →
      ∀ g ∈ frames, ∃ d, m.heap.closure? g.closure = some d := by
    intro frames
    induction frames with
    | nil => exact fun _ g hg => (nomatch hg)
    | cons g frames ih =>
      rintro size limit ⟨⟨t, ⟨d, -, -, hd, -⟩, -⟩, -, -, hrest⟩ h hh
      rcases List.mem_cons.1 hh with rfl | hh
      · exact ⟨d, hd⟩
      · exact ih hrest h hh
  intro g hg
  obtain ⟨d, hd⟩ := hall ha.rest g hg
  rw [he.closure _ _ hd, hd]

theorem holds (he : m.Effect f callers c i m') {h : Handle} :
    m'.heap.Holds h r ↔ m.heap.Holds h r :=
  ⟨fun hr => hr.mono fun g _ hq => (he.function g).symm.trans hq,
    fun hr => hr.mono fun g _ hq => (he.function g).trans hq⟩

/-- Variables of the callers are in scope before and behind an instruction. -/
theorem in_callers (ha : m.At β f callers c p i u) (he : m.Effect f callers c i m') {limit : Nat} :
    b.In m'.heap limit callers ↔ b.In m.heap limit callers := by
  have hclosure := ha.callers_closure he
  constructor
  · intro h
    exact h.mono (fun g hg d hd => hclosure g hg ▸ hd) fun _ _ _ _ _ hr => (holds he).1 hr
  · intro h
    exact h.mono (fun g hg d hd => (hclosure g hg).trans hd) fun _ _ _ _ _ hr => (holds he).2 hr

/-- The variables of the call behind the instruction. -/
theorem has_behind (ha : m.At β f callers c p i u) (he : m.Effect f callers c i m') {place slot : Nat}
    (hplace : place ∈ i.targets (f.ip + i.size)) (hhas : f.Has m.heap slot x)
    (hlt : i.given = 0 → slot < m.stack.size - i.taken) :
    slot < m.stack.size - i.taken ∧ ({ f with ip := place } : Frame).Has m'.heap slot x := by
  obtain ⟨c', r, vars, hc, hr, hscope, hge, hx⟩ := hhas
  obtain rfl : c = c' := Option.some.inj (ha.closure.symm.trans hc)
  obtain ⟨paint, hsize, hpaints⟩ := ha.paints hr
  obtain rfl := hpaints.scope.unique (ha.chunk ▸ hscope)
  obtain ⟨q, hmoves, hscope', -⟩ := hpaints.leads place hplace
  obtain ⟨hbelow, hx'⟩ := slot_of_moves hmoves hsize hge hx hlt
  exact ⟨hbelow, c, r, q.vars, he.closure _ _ hc, (holds he).2 hr, ha.chunk ▸ hscope', hge, hx'⟩

/-- The variables of the call in front of the instruction. -/
theorem has_before (ha : m.At β f callers c p i u) (he : m.Effect f callers c i m') {place slot : Nat}
    (hplace : place ∈ i.targets (f.ip + i.size))
    (hhas : ({ f with ip := place } : Frame).Has m'.heap slot x) :
    (slot < m.stack.size ∧ f.Has m.heap slot x) ∨ (i.given = 1 ∧ slot = m.stack.size - i.taken) := by
  obtain ⟨c', r, vars, hc, hr, hscope, hge, hx⟩ := hhas
  obtain rfl : c = c' := Option.some.inj ((he.closure _ _ ha.closure).symm.trans hc)
  have hr := (holds he).1 hr
  obtain ⟨paint, hsize, hpaints⟩ := ha.paints hr
  obtain ⟨q, hmoves, hscope', -⟩ := hpaints.leads place hplace
  obtain rfl := hscope'.unique (ha.chunk ▸ hscope)
  refine (slot_of_moves_back hmoves hsize hge hx).imp_left fun ⟨hlt, hx'⟩ => ⟨hlt, ?_⟩
  exact ⟨c, r, paint.vars, ha.closure, hr, ha.chunk ▸ hpaints.scope, hge, hx'⟩

/-- Callers lie under what an instruction takes. -/
theorem base_le (ha : m.At β f callers c p i u) : f.base ≤ m.stack.size - i.taken := by
  have hdeep := ha.fits.deep
  have hheight := ha.height
  omega

/-- **A variable stays in scope** as long as its slot is on the stack and its call has not returned. -/
theorem inScope (ha : m.At β f callers c p i u) (he : m.Effect f callers c i m') (hb : m.InScope b)
    (hlt : b.slot < m'.stack.size) (hreturn : i.op = .return_ → b.slot < f.base) : m'.InScope b := by
  unfold InScope at hb ⊢
  rw [ha.frames] at hb
  have hbelow : b.In m.heap f.base callers → b.slot < f.base := fun h => h.slot_lt ha.rest
  cases he.goes with
  | on hplace hframes hsize =>
    rw [hframes]
    rcases hb with ⟨hdepth, -, hhas⟩ | hb
    · exact .inl ⟨hdepth, hlt, (ha.has_behind he hplace hhas fun hgiven => by omega).2⟩
    · exact .inr ((ha.in_callers he).2 hb)
  | into hop hbase hframes hsize =>
    obtain ⟨hgiven, hplace⟩ := call_leads hop (f.ip + i.size)
    rw [hframes]
    refine .inr ?_
    rw [hbase]
    rcases hb with ⟨hdepth, -, hhas⟩ | hb
    · obtain ⟨hbelow, hhas'⟩ := ha.has_behind he hplace hhas fun hnone => by omega
      exact .inl ⟨hdepth, hbelow, hhas'⟩
    · exact .inr ((ha.in_callers he).2 hb)
  | out hop hframes =>
    rw [hframes]
    rcases hb with ⟨-, -, c', r, vars, -, -, -, hge, -⟩ | hb
    · exact absurd (hreturn hop) (Nat.not_lt_of_le hge)
    · exact ((ha.in_callers he).2 hb).under hlt

/-- **A variable with an open cell** was in scope before an instruction behind which it is: the slot of
a variable that is new has no cell yet. -/
theorem wasInScope (ha : m.At β f callers c p i u) (he : m.Effect f callers c i m')
    (hb : m'.InScope b) (hg : m.heap.cell? g = some (.opened b.slot))
    (hreturn : i.op = .return_ → b.slot < f.base) : m.InScope b := by
  unfold InScope at hb ⊢
  rw [ha.frames]
  have hlt : b.slot < m.stack.size := ha.below _ ⟨g, hg⟩
  have hold : ¬ (i.given = 1 ∧ b.slot = m.stack.size - i.taken) := by
    rintro ⟨hgiven, hslot⟩
    have hcloses : ¬ i.closes := by
      obtain ⟨op, operand⟩ := i
      rintro (rfl | rfl) <;> cases hgiven
    exact absurd (ha.open_lt hcloses ⟨g, hg⟩) (by omega)
  cases he.goes with
  | on hplace hframes hsize =>
    rw [hframes] at hb
    rcases hb with ⟨hdepth, -, hhas⟩ | hb
    · obtain ⟨-, hhas⟩ := (ha.has_before he hplace hhas).resolve_right hold
      exact .inl ⟨hdepth, hlt, hhas⟩
    · exact .inr ((ha.in_callers he).1 hb)
  | into hop hbase hframes hsize =>
    obtain ⟨hgiven, hplace⟩ := call_leads hop (f.ip + i.size)
    rw [hframes] at hb
    rcases hb with ⟨-, -, c', r, vars, -, -, -, hge, -⟩ | hb
    · have hcloses : ¬ i.closes := by
        obtain ⟨op, operand⟩ := i
        rintro (rfl | rfl) <;> cases hgiven
      exact absurd (ha.open_lt hcloses ⟨g, hg⟩) (by omega)
    · rcases hb with ⟨hdepth, -, hhas⟩ | hb
      · obtain ⟨-, hhas⟩ := (ha.has_before he hplace hhas).resolve_right hold
        exact .inl ⟨hdepth, hlt, hhas⟩
      · exact .inr ((ha.in_callers he).1 hb)
  | out hop hframes =>
    rw [hframes] at hb
    exact .inr (((ha.in_callers he).1 hb).under (hreturn hop))

/-! ### Slots -/

/-- Where a variable in scope before and behind an instruction has its slot. -/
theorem slot_below (ha : m.At β f callers c p i u) (he : m.Effect f callers c i m')
    (hb : m.InScope b) (hb' : m'.InScope b) (hlt : b.slot < m'.stack.size) :
    b.slot < m.stack.size - i.taken ∧ (i.op = .return_ → b.slot < f.base) := by
  unfold InScope at hb hb'
  rw [ha.frames] at hb
  have hbelow : b.In m.heap f.base callers → b.slot < f.base := fun h => h.slot_lt ha.rest
  have hbase := ha.base_le
  rcases hb with ⟨hdepth, -, hhas⟩ | hb
  · cases he.goes with
    | on hplace hframes hsize =>
      have hslot := (ha.has_behind he hplace hhas fun hgiven => by omega).1
      refine ⟨hslot, fun hop => ?_⟩
      obtain ⟨op, operand⟩ := i
      obtain rfl : op = .return_ := hop
      cases hplace
    | into hop hbase hframes hsize =>
      obtain ⟨hgiven, hplace⟩ := call_leads hop (f.ip + i.size)
      have hslot := (ha.has_behind he hplace hhas fun hnone => by omega).1
      refine ⟨hslot, fun hreturn => ?_⟩
      rw [hop] at hreturn
      cases hreturn
    | out hop hframes =>
      rw [hframes] at hb'
      exact absurd hb'.depth_lt (by omega)
  · have hslot := hbelow hb
    exact ⟨by omega, fun _ => hslot⟩

/-- **An immutable variable keeps its value** as long as it is in scope. -/
theorem slot_kept (ha : m.At β f callers c p i u) (he : m.Effect f callers c i m')
    (hm : m.Faithful sources) (hb : m.InScope b) (hb' : m'.InScope b) (hlt : b.slot < m'.stack.size)
    (himmutable : b.var.isMutable = false) : m'.stack[b.slot]? = m.stack[b.slot]? := by
  obtain ⟨hslot, hreturn⟩ := ha.slot_below he hb hb' hlt
  rcases he.stack b.slot hslot hreturn with hsame | ⟨w, rfl, hw⟩ | ⟨w, g, rfl, hg, hopen⟩
  · exact hsame
  · -- The slot is assigned by the call that has the variable.
    unfold InScope at hb
    rw [ha.frames] at hb
    rcases hb with ⟨-, -, c', r, vars, hc, hr, hscope, hge, hx⟩ | hb
    · obtain rfl : c = c' := Option.some.inj (ha.closure.symm.trans hc)
      obtain ⟨paint, -, hpaints⟩ := ha.paints hr
      obtain rfl := hpaints.scope.unique (ha.chunk ▸ hscope)
      obtain ⟨x, hx', hmutable⟩ := hpaints.slot w rfl
      rw [hw, Nat.add_sub_cancel_left, hx'] at hx
      obtain rfl := Option.some.inj hx
      rw [hmutable] at himmutable
      cases himmutable
    · have hlow := hb.slot_lt ha.rest
      omega
  · -- It is assigned by a closure that has captured it.
    obtain ⟨r, hr, hcaptured⟩ := hm.shared b g hb himmutable hopen f.closure c w.toNat ha.closure hg
    obtain ⟨paint, -, hpaints⟩ := ha.paints hr
    obtain ⟨x, hx, hmutable⟩ := hpaints.capture w rfl
    rw [hcaptured] at hx
    obtain rfl := Option.some.inj hx
    rw [hmutable] at himmutable
    cases himmutable

/-! ### Closures -/

/-- **A new closure** is that of a routine inside the one that runs, for every routine that the running
function is the code of. -/
theorem made (ha : m.At β f callers c p i u) (he : m.Effect f callers c i m')
    (hr : m.heap.Holds c.function r) {w : UInt16} {sources : List CaptureSource}
    (hi : i = ⟨.closure, (w, sources)⟩) {d : Closure}
    (hconstant : f.chunk.constants[w.toNat]? = some (.function d.function)) :
    ∃ vars params body, r.InScope f.chunk (f.ip + i.size) vars ∧ (params, body) ∈ r.functions ∧
      m'.heap.Holds d.function ⟨.function params body, sources, ⟨vars, r.captures⟩ :: r.outer⟩ := by
  obtain ⟨paint, -, hpaints⟩ := ha.paints hr
  have hplace : f.ip + i.size ∈ i.targets (f.ip + i.size) := by
    rw [hi]
    exact List.mem_cons_self
  obtain ⟨q, -, hscope, hmakes⟩ := hpaints.leads _ hplace
  obtain ⟨g, params, body, hg, hmem, hr'⟩ := hmakes w sources hi
  rw [ha.chunk, hconstant] at hg
  obtain rfl : d.function = g := by
    injection Option.some.inj hg
  exact ⟨q.vars, params, body, ha.chunk ▸ hscope, hmem, (holds he).2 hr'⟩

/-- **A cell keeps standing for a variable,** if it did when it was there, and a closure that is made of
its slot finds that variable in it. -/
theorem sharedAs (ha : m.At β f callers c p i u) (he : m.Effect f callers c i m')
    (hold : (m.heap.cell? g).isSome → m.heap.SharedAs g x)
    (hnew : ∀ w sources (index : Nat), i = ⟨.closure, (w, sources)⟩ →
      m'.heap.cell? g = some (.opened (f.base + index)) → ∃ r vars, m.heap.Holds c.function r ∧
        r.InScope f.chunk (f.ip + i.size) vars ∧ vars.reverse[index]? = some x) :
    m'.heap.SharedAs g x := by
  intro h d k hd hk
  rcases he.made h d hd with hd | ⟨w, sources, hi, hconstant, hcells⟩
  · obtain ⟨-, -, -, hlive⟩ := ha.sound.heap.captures h d hd
    obtain ⟨r, hr, hcaptured⟩ := hold (hlive g (Array.mem_of_getElem? hk)) h d k hd hk
    exact ⟨r, (holds he).2 hr, hcaptured⟩
  · obtain ⟨s, hs, hsupply⟩ := hcells k g hk
    unfold Supplies at hsupply
    split at hsupply
    case isTrue hlocal =>
      obtain ⟨r, vars, hr, hscope, hx⟩ := hnew w sources s.index.toNat hi hsupply
      obtain ⟨vars', params, body, hscope', -, hr'⟩ := ha.made he hr hi hconstant
      obtain rfl := hscope.unique hscope'
      refine ⟨_, hr', ?_⟩
      simp only [Routine.captured?, capturedVariable?, hs, hlocal, if_true]
      exact hx
    case isFalse hlocal =>
      obtain ⟨-, -, -, hlive⟩ := ha.sound.heap.captures f.closure c ha.closure
      obtain ⟨r, hr, hcaptured⟩ := hold (hlive g (Array.mem_of_getElem? hsupply)) f.closure c
        s.index.toNat ha.closure hsupply
      obtain ⟨vars, params, body, -, -, hr'⟩ := ha.made he hr hi hconstant
      refine ⟨_, hr', ?_⟩
      simp only [Routine.captured?, capturedVariable?, hs, hlocal]
      exact hcaptured

/-- **What holds of all functions and cells** stays so. -/
theorem faithful (ha : m.At β f callers c p i u) (he : m.Effect f callers c i m')
    (hm : m.Faithful sources) : m'.Faithful sources := by
  refine ⟨fun h d hd => ?_, fun b g hb himmutable hg => ?_⟩
  · rcases he.made h d hd with hd | ⟨w, ss, hi, hconstant, -⟩
    · obtain ⟨r, hr, hfrom⟩ := hm.routines h d hd
      exact ⟨r, (holds he).2 hr, hfrom⟩
    · obtain ⟨r, hr, source, program, hsource, hprogram, hof⟩ := hm.routines _ _ ha.closure
      obtain ⟨vars, params, body, -, hmem, hr'⟩ := ha.made he hr hi hconstant
      exact ⟨_, hr', source, program, hsource, hprogram, .function hof hmem ss vars⟩
  · obtain ⟨hopened, hreturn⟩ := he.opened g b.slot hg
    refine ha.sharedAs he (fun hlive => ?_) fun w ss index hi hindex => ?_
    · have hopen := hopened.resolve_right fun hnone => by
        rw [hnone] at hlive
        cases hlive
      exact hm.shared b g (ha.wasInScope he hb hopen hreturn) himmutable hopen
    · -- The slot of the cell is that of the variable, so the variable is one of this call.
      rw [hg] at hindex
      have hslot : b.slot = f.base + index := by
        injection Option.some.inj hindex
      unfold InScope at hb
      cases he.goes with
      | on hplace hframes hsize =>
        rw [hi] at hplace
        obtain rfl := List.mem_singleton.1 hplace
        rw [hframes] at hb
        rcases hb with ⟨-, -, c', r, vars, hc, hr, hscope, -, hx⟩ | hb
        · obtain rfl : c = c' := Option.some.inj ((he.closure _ _ ha.closure).symm.trans hc)
          refine ⟨r, vars, (holds he).1 hr, hi ▸ hscope, ?_⟩
          rwa [hslot, Nat.add_sub_cancel_left] at hx
        · have hlow := ((ha.in_callers he).1 hb).slot_lt ha.rest
          omega
      | into hop hbase hframes hsize =>
        rw [hi] at hop
        cases hop
      | out hop hframes =>
        rw [hi] at hop
        cases hop

end Machine.At

/-! ### Cells of immutable variables -/

/-- **A cell of an immutable variable** with its value: the variable is in scope, and the cell is its
slot; or the cell has the value for its own. -/
structure Machine.Constant (m : Machine ω) (g : Handle) (x : Variable) (v : Value) : Prop where
  immutable : x.isMutable = false
  shared : m.heap.SharedAs g x
  value : m.heap.cell? g = some (.closed v) ∨ ∃ b, m.InScope b ∧ b.var = x ∧
    m.heap.cell? g = some (.opened b.slot) ∧ m.stack[b.slot]? = some v

namespace Machine.At

variable {β : Link} {m m' : Machine ω} {f : Frame} {callers : List Frame} {c : Closure}
  {p : Prototype Value} {i : Instr} {u : StackShape} {b : LocalVariable} {sources : String → Prop}
  {x : Variable} {v : Value} {g : Handle}

/-- The value that is returned is that of no variable in scope. -/
theorem under_result (ha : m.At β f callers c p i u) (hb : m.InScope b) (hop : i.op = .return_) :
    b.slot + 1 < m.stack.size := by
  unfold InScope at hb
  rw [ha.frames] at hb
  rcases hb with ⟨-, -, c', r, vars, hc, hr, hscope, hge, hx⟩ | hb
  · obtain rfl : c = c' := Option.some.inj (ha.closure.symm.trans hc)
    obtain ⟨paint, hsize, hpaints⟩ := ha.paints hr
    obtain rfl := hpaints.scope.unique (ha.chunk ▸ hscope)
    have hindex := (List.getElem?_eq_some_iff.1 hx).1
    rw [List.length_reverse] at hindex
    have htemps := hpaints.result hop
    simp only [Paint.height] at hsize
    omega
  · have hslot := hb.slot_lt ha.rest
    have hdeep := ha.fits.deep
    have hheight := ha.height
    have htaken : i.taken = 1 := by
      obtain ⟨op, operand⟩ := i
      obtain rfl : op = .return_ := hop
      rfl
    omega

/-- **The cell of an immutable variable keeps its value,** as long as the variable is in scope and when
it is not any more. -/
theorem constant (ha : m.At β f callers c p i u) (he : m.Effect f callers c i m')
    (hm : m.Faithful sources) (hbelow : ∀ slot, m'.Open slot → slot < m'.stack.size)
    (h : m.Constant g x v) : m'.Constant g x v := by
  have hclosed : ∀ {w}, m'.heap.cell? g = some (.closed w) → m'.heap.SharedAs g x := by
    intro w hw
    refine ha.sharedAs he (fun _ => h.shared) fun _ _ _ _ hopen => ?_
    rw [hw] at hopen
    cases hopen
  rcases h.value with hv | ⟨b, hb, hvar, hopen, hv⟩
  · rcases he.closed g v hv with hv' | ⟨w, rfl, hg⟩
    · exact ⟨h.immutable, hclosed hv', .inl hv'⟩
    · -- An assignment would be one of a closure that has captured the variable.
      obtain ⟨r, hr, hcaptured⟩ := h.shared f.closure c w.toNat ha.closure hg
      obtain ⟨paint, -, hpaints⟩ := ha.paints hr
      obtain ⟨y, hy, hmutable⟩ := hpaints.capture w rfl
      rw [hcaptured] at hy
      obtain rfl := Option.some.inj hy
      rw [h.immutable] at hmutable
      cases hmutable
  · have himmutable : b.var.isMutable = false := hvar ▸ h.immutable
    rcases he.shut g b.slot hopen (ha.under_result hb) with hopen' | hv'
    · have hlt := hbelow _ ⟨g, hopen'⟩
      have hb' := ha.inScope he hb hlt (he.opened g b.slot hopen').2
      refine ⟨h.immutable, hvar ▸ (ha.faithful he hm).shared b g hb' himmutable hopen',
        .inr ⟨b, hb', hvar, hopen', ?_⟩⟩
      rw [ha.slot_kept he hm hb hb' hlt himmutable, hv]
    · rw [hv] at hv'
      exact ⟨h.immutable, hclosed hv', .inl hv'⟩

end Machine.At

end DeployScript
