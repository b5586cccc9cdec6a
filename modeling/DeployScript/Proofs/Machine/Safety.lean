import DeployScript.Proofs.Machine.Cells
import DeployScript.Proofs.Machine.Lockstep

/-!
# One instruction of a running machine

A running machine stands at an instruction that finds what it needs, and is running behind it.

* `Machine.At` — what is known at an instruction; `Running.at_` — a running machine is at one.
* `At.running` — the machine behind an instruction is running if its stack and its open cells are
  what the shape of the code says.
* `Outcome.Safe`, `Running.step` — one step of a running machine.
-/

namespace DeployScript

variable {ω : Type}

/-- An instruction that does no more than take values off the stack and put others there: it changes no
variable, makes and closes no cell, and leads behind itself. -/
def Opcode.isQuiet : Opcode → Bool
  | defineLet | defineVar | setGlobal | setLocal | setCapture | jump | jumpIfFalse | jumpIfTrue | loop
  | call | return_ | closure | closeCapture => false
  | _ => true

/-- **What a running machine may come to:** it runs on, or ends with nothing under way, or fails for
a reason of the script or of the host, as sound as it was. -/
inductive Outcome.Safe (l : Library ω) : Outcome ω → Prop
  | next {m : Machine ω} (hr : m.Running) (hl : m.library = l) : Safe l (.next m)
  | done {v : Value} {m : Machine ω} (hi : m.Idle) (hl : m.library = l) : Safe l (.done v m)
  | raise {β : Link} {cause : Cause} {m : Machine ω} (h : l.MayRaise cause) (hs : m.Sound β) :
    Safe l (.raise cause m)

namespace Machine

/-- **A machine at an instruction,** the shape of the stack there, and what is known behind it. -/
structure At (β : Link) (m : Machine ω) (f : Frame) (callers : List Frame) (c : Closure)
    (p : Prototype Value) (i : Instr) (u : StackShape) : Prop where
  sound : m.Sound β
  below : ∀ slot, m.Open slot → slot < m.stack.size
  frames : m.frames = f :: callers
  closure : m.heap.closure? f.closure = some c
  function : m.heap.function? c.function = some p
  chunk : p.chunk = f.chunk
  decode : Instr.decode f.chunk.code f.ip = .instr i
  fits : i.Fits (m.heap.pool p) u (f.ip + i.size)
  height : f.base + u.height = m.stack.size
  path : ∀ n, Instr.Path p.chunk.code p.params.length f.ip n ↔ n = u.height
  shared : ∀ slot, m.Open slot → f.base ≤ slot → u.shared (slot - f.base)
  next : ∀ place ∈ i.targets (f.ip + i.size), { f with ip := place }.Stands m.heap (i.after u)
  bottom : callers = [] → f.base = 0
  rest : Framed m.heap m.Open (f.base + 1) f.base callers

/-- **A running machine** is at an instruction. -/
theorem Running.at_ {m : Machine ω} (hr : m.Running) :
    ∃ β f frames c p i u, m.At β f frames c p i u := by
  obtain ⟨β, hs⟩ := hr.sound
  have hframed := hr.framed
  cases hf : m.frames with
  | nil => exact absurd hf hr.busy
  | cons f frames =>
    rw [hf] at hframed
    obtain ⟨⟨t, ⟨c, p, l, hc, hp, hchunk, hl, hk, hpath⟩, hsize, hshared⟩, -, hbottom, hrest⟩ :=
      hframed
    obtain ⟨i, u, hdecode, htu, hfits, hnext⟩ := hl.instr hk
    have hheight : t.height = u.height := htu.1
    refine ⟨β, f, frames, c, p, i, u, hs, hr.below, hf, hc, hp, hchunk, hchunk ▸ hdecode, hfits, ?_,
      fun n => ⟨fun hn => ?_, fun he => ?_⟩, fun slot ho hge => ?_, fun place hplace => ?_, hbottom,
      hrest⟩
    · rw [← hheight, hsize]
    · rw [← hheight]
      exact hl.path_unique hn hpath
    · rw [he, ← hheight]
      exact hpath
    · exact htu.2 _ (hshared slot ho hge (hr.below slot ho))
    · refine ⟨c, p, l, hc, hp, hchunk, hl, hnext place hplace, ?_⟩
      change Instr.Path _ _ _ (u.height - i.taken + i.given)
      rw [← hheight]
      exact .next hpath hdecode hplace

theorem moveTo_eq {m : Machine ω} {f : Frame} {frames : List Frame} (hf : m.frames = f :: frames)
    (ip : Nat) : m.moveTo ip = { m with frames := { f with ip } :: frames } := by
  obtain ⟨stack, frames', globals, heap, opened, assets, library, world, output⟩ := m
  obtain rfl : frames' = f :: frames := hf
  rfl

/-- A machine behind the instruction that it is about to carry out. -/
def behind (m : Machine ω) (f : Frame) (callers : List Frame) (i : Instr) : Machine ω :=
  { m with frames := { f with ip := f.ip + i.size } :: callers }

/-- A wider part of the stack may be looked at as long as nothing more is open in it. -/
theorem Framed.widen {heap : Heap} {isOpen : Nat → Prop} {size limit limit' : Nat}
    {frames : List Frame} (hf : Framed heap isOpen size limit frames) (hle : limit ≤ limit')
    (hopen : ∀ slot, isOpen slot → slot < limit) : Framed heap isOpen size limit' frames := by
  cases frames with
  | nil => trivial
  | cons f frames =>
    obtain ⟨⟨t, ht, hsize, hshared⟩, hlimit, hbottom, hrest⟩ := hf
    exact ⟨⟨t, ht, hsize, fun slot ho hge _ => hshared slot ho hge (hopen slot ho)⟩,
      Nat.le_trans hlimit hle, hbottom, hrest⟩

namespace At

variable {β γ : Link} {m m' : Machine ω} {f : Frame} {callers : List Frame} {c : Closure}
  {p : Prototype Value} {i : Instr} {u : StackShape} {place : Nat} {v : Value}

theorem moved (ha : m.At β f callers c p i u) :
    m.moveTo (f.ip + i.size) = m.behind f callers i :=
  moveTo_eq ha.frames _

/-- **Running on:** the stack has its height, and what is open may be. -/
theorem running (ha : m.At β f callers c p i u) (hs : m'.Sound γ)
    (hplace : place ∈ i.targets (f.ip + i.size))
    (hframes : m'.frames = { f with ip := place } :: callers)
    (hclosure : ∀ h c, m.heap.closure? h = some c → m'.heap.closure? h = some c)
    (hfunction : ∀ h p, m.heap.function? h = some p → m'.heap.function? h = some p)
    (hsize : m'.stack.size = m.stack.size - i.taken + i.given)
    (hopen : ∀ slot, m'.Open slot → slot < m'.stack.size ∧ (slot < f.base → m.Open slot) ∧
      (f.base ≤ slot → i.sharedAfter u (slot - f.base))) : m'.Running := by
  have hstands : ∀ {g : Frame} {t : StackShape}, g.Stands m.heap t → g.Stands m'.heap t :=
    fun hg => hg.mono hclosure hfunction
  have hdeep := ha.fits.deep
  have hheight := ha.height
  refine ⟨⟨γ, hs⟩, fun slot ho => (hopen slot ho).1, ?_, ?_⟩
  · rw [hframes]
    exact List.cons_ne_nil _ _
  rw [hframes]
  refine ⟨⟨i.after u, hstands (ha.next place hplace), ?_, fun slot ho hge _ => ?_⟩, ?_, ha.bottom,
    ha.rest.mono (fun _ _ _ => hstands) fun slot hlt ho => (hopen slot ho).2.1 hlt⟩
  · change f.base + (u.height - i.taken + i.given) = _
    omega
  · exact (hopen slot ho).2.2 hge
  · change f.base ≤ _
    omega

/-- What is open lies under what an instruction takes, unless it is one that closes. -/
theorem open_lt (ha : m.At β f callers c p i u) (hcloses : ¬ i.closes) {slot : Nat}
    (ho : m.Open slot) : slot < m.stack.size - i.taken := by
  have hunshared := ha.fits.unshared.resolve_left hcloses
  have hdeep := ha.fits.deep
  have hheight := ha.height
  have hlt := ha.below slot ho
  by_contra hge
  refine hunshared (slot - f.base) ?_ ?_ (ha.shared slot ho ?_) <;> omega

/-- **Ordinary instructions** leave the machine running. -/
theorem calmly (ha : m.At β f callers c p i u) (hcloses : ¬ i.closes)
    (hshared : i.sharedAfter u = u.shared) (hplace : f.ip + i.size ∈ i.targets (f.ip + i.size))
    {size : Nat} (hsize : size = m.stack.size - i.taken + i.given) {o : Outcome ω}
    (ho : (m.behind f callers i).Calmly size o) : o.Safe m.library := by
  cases ho with
  | raise h hs => exact .raise h hs
  | @next γ m' hs hc hsize' =>
    have hopen : ∀ slot, m'.Open slot ↔ m.Open slot := hc.open_iff
    refine .next (ha.running hs hplace hc.frames (fun h c hh => (hc.closure h).trans hh)
      (fun h p hh => (hc.function h).trans hh) (hsize'.trans hsize) fun slot ho => ?_) hc.library
    rw [hopen] at ho
    refine ⟨?_, fun _ => ho, fun hge => hshared ▸ ha.shared slot ho hge⟩
    have := ha.open_lt hcloses ho
    omega

theorem sound_behind (ha : m.At β f callers c p i u) : (m.behind f callers i).Sound β :=
  { ha.sound with builtins := ha.sound.builtins }

/-- **Jumps** leave the machine running. -/
theorem jump (ha : m.At β f callers c p i u) (hshared : i.sharedAfter u = u.shared)
    (hplace : place ∈ i.targets (f.ip + i.size)) (hsize : i.taken = i.given)
    (hm : m' = { m with frames := { f with ip := place } :: callers }) :
    (Outcome.next m').Safe m.library := by
  subst hm
  have hdeep := ha.fits.deep
  have hheight := ha.height
  refine .next (ha.running (γ := β) ?_ hplace rfl (fun _ _ hh => hh) (fun _ _ hh => hh) ?_
    fun slot ho => ⟨ha.below slot ho, fun _ => ho, fun hge => hshared ▸ ha.shared slot ho hge⟩) rfl
  · exact { ha.sound with builtins := ha.sound.builtins }
  · change m.stack.size = _
    omega

theorem jumpIf (ha : m.At β f callers c p i u) (hshared : i.sharedAfter u = u.shared)
    {distance : UInt16}
    (htargets : i.targets (f.ip + i.size) = [f.ip + i.size, f.ip + i.size + distance.toNat])
    (hsize : i.taken = i.given) (condition : Value → Bool) :
    ((m.behind f callers i).jumpIf condition distance).Safe m.library := by
  unfold Machine.jumpIf
  split
  · have hmem : f.ip + i.size + distance.toNat ∈ i.targets (f.ip + i.size) := by
      rw [htargets]
      exact List.mem_cons_of_mem _ List.mem_cons_self
    exact ha.jump hshared hmem hsize rfl
  · have hmem : f.ip + i.size ∈ i.targets (f.ip + i.size) := by
      rw [htargets]
      exact List.mem_cons_self
    exact ha.jump hshared hmem hsize rfl

/-- **The caller of a call** waits for its result. -/
theorem suspended (ha : m.At β f callers c p i u) (hshared : i.sharedAfter u = u.shared)
    (hplace : f.ip + i.size ∈ i.targets (f.ip + i.size)) :
    Framed m.heap m.Open (m.stack.size - i.taken + i.given) (m.stack.size - i.taken)
      ({ f with ip := f.ip + i.size } :: callers) := by
  have hdeep := ha.fits.deep
  have hheight := ha.height
  refine ⟨⟨i.after u, ha.next _ hplace, ?_, fun slot ho hge _ => ?_⟩, ?_, ha.bottom, ha.rest⟩
  · change f.base + (u.height - i.taken + i.given) = _
    omega
  · change i.sharedAfter u _
    exact hshared ▸ ha.shared slot ho hge
  · change f.base ≤ _
    omega

end At

/-! ### Calls -/

namespace Sound

variable {β : Link} {m : Machine ω} {count : Nat}

/-- **A call starts** above what is open. -/
theorem enter (hs : m.Sound β) {h : Handle} (hh : β .closure h h) (hcount : count < m.stack.size)
    (hopen : ∀ slot, m.Open slot → slot < m.stack.size - count - 1)
    (hbottom : m.frames = [] → m.stack.size - count - 1 = 0)
    (hrest : Framed m.heap m.Open (m.stack.size - count - 1 + 1) (m.stack.size - count - 1)
      m.frames) : (m.enter h count).Safe m.library := by
  obtain ⟨c, hc⟩ := Option.isSome_iff_exists.1 (hs.heap.closures h h hh)
  obtain ⟨p, hp, -, -⟩ := hs.heap.captures h c hc
  obtain ⟨l, hl⟩ := hs.heap.coded _ p hp
  unfold Machine.enter
  simp only [hc, Option.bind_some, hp]
  split
  · exact .raise (fun hi => hi.elim) hs
  · split
    · exact .raise (fun hi => hi.elim) hs
    case isFalse hparams _ =>
      have hparams : count = p.params.length := Decidable.not_not.1 hparams
      refine .next ⟨⟨β, { hs with builtins := hs.builtins }⟩, fun slot ho => ?_,
        List.cons_ne_nil _ _, ⟨_, ⟨c, p, l, hc, hp, rfl, hl, hl.entry, .start⟩, ?_,
        fun slot ho hge _ => ?_⟩, ?_, hbottom, hrest⟩ rfl
      · have := hopen slot ho
        change slot < m.stack.size
        omega
      · change m.stack.size - count - 1 + (p.params.length + 1) = m.stack.size
        omega
      · exact absurd (hopen slot ho) (Nat.not_lt_of_le hge)
      · change m.stack.size - count - 1 ≤ m.stack.size
        omega

/-- **A call** starts, or is complete. -/
theorem call (hs : m.Sound β) {callee : Value} (hv : callee.Similar β callee)
    (hcount : count < m.stack.size) (hopen : ∀ slot, m.Open slot → slot < m.stack.size - count - 1)
    (hbottom : m.frames = [] → m.stack.size - count - 1 = 0)
    (hrest : Framed m.heap m.Open (m.stack.size - count - 1 + 1) (m.stack.size - count - 1)
      m.frames) :
    (m.call callee count).Safe m.library ∨
      m.Quietly (count + 1) 1 (m.call callee count) := by
  cases hv with
  | closure hh => exact .inl (hs.enter hh hcount hopen hbottom hrest)
  | function hh => exact absurd hh (hs.heap.functions _ _)
  | intrinsic f => exact .inr (hs.callIntrinsic f count)
  | builtin hname => exact .inr (hs.callBuiltin hname count)
  | _ => exact .inr (.script id hs)

end Sound

namespace At

variable {β γ : Link} {m m' : Machine ω} {f : Frame} {callers : List Frame} {c : Closure}
  {p : Prototype Value} {i : Instr} {u : StackShape}

theorem call {count : UInt8} (ha : m.At β f callers c p ⟨.call, count⟩ u) :
    ((m.behind f callers ⟨.call, count⟩).exec f.ip ⟨.call, count⟩).Safe m.library := by
  have hcloses : ¬ Instr.closes ⟨.call, count⟩ := fun h => h.elim (nomatch ·) (nomatch ·)
  have hplace : f.ip + Instr.size ⟨.call, count⟩
      ∈ Instr.targets ⟨.call, count⟩ (f.ip + Instr.size ⟨.call, count⟩) := List.mem_cons_self
  have hdeep : count.toNat + 1 ≤ u.height := ha.fits.deep
  have hheight := ha.height
  have hlt : count.toNat < m.stack.size := by omega
  have hs := ha.sound_behind
  have hsafe := hs.call (hs.peek count.toNat) hlt (fun slot ho => ha.open_lt hcloses ho)
    (fun he => (List.cons_ne_nil _ _ he).elim) (ha.suspended rfl hplace)
  exact hsafe.elim id fun hq => ha.calmly hcloses rfl hplace rfl hq.calmly

/-- **A return** ends the run, or leads to the caller. -/
theorem return_ (ha : m.At β f callers c p ⟨.return_, ()⟩ u) :
    ((m.behind f callers ⟨.return_, ()⟩).exec f.ip ⟨.return_, ()⟩).Safe m.library := by
  obtain ⟨hv, hs⟩ := ha.sound_behind.pop
  have hdeep : 1 ≤ u.height := ha.fits.deep
  have hheight := ha.height
  let popped : Machine ω := { (m.behind f callers ⟨.return_, ()⟩).pop.2 with frames := callers }
  have hpopped : popped.Sound β := { hs with builtins := hs.builtins }
  obtain ⟨hclosed, hfunction, hclosure, -, hopen⟩ := hpopped.closeFrom f.base
  have hshrunk := hclosed.shrink f.base
  have hsize : ((popped.closeFrom f.base).stack.shrink f.base).size = f.base := by
    change ((m.stack.pop).shrink f.base).size = f.base
    rw [Array.size_shrink, Array.size_pop]
    omega
  cases callers with
  | nil =>
    change Outcome.Safe m.library (.done _ { popped.closeFrom f.base with
      stack := (popped.closeFrom f.base).stack.shrink f.base })
    have hbase : f.base = 0 := ha.bottom rfl
    refine .done ⟨⟨β, hshrunk⟩, ?_, rfl, ?_⟩ rfl
    · exact Array.size_eq_zero_iff.1 (hsize.trans hbase)
    · refine List.eq_nil_iff_forall_not_mem.2 fun h hmem => ?_
      obtain ⟨slot, hc⟩ := (hclosed.opened h).1 hmem
      have := ((hopen slot).1 ⟨h, hc⟩).2
      omega
  | cons caller callers =>
    change Outcome.Safe m.library (.next (Machine.push { popped.closeFrom f.base with
      stack := (popped.closeFrom f.base).stack.shrink f.base } _))
    have hbelow : ∀ slot, (popped.closeFrom f.base).Open slot → slot < f.base :=
      fun slot ho => ((hopen slot).1 ho).2
    have hkeep : ∀ g ∈ caller :: callers, ∀ t, g.Stands m.heap t →
        g.Stands (popped.closeFrom f.base).heap t :=
      fun g _ t hg => hg.mono (fun h c hh => (hclosure h).trans hh) fun h p hh =>
        (hfunction h).trans hh
    have hrest : Framed _ (popped.closeFrom f.base).Open _ _ _ :=
      ha.rest.mono hkeep fun slot _ ho => ((hopen slot).1 ho).1
    refine .next ⟨⟨β, hshrunk.push hv⟩, fun slot ho => ?_, List.cons_ne_nil _ _, ?_⟩ rfl
    · rw [size_push, hsize]
      exact Nat.lt_succ_of_lt (hbelow slot ho)
    · rw [size_push, hsize]
      exact hrest.widen (Nat.le_succ _) hbelow

/-- **The innermost variable** gets a value of its own. -/
theorem closeCapture (ha : m.At β f callers c p ⟨.closeCapture, ()⟩ u) :
    ((m.behind f callers ⟨.closeCapture, ()⟩).exec f.ip ⟨.closeCapture, ()⟩).Safe m.library := by
  have hdeep : 1 ≤ u.height := ha.fits.deep
  have hheight := ha.height
  obtain ⟨hclosed, hfunction, hclosure, -, hopen⟩ :=
    ha.sound_behind.closeFrom ((m.behind f callers ⟨.closeCapture, ()⟩).stack.size - 1)
  have hsize : ((m.behind f callers ⟨.closeCapture, ()⟩).closeFrom
      ((m.behind f callers ⟨.closeCapture, ()⟩).stack.size - 1)).pop.2.stack.size
        = m.stack.size - 1 := size_pop _
  refine .next (ha.running hclosed.pop.2 List.mem_cons_self rfl
    (fun h c hh => (hclosure h).trans hh) (fun h p hh => (hfunction h).trans hh) hsize
    fun slot ho => ?_) rfl
  obtain ⟨hold, hlt⟩ := (hopen slot).1 ho
  have hlt : slot < m.stack.size - 1 := hlt
  refine ⟨hsize ▸ hlt, fun _ => hold, fun hge => ⟨ha.shared slot hold hge, ?_⟩⟩
  omega

/-- **A function** gets its cells. -/
theorem makeClosure {index : UInt16} {sources : List CaptureSource}
    (ha : m.At β f callers c p ⟨.closure, (index, sources)⟩ u) :
    ((m.behind f callers ⟨.closure, (index, sources)⟩).exec f.ip
      ⟨.closure, (index, sources)⟩).Safe m.library := by
  have hheight := ha.height
  obtain ⟨⟨function, q, hconstant, hq, hcaptures⟩, -, hsources⟩ := ha.fits.operand
  have hconstant : (m.behind f callers ⟨.closure, (index, sources)⟩).constant? index
      = some (.function function) := by
    rw [ha.chunk] at hconstant
    exact hconstant
  obtain ⟨cells, m', hgather, hs, hsize, hlive, hopens⟩ := ha.sound_behind.gather
    rfl ha.closure ha.function sources
    (fun s hs hlocal => by
      have hfits := hsources s hs
      rw [Instr.SourceFits, if_neg (by simp [hlocal])] at hfits
      exact hfits) #[] (fun g hg => (Array.not_mem_empty g hg).elim)
  have hstack : m'.stack = m.stack := hopens.stack
  cases hi : m'.heap.insert (.closure { function, cells }) with
  | mk h next =>
  obtain ⟨⟨γ, hs', hv, -⟩, hnew, -⟩ := hs.newClosure (hopens.function? hq)
    (by rw [hsize, hcaptures]; exact Nat.zero_add _) hlive hi
  have hall := hopens.trans hnew
  change Outcome.Safe m.library (Machine.makeClosure _ _ _ _)
  unfold Machine.makeClosure
  simp only [hconstant, hgather]
  unfold Machine.pushNew
  simp only [hi]
  have hnext : (Outcome.next (Machine.push { m' with heap := next } (.closure h))).Safe m.library := by
    have hgiven : (Machine.push { m' with heap := next } (.closure h)).stack.size
        = m.stack.size + 1 := by
      rw [size_push, hstack]
    refine .next (ha.running (hs'.push hv) List.mem_cons_self (hall.frames)
      (fun g d hd => hall.closure? hd) (fun g d hd => hall.function? hd) hgiven
      fun slot ho => ?_) hall.library
    rcases hall.opened slot ho with ho | hmem
    · have hlt := ha.below slot ho
      refine ⟨?_, fun _ => ho, fun hge => .inl (ha.shared slot ho hge)⟩
      rw [hgiven]
      exact Nat.lt_succ_of_lt hlt
    · rw [List.append_nil] at hmem
      obtain ⟨s, hs, rfl⟩ := List.mem_map.1 hmem
      obtain ⟨hs, hlocal⟩ := List.mem_filter.1 hs
      have hfits := hsources s hs
      rw [Instr.SourceFits, if_pos hlocal] at hfits
      have hbase : ∀ n, ({ f with ip := n } : Frame).base = f.base := fun _ => rfl
      rw [hbase] at ho ⊢
      refine ⟨by rw [hgiven]; omega, fun hlt => absurd (Nat.le_add_right _ _) (Nat.not_le_of_lt hlt),
        fun _ => .inr ⟨s, hs, hlocal, ?_⟩⟩
      rw [Nat.add_sub_cancel_left]
  exact hnext

/-- **Quiet instructions** find what they need. -/
theorem quietly (ha : m.At β f callers c p i u) (hquiet : i.op.isQuiet = true) :
    (m.behind f callers i).Quietly i.taken i.given ((m.behind f callers i).exec f.ip i) := by
  have hs := ha.sound_behind
  have hheight := ha.height
  -- The chunk is that of the function, so a name that fits the function is one of the chunk.
  have hnamed : ∀ {index : UInt16} {taken given : Nat} {next : String → Outcome ω},
      index.toNat < (m.heap.pool p).names →
      (∀ name, (m.behind f callers i).Quietly taken given (next name)) →
      (m.behind f callers i).Quietly taken given ((m.behind f callers i).withName index next) :=
    fun hlt hnext => Sound.withName (f := { f with ip := f.ip + i.size }) rfl
      (show _ < f.chunk.names.size from ha.chunk ▸ hlt) hnext
  obtain ⟨op, operand⟩ := i
  have hfits := ha.fits.operand
  have hdeep := ha.fits.deep
  cases op with
  | constant =>
    obtain ⟨v, hv, hliteral⟩ := hfits
    rw [ha.chunk] at hv
    have hsimilar : v.Similar β v := by
      cases v with
      | number n => exact .number n
      | text s => exact .text s
      | _ => exact hliteral.elim
    have hconstant : (m.behind f callers ⟨.constant, operand⟩).constant? operand = some v := hv
    unfold Machine.exec
    simp only [hconstant]
    exact .next (hs.push hsimilar) (.push _ _)
  | nil => exact .next (hs.push .nil) (.push _ _)
  | true_ => exact .next (hs.push (.bool true)) (.push _ _)
  | false_ => exact .next (hs.push (.bool false)) (.push _ _)
  | pop => exact .next hs.pop.2 (.pop _)
  | getGlobal => exact hnamed hfits fun name => hs.readGlobal name
  | getLocal =>
    have hslot : f.base + operand.toNat < m.stack.size := by
      change operand.toNat < u.height at hfits
      omega
    exact hs.readSlot hslot
  | add => exact hs.binary .add
  | sub => exact hs.binary .sub
  | mul => exact hs.binary .mul
  | div => exact hs.binary .div
  | mod => exact hs.binary .mod
  | eq => exact hs.binary .eq
  | ne => exact hs.binary .ne
  | lt => exact hs.binary .lt
  | le => exact hs.binary .le
  | gt => exact hs.binary .gt
  | ge => exact hs.binary .ge
  | neg => exact hs.unary .neg
  | not => exact hs.unary .not
  | getCapture =>
    obtain ⟨h, hh, hlive⟩ := hs.captured? rfl ha.closure ha.function hfits
    exact hs.readCapture ha.below hh hlive
  | print =>
    have hcount : operand.toNat ≤ m.stack.size := by
      change operand.toNat ≤ u.height at hdeep
      omega
    exact hs.print _ hcount
  | len => exact hs.len _
  | array =>
    have hcount : operand.toNat ≤ m.stack.size := by
      change operand.toNat ≤ u.height at hdeep
      omega
    exact hs.collectNew hcount fun ht hvalues => ht.newArray hvalues
  | record =>
    have hcount : 2 * operand.toNat ≤ m.stack.size := by
      change 2 * operand.toNat ≤ u.height at hdeep
      omega
    exact hs.collectNew hcount
      fun ht hvalues => ht.newRecord (Isomorphic.fieldsOf hvalues matching_empty)
  | index => exact hs.readIndex _
  | setIndex => exact hs.writeIndex _
  | getProperty => exact hnamed hfits fun name => hs.readProperty name
  | setProperty => exact hnamed hfits fun name => hs.writeProperty name
  | _ => cases hquiet

/-- **The instruction** of a running machine is carried out safely. -/
theorem exec (ha : m.At β f callers c p i u) :
    ((m.behind f callers i).exec f.ip i).Safe m.library := by
  have hs := ha.sound_behind
  have hheight := ha.height
  have hnamed : ∀ {index : UInt16} {size : Nat} {next : String → Outcome ω},
      index.toNat < (m.heap.pool p).names → (∀ name, (m.behind f callers i).Calmly size (next name)) →
      (m.behind f callers i).Calmly size ((m.behind f callers i).withName index next) :=
    fun hlt hnext => Sound.withName (f := { f with ip := f.ip + i.size }) rfl
      (show _ < f.chunk.names.size from ha.chunk ▸ hlt) hnext
  have hquiet := ha.quietly
  obtain ⟨op, operand⟩ := i
  have hfits := ha.fits.operand
  have hdeep := ha.fits.deep
  -- All that go on behind themselves, and neither open nor close a cell.
  have hordinary : ∀ {size : Nat} {o : Outcome ω}, op ≠ .closure → op ≠ .closeCapture →
      op ≠ .return_ → f.ip + Instr.size ⟨op, operand⟩
        ∈ Instr.targets ⟨op, operand⟩ (f.ip + Instr.size ⟨op, operand⟩) →
      size = m.stack.size - Instr.taken ⟨op, operand⟩ + Instr.given ⟨op, operand⟩ →
      (m.behind f callers ⟨op, operand⟩).Calmly size o → o.Safe m.library := by
    intro size o hclosure hclose hreturn hplace hsize ho
    refine ha.calmly (fun h => h.elim hclose hreturn) ?_ hplace hsize ho
    cases op <;> first | rfl | contradiction
  cases op with
  | closure => exact ha.makeClosure
  | closeCapture => exact ha.closeCapture
  | return_ => exact ha.return_
  | call => exact ha.call
  | jump => exact ha.jump rfl List.mem_cons_self rfl rfl
  | jumpIfFalse => exact ha.jumpIf rfl rfl rfl fun v => !v.isTruthy
  | jumpIfTrue => exact ha.jumpIf rfl rfl rfl Value.isTruthy
  | loop =>
    change operand.toNat ≤ f.ip + _ at hfits
    change Outcome.Safe _ (if operand.toNat ≤ f.ip + _ then _ else _)
    rw [if_pos hfits]
    exact ha.jump rfl List.mem_cons_self rfl rfl
  | defineLet =>
    exact hordinary nofun nofun nofun List.mem_cons_self rfl
      (hnamed hfits fun name => hs.defineGlobal name false)
  | defineVar =>
    exact hordinary nofun nofun nofun List.mem_cons_self rfl
      (hnamed hfits fun name => hs.defineGlobal name true)
  | setGlobal =>
    refine hordinary nofun nofun nofun List.mem_cons_self ?_
      (hnamed hfits fun name => hs.assignGlobal name)
    change m.stack.size = m.stack.size - 1 + 1
    change 1 ≤ u.height at hdeep
    omega
  | setLocal =>
    have hslot : f.base + operand.toNat < m.stack.size := by
      change operand.toNat < u.height at hfits
      omega
    refine hordinary nofun nofun nofun List.mem_cons_self ?_ (hs.setSlot hslot (hs.peek 0))
    change m.stack.size = m.stack.size - 1 + 1
    omega
  | setCapture =>
    obtain ⟨h, hh, hlive⟩ := hs.captured? rfl ha.closure ha.function hfits
    refine hordinary nofun nofun nofun List.mem_cons_self ?_ (hs.writeCapture ha.below hh hlive)
    change m.stack.size = m.stack.size - 1 + 1
    change 1 ≤ u.height at hdeep
    omega
  | _ => exact hordinary nofun nofun nofun List.mem_cons_self rfl (hquiet rfl).calmly

end At

/-- **One step** of a running machine. -/
theorem Running.step {m : Machine ω} (hr : m.Running) : m.step.Safe m.library := by
  obtain ⟨β, f, callers, c, p, i, u, ha⟩ := hr.at_
  unfold Machine.step
  simp only [ha.frames, ha.decode, ha.moved]
  exact ha.exec

end Machine

end DeployScript
