import DeployScript.Proofs.Machine.Isomorphic

/-!
# Machines in step

An instruction cannot tell isomorphic machines apart: it leads both to the same kind of outcome,
and to machines that are isomorphic again. `Isomorphic.step` is put together from one lemma for
each family of instructions.
-/

namespace DeployScript

variable {ω : Type}

/-- **Outcomes that are equal up to handles.** -/
inductive Outcome.Isomorphic : Outcome ω → Outcome ω → Prop
  | next {β : Link} {m m' : Machine ω} (hi : m.Isomorphic β m') : Isomorphic (.next m) (.next m')
  | done {β : Link} {m m' : Machine ω} {v v' : Value} (hv : v.Similar β v')
    (hi : m.Isomorphic β m') : Isomorphic (.done v m) (.done v' m')
  | raise {β : Link} {m m' : Machine ω} (cause : Cause) (hi : m.Isomorphic β m') :
    Isomorphic (.raise cause m) (.raise cause m')
  | stuck {β : Link} {m m' : Machine ω} (hi : m.Isomorphic β m') :
    Isomorphic (.stuck m) (.stuck m')

namespace Machine.Isomorphic

variable {β γ : Link} {m m' : Machine ω} {v v' : Value}

/-! ### Constants, names and captured cells -/

/-- The innermost calls run similar code. -/
theorem headChunk (hi : Isomorphic β m m') :
    Option.Rel (fun f f' => f.Similar β f' ∧ f.chunk.Similar β f'.chunk) m.frames.head?
      m'.frames.head? := by
  have hhead := hi.head?
  cases hf : m.frames.head? with
  | none =>
    rw [hf] at hhead
    generalize m'.frames.head? = f' at hhead
    cases hhead
    exact .none
  | some f =>
    cases hf' : m'.frames.head? with
    | none =>
      rw [hf, hf'] at hhead
      cases hhead
    | some f' =>
      rw [hf, hf'] at hhead
      cases hhead with
      | some hs =>
        exact .some ⟨hs, hi.chunk hs (hi.rooted f (List.mem_of_head? hf))
          (hi.rooted' f' (List.mem_of_head? hf'))⟩

theorem constant? (hi : Isomorphic β m m') (index : UInt16) :
    Option.Rel (Value.Similar β) (m.constant? index) (m'.constant? index) := by
  unfold Machine.constant?
  have hhead := hi.headChunk
  generalize m.frames.head? = f at hhead
  generalize m'.frames.head? = f' at hhead
  cases hhead with
  | none => exact .none
  | some hf => exact rel_getElem? hf.2.constants _

theorem name? (hi : Isomorphic β m m') (index : UInt16) : m.name? index = m'.name? index := by
  unfold Machine.name?
  have hhead := hi.headChunk
  generalize m.frames.head? = f at hhead
  generalize m'.frames.head? = f' at hhead
  cases hhead with
  | none => rfl
  | some hf => simp only [Option.bind_some, hf.2.names]

theorem captured? (hi : Isomorphic β m m') (index : Nat) :
    Option.Rel (β .cell) (m.captured? index) (m'.captured? index) := by
  unfold Machine.captured?
  have hhead := hi.head?
  generalize m.frames.head? = f at hhead
  generalize m'.frames.head? = f' at hhead
  cases hhead with
  | none => exact .none
  | some hf =>
    obtain ⟨c, c', hc, hc', hs⟩ := hi.heap.closure _ _ hf.closure
    simp only [bind, Option.bind_some, hc, hc']
    exact rel_getElem? hs.cells index

/-! ### Operators and containers -/

theorem give (hi : Isomorphic β m m') {result result' : Except Cause Value}
    (hr : Heap.Agrees (Value.Similar β) result result') :
    (m.give result).Isomorphic (m'.give result') := by
  cases hr with
  | ok hv => exact .next (hi.push hv)
  | error cause => exact .raise cause hi

theorem binary (hi : Isomorphic β m m') (op : BinaryOp) :
    (m.binary op).Isomorphic (m'.binary op) := by
  obtain ⟨hb, hi⟩ := hi.pop
  obtain ⟨ha, hi⟩ := hi.pop
  exact hi.give (hi.heap.binary op ha hb)

theorem unary (hi : Isomorphic β m m') (op : UnaryOp) :
    (m.unary op).Isomorphic (m'.unary op) := by
  obtain ⟨ha, hi⟩ := hi.pop
  exact hi.give (Heap.Twin.unary op ha)

theorem write (hi : Isomorphic β m m') {target target' : Except Cause Heap.Target}
    (ht : Heap.Agrees (Heap.Target.Similar β) target target') (hv : v.Similar β v') :
    (m.write target v).Isomorphic (m'.write target' v') := by
  cases ht with
  | error cause => exact .raise cause hi
  | ok hs => exact .next ((hi.extend (hi.heap.store hs hv)).push hv)

/-- A new container on both stacks. -/
theorem pushNew (hi : Isomorphic β m m') {new new' : Heap → Value × Heap}
    (hnew : ∃ γ, Heap.Extends β m.heap m'.heap γ (new m.heap).2 (new' m'.heap).2 ∧
      (new m.heap).1.Similar γ (new' m'.heap).1) :
    (m.pushNew new).Isomorphic (m'.pushNew new') := by
  obtain ⟨γ, hx, hv⟩ := hnew
  exact .next ((hi.extend hx).push hv)

theorem fieldsOf {values values' : List Value} {fields fields' : Fields}
    (hs : List.Forall₂ (Value.Similar β) values values')
    (hm : Matching (Value.Similar β) fields fields') :
    Matching (Value.Similar β) (Machine.fieldsOf values fields)
      (Machine.fieldsOf values' fields') := by
  induction values, fields using Machine.fieldsOf.induct generalizing values' fields' with
  | case1 key value rest fields ih =>
    cases hs with
    | cons hk hs =>
      cases hs with
      | cons hv hs =>
        cases hk with
        | text =>
          have hrest := ih hs (hm.insert key hv)
          exact hrest
  | case2 first second rest fields hfirst ih =>
    cases hs with
    | cons hk hs =>
      cases hs with
      | cons hv hs =>
        cases hk with
        | text key => exact absurd rfl (hfirst key)
        | _ =>
          have hrest := ih hs hm
          exact hrest
  | case3 fields values hone htwo =>
    cases hs with
    | nil => exact hm
    | cons hk hs =>
      cases hs with
      | nil => cases hk <;> exact hm
      | cons hv hs => exact absurd rfl (htwo _ _ _)

/-! ### Globals -/

theorem withName (hi : Isomorphic β m m') (index : UInt16) {f f' : String → Outcome ω}
    (hf : ∀ name, (f name).Isomorphic (f' name)) :
    (m.withName index f).Isomorphic (m'.withName index f') := by
  unfold Machine.withName
  rw [hi.name?]
  split
  · exact hf _
  · exact .stuck hi

theorem isFixed {b b' : Binding} (hb : b.Similar β b') :
    Machine.isFixed b = Machine.isFixed b' := by
  obtain ⟨v, isMutable⟩ := b
  obtain ⟨v', isMutable'⟩ := b'
  obtain ⟨hv, hm⟩ := hb
  dsimp only at hv hm
  subst hm
  cases hv <;> rfl

theorem defineGlobal (hi : Isomorphic β m m') (name : String) (isMutable : Bool) :
    (m.defineGlobal name isMutable).Isomorphic (m'.defineGlobal name isMutable) := by
  obtain ⟨hv, hi⟩ := hi.pop
  have hb := hi.globals name
  unfold Machine.defineGlobal
  generalize m.pop = popped at hv hi hb ⊢
  generalize m'.pop = popped' at hv hi hb ⊢
  obtain ⟨v, m⟩ := popped
  obtain ⟨v', m'⟩ := popped'
  dsimp only at hv hi hb ⊢
  generalize m.globals[name]? = b at hb
  generalize m'.globals[name]? = b' at hb
  cases hb with
  | none => exact .next (hi.define name hv isMutable)
  | some hb =>
    simp only [isFixed hb]
    split
    · exact .raise _ hi
    · exact .next (hi.define name hv isMutable)

theorem assignGlobal (hi : Isomorphic β m m') (name : String) :
    (m.assignGlobal name).Isomorphic (m'.assignGlobal name) := by
  unfold Machine.assignGlobal
  have hb := hi.globals name
  generalize m.globals[name]? = b at hb
  generalize m'.globals[name]? = b' at hb
  cases hb with
  | none => exact .raise _ hi
  | some hb =>
    simp only [hb.isMutable]
    split
    · exact .next (hi.define name (hi.peek 0) true)
    · exact .raise _ hi

/-! ### Captured variables -/

theorem gather (sources : List CaptureSource) {cells cells' : Array Handle}
    (hi : Isomorphic β m m') (hc : List.Forall₂ (β .cell) cells.toList cells'.toList) :
    ∃ γ, β.Le γ ∧ List.Forall₂ (γ .cell) (Machine.gather sources cells m).1.toList
        (Machine.gather sources cells' m').1.toList ∧
      (Machine.gather sources cells m).2.1 = (Machine.gather sources cells' m').2.1 ∧
      Isomorphic γ (Machine.gather sources cells m).2.2
        (Machine.gather sources cells' m').2.2 := by
  induction sources generalizing β cells cells' m m' with
  | nil => exact ⟨β, .refl β, hc, rfl, hi⟩
  | cons source sources ih =>
    simp only [Machine.gather]
    split
    · obtain ⟨γ, hle, hh, hi'⟩ := hi.capture (m.base + source.index.toNat)
      rw [hi.base] at hh hi' ⊢
      have hc' : List.Forall₂ (γ .cell)
          (cells.push (m.capture (m'.base + source.index.toNat)).1).toList
          (cells'.push (m'.capture (m'.base + source.index.toNat)).1).toList := by
        rw [Array.toList_push, Array.toList_push]
        exact List.rel_append (hc.imp fun _ _ h => hle.handle _ _ _ h) (.cons hh .nil)
      obtain ⟨δ, hle', hrest⟩ := ih hi' hc'
      exact ⟨δ, hle.trans hle', hrest⟩
    · have hcaptured := hi.captured? source.index.toNat
      generalize m.captured? source.index.toNat = h at hcaptured
      generalize m'.captured? source.index.toNat = h' at hcaptured
      cases hcaptured with
      | none => exact ⟨β, .refl β, hc, rfl, hi⟩
      | some hh =>
        refine ih hi ?_
        rw [Array.toList_push, Array.toList_push]
        exact List.rel_append hc (.cons hh .nil)

theorem makeClosure (hi : Isomorphic β m m') (start : Nat) (index : UInt16)
    (sources : List CaptureSource) :
    (m.makeClosure start index sources).Isomorphic (m'.makeClosure start index sources) := by
  unfold Machine.makeClosure
  have hconstant := hi.constant? index
  generalize m.constant? index = c at hconstant
  generalize m'.constant? index = c' at hconstant
  cases hconstant with
  | none => exact .stuck hi
  | some hc =>
    cases hc with
    | function hh =>
      have hnone : List.Forall₂ (β .cell) (#[] : Array Handle).toList
          (#[] : Array Handle).toList := .nil
      obtain ⟨γ, hle, hcells, hmissing, hi'⟩ := gather sources hi hnone
      dsimp only
      generalize Machine.gather sources #[] m = gathered at hcells hmissing hi' ⊢
      generalize Machine.gather sources #[] m' = gathered' at hcells hmissing hi' ⊢
      obtain ⟨cells, missing, m⟩ := gathered
      obtain ⟨cells', missing', m'⟩ := gathered'
      dsimp only at hcells hmissing hi' ⊢
      subst hmissing
      have hsize : cells.size = cells'.size := hcells.length_eq
      cases missing with
      | some index =>
        rw [hsize]
        exact .raise _ (hi'.moveTo _)
      | none =>
        dsimp only [Machine.pushNew]
        cases hs : m.heap.insert (.closure _) with
        | mk h next =>
        cases hs' : m'.heap.insert (.closure _) with
        | mk h' next' =>
        have hnew := hi'.insertClosure hs hs' ⟨hle.handle _ _ _ hh, hcells⟩
        exact .next (hnew.push (.closure (.inr ⟨rfl, rfl, rfl⟩)))
    | _ => exact .raise _ (hi.moveTo _)

theorem readCapture (hi : Isomorphic β m m') (index : Nat) :
    (m.readCapture index).Isomorphic (m'.readCapture index) := by
  unfold Machine.readCapture
  have hcaptured := hi.captured? index
  generalize m.captured? index = h at hcaptured
  generalize m'.captured? index = h' at hcaptured
  cases hcaptured with
  | none => exact .raise _ hi
  | some hh =>
    obtain ⟨c, c', hc, hc', hs⟩ := hi.heap.cell _ _ hh
    simp only [hc, hc']
    cases hs with
    | closed hv => exact .next (hi.push hv)
    | opened slot =>
      have hslot := hi.get slot
      dsimp only
      generalize m.stack[slot]? = v at hslot
      generalize m'.stack[slot]? = v' at hslot
      cases hslot with
      | none => exact .stuck hi
      | some hv => exact .next (hi.push hv)

theorem setSlotOf (hi : Isomorphic β m m') (slot : Nat) (hv : v.Similar β v') :
    (m.setSlot slot v).Isomorphic (m'.setSlot slot v') := by
  unfold Machine.setSlot
  rw [hi.size]
  split
  · exact .next (hi.setSlot slot hv)
  · exact .stuck hi

theorem writeCapture (hi : Isomorphic β m m') (index : Nat) :
    (m.writeCapture index).Isomorphic (m'.writeCapture index) := by
  unfold Machine.writeCapture
  have hcaptured := hi.captured? index
  generalize m.captured? index = h at hcaptured
  generalize m'.captured? index = h' at hcaptured
  cases hcaptured with
  | none => exact .raise _ hi
  | some hh =>
    obtain ⟨c, c', hc, hc', hs⟩ := hi.heap.cell _ _ hh
    simp only [hc, hc']
    cases hs with
    | closed _ => exact .next (hi.setCell hh (.closed (hi.peek 0)))
    | opened slot => exact hi.setSlotOf slot (hi.peek 0)

/-! ### Calls -/

theorem enter (hi : Isomorphic β m m') {h h' : Handle} (hh : β .closure h h') (count : Nat) :
    (m.enter h count).Isomorphic (m'.enter h' count) := by
  obtain ⟨c, c', hc, hc', hs⟩ := hi.heap.closure _ _ hh
  obtain ⟨p, p', hp, hp', hps⟩ := hi.heap.function _ _ hs.function
  unfold Machine.enter
  simp only [hc, hc', Option.bind_some, hp, hp', hps.params, hi.frames.length_eq, hi.size]
  split
  · exact .raise _ hi
  · split
    · exact .raise _ hi
    · have hframe : ∀ {heap : Heap} {h : Handle} {c : Closure} {p : Prototype Value} {base : Nat},
          heap.closure? h = some c → heap.function? c.function = some p →
          (Frame.mk h p.chunk 0 base).Rooted heap := fun hc hp => ⟨_, _, hc, hp, rfl⟩
      refine .next { hi with frames := .cons ⟨hh, rfl, rfl⟩ hi.frames, rooted := ?_, rooted' := ?_ }
      · exact List.forall_mem_cons.2 ⟨hframe hc hp, hi.rooted⟩
      · exact List.forall_mem_cons.2 ⟨hframe hc' hp', hi.rooted'⟩

theorem callIntrinsic (hi : Isomorphic β m m') (f : Intrinsic) (count : Nat) :
    (m.callIntrinsic f count).Isomorphic (m'.callIntrinsic f count) := by
  unfold Machine.callIntrinsic
  dsimp only
  split
  · exact .raise _ hi
  · have heffect := hi.heap.effect? f (hi.arguments count)
    generalize f.effect? m.heap (m.arguments count) = effect at heffect
    generalize f.effect? m'.heap (m'.arguments count) = effect' at heffect
    cases heffect with
    | error failure => exact .raise _ hi
    | ok hs =>
      obtain ⟨γ, hx, hv⟩ := hi.heap.perform hs
      exact .next ((hi.extend hx).leave count hv)

theorem callerName (hi : Isomorphic β m m') : m.callerName = m'.callerName := by
  unfold Machine.callerName
  have hhead := hi.head?
  generalize m.frames.head? = f at hhead
  generalize m'.frames.head? = f' at hhead
  cases hhead with
  | none => rfl
  | some hf =>
    obtain ⟨name, hn, hn'⟩ := hi.heap.named _ _ (.inr hf.closure)
    simp only [Option.bind_some, hn, hn']

theorem withWorld (hi : Isomorphic β m m') (world : ω) :
    Isomorphic β { m with world } { m' with world } :=
  { hi with world := rfl }

theorem callBuiltin (hi : Isomorphic β m m') (name : String) (count : Nat) :
    (m.callBuiltin name count).Isomorphic (m'.callBuiltin name count) := by
  unfold Machine.callBuiltin
  have hfound : m.library.get? name = m'.library.get? name := by rw [hi.library]
  rw [hfound]
  cases m'.library.get? name with
  | none => exact .stuck hi
  | some b =>
    dsimp only
    rw [hi.heap.unpack b.name b.params (hi.arguments count)]
    cases m'.heap.unpack b.name b.params (m'.arguments count) with
    | error cause => exact .raise _ hi
    | ok args =>
      have hrun : b.run { caller := m.callerName, assets := m.assets } args m.world
          = b.run { caller := m'.callerName, assets := m'.assets } args m'.world := by
        rw [hi.callerName, hi.assets, hi.world]
      dsimp only
      rw [hrun]
      rcases b.run { caller := m'.callerName, assets := m'.assets } args m'.world with
        ⟨cause | result, world⟩
      · exact .raise cause (hi.withWorld world)
      · obtain ⟨γ, hx, hv⟩ := hi.heap.ofHost result
        exact .next (((hi.extend hx).withWorld world).leave count hv)

/-- **Calls.** -/
theorem call (hi : Isomorphic β m m') (hv : v.Similar β v') (count : Nat) :
    (m.call v count).Isomorphic (m'.call v' count) := by
  have hwrong := hv.typeName
  cases hv with
  | closure hh => exact hi.enter hh count
  | function hh =>
    unfold Machine.call
    dsimp only
    cases hs : m.heap.insert (.closure _) with
    | mk h next =>
    cases hs' : m'.heap.insert (.closure _) with
    | mk h' next' =>
    exact (hi.insertClosure hs hs' ⟨hh, .nil⟩).enter (.inr ⟨rfl, rfl, rfl⟩) count
  | intrinsic f => exact hi.callIntrinsic f count
  | builtin _ => exact hi.callBuiltin _ count
  | _ => exact .raise _ hi

theorem return_ (hi : Isomorphic β m m') : m.return_.Isomorphic m'.return_ := by
  obtain ⟨hv, hi⟩ := hi.pop
  unfold Machine.return_
  generalize m.pop = popped at hv hi ⊢
  generalize m'.pop = popped' at hv hi ⊢
  obtain ⟨v, m⟩ := popped
  obtain ⟨v', m'⟩ := popped'
  dsimp only at hv hi ⊢
  have hframes := hi.frames
  have hrooted := hi.rooted
  have hrooted' := hi.rooted'
  generalize m.frames = frames at hframes hrooted ⊢
  generalize m'.frames = frames' at hframes hrooted' ⊢
  cases hframes with
  | nil => exact .done hv hi
  | @cons f f' frames frames' hf hfs =>
    dsimp only
    have hrest : Isomorphic β { m with frames } { m' with frames := frames' } :=
      { hi with
        frames := hfs
        rooted := fun g hg => hrooted g (List.mem_cons_of_mem _ hg)
        rooted' := fun g hg => hrooted' g (List.mem_cons_of_mem _ hg) }
    have hcut := (hrest.closeFrom f.base).shrink f.base
    rw [← hf.base]
    cases hfs with
    | nil => exact .done hv hcut
    | cons _ _ => exact .next (hcut.push hv)

/-! ### Instructions -/

theorem jumpIf (hi : Isomorphic β m m') {condition : Value → Bool}
    (hc : ∀ {v v' : Value}, v.Similar β v' → condition v = condition v') (distance : UInt16) :
    (m.jumpIf condition distance).Isomorphic (m'.jumpIf condition distance) := by
  unfold Machine.jumpIf
  rw [hc (hi.peek 0), hi.ip]
  split
  · exact .next (hi.moveTo _)
  · exact .next hi

theorem print (hi : Isomorphic β m m') (count : UInt8) :
    (m.exec 0 ⟨.print, count⟩).Isomorphic (m'.exec 0 ⟨.print, count⟩) := by
  unfold Machine.exec
  dsimp only
  have htaken := hi.take? count.toNat
  generalize m.take? count.toNat = taken at htaken
  generalize m'.take? count.toNat = taken' at htaken
  cases htaken with
  | none => exact .stuck hi
  | @some a a' hs =>
    obtain ⟨values, m⟩ := a
    obtain ⟨values', m'⟩ := a'
    have htexts : values.toList.map m.heap.display = values'.toList.map m'.heap.display := by
      rw [← List.forall₂_eq_eq_eq, List.forall₂_map_left_iff, List.forall₂_map_right_iff]
      exact hs.1.imp fun _ _ hv => hs.2.heap.display hv
    dsimp only
    rw [htexts, hs.2.output]
    exact .next (push { hs.2 with output := rfl } .nil)

/-- A container of the topmost values. -/
theorem collectNew (hi : Isomorphic β m m') (count : Nat)
    {new new' : Array Value → Heap → Value × Heap}
    (hnew : ∀ {heap heap' : Heap} {values values' : Array Value}, Heap.Twin β heap heap' →
      List.Forall₂ (Value.Similar β) values.toList values'.toList →
      ∃ γ, Heap.Extends β heap heap' γ (new values heap).2 (new' values' heap').2 ∧
        (new values heap).1.Similar γ (new' values' heap').1) :
    Outcome.Isomorphic
      (match m.take? count with
        | none => .stuck m
        | some (values, m) => m.pushNew (new values))
      (match m'.take? count with
        | none => .stuck m'
        | some (values, m') => m'.pushNew (new' values)) := by
  have htaken := hi.take? count
  generalize m.take? count = taken at htaken
  generalize m'.take? count = taken' at htaken
  cases htaken with
  | none => exact .stuck hi
  | some hs => exact hs.2.pushNew (hnew hs.2.heap.toTwin hs.1)

theorem length (hi : Isomorphic β m m') :
    (m.exec 0 ⟨.len, ()⟩).Isomorphic (m'.exec 0 ⟨.len, ()⟩) := by
  unfold Machine.exec
  obtain ⟨hv, hi⟩ := hi.pop
  dsimp only
  rw [hi.heap.length? hv]
  cases m'.pop.2.heap.length? m'.pop.1 with
  | none =>
    dsimp only [wrongType]
    rw [hv.typeName]
    exact .raise _ hi
  | some n => exact .next (hi.push (.number _))

/-- **One instruction** on both machines. -/
theorem exec (hi : Isomorphic β m m') (start : Nat) (i : Instr) :
    (m.exec start i).Isomorphic (m'.exec start i) := by
  obtain ⟨op, operand⟩ := i
  cases op with
  | constant =>
    -- What both sides look up is related before either is split, so they branch together.
    have hconstant := hi.constant? operand
    unfold Machine.exec
    dsimp only
    generalize m.constant? operand = c at hconstant
    generalize m'.constant? operand = c' at hconstant
    cases hconstant with
    | none => exact .stuck hi
    | some hv => exact .next (hi.push hv)
  | nil => exact .next (hi.push .nil)
  | true_ => exact .next (hi.push (.bool true))
  | false_ => exact .next (hi.push (.bool false))
  | pop => exact .next hi.pop.2
  | defineLet => exact hi.withName operand fun name => hi.defineGlobal name false
  | defineVar => exact hi.withName operand fun name => hi.defineGlobal name true
  | getGlobal =>
    refine hi.withName operand fun name => ?_
    have hglobal := hi.global? name
    generalize m.global? name = v at hglobal
    generalize m'.global? name = v' at hglobal
    cases hglobal with
    | none => exact .raise _ hi
    | some hv => exact .next (hi.push hv)
  | setGlobal => exact hi.withName operand fun name => hi.assignGlobal name
  | getLocal =>
    have hslot := hi.get (m.base + operand.toNat)
    unfold Machine.exec
    dsimp only
    rw [← hi.base]
    generalize m.stack[m.base + operand.toNat]? = v at hslot
    generalize m'.stack[m.base + operand.toNat]? = v' at hslot
    cases hslot with
    | none => exact .stuck hi
    | some hv => exact .next (hi.push hv)
  | setLocal =>
    unfold Machine.exec
    dsimp only
    rw [← hi.base]
    exact hi.setSlotOf _ (hi.peek 0)
  | add => exact hi.binary .add
  | sub => exact hi.binary .sub
  | mul => exact hi.binary .mul
  | div => exact hi.binary .div
  | mod => exact hi.binary .mod
  | neg => exact hi.unary .neg
  | eq => exact hi.binary .eq
  | ne => exact hi.binary .ne
  | lt => exact hi.binary .lt
  | le => exact hi.binary .le
  | gt => exact hi.binary .gt
  | ge => exact hi.binary .ge
  | not => exact hi.unary .not
  | jump =>
    unfold Machine.exec
    dsimp only
    rw [hi.ip]
    exact .next (hi.moveTo _)
  | jumpIfFalse => exact hi.jumpIf (fun hv => congrArg not hv.isTruthy) operand
  | jumpIfTrue => exact hi.jumpIf (fun hv => hv.isTruthy) operand
  | loop =>
    unfold Machine.exec
    dsimp only
    rw [hi.ip]
    split
    · exact .next (hi.moveTo _)
    · exact .stuck hi
  | call => exact hi.call (hi.peek _) _
  | return_ => exact hi.return_
  | closure => exact hi.makeClosure start _ _
  | getCapture => exact hi.readCapture _
  | setCapture => exact hi.writeCapture _
  | closeCapture =>
    unfold Machine.exec
    dsimp only
    rw [hi.size]
    exact .next (hi.closeFrom _).pop.2
  | print => exact hi.print operand
  | len => exact hi.length
  | array => exact hi.collectNew operand.toNat fun ht hs => ht.newArray hs
  | record =>
    exact hi.collectNew (2 * operand.toNat) fun ht hs => ht.newRecord (fieldsOf hs matching_empty)
  | index =>
    obtain ⟨hkey, hi⟩ := hi.pop
    obtain ⟨hcontainer, hi⟩ := hi.pop
    exact hi.give (hi.heap.index hcontainer hkey)
  | setIndex =>
    obtain ⟨hv, hi⟩ := hi.pop
    obtain ⟨hkey, hi⟩ := hi.pop
    obtain ⟨hcontainer, hi⟩ := hi.pop
    exact hi.write (hi.heap.target hcontainer hkey) hv
  | getProperty =>
    refine hi.withName operand fun name => ?_
    obtain ⟨hv, hi⟩ := hi.pop
    exact hi.give (hi.heap.property name hv)
  | setProperty =>
    refine hi.withName operand fun name => ?_
    obtain ⟨hv, hi⟩ := hi.pop
    obtain ⟨hreceiver, hi⟩ := hi.pop
    exact hi.write (Heap.Twin.propertyTarget name hreceiver) hv

/-- **Isomorphic machines step alike.** -/
theorem step (hi : Isomorphic β m m') : m.step.Isomorphic m'.step := by
  unfold Machine.step
  have hhead := hi.headChunk
  have hframes := hi.frames
  -- Both lists of frames are named, so that the relation decides both matches at once.
  generalize hf : m.frames = frames at hframes hhead ⊢
  generalize hf' : m'.frames = frames' at hframes hhead ⊢
  cases hframes with
  | nil => exact .stuck hi
  | cons hs _ =>
    cases hhead with
    | some hchunk =>
      dsimp only
      rw [hchunk.2.code, hs.ip]
      split
      · exact .stuck hi
      · exact .raise _ (hi.moveTo _)
      · exact (hi.moveTo _).exec _ _

end Machine.Isomorphic

end DeployScript
