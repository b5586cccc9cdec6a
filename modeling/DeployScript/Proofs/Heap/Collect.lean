import DeployScript.Proofs.Heap.Objects

/-!
# What a collection keeps

A collection keeps exactly the objects that can be reached from the roots, and they keep their
handles: `get?_collected` for a heap at rest, and `collection_exact` for every heap without marks,
whatever its free list is.

* `Reachable` — what roots refer to, directly or through objects.
* `Tracing` — what holds while objects are marked: marks are reachable, and the references of a
  marked object that is not pending are marked.
* `pending_trace` — the fuel of `trace` is enough, since each object becomes pending once at most; `traced` —
  what is marked behind it.
* `sweepSlot_spec` — a sweep goes through the slots once, and lists what it empties.
-/

namespace DeployScript.Heap

/-- **What can be reached from roots.** -/
inductive Reachable (heap : Heap) (roots : List Handle) : Handle → Prop
  | root {h : Handle} (hr : h ∈ roots) : Reachable heap roots h
  | child {h k : Handle} {object : Object} (h' : Reachable heap roots h)
      (hobject : heap.get? h = some object) (hk : k ∈ object.handles) : Reachable heap roots k

/-! ### Marking -/

/-- How many slots are not marked. -/
def unmarked (heap : Heap) : Nat :=
  ((Finset.range heap.slots.size).filter fun i => heap.marked.contains i = false).card

/-- **While a heap is traced:** its objects are those of `heap`, what is marked can be reached, what
is pending is marked, and what a marked object refers to is marked unless the object is pending or
its references are being marked right now. -/
structure Tracing (heap : Heap) (roots current : List Handle) (t : Heap) : Prop where
  slots : t.slots = heap.slots
  free : t.free = heap.free
  marked : ∀ h, t.marked.contains h.index = true →
    (heap.get? h).isSome ∧ heap.Reachable roots h
  pending : ∀ h ∈ t.pending, t.marked.contains h.index = true
  closed : ∀ h, t.marked.contains h.index = true → h ∉ t.pending → h ∉ current → ∀ object,
    heap.get? h = some object → ∀ k ∈ object.handles, (heap.get? k).isSome →
      t.marked.contains k.index = true

variable {heap t : Heap} {roots current : List Handle}

theorem Tracing.get? (ht : Tracing heap roots current t) (h : Handle) : t.get? h = heap.get? h := by
  unfold Heap.get?
  rw [ht.slots]

/-- Marks touch neither the slots nor the free list. -/
theorem rows_mark (heap : Heap) (h : Handle) :
    (heap.mark h).slots = heap.slots ∧ (heap.mark h).free = heap.free := by
  unfold mark
  split
  · exact ⟨rfl, rfl⟩
  · split <;> exact ⟨rfl, rfl⟩

theorem rows_markAll (heap : Heap) (handles : List Handle) :
    (heap.markAll handles).slots = heap.slots ∧ (heap.markAll handles).free = heap.free := by
  unfold markAll
  induction handles generalizing heap with
  | nil => exact ⟨rfl, rfl⟩
  | cons h handles ih =>
    obtain ⟨hslots, hfree⟩ := ih (heap.mark h)
    rw [List.foldl_cons, hslots, hfree]
    exact rows_mark heap h

theorem rows_traceFrom (fuel : Nat) (heap : Heap) :
    (heap.traceFrom fuel).slots = heap.slots ∧ (heap.traceFrom fuel).free = heap.free := by
  induction fuel generalizing heap with
  | zero => exact ⟨rfl, rfl⟩
  | succ fuel ih =>
    unfold traceFrom
    split
    case h_1 => exact ⟨rfl, rfl⟩
    case h_2 h pending hp =>
      obtain ⟨hslots, hfree⟩ := ih ({ heap with pending }.markAll
        (((heap.get? h).map Object.handles).getD []))
      obtain ⟨hslots', hfree'⟩ := rows_markAll { heap with pending }
        (((heap.get? h).map Object.handles).getD [])
      exact ⟨hslots.trans hslots', hfree.trans hfree'⟩

theorem Tidy.of_rows (ht : heap.Tidy) (hslots : t.slots = heap.slots) (hfree : t.free = heap.free) :
    t.Tidy where
  free i hi := by
    rw [hslots]
    exact ht.free i (hfree ▸ hi)
  nodup := hfree ▸ ht.nodup

/-! ### How long a trace takes -/

/-- Marking makes an object pending if it was not marked, so that the two together are as many as before. -/
theorem count_mark (t : Heap) (h : Handle) :
    (t.mark h).pending.length + (t.mark h).unmarked = t.pending.length + t.unmarked := by
  unfold mark
  split
  case isTrue => rfl
  case isFalse hm =>
    cases hobject : t.get? h with
    | none => rfl
    | some object =>
      have hlt : h.index < t.slots.size := by
        unfold Heap.get? at hobject
        rcases hslot : t.slots[h.index]? with _ | slot
        · rw [hslot] at hobject
          cases hobject
        · exact (Array.getElem?_eq_some_iff.1 hslot).1
      -- The slot is one that was not marked before.
      have hmem : h.index ∈ (Finset.range t.slots.size).filter
          fun i => t.marked.contains i = false :=
        Finset.mem_filter.2 ⟨Finset.mem_range.2 hlt, Bool.eq_false_iff.2 hm⟩
      have herase : ((Finset.range t.slots.size).filter
          fun i => (t.marked.insert h.index).contains i = false)
          = ((Finset.range t.slots.size).filter fun i => t.marked.contains i = false).erase
            h.index := by
        ext i
        rw [Finset.mem_erase, Finset.mem_filter, Finset.mem_filter, Std.HashSet.contains_insert,
          Bool.or_eq_false_iff, beq_eq_false_iff_ne]
        constructor
        · rintro ⟨hi, hne, hc⟩
          exact ⟨Ne.symm hne, hi, hc⟩
        · rintro ⟨hne, hi, hc⟩
          exact ⟨hi, Ne.symm hne, hc⟩
      change (h :: t.pending).length + _ = _
      unfold unmarked
      rw [herase, Finset.card_erase_of_mem hmem, List.length_cons]
      have hpos := Finset.card_pos.2 ⟨_, hmem⟩
      omega

theorem count_markAll (t : Heap) (handles : List Handle) :
    (t.markAll handles).pending.length + (t.markAll handles).unmarked
      = t.pending.length + t.unmarked := by
  unfold markAll
  induction handles generalizing t with
  | nil => rfl
  | cons h handles ih => rw [List.foldl_cons, ih, count_mark]

theorem unmarked_le (t : Heap) : t.unmarked ≤ t.slots.size :=
  (Finset.card_filter_le _ _).trans (Nat.le_of_eq (Finset.card_range _))

/-- Following what is pending with enough fuel leaves nothing pending. -/
theorem pending_traceFrom (fuel : Nat) (hfuel : t.pending.length + t.unmarked ≤ fuel) :
    (t.traceFrom fuel).pending = [] := by
  induction fuel generalizing t with
  | zero =>
    rw [traceFrom]
    exact List.length_eq_zero_iff.1 (by omega)
  | succ fuel ih =>
    rw [traceFrom]
    split
    case h_1 hp => exact hp
    case h_2 h pending hp =>
      -- Taking an object off is what makes the sum smaller.
      refine ih ?_
      rw [count_markAll]
      rw [hp, List.length_cons] at hfuel
      change pending.length + t.unmarked ≤ fuel
      omega

/-- **A trace ends,** whatever is marked and pending when it begins. -/
theorem pending_trace (t : Heap) : t.trace.pending = [] :=
  pending_traceFrom _ (Nat.add_le_add_left t.unmarked_le _)

/-! ### What a trace marks -/

/-- Marking an object makes it pending if it was not marked. -/
theorem mark_spec (ht : Tracing heap roots current t) {h : Handle} (hr : heap.Reachable roots h) :
    Tracing heap roots current (t.mark h) ∧
      ((heap.get? h).isSome → (t.mark h).marked.contains h.index = true) ∧
      ∀ i, t.marked.contains i = true → (t.mark h).marked.contains i = true := by
  unfold mark
  split
  case isTrue hm => exact ⟨ht, fun _ => hm, fun _ hi => hi⟩
  case isFalse hm =>
    have hget := ht.get? h
    cases hobject : t.get? h with
    | none =>
      refine ⟨ht, fun hsome => ?_, fun _ hi => hi⟩
      rw [← hget, hobject] at hsome
      cases hsome
    | some object =>
      have hlive : (heap.get? h).isSome := by rw [← hget, hobject]; rfl
      have hcontains : ∀ i, (t.marked.insert h.index).contains i = (h.index == i || t.marked.contains i) :=
        fun i => Std.HashSet.contains_insert
      refine ⟨⟨ht.slots, ht.free, fun k hk => ?_, fun k hk => ?_, fun k hk hp hcur => ?_⟩,
        fun _ => ?_, fun i hi => ?_⟩
      · rw [hcontains, Bool.or_eq_true] at hk
        rcases hk with hk | hk
        · obtain rfl : h = k := by
            cases h; cases k
            exact congrArg Handle.mk (eq_of_beq hk)
          exact ⟨hlive, hr⟩
        · exact ht.marked k hk
      · rw [hcontains, Bool.or_eq_true]
        rcases List.mem_cons.1 hk with rfl | hk
        · exact Or.inl (beq_self_eq_true _)
        · exact Or.inr (ht.pending k hk)
      · rw [hcontains, Bool.or_eq_true] at hk
        rw [List.mem_cons, not_or] at hp
        -- The new mark is on a pending object, so this one has an old mark.
        have hold : t.marked.contains k.index = true := by
          rcases hk with hk | hk
          · refine absurd ?_ hp.1
            cases h; cases k
            exact congrArg Handle.mk (eq_of_beq hk).symm
          · exact hk
        intro object' hobject' k' hk' hsome
        rw [hcontains, Bool.or_eq_true]
        exact Or.inr (ht.closed k hold hp.2 hcur object' hobject' k' hk' hsome)
      · rw [hcontains, beq_self_eq_true, Bool.true_or]
      · rw [hcontains, hi, Bool.or_true]

theorem markAll_spec (ht : Tracing heap roots current t) {handles : List Handle}
    (hr : ∀ h ∈ handles, heap.Reachable roots h) :
    Tracing heap roots current (t.markAll handles) ∧
      (∀ h ∈ handles, (heap.get? h).isSome → (t.markAll handles).marked.contains h.index = true) ∧
      ∀ i, t.marked.contains i = true → (t.markAll handles).marked.contains i = true := by
  unfold markAll
  induction handles generalizing t with
  | nil => exact ⟨ht, fun _ hh => (nomatch hh), fun _ hi => hi⟩
  | cons h handles ih =>
    obtain ⟨ht', hmark, hkeep⟩ := mark_spec ht (hr h List.mem_cons_self)
    obtain ⟨ht'', hall, hkeep'⟩ := ih ht' fun k hk => hr k (List.mem_cons_of_mem _ hk)
    refine ⟨ht'', fun k hk hsome => ?_, fun i hi => hkeep' i (hkeep i hi)⟩
    rcases List.mem_cons.1 hk with rfl | hk
    · exact hkeep' _ (hmark hsome)
    · exact hall k hk hsome

/-- Following what is pending keeps up what is known of the marks, and takes none back. -/
theorem traceFrom_spec (fuel : Nat) (ht : Tracing heap roots [] t) :
    Tracing heap roots [] (t.traceFrom fuel) ∧
      ∀ i, t.marked.contains i = true → (t.traceFrom fuel).marked.contains i = true := by
  induction fuel generalizing t with
  | zero => exact ⟨ht, fun _ hi => hi⟩
  | succ fuel ih =>
    rw [traceFrom]
    split
    case h_1 => exact ⟨ht, fun _ hi => hi⟩
    case h_2 h pending hp =>
      -- The object is pending no more, and the invariant makes an exception of it until all that it
      -- refers to is marked.
      have hmem : ∀ k, k ∈ t.pending ↔ k = h ∨ k ∈ pending := by
        intro k
        rw [hp, List.mem_cons]
      obtain ⟨hlive, hr⟩ := ht.marked h (ht.pending h ((hmem h).2 (Or.inl rfl)))
      obtain ⟨object, hobject⟩ := Option.isSome_iff_exists.1 hlive
      have hhandles : ((t.get? h).map Object.handles).getD [] = object.handles := by
        rw [ht.get?, hobject]
        rfl
      have hopen : Tracing heap roots [h] { t with pending } := by
        refine ⟨ht.slots, ht.free, ht.marked, fun k hk => ht.pending k ((hmem k).2 (Or.inr hk)),
          fun k hk hnot hcur => ht.closed k hk ?_ List.not_mem_nil⟩
        rw [hmem, not_or]
        exact ⟨fun he => hcur (List.mem_singleton.2 he), hnot⟩
      obtain ⟨hall, hmarked, hkeep⟩ :=
        markAll_spec hopen fun k hk => hr.child hobject hk
      have hclosed : Tracing heap roots [] (({ t with pending } : Heap).markAll object.handles) := by
        refine ⟨hall.slots, hall.free, hall.marked, hall.pending, fun k hk hnot _ => ?_⟩
        by_cases he : k = h
        · subst he
          intro object' hobject'
          obtain rfl := Option.some.inj (hobject.symm.trans hobject')
          exact hmarked
        · exact hall.closed k hk hnot fun hcur => he (List.mem_singleton.1 hcur)
      rw [hhandles]
      obtain ⟨hfinal, hkeep'⟩ := ih hclosed
      exact ⟨hfinal, fun i hi => hkeep' i (hkeep i hi)⟩

theorem trace_spec (ht : Tracing heap roots [] t) :
    Tracing heap roots [] t.trace ∧
      ∀ i, t.marked.contains i = true → t.trace.marked.contains i = true :=
  traceFrom_spec _ ht

/-- More fuel than a trace needs changes nothing. -/
theorem traceFrom_of_le {n : Nat} (hdone : (t.traceFrom n).pending = []) {fuel : Nat}
    (hle : n ≤ fuel) : t.traceFrom fuel = t.traceFrom n := by
  induction n generalizing t fuel with
  | zero =>
    rw [traceFrom] at hdone ⊢
    cases fuel with
    | zero => rfl
    | succ fuel => rw [traceFrom, hdone]
  | succ n ih =>
    obtain ⟨fuel, rfl⟩ := Nat.exists_eq_add_of_lt hle
    rw [traceFrom] at hdone ⊢
    rw [traceFrom]
    split
    case h_1 hp => rfl
    case h_2 h pending hp =>
      rw [hp] at hdone
      exact ih hdone (by omega)

/-- **A heap that no collection is under way in:** nothing is marked, and nothing pending. -/
structure Idle (heap : Heap) : Prop where
  marked : ∀ i, heap.marked.contains i = false
  pending : heap.pending = []

theorem Wf.idle (hw : heap.Wf) : heap.Idle := ⟨hw.marked, hw.pending⟩

/-- A heap whose roots are marked is being traced. -/
theorem Idle.markAll (hi : heap.Idle) (roots : List Handle) :
    Tracing heap roots [] (heap.markAll roots) ∧
      ∀ h ∈ roots, (heap.get? h).isSome → (heap.markAll roots).marked.contains h.index = true := by
  have hstart : Tracing heap roots [] heap := by
    refine ⟨rfl, rfl, fun h hm => ?_, fun h hp => ?_, fun h hm => ?_⟩
    · rw [hi.marked] at hm
      cases hm
    · rw [hi.pending] at hp
      cases hp
    · rw [hi.marked] at hm
      cases hm
  obtain ⟨hall, hroots, -⟩ := markAll_spec hstart fun h hr => Reachable.root hr
  exact ⟨hall, hroots⟩

/-- Each slot is pending or not marked at most when the roots have been marked. -/
theorem Idle.count_markAll (hi : heap.Idle) (roots : List Handle) :
    (heap.markAll roots).pending.length + (heap.markAll roots).unmarked ≤ heap.slots.size := by
  rw [Heap.count_markAll, hi.pending, List.length_nil, Nat.zero_add]
  exact heap.unmarked_le

/-- **A trace ends** when it has followed each object once at most. -/
theorem Idle.traceFrom (hi : heap.Idle) (roots : List Handle) {fuel : Nat}
    (hfuel : heap.slots.size ≤ fuel) :
    (heap.markAll roots).traceFrom fuel = (heap.markAll roots).trace := by
  have hdone := pending_traceFrom heap.slots.size (hi.count_markAll roots)
  have htrace : (heap.markAll roots).trace = (heap.markAll roots).traceFrom heap.slots.size := by
    unfold trace
    refine traceFrom_of_le hdone ?_
    rw [(rows_markAll heap roots).1]
    exact Nat.le_add_left _ _
  rw [htrace]
  exact traceFrom_of_le hdone hfuel

/-- **Behind the trace** exactly the live objects that can be reached are marked. -/
theorem traced (hi : heap.Idle) (roots : List Handle) :
    ((heap.markAll roots).trace).slots = heap.slots ∧
      ((heap.markAll roots).trace).free = heap.free ∧
      ((heap.markAll roots).trace).pending = [] ∧
      ∀ h, ((heap.markAll roots).trace).marked.contains h.index = true ↔
        (heap.get? h).isSome ∧ heap.Reachable roots h := by
  obtain ⟨hall, hroots⟩ := hi.markAll roots
  have hpending := pending_trace (heap.markAll roots)
  obtain ⟨hdone, hkeep⟩ := trace_spec hall
  -- With nothing pending, the marks are closed under references.
  have hreach : ∀ h, heap.Reachable roots h → (heap.get? h).isSome →
      ((heap.markAll roots).trace).marked.contains h.index = true := by
    intro h hr
    induction hr with
    | root hr => exact fun hlive => hkeep _ (hroots _ hr hlive)
    | child _ hobject hk ih =>
      intro hlive
      refine hdone.closed _ (ih (by rw [hobject]; rfl)) ?_ List.not_mem_nil _ hobject _ hk hlive
      rw [hpending]
      exact List.not_mem_nil
  exact ⟨hdone.slots, hdone.free, hpending, fun h =>
    ⟨hdone.marked h, fun hboth => hreach h hboth.2 hboth.1⟩⟩

/-! ### Sweeping -/

/-- One slot of a sweep. -/
def sweepSlot (marked : Std.HashSet Nat) (index : Nat) (state : Array (Option Object) × List Nat) :
    Array (Option Object) × List Nat :=
  if marked.contains index then state
  else
    match (state.1[index]?).join with
    | none => state
    | some _ => (state.1.setIfInBounds index none, index :: state.2)

/-- What a sweep of the first slots has done: those that are not marked are empty, and those of them
that held an object are listed before all that was free. -/
theorem sweepSlot_spec (heap : Heap) (marked : Std.HashSet Nat) (n : Nat)
    (hn : n ≤ heap.slots.size) :
    let state := Nat.fold n (fun index _ => sweepSlot marked index) (heap.slots, heap.free)
    (∀ i, state.1[i]? = if i < n ∧ marked.contains i = false then
        (heap.slots[i]?).map fun _ => none else heap.slots[i]?) ∧
      state.2 = ((List.range n).filter fun i =>
        !marked.contains i && (heap.get? ⟨i⟩).isSome).reverse ++ heap.free := by
  induction n with
  | zero =>
    simp only [Nat.fold_zero]
    exact ⟨fun i => by simp, rfl⟩
  | succ n ih =>
    obtain ⟨hslots, hfree⟩ := ih (Nat.le_of_succ_le hn)
    simp only [Nat.fold_succ]
    generalize Nat.fold n (fun index _ => sweepSlot marked index) (heap.slots, heap.free) = state
      at hslots hfree
    obtain ⟨slots, free⟩ := state
    simp only at hslots hfree
    have hslot : slots[n]? = heap.slots[n]? := by simpa using hslots n
    -- Only the slot of this round is new.
    have hnext : ∀ i, i ≠ n → ((i < n + 1 ∧ marked.contains i = false) ↔
        (i < n ∧ marked.contains i = false)) := by
      intro i hi
      constructor
      · rintro ⟨h, hm⟩
        exact ⟨by omega, hm⟩
      · rintro ⟨h, hm⟩
        exact ⟨by omega, hm⟩
    rw [List.range_succ, List.filter_append, List.reverse_append, List.append_assoc, ← hfree]
    unfold sweepSlot
    cases hm : marked.contains n with
    | true =>
      refine ⟨fun i => ?_, by simp [hm]⟩
      simp only [if_true, hslots i]
      by_cases hi : i = n
      · simp [hi, hm]
      · simp only [hnext i hi]
    | false =>
      simp only [Bool.false_eq_true, if_false, hslot]
      obtain ⟨slot, hsome⟩ : ∃ slot, heap.slots[n]? = some slot :=
        ⟨_, Array.getElem?_eq_getElem (Nat.lt_of_succ_le hn)⟩
      have hget : heap.get? ⟨n⟩ = slot := by
        rw [get?, hsome, Option.join_some]
      cases slot with
      | none =>
        rw [hsome]
        refine ⟨fun i => ?_, by simp [hget]⟩
        simp only [Option.join_some, hslots i]
        by_cases hi : i = n
        · simp [hi, hm, hsome]
        · simp only [hnext i hi]
      | some object =>
        rw [hsome]
        refine ⟨fun i => ?_, by simp [hget, hm]⟩
        simp only [Option.join_some]
        by_cases hi : i = n
        · have hlt : n < slots.size := by
            rw [← hslot] at hsome
            exact (Array.getElem?_eq_some_iff.1 hsome).1
          subst hi
          rw [Array.getElem?_setIfInBounds_self_of_lt hlt]
          simp [hm, hsome]
        · rw [Array.getElem?_setIfInBounds_ne (Ne.symm hi), hslots i]
          simp only [hnext i hi]

/-- What a sweep leaves in a slot. -/
theorem getElem?_slots_sweep (t : Heap) (i : Nat) :
    t.sweep.slots[i]? = if t.marked.contains i = false then (t.slots[i]?).map fun _ => none
      else t.slots[i]? := by
  refine ((sweepSlot_spec t t.marked t.slots.size (Nat.le_refl _)).1 i).trans ?_
  by_cases hi : i < t.slots.size
  · simp only [hi, true_and]
  · rw [Array.getElem?_eq_none (Nat.le_of_not_lt hi)]
    split <;> split <;> rfl

/-- **A sweep** frees what is not marked. -/
theorem get?_sweep (t : Heap) (h : Handle) :
    t.sweep.get? h = if t.marked.contains h.index = true then t.get? h else none := by
  unfold get?
  rw [getElem?_slots_sweep]
  cases t.marked.contains h.index with
  | true => rfl
  | false => cases t.slots[h.index]? <;> rfl

theorem size_slots_sweep (t : Heap) : t.sweep.slots.size = t.slots.size := by
  have hnone : ∀ i : Nat, t.sweep.slots[i]? = none ↔ t.slots[i]? = none := by
    intro i
    rw [getElem?_slots_sweep]
    split
    · exact Option.map_eq_none_iff
    · exact Iff.rfl
  simp only [Array.getElem?_eq_none_iff] at hnone
  exact Nat.le_antisymm ((hnone t.slots.size).2 (Nat.le_refl _))
    ((hnone t.sweep.slots.size).1 (Nat.le_refl _))

/-- The slots that a sweep empties become free, the first slot first. -/
theorem free_sweep (t : Heap) :
    t.sweep.free = ((List.range t.slots.size).filter fun i =>
      !t.marked.contains i && (t.get? ⟨i⟩).isSome).reverse ++ t.free :=
  (sweepSlot_spec t t.marked t.slots.size (Nat.le_refl _)).2

/-- A sweep forgets the marks. -/
theorem idle_sweep {t : Heap} (hp : t.pending = []) : t.sweep.Idle where
  marked _ := Std.HashSet.contains_empty
  pending := hp

/-- A sweep leaves each free slot empty and listed once, whatever is marked. -/
theorem Tidy.sweep {t : Heap} (ht : t.Tidy) : t.sweep.Tidy where
  free i hi := by
    rw [getElem?_slots_sweep]
    rw [free_sweep, List.mem_append, List.mem_reverse, List.mem_filter, List.mem_range,
      Bool.and_eq_true, Bool.not_eq_true'] at hi
    rcases hi with ⟨hlt, hm, -⟩ | hi
    · rw [if_pos hm, Array.getElem?_eq_getElem hlt]
      rfl
    · rw [ht.free i hi]
      split <;> rfl
  nodup := by
    rw [free_sweep]
    refine List.nodup_append.2 ⟨List.nodup_reverse.2 (List.nodup_range.filter _), ht.nodup, ?_⟩
    rintro i hi j hj rfl
    -- What was free held no object.
    have hsome := (List.mem_filter.1 (List.mem_reverse.1 hi)).2
    rw [get?, ht.free i hj] at hsome
    simp at hsome

theorem Wf.sweep {t : Heap} (ht : t.Tidy) (hp : t.pending = []) : t.sweep.Wf where
  free := ht.sweep.free
  nodup := ht.sweep.nodup
  marked := (idle_sweep hp).marked
  pending := hp

/-- **A collection** keeps what can be reached from the roots, under the same handles, and nothing
else. -/
theorem get?_collected (hw : heap.Wf) (roots : List Handle) :
    ((heap.markAll roots).trace.sweep).Wf ∧
      (∀ h, heap.Reachable roots h →
        ((heap.markAll roots).trace.sweep).get? h = heap.get? h) ∧
      ∀ h, ¬ heap.Reachable roots h → ((heap.markAll roots).trace.sweep).get? h = none := by
  obtain ⟨hslots, hfree, hpending, hmarked⟩ := traced hw.idle roots
  generalize (heap.markAll roots).trace = t at *
  have hget : ∀ h, t.get? h = heap.get? h := fun h => by rw [get?, get?, hslots]
  refine ⟨Wf.sweep (hw.tidy.of_rows hslots hfree) hpending, fun h hr => ?_, fun h hr => ?_⟩
  · rw [get?_sweep, hget]
    split
    case isTrue => rfl
    case isFalse hm =>
      symm
      rw [← Option.not_isSome_iff_eq_none]
      exact fun hsome => hm ((hmarked h).2 ⟨hsome, hr⟩)
  · rw [get?_sweep, if_neg fun hm => hr ((hmarked h).1 hm).2]

/-! ### Exactness -/

/-- An object refers to another. -/
def Refers (heap : Heap) (h k : Handle) : Prop :=
  ∃ object, heap.get? h = some object ∧ k ∈ object.handles

/-- What can be reached is what a path of references leads to. A path to a live object starts at a
live root. -/
theorem live_reachable_iff {heap : Heap} {roots : List Handle} {h : Handle} :
    ((heap.get? h).isSome ∧ heap.Reachable roots h) ↔ (heap.get? h).isSome ∧
      ∃ r ∈ roots, (heap.get? r).isSome ∧ Relation.ReflTransGen heap.Refers r h := by
  -- What refers to something is live, so that a path to a live object is live from its start.
  refine and_congr_right fun hlive => ⟨fun hr => ?_, ?_⟩
  · induction hr with
    | root hr => exact ⟨_, hr, hlive, Relation.ReflTransGen.refl⟩
    | child _ hobject hk ih =>
      obtain ⟨r, hr, hroot, hpath⟩ := ih (by rw [hobject]; rfl)
      exact ⟨r, hr, hroot, hpath.tail ⟨_, hobject, hk⟩⟩
  · rintro ⟨r, hr, -, hpath⟩
    induction hpath with
    | refl => exact .root hr
    | tail _ hrefers ih =>
      obtain ⟨object, hobject, hk⟩ := hrefers
      exact (ih (by rw [hobject]; rfl)).child hobject hk

/-- **What a collection makes of a heap:** the objects that a path of references leads to from a
live root are as they were, all others are gone, and their slots are listed before all that was
free. No mark is left, and nothing is pending. -/
structure Collected (heap : Heap) (roots : List Handle) (swept : Heap) : Prop where
  size : swept.slots.size = heap.slots.size
  live : ∀ h, (swept.get? h).isSome ↔ (heap.get? h).isSome ∧
    ∃ r ∈ roots, (heap.get? r).isSome ∧ Relation.ReflTransGen heap.Refers r h
  kept : ∀ h, (swept.get? h).isSome → swept.get? h = heap.get? h
  free : swept.free = ((List.range heap.slots.size).filter fun i =>
    (heap.get? ⟨i⟩).isSome && (swept.get? ⟨i⟩).isNone).reverse ++ heap.free
  idle : swept.Idle

/-- **A collection is exact,** whatever refers to what: its trace ends, with any fuel for as many
objects as there are slots, and its sweep frees what the trace did not reach. -/
theorem collection_exact (hi : heap.Idle) (roots : List Handle) :
    (heap.markAll roots).trace.pending = [] ∧
      (∀ fuel, heap.slots.size ≤ fuel →
        (heap.markAll roots).traceFrom fuel = (heap.markAll roots).trace) ∧
      Collected heap roots (heap.markAll roots).trace.sweep := by
  have hends : ∀ fuel, heap.slots.size ≤ fuel →
      (heap.markAll roots).traceFrom fuel = (heap.markAll roots).trace :=
    fun _ hfuel => hi.traceFrom roots hfuel
  obtain ⟨hslots, hfree, hpending, hmarked⟩ := traced hi roots
  refine ⟨hpending, hends, ?_⟩
  generalize (heap.markAll roots).trace = t at *
  have hget : ∀ h, t.get? h = heap.get? h := fun h => by rw [get?, get?, hslots]
  have hlive : ∀ h, (t.sweep.get? h).isSome ↔ t.marked.contains h.index = true := by
    intro h
    rw [get?_sweep, hget]
    cases hm : t.marked.contains h.index with
    | true => simpa using ((hmarked h).1 hm).1
    | false => simp
  refine ⟨?_, fun h => ?_, fun h hsome => ?_, ?_, idle_sweep hpending⟩
  · rw [size_slots_sweep, hslots]
  · rw [hlive, hmarked, live_reachable_iff]
  · rw [get?_sweep, if_pos ((hlive h).1 hsome), hget]
  · rw [free_sweep, hslots, hfree]
    congr 2
    refine List.filter_congr fun i _ => ?_
    rw [hget, Bool.and_comm, ← Option.not_isSome,
      Bool.eq_iff_iff.2 (hlive ⟨i⟩)]

/-- Two objects that refer to each other, the first to an empty slot too, and one that only refers
to itself. -/
def rings : Heap where
  slots := #[some (.array #[.array ⟨1⟩, .record ⟨3⟩]), some (.cell (.closed (.array ⟨0⟩))),
    some (.array #[.array ⟨2⟩]), none]
  free := [3]
  marked := {}
  pending := []

theorem Refers.of_rings {h k : Handle} (hr : rings.Refers h k) (hh : h ≠ ⟨2⟩) : k ≠ ⟨2⟩ := by
  obtain ⟨object, hobject, hk⟩ := hr
  obtain ⟨i⟩ := h
  match i with
  | 0 => cases hobject; revert k; decide
  | 1 => cases hobject; revert k; decide
  | 2 => exact absurd rfl hh
  | 3 => cases hobject
  | i + 4 => cases hobject

/-- The ring that a root refers to stays, and the other is freed. -/
theorem collects_rings :
    rings.Idle ∧ Collected rings [⟨1⟩, ⟨3⟩] (rings.markAll [⟨1⟩, ⟨3⟩]).trace.sweep ∧
      (rings.markAll [⟨1⟩, ⟨3⟩]).trace.sweep.get? ⟨0⟩ = rings.get? ⟨0⟩ ∧
      (rings.markAll [⟨1⟩, ⟨3⟩]).trace.sweep.get? ⟨2⟩ = none := by
  have hi : rings.Idle := ⟨fun _ => Std.HashSet.contains_empty, rfl⟩
  have hc := (collection_exact hi [⟨1⟩, ⟨3⟩]).2.2
  refine ⟨hi, hc, hc.kept ⟨0⟩ ((hc.live ⟨0⟩).2 ⟨rfl, ⟨1⟩, List.mem_cons_self, rfl, ?_⟩), ?_⟩
  · exact .single ⟨_, rfl, List.mem_cons_self⟩
  · rw [← Option.not_isSome_iff_eq_none]
    intro hlive
    obtain ⟨-, r, hr, -, hpath⟩ := (hc.live ⟨2⟩).1 hlive
    -- No path leads into the second ring from outside.
    have hnot : ∀ h, Relation.ReflTransGen rings.Refers r h → h ≠ ⟨2⟩ := by
      intro h hpath
      induction hpath with
      | refl => rintro rfl; simp at hr
      | tail _ hrefers ih => exact hrefers.of_rings ih
    exact hnot _ hpath rfl

end DeployScript.Heap
