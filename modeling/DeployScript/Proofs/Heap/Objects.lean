import DeployScript.Heap.Collect
import DeployScript.Heap.Intrinsic
import Mathlib

/-!
# Reading and writing objects

What `Heap.get?` finds behind each operation on a heap.

* `Heap.Tidy` — the free slots are empty and listed once; `Heap.Wf` — and no collection is under way.
* `get?_insert` — a new object is found by its handle, which stood for nothing before.
* `Kept` — all objects that were there stay, as they do behind an allocation (`kept_insert`).
* `get?_update` — only the object of the handle changes.
-/

namespace DeployScript.Heap

/-- **A heap whose free list can be trusted:** each free slot is empty and listed once. -/
structure Tidy (heap : Heap) : Prop where
  free : ∀ i ∈ heap.free, heap.slots[i]? = some none
  nodup : heap.free.Nodup

/-- **A heap at rest:** each free slot is empty and listed once, and nothing is marked. -/
structure Wf (heap : Heap) : Prop where
  free : ∀ i ∈ heap.free, heap.slots[i]? = some none
  nodup : heap.free.Nodup
  marked : ∀ i, heap.marked.contains i = false
  pending : heap.pending = []

theorem Wf.tidy {heap : Heap} (hw : heap.Wf) : heap.Tidy := ⟨hw.free, hw.nodup⟩

theorem wf_empty : Heap.empty.Wf where
  free i hi := nomatch hi
  nodup := List.nodup_nil
  marked i := by simp [Heap.empty]
  pending := rfl

variable {heap heap' : Heap} {h k : Handle} {object : Object}

theorem get?_empty (h : Handle) : Heap.empty.get? h = none := by
  simp [get?, Heap.empty]

/-- A new object takes a slot that held none, and the free list can be trusted as before. -/
theorem Tidy.get?_insert (ht : heap.Tidy) (hi : heap.insert object = (h, heap')) :
    heap.get? h = none ∧ heap'.Tidy ∧
      ∀ k, heap'.get? k = if k = h then some object else heap.get? k := by
  unfold insert at hi
  split at hi
  case h_1 index free hfree =>
    cases hi
    have hmem : index ∈ heap.free := by rw [hfree]; exact List.mem_cons_self
    have hnodup : index ∉ free ∧ free.Nodup := by
      have := ht.nodup
      rw [hfree] at this
      exact List.nodup_cons.1 this
    have hslot := ht.free index hmem
    have hlt : index < heap.slots.size := (Array.getElem?_eq_some_iff.1 hslot).1
    refine ⟨by simp [get?, hslot], ⟨fun i hi => ?_, hnodup.2⟩, fun k => ?_⟩
    · have hne : index ≠ i := fun he => hnodup.1 (he ▸ hi)
      rw [Array.getElem?_setIfInBounds_ne hne]
      exact ht.free i (by rw [hfree]; exact List.mem_cons_of_mem _ hi)
    · obtain ⟨k⟩ := k
      simp only [get?, Handle.mk.injEq]
      split
      case isTrue he =>
        rw [he, Array.getElem?_setIfInBounds_self_of_lt hlt]
        rfl
      case isFalse hne => rw [Array.getElem?_setIfInBounds_ne (Ne.symm hne)]
  case h_2 hfree =>
    cases hi
    refine ⟨by simp [get?], ⟨fun i hi => ?_, ht.nodup⟩, fun k => ?_⟩
    · rw [hfree] at hi
      cases hi
    · obtain ⟨k⟩ := k
      simp only [get?, Handle.mk.injEq, Array.getElem?_push]
      split
      · rfl
      · rfl

/-- Whatever the free list says, an allocation brings one object and no other. -/
theorem get?_insert_or {o : Object} (hk : (heap.insert object).2.get? k = some o) :
    o = object ∨ heap.get? k = some o := by
  unfold insert at hk
  split at hk <;>
    simp only [get?, Option.join_eq_some_iff, Array.getElem?_setIfInBounds, Array.getElem?_push] at hk ⊢
  · split at hk
    · split at hk
      · cases hk
        exact .inl rfl
      · cases hk
    · exact .inr hk
  · split at hk
    · cases hk
      exact .inl rfl
    · exact .inr hk

/-- An allocation looks at no mark and sets none. -/
theorem marks_insert (hi : heap.insert object = (h, heap')) :
    heap'.marked = heap.marked ∧ heap'.pending = heap.pending := by
  unfold insert at hi
  split at hi <;> cases hi <;> exact ⟨rfl, rfl⟩

/-- **A new object** has a handle that stood for nothing, and all other objects stay. -/
theorem get?_insert (hw : heap.Wf) (hi : heap.insert object = (h, heap')) :
    heap.get? h = none ∧ heap'.Wf ∧
      ∀ k, heap'.get? k = if k = h then some object else heap.get? k := by
  obtain ⟨hnone, ht, hget⟩ := hw.tidy.get?_insert hi
  obtain ⟨hmarked, hpending⟩ := marks_insert hi
  refine ⟨hnone, ⟨ht.free, ht.nodup, fun i => ?_, hpending.trans hw.pending⟩, hget⟩
  rw [hmarked]
  exact hw.marked i

/-- All live objects are as they were. -/
def Kept (heap heap' : Heap) : Prop :=
  ∀ h object, heap.get? h = some object → heap'.get? h = some object

theorem Kept.refl (heap : Heap) : heap.Kept heap := fun _ _ ho => ho

theorem Kept.trans {heap heap' heap'' : Heap} (hk : heap.Kept heap') (hk' : heap'.Kept heap'') :
    heap.Kept heap'' :=
  fun h object ho => hk' h object (hk h object ho)

/-- Objects stay while one is stored: its slot held none. -/
theorem Tidy.kept_insert (ht : heap.Tidy) (hi : heap.insert object = (h, heap')) :
    heap.Kept heap' := by
  obtain ⟨hnone, -, hget⟩ := ht.get?_insert hi
  intro k o ho
  have hne : k ≠ h := by
    rintro rfl
    rw [hnone] at ho
    cases ho
  rw [hget, if_neg hne]
  exact ho

theorem kept_insert (hw : heap.Wf) (hi : heap.insert object = (h, heap')) : heap.Kept heap' :=
  hw.tidy.kept_insert hi

/-- **A change of an object** touches no other. -/
theorem get?_update (f : Object → Object) (k : Handle) :
    (heap.update h f).get? k = if k = h then (heap.get? h).map f else heap.get? k := by
  obtain ⟨h⟩ := h
  obtain ⟨k⟩ := k
  simp only [get?, update, Array.getElem?_modify, Handle.mk.injEq]
  by_cases he : h = k
  · subst he
    cases heap.slots[h]? with
    | none => simp
    | some slot => cases slot <;> simp
  · simp [he, Ne.symm he]

theorem Tidy.update (ht : heap.Tidy) (h : Handle) (f : Object → Object) : (heap.update h f).Tidy where
  free i hi := by
    have hslot := ht.free i hi
    simp only [Heap.update, Array.getElem?_modify]
    split
    · rw [hslot]
      rfl
    · exact hslot
  nodup := ht.nodup

theorem wf_update (hw : heap.Wf) (f : Object → Object) : (heap.update h f).Wf where
  free := (hw.tidy.update h f).free
  nodup := hw.nodup
  marked := hw.marked
  pending := hw.pending

/-! ### Objects of a kind -/

theorem array?_eq {items : Array Value} :
    heap.array? h = some items ↔ heap.get? h = some (.array items) := by
  unfold array?
  cases heap.get? h with
  | none => simp
  | some object => cases object <;> simp

theorem record?_eq {fields : Fields} :
    heap.record? h = some fields ↔ heap.get? h = some (.record fields) := by
  unfold record?
  cases heap.get? h with
  | none => simp
  | some object => cases object <;> simp

theorem closure?_eq {c : Closure} :
    heap.closure? h = some c ↔ heap.get? h = some (.closure c) := by
  unfold closure?
  cases heap.get? h with
  | none => simp
  | some object => cases object <;> simp

theorem cell?_eq {c : Cell} : heap.cell? h = some c ↔ heap.get? h = some (.cell c) := by
  unfold cell?
  cases heap.get? h with
  | none => simp
  | some object => cases object <;> simp

theorem function?_eq {p : Prototype Value} :
    heap.function? h = some p ↔ heap.get? h = some (.function p) := by
  unfold function?
  cases heap.get? h with
  | none => simp
  | some object => cases object <;> simp

namespace Kept

variable (hk : heap.Kept heap')

include hk

theorem array? {items : Array Value} (hi : heap.array? h = some items) :
    heap'.array? h = some items :=
  array?_eq.2 (hk h _ (array?_eq.1 hi))

theorem record? {fields : Fields} (hf : heap.record? h = some fields) :
    heap'.record? h = some fields :=
  record?_eq.2 (hk h _ (record?_eq.1 hf))

theorem closure? {c : Closure} (hc : heap.closure? h = some c) : heap'.closure? h = some c :=
  closure?_eq.2 (hk h _ (closure?_eq.1 hc))

theorem cell? {c : Cell} (hc : heap.cell? h = some c) : heap'.cell? h = some c :=
  cell?_eq.2 (hk h _ (cell?_eq.1 hc))

theorem function? {p : Prototype Value} (hp : heap.function? h = some p) :
    heap'.function? h = some p :=
  function?_eq.2 (hk h _ (function?_eq.1 hp))

/-- A name is not lost while objects stay. -/
theorem functionName? {name : String} (hn : heap.functionName? h = some name) :
    heap'.functionName? h = some name := by
  unfold Heap.functionName? code? at hn ⊢
  cases hc : heap.closure? h with
  | some c =>
    rw [hc] at hn
    rw [hk.closure? hc]
    obtain ⟨p, hp, hname⟩ := Option.map_eq_some_iff.1 hn
    exact Option.map_eq_some_iff.2 ⟨p, hk.function? hp, hname⟩
  | none =>
    rw [hc] at hn
    obtain ⟨p, hp, hname⟩ := Option.map_eq_some_iff.1 hn
    have hnone : heap'.closure? h = none := by
      unfold Heap.closure?
      rw [hk _ _ (function?_eq.1 hp)]
    rw [hnone]
    exact Option.map_eq_some_iff.2 ⟨p, hk.function? hp, hname⟩

end Kept

/-! ### New objects of a kind -/

section Insert

variable (hw : heap.Wf)

include hw

/-- All objects but the new one are where they were. -/
theorem other_insert (hi : heap.insert object = (h, heap')) {o : Object} (ho : object ≠ o)
    (k : Handle) : heap'.get? k = some o ↔ heap.get? k = some o := by
  obtain ⟨hnone, -, hget⟩ := get?_insert hw hi
  rw [hget]
  by_cases he : k = h
  · rw [if_pos he, he, hnone]
    exact iff_of_false (fun hs => ho (Option.some.inj hs)) nofun
  · rw [if_neg he]

theorem function?_insert (hi : heap.insert object = (h, heap'))
    (hobject : ∀ p, object ≠ .function p) (k : Handle) : heap'.function? k = heap.function? k :=
  Option.ext fun p => by rw [function?_eq, function?_eq, other_insert hw hi (hobject p)]

theorem closure?_insert (hi : heap.insert object = (h, heap'))
    (hobject : ∀ c, object ≠ .closure c) (k : Handle) : heap'.closure? k = heap.closure? k :=
  Option.ext fun c => by rw [closure?_eq, closure?_eq, other_insert hw hi (hobject c)]

theorem cell?_insert (hi : heap.insert object = (h, heap')) (hobject : ∀ c, object ≠ .cell c)
    (k : Handle) : heap'.cell? k = heap.cell? k :=
  Option.ext fun c => by rw [cell?_eq, cell?_eq, other_insert hw hi (hobject c)]

/-- A new closure. -/
theorem closure?_insert_closure {c : Closure} (hi : heap.insert (.closure c) = (h, heap'))
    (k : Handle) : heap'.closure? k = if k = h then some c else heap.closure? k := by
  obtain ⟨-, -, hget⟩ := get?_insert hw hi
  unfold closure?
  rw [hget]
  by_cases he : k = h
  · simp [he]
  · simp [he]

/-- A new cell. -/
theorem cell?_insert_cell {c : Cell} (hi : heap.insert (.cell c) = (h, heap')) (k : Handle) :
    heap'.cell? k = if k = h then some c else heap.cell? k := by
  obtain ⟨-, -, hget⟩ := get?_insert hw hi
  unfold cell?
  rw [hget]
  by_cases he : k = h
  · simp [he]
  · simp [he]

end Insert

/-- A cell is set: it has the new content, and all else is as it was. -/
theorem get?_setCell (c : Cell) (k : Handle) :
    (heap.setCell h c).get? k
      = if k = h then (heap.get? h).map fun
          | .cell _ => .cell c
          | object => object
        else heap.get? k :=
  get?_update _ k

/-- **What is not a cell** stays as it is while a cell is set. -/
theorem other_setCell {c : Cell} (hc : heap.get? h = some (.cell c)) (c' : Cell) (g : Handle) :
    (heap.setCell h c').function? g = heap.function? g ∧
      (heap.setCell h c').closure? g = heap.closure? g ∧
      (heap.setCell h c').array? g = heap.array? g ∧
      (heap.setCell h c').record? g = heap.record? g ∧
      ((heap.setCell h c').get? g).isSome = (heap.get? g).isSome := by
  simp only [function?, closure?, array?, record?, get?_setCell]
  by_cases he : g = h
  · simp [he, hc]
  · simp [he]

/-- A cell that is set has its new content, and other cells have theirs. -/
theorem cell?_setCell {c : Cell} (hc : heap.get? h = some (.cell c)) (c' : Cell) (g : Handle) :
    (heap.setCell h c').cell? g = if g = h then some c' else heap.cell? g := by
  simp only [cell?, get?_setCell]
  by_cases he : g = h
  · simp [he, hc]
  · simp [he]

end DeployScript.Heap
