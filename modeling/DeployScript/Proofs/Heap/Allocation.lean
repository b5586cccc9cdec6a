import DeployScript.Proofs.Heap.Collect
import DeployScript.Proofs.Heap.Twin

/-!
# Allocation takes no slot that is in use

Objects are stored and changed, marks are set and followed, and sweeps free what is not marked, in any order and
as often as one likes. Whatever happens, the free list and the empty slots are the same thing, so that a new object
takes no slot of a live one.

* `Object.kind`, `Object.onItems`, `Object.onFields` — the kind of an object, and changes in place, which keep it.
* `Action` — what can happen to a heap; `Heap.after` — the heap when a list of actions has happened.
* `Exact` — the free list holds exactly the empty slots, each once; `Exact.perform` is the step and
  `Exact.after` the run.
* `Frees` — a sweep among some actions frees an object; `Exact.kept_after` — until then it is there.
-/

namespace DeployScript

/-! ### Objects -/

/-- The kind of an object. -/
def Object.kind : Object → Kind
  | .array _ => .array
  | .record _ => .record
  | .function _ => .function
  | .closure _ => .closure
  | .cell _ => .cell

/-- An array with other elements. -/
def Object.onItems (f : Array Value → Array Value) : Object → Object
  | .array items => .array (f items)
  | object => object

/-- A record with other fields. -/
def Object.onFields (f : Fields → Fields) : Object → Object
  | .record fields => .record (f fields)
  | object => object

@[simp] theorem Object.kind_onItems (f : Array Value → Array Value) (object : Object) :
    (object.onItems f).kind = object.kind := by
  cases object <;> rfl

@[simp] theorem Object.kind_onFields (f : Fields → Fields) (object : Object) :
    (object.onFields f).kind = object.kind := by
  cases object <;> rfl

namespace Heap

/-! ### What can happen to a heap -/

/-- **What can happen to a heap.** The elements of an array and the fields of a record may change in any way, and a
trace may begin with anything that is pending: it ends all the same (`pending_trace`). -/
inductive Action
  | allocate (object : Object)
  | changeArray (h : Handle) (f : Array Value → Array Value)
  | changeRecord (h : Handle) (f : Fields → Fields)
  | setCell (h : Handle) (cell : Cell)
  | mark (h : Handle)
  | trace
  | sweep

/-- The heap behind an action. -/
def Action.perform : Action → Heap → Heap
  | .allocate object, heap => (heap.insert object).2
  | .changeArray h f, heap => heap.update h (Object.onItems f)
  | .changeRecord h f, heap => heap.update h (Object.onFields f)
  | .setCell h cell, heap => heap.setCell h cell
  | .mark h, heap => heap.mark h
  | .trace, heap => heap.trace
  | .sweep, heap => heap.sweep

/-- **The heap behind actions** that happen one after another. -/
def after (heap : Heap) (actions : List Action) : Heap :=
  actions.foldl (fun heap action => action.perform heap) heap

variable {heap heap' : Heap} {h : Handle} {object : Object} {actions : List Action}

/-! ### The free list -/

/-- **A free list that is exact:** it holds the empty slots, each once, and no others. -/
structure Exact (heap : Heap) : Prop where
  nodup : heap.free.Nodup
  mem_free : ∀ i, i ∈ heap.free ↔ heap.slots[i]? = some none

theorem Exact.tidy (he : heap.Exact) : heap.Tidy where
  free i := (he.mem_free i).1
  nodup := he.nodup

theorem Tidy.exact (ht : heap.Tidy) (hlisted : ∀ i, heap.slots[i]? = some none → i ∈ heap.free) :
    heap.Exact where
  nodup := ht.nodup
  mem_free i := ⟨ht.free i, hlisted i⟩

theorem exact_empty : Heap.empty.Exact where
  nodup := List.nodup_nil
  mem_free i := by simp [Heap.empty]

section Insert

variable {i : Nat} (hi : heap.insert object = (h, heap'))

include hi

/-- Storing an object changes no slot but the one that it takes. -/
theorem slots_insert (hne : i ≠ h.index) : heap'.slots[i]? = heap.slots[i]? := by
  unfold insert at hi
  split at hi <;> cases hi
  · exact Array.getElem?_setIfInBounds_ne (Ne.symm hne)
  · rw [Array.getElem?_push, if_neg hne]

/-- No other slot leaves the free list. -/
theorem mem_free_insert (hne : i ≠ h.index) (hfree : i ∈ heap.free) : i ∈ heap'.free := by
  unfold insert at hi
  split at hi
  case h_1 index free heq =>
    cases hi
    rw [heq] at hfree
    exact (List.mem_cons.1 hfree).resolve_left hne
  case h_2 =>
    cases hi
    exact hfree

theorem Exact.insert (he : heap.Exact) : heap'.Exact := by
  obtain ⟨-, ht, hget⟩ := he.tidy.get?_insert hi
  refine ht.exact fun i hempty => ?_
  -- The slot of the new object is not empty.
  have hne : i ≠ h.index := by
    rintro rfl
    have hobject := hget h
    rw [if_pos rfl, get?, hempty] at hobject
    cases hobject
  rw [slots_insert hi hne] at hempty
  exact mem_free_insert hi hne ((he.mem_free i).2 hempty)

end Insert

theorem Exact.update (he : heap.Exact) (h : Handle) (f : Object → Object) :
    (heap.update h f).Exact := by
  refine (he.tidy.update h f).exact fun i hi => (he.mem_free i).2 ?_
  simp only [Heap.update, Array.getElem?_modify] at hi
  split at hi
  · -- What is changed was there before.
    obtain ⟨slot, hslot, hmap⟩ := Option.map_eq_some_iff.1 hi
    rw [hslot, Option.map_eq_none_iff.1 hmap]
  · exact hi

theorem Exact.of_rows (he : heap.Exact) (hrows : heap'.slots = heap.slots ∧ heap'.free = heap.free) :
    heap'.Exact where
  nodup := hrows.2 ▸ he.nodup
  mem_free i := by rw [hrows.1, hrows.2, he.mem_free]

theorem Exact.sweep (he : heap.Exact) : heap.sweep.Exact := by
  refine he.tidy.sweep.exact fun i hi => ?_
  rw [free_sweep, List.mem_append, List.mem_reverse, List.mem_filter, List.mem_range]
  rw [getElem?_slots_sweep] at hi
  -- A slot that is empty now was empty, or it is one that the sweep has emptied.
  cases hslot : heap.slots[i]? with
  | none =>
    rw [hslot] at hi
    split at hi <;> cases hi
  | some slot =>
    cases slot with
    | none => exact .inr ((he.mem_free i).2 hslot)
    | some object =>
      rw [hslot] at hi
      split at hi
      case isTrue hm =>
        refine .inl ⟨(Array.getElem?_eq_some_iff.1 hslot).1, ?_⟩
        rw [hm, get?, hslot]
        rfl
      case isFalse => cases hi

/-- **The free list stays exact** in a step. -/
theorem Exact.perform (he : heap.Exact) (action : Action) : (action.perform heap).Exact := by
  cases action with
  | allocate object => exact he.insert rfl
  | changeArray h f => exact he.update h _
  | changeRecord h f => exact he.update h _
  | setCell h cell => exact he.update h _
  | mark h => exact he.of_rows (rows_mark heap h)
  | trace => exact he.of_rows (rows_traceFrom _ heap)
  | sweep => exact he.sweep

/-- **The free list stays exact** in a run. -/
theorem Exact.after (he : heap.Exact) (actions : List Action) : (heap.after actions).Exact := by
  induction actions generalizing heap with
  | nil => exact he
  | cons action actions ih => exact ih (he.perform action)

/-! ### New objects -/

theorem live_eq (heap : Heap) : heap.live = heap.slots.countP Option.isSome := by
  have hcount : ∀ (slots : List (Option Object)) (n : Nat),
      slots.foldl (fun n slot => if slot.isSome then n + 1 else n) n
        = n + slots.countP Option.isSome := by
    intro slots
    induction slots with
    | nil => exact fun _ => rfl
    | cons slot slots ih =>
      intro n
      rw [List.foldl_cons, ih, List.countP_cons]
      cases slot with
      | none => rfl
      | some object =>
        simp only [Option.isSome_some, if_true]
        rw [Nat.add_assoc, Nat.add_comm 1]
  rw [live, ← Array.foldl_toList, hcount, Array.countP_toList, Nat.zero_add]

/-- **What storing an object does:** it takes a slot that held none, and only that. -/
structure Allocated (heap : Heap) (object : Object) (h : Handle) (heap' : Heap) : Prop where
  fresh : heap.get? h = none
  stored : heap'.get? h = some object
  others : ∀ i, i ≠ h.index → heap'.slots[i]? = heap.slots[i]?
  live : heap'.live = heap.live + 1

theorem Exact.allocated (he : heap.Exact) (hi : heap.insert object = (h, heap')) :
    Allocated heap object h heap' := by
  obtain ⟨hfresh, -, hget⟩ := he.tidy.get?_insert hi
  refine ⟨hfresh, by rw [hget, if_pos rfl], fun i => slots_insert hi, ?_⟩
  rw [live_eq, live_eq]
  unfold Heap.insert at hi
  split at hi
  case h_1 index free heq =>
    cases hi
    have hslot : heap.slots[index]? = some none := by
      rw [← he.mem_free, heq]
      exact List.mem_cons_self
    obtain ⟨hlt, hnone⟩ := Array.getElem?_eq_some_iff.1 hslot
    rw [Array.setIfInBounds, dif_pos hlt, Array.countP_set hlt, hnone]
    rfl
  case h_2 =>
    cases hi
    rw [Array.countP_push]
    rfl

/-! ### Objects that are not freed -/

/-- **A sweep frees an object** while actions happen: it was live in front of the sweep, and is not behind it. -/
def Frees (heap : Heap) (actions : List Action) (h : Handle) : Prop :=
  ∃ front behind, actions = front ++ .sweep :: behind ∧
    ((heap.after front).get? h).isSome ∧ (heap.after front).sweep.get? h = none

/-- A change in place keeps the kind of an object. -/
theorem kept_update (hobject : heap.get? h = some object) {f : Object → Object}
    (hf : ∀ object, (f object).kind = object.kind) (k : Handle) :
    ∃ object', (heap.update k f).get? h = some object' ∧ object'.kind = object.kind := by
  rw [get?_update]
  split
  case isTrue he =>
    rw [← he, hobject]
    exact ⟨f object, rfl, hf object⟩
  case isFalse => exact ⟨object, hobject, rfl⟩

/-- **A step keeps an object,** of its kind, unless it frees it. -/
theorem Tidy.kept_perform (ht : heap.Tidy) (hobject : heap.get? h = some object) (action : Action) :
    (∃ object', (action.perform heap).get? h = some object' ∧ object'.kind = object.kind) ∨
      action = .sweep ∧ heap.sweep.get? h = none := by
  have hsame : ∀ heap' : Heap, heap'.slots = heap.slots →
      ∃ object', heap'.get? h = some object' ∧ object'.kind = object.kind := by
    intro heap' hslots
    exact ⟨object, by rw [← hobject, get?, get?, hslots], rfl⟩
  cases action with
  | allocate new => exact .inl ⟨object, ht.kept_insert rfl h object hobject, rfl⟩
  | changeArray k f => exact .inl (kept_update hobject (Object.kind_onItems f) k)
  | changeRecord k f => exact .inl (kept_update hobject (Object.kind_onFields f) k)
  | setCell k cell =>
    refine .inl (kept_update hobject (fun object => ?_) k)
    cases object <;> rfl
  | mark k => exact .inl (hsame _ (rows_mark heap k).1)
  | trace => exact .inl (hsame _ (rows_traceFrom _ heap).1)
  | sweep =>
    rw [Action.perform, get?_sweep]
    split
    case isTrue => exact .inl ⟨object, hobject, rfl⟩
    case isFalse => exact .inr ⟨rfl, rfl⟩

/-- **A run keeps an object,** of its kind, unless it frees it. -/
theorem Exact.kept_after (he : heap.Exact) (hobject : heap.get? h = some object)
    (hfrees : ¬ heap.Frees actions h) :
    ∃ object', (heap.after actions).get? h = some object' ∧ object'.kind = object.kind := by
  induction actions generalizing heap object with
  | nil => exact ⟨object, hobject, rfl⟩
  | cons action actions ih =>
    rcases he.tidy.kept_perform hobject action with ⟨object', hobject', hkind⟩ | ⟨rfl, hnone⟩
    · have hlater : ¬ (action.perform heap).Frees actions h := by
        rintro ⟨front, behind, rfl, hfreed⟩
        exact hfrees ⟨action :: front, behind, rfl, hfreed⟩
      obtain ⟨object'', hobject'', hkind'⟩ := ih (he.perform action) hobject' hlater
      exact ⟨object'', hobject'', hkind'.trans hkind⟩
    · refine absurd ⟨[], actions, rfl, ?_, hnone⟩ hfrees
      change (heap.get? h).isSome
      rw [hobject]
      rfl

/-- **Allocation never takes a slot that is in use.** Whatever has happened to a heap, its free list holds the empty
slots and no others, a new object takes one of these and changes nothing else, and it stays, as an object of its
kind, until a sweep frees it. -/
theorem allocation_safe (actions : List Action) :
    (Heap.empty.after actions).Exact ∧
      ∀ object h heap', (Heap.empty.after actions).insert object = (h, heap') →
        Allocated (Heap.empty.after actions) object h heap' ∧
        ∀ later, ¬ heap'.Frees later h →
          ∃ object', (heap'.after later).get? h = some object' ∧ object'.kind = object.kind := by
  have he : (Heap.empty.after actions).Exact := exact_empty.after actions
  refine ⟨he, fun object h heap' hi => ⟨he.allocated hi, fun later hfrees => ?_⟩⟩
  exact (he.insert hi).kept_after (he.allocated hi).stored hfrees

/-- A slot that a sweep has emptied is taken again, and not a second time. -/
theorem freed_slot_taken_once :
    ∃ h heap', (Heap.empty.after [.allocate (.array #[]), .sweep]).insert (.record ∅) = (h, heap') ∧
      h = ⟨0⟩ ∧ ¬ heap'.Frees [.allocate (.array #[])] h ∧
      ∃ object, (heap'.after [.allocate (.array #[])]).get? h = some object ∧
        object.kind = .record := by
  have hfree : (Heap.empty.after [.allocate (.array #[]), .sweep]).free = [0] := by
    change ((Heap.empty.insert (.array #[])).2.sweep).free = [0]
    rw [free_sweep]
    simp [Heap.insert, Heap.empty, Heap.get?]
  have hfrees : ∀ heap' : Heap, ¬ heap'.Frees [.allocate (.array #[])] ⟨0⟩ := by
    rintro heap' ⟨front, behind, hactions, -⟩
    have hmem : Action.sweep ∈ [Action.allocate (.array #[])] := by
      rw [hactions]
      simp
    simp at hmem
  obtain ⟨-, hsafe⟩ := allocation_safe [.allocate (.array #[]), .sweep]
  cases hi : (Heap.empty.after [.allocate (.array #[]), .sweep]).insert (.record ∅) with
  | mk h heap' =>
    have hzero : h = ⟨0⟩ := by
      unfold Heap.insert at hi
      rw [hfree] at hi
      exact (congrArg Prod.fst hi).symm
    subst hzero
    exact ⟨_, _, rfl, rfl, hfrees heap', (hsafe _ _ _ hi).2 _ (hfrees heap')⟩

end Heap

end DeployScript
