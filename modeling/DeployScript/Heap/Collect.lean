import DeployScript.Heap.Basic

/-!
# Collection

Frees the objects that nothing in use refers to. What is in use is marked, then everything it
refers to, and then each slot that is not marked becomes free, the first slot first.
-/

namespace DeployScript.Heap

/-- Notes that an object is in use. -/
def mark (heap : Heap) (h : Handle) : Heap :=
  if heap.marked.contains h.index then heap
  else
    match heap.get? h with
    | none => heap
    | some _ =>
      { heap with marked := heap.marked.insert h.index, pending := h :: heap.pending }

/-- Notes that objects are in use. -/
def markAll (heap : Heap) (handles : List Handle) : Heap := handles.foldl mark heap

/-- Follows the references of the objects that are pending, at most `fuel` of them. -/
def traceFrom : (fuel : Nat) → Heap → Heap
  | 0, heap => heap
  | fuel + 1, heap =>
    match heap.pending with
    | [] => heap
    | h :: pending =>
      let handles := ((heap.get? h).map Object.handles).getD []
      traceFrom fuel ({ heap with pending }.markAll handles)

/-- Marks all that marked objects refer to. An object is pending at most once more than it is
now, since only an object that is not marked becomes pending. -/
def trace (heap : Heap) : Heap :=
  heap.traceFrom (heap.pending.length + heap.slots.size)

/-- Frees the slots that are not marked, and forgets the marks. -/
def sweep (heap : Heap) : Heap :=
  let (slots, free) := Nat.fold heap.slots.size
    (fun index _ (slots, free) =>
      if heap.marked.contains index then (slots, free)
      else
        match (slots[index]?).join with
        | none => (slots, free)
        | some _ => (slots.setIfInBounds index none, index :: free))
    (heap.slots, heap.free)
  { heap with slots, free, marked := {} }

end DeployScript.Heap
