import DeployScript.Proofs.Heap.Writes

/-!
# Heaps in which cells change

A cell may be set in one of two heaps and not in the other: what cells hold is not compared by
`Heap.Twin`, which says of a linked cell only that it is one.

* `Heap.Recells` — nothing but cells changes, and cells stay cells.
* `Twin.recell`, `Twin.link` — twins in which cells change, and in which two of them are linked.
-/

namespace DeployScript.Heap

variable {β : Link} {heap next last heap' next' : Heap} {h h' g : Handle}

/-- **Nothing but cells changes,** and cells stay cells. -/
structure Recells (heap next : Heap) : Prop where
  wf : heap.Wf → next.Wf
  get? : ∀ g, next.get? g = heap.get? g ∨
    ∃ c c', heap.get? g = some (.cell c) ∧ next.get? g = some (.cell c')

namespace Recells

theorem refl (heap : Heap) : Recells heap heap := ⟨id, fun _ => .inl rfl⟩

theorem trans (h : Recells heap next) (h' : Recells next last) : Recells heap last where
  wf hw := h'.wf (h.wf hw)
  get? g := by
    rcases h'.get? g with he' | ⟨c, c', hc, hc'⟩
    · rcases h.get? g with he | ⟨c, c', hc, hc'⟩
      · exact .inl (he'.trans he)
      · exact .inr ⟨c, c', hc, he'.trans hc'⟩
    · rcases h.get? g with he | ⟨d, d', hd, -⟩
      · exact .inr ⟨c, c', he.symm.trans hc, hc'⟩
      · exact .inr ⟨d, c', hd, hc'⟩

/-- Setting a cell changes nothing else. -/
theorem setCell (heap : Heap) (h : Handle) (c : Cell) : Recells heap (heap.setCell h c) where
  wf hw := wf_update hw _
  get? g := by
    rw [get?_setCell]
    split
    case isFalse => exact .inl rfl
    case isTrue he =>
      subst he
      cases ho : heap.get? g with
      | none => exact .inl rfl
      | some o =>
        cases o with
        | cell d => exact .inr ⟨d, c, rfl, rfl⟩
        | _ => exact .inl rfl

/-- Cells are set one after another. -/
theorem setCells (heap : Heap) (closing : List (Handle × Value)) :
    Recells heap (closing.foldl (fun heap c => heap.setCell c.1 (.closed c.2)) heap) := by
  induction closing generalizing heap with
  | nil => exact .refl heap
  | cons c closing ih => exact (setCell heap c.1 (.closed c.2)).trans (ih _)

/-- Other objects are found where they were. -/
theorem same (h : Recells heap next) {o : Object} (ho : ∀ c, o ≠ .cell c) (g : Handle) :
    next.get? g = some o ↔ heap.get? g = some o := by
  rcases h.get? g with he | ⟨c, c', hc, hc'⟩
  · rw [he]
  · rw [hc, hc']
    exact iff_of_false (fun hs => ho c' (Option.some.inj hs).symm)
      fun hs => ho c (Option.some.inj hs).symm

theorem array? (h : Recells heap next) (g : Handle) : next.array? g = heap.array? g :=
  Option.ext fun items => by rw [array?_eq, array?_eq, h.same (o := .array items) nofun]

theorem record? (h : Recells heap next) (g : Handle) : next.record? g = heap.record? g :=
  Option.ext fun fields => by rw [record?_eq, record?_eq, h.same (o := .record fields) nofun]

theorem closure? (h : Recells heap next) (g : Handle) : next.closure? g = heap.closure? g :=
  Option.ext fun c => by rw [closure?_eq, closure?_eq, h.same (o := .closure c) nofun]

theorem function? (h : Recells heap next) (g : Handle) : next.function? g = heap.function? g :=
  Option.ext fun p => by rw [function?_eq, function?_eq, h.same (o := .function p) nofun]

theorem isSome (h : Recells heap next) (g : Handle) :
    (next.get? g).isSome = (heap.get? g).isSome := by
  rcases h.get? g with he | ⟨c, c', hc, hc'⟩
  · rw [he]
  · rw [hc, hc']
    rfl

theorem functionName? (h : Recells heap next) (g : Handle) :
    next.functionName? g = heap.functionName? g :=
  functionName?_congr h.function? h.closure? g

end Recells

/-- **Twins stay twins** when cells change. -/
theorem Twin.recell (ht : Twin β heap heap') (h : Recells heap next) (h' : Recells heap' next') :
    Twin β next next' where
  wf := h.wf ht.wf
  wf' := h'.wf ht.wf'
  one := ht.one
  kind := ht.kind
  live k g g' hg := by
    rw [h.isSome, h'.isSome]
    exact ht.live k g g' hg
  array g g' hg := by
    rw [h.array?, h'.array?]
    exact ht.array g g' hg
  record g g' hg := by
    rw [h.record?, h'.record?]
    exact ht.record g g' hg
  named g g' hg := by
    rw [h.functionName?, h'.functionName?]
    exact ht.named g g' hg

/-- **Two cells are linked** that were linked to nothing. -/
theorem Twin.link (ht : Twin β heap heap') (hlive : (heap.get? h).isSome)
    (hlive' : (heap'.get? h').isSome) (hfresh : ∀ l g', ¬ β l h g') (hfresh' : ∀ l g, ¬ β l g h') :
    Twin (β.with .cell h h') heap heap' := by
  have hle := β.le_with .cell h h'
  refine ⟨ht.wf, ht.wf', ?one, ?kind, ?live, ?array, ?record, ?named⟩
  case one =>
    rintro l l' a a' b b' (hl | ⟨rfl, rfl, rfl⟩) (hl' | ⟨rfl, rfl, rfl⟩)
    · exact ht.one _ _ _ _ _ _ hl hl'
    · exact iff_of_false (fun he => hfresh _ _ (he ▸ hl)) fun he => hfresh' _ _ (he ▸ hl)
    · exact iff_of_false (fun he => hfresh _ _ (he ▸ hl')) fun he => hfresh' _ _ (he ▸ hl')
    · exact iff_of_true rfl rfl
  case kind =>
    rintro l l' a a' b' (hl | ⟨rfl, rfl, rfl⟩) (hl' | ⟨rfl, he, rfl⟩)
    · exact ht.kind _ _ _ _ _ hl hl'
    · exact absurd (he ▸ hl) (hfresh _ _)
    · exact absurd hl' (hfresh _ _)
    · rfl
  case live =>
    rintro l a a' (hl | ⟨rfl, rfl, rfl⟩)
    · exact ht.live _ _ _ hl
    · exact ⟨hlive, hlive'⟩
  case array =>
    rintro a a' (hl | ⟨hk, -, -⟩)
    · obtain ⟨items, items', hi, hi', hs⟩ := ht.array _ _ hl
      exact ⟨items, items', hi, hi', similar_mono hle hs⟩
    · cases hk
  case record =>
    rintro a a' (hl | ⟨hk, -, -⟩)
    · obtain ⟨fields, fields', hf, hf', hs⟩ := ht.record _ _ hl
      exact ⟨fields, fields', hf, hf', hs.mono fun _ _ hv => hv.mono hle⟩
    · cases hk
  case named =>
    rintro a a' ((hl | ⟨hk, -, -⟩) | (hl | ⟨hk, -, -⟩))
    · exact ht.named _ _ (.inl hl)
    · cases hk
    · exact ht.named _ _ (.inr hl)
    · cases hk

end DeployScript.Heap
