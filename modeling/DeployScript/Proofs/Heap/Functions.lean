import DeployScript.Heap.Exchange
import DeployScript.Proofs.Heap.Collect

/-!
# The functions of a heap

A function comes onto a heap when a script is stored or started. Nothing that a script does makes
another one or changes one that is there.

* `Heap.code` — the functions of a heap.
* `code_insert`, `code_update` — the two ways in which a heap changes.
* `code_perform`, `code_ofHost`, `code_collect` and the like — what brings no function.
* `code_install` — the functions of a script.
-/

namespace DeployScript.Heap

/-- **The functions of a heap,** in use or not. -/
def code (heap : Heap) : Set (Prototype Value) := {p | ∃ h, heap.function? h = some p}

variable {heap : Heap} {p : Prototype Value}

theorem mem_code : p ∈ heap.code ↔ ∃ h, heap.get? h = some (.function p) :=
  exists_congr fun _ => function?_eq

theorem code_empty : Heap.empty.code = ∅ := by
  refine Set.eq_empty_of_forall_notMem fun p hp => ?_
  obtain ⟨h, hh⟩ := mem_code.1 hp
  rw [get?_empty] at hh
  cases hh

/-! ### Changes -/

/-- **A new object** is a function itself, or brings none. -/
theorem code_insert {object : Object} (hp : p ∈ (heap.insert object).2.code) :
    object = .function p ∨ p ∈ heap.code := by
  obtain ⟨h, hh⟩ := mem_code.1 hp
  exact (get?_insert_or hh).imp Eq.symm fun hold => mem_code.2 ⟨h, hold⟩

theorem code_insert_subset {object : Object} (ho : ∀ p, object ≠ .function p) :
    (heap.insert object).2.code ⊆ heap.code :=
  fun p hp => (code_insert hp).resolve_left (ho p)

/-- **A change** that makes no function brings none. -/
theorem code_update (h : Handle) {f : Object → Object} (hf : ∀ o p, f o = .function p → o = .function p) :
    (heap.update h f).code ⊆ heap.code := by
  intro p hp
  obtain ⟨k, hk⟩ := mem_code.1 hp
  rw [get?_update] at hk
  split at hk
  · obtain ⟨o, ho, hfo⟩ := Option.map_eq_some_iff.1 hk
    exact mem_code.2 ⟨h, hf o p hfo ▸ ho⟩
  · exact mem_code.2 ⟨k, hk⟩

theorem code_push (h : Handle) (v : Value) : (heap.push h v).code ⊆ heap.code :=
  code_update h fun o p ho => by
    cases o with
    | array items => cases ho
    | _ => exact ho

theorem code_setItem (h : Handle) (index : Nat) (v : Value) : (heap.setItem h index v).code ⊆ heap.code :=
  code_update h fun o p ho => by
    cases o with
    | array items => cases ho
    | _ => exact ho

theorem code_setField (h : Handle) (key : String) (v : Value) :
    (heap.setField h key v).code ⊆ heap.code :=
  code_update h fun o p ho => by
    cases o with
    | record fields => cases ho
    | _ => exact ho

theorem code_setCell (h : Handle) (cell : Cell) : (heap.setCell h cell).code ⊆ heap.code :=
  code_update h fun o p ho => by
    cases o with
    | cell c => cases ho
    | _ => exact ho

/-- Cells that get values one after another. -/
theorem code_setCells (cells : List (Handle × Value)) (heap : Heap) :
    (cells.foldl (fun heap c => heap.setCell c.1 (.closed c.2)) heap).code ⊆ heap.code := by
  induction cells generalizing heap with
  | nil => exact subset_rfl
  | cons c cells ih => exact (ih _).trans (code_setCell c.1 _)

theorem code_newArray (items : Array Value) : (heap.newArray items).2.code ⊆ heap.code :=
  code_insert_subset nofun

theorem code_newRecord (fields : Fields) : (heap.newRecord fields).2.code ⊆ heap.code :=
  code_insert_subset nofun

theorem code_store (target : Target) (v : Value) : (heap.store target v).code ⊆ heap.code := by
  cases target with
  | item h index => exact code_setItem h index v
  | append h => exact code_push h v
  | field h key => exact code_setField h key v

/-- **Functions of the language** make no functions. -/
theorem code_perform (effect : Effect) : (heap.perform effect).2.code ⊆ heap.code := by
  cases effect with
  | give v => exact subset_rfl
  | make items => exact code_newArray items
  | append h v => exact code_push h v

mutual

/-- **What comes from the host** is no function, and neither is any part of it. -/
theorem code_ofHost (v : HostValue) (heap : Heap) : (ofHost v heap).2.code ⊆ heap.code := by
  cases v with
  | bytes bs =>
    unfold ofHost
    exact code_newArray _
  | list items =>
    unfold ofHost
    exact (code_newArray _).trans (code_ofHostItems items #[] heap)
  | record fields =>
    unfold ofHost
    exact (code_newRecord _).trans (code_ofHostFields fields {} heap)
  | _ =>
    unfold ofHost
    exact subset_rfl

theorem code_ofHostItems (items : List HostValue) (stored : Array Value) (heap : Heap) :
    (ofHostItems items stored heap).2.code ⊆ heap.code := by
  cases items with
  | nil =>
    unfold ofHostItems
    exact subset_rfl
  | cons item items =>
    unfold ofHostItems
    exact (code_ofHostItems items _ _).trans (code_ofHost item heap)

theorem code_ofHostFields (fields : List (String × HostValue)) (stored : Fields) (heap : Heap) :
    (ofHostFields fields stored heap).2.code ⊆ heap.code := by
  cases fields with
  | nil =>
    unfold ofHostFields
    exact subset_rfl
  | cons field fields =>
    unfold ofHostFields
    exact (code_ofHostFields fields _ _).trans (code_ofHost field.2 heap)

end

/-! ### Scripts and collections -/

/-- **A script that is stored** brings its own functions, with values for their constants. -/
theorem code_install {c : Compiled} (hp : p ∈ (heap.install c).2.code) : p ∈ heap.code ∨
    ∃ q ∈ c.functions, ∃ handles, p.chunk = q.chunk.mapConstants (literalValue handles) := by
  unfold install at hp
  simp only [← Array.foldl_toList] at hp
  have hall : ∀ (functions : List (Prototype Literal)) (handles : Array Handle) (heap : Heap),
      p ∈ (functions.foldl (fun (state : Array Handle × Heap) q =>
        let stored := state.2.insert (.function { q with chunk := q.chunk.mapConstants (literalValue state.1) })
        (state.1.push stored.1, stored.2)) (handles, heap)).2.code →
      p ∈ heap.code ∨
        ∃ q ∈ functions, ∃ handles, p.chunk = q.chunk.mapConstants (literalValue handles) := by
    intro functions
    induction functions with
    | nil => exact fun _ _ hp => .inl hp
    | cons q functions ih =>
      intro handles heap hp
      obtain hp | ⟨q', hq', hchunk⟩ := ih _ _ hp
      · obtain hnew | hold := code_insert hp
        · cases hnew
          exact .inr ⟨q, List.mem_cons_self, handles, rfl⟩
        · exact .inl hold
      · exact .inr ⟨q', List.mem_cons_of_mem _ hq', hchunk⟩
  obtain hold | ⟨q, hq, hchunk⟩ := hall _ _ _ hp
  · exact .inl hold
  · exact .inr ⟨q, Array.mem_toList_iff.1 hq, hchunk⟩

/-- **A collection** brings nothing. -/
theorem code_collect (roots : List Handle) : ((heap.markAll roots).trace.sweep).code ⊆ heap.code := by
  intro p hp
  obtain ⟨h, hh⟩ := mem_code.1 hp
  refine mem_code.2 ⟨h, ?_⟩
  rw [get?_sweep] at hh
  split at hh
  case isTrue => rwa [get?, trace, (rows_traceFrom _ _).1, (rows_markAll _ _).1] at hh
  case isFalse => cases hh

end DeployScript.Heap
