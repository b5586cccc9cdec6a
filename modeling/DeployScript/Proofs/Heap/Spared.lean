import DeployScript.Heap.Exchange
import DeployScript.Heap.Intrinsic
import DeployScript.Proofs.Heap.Objects
import DeployScript.Proofs.Heap.Writes

/-!
# What spares closures and their variables

A cell that is closed is no slot of a stack any more: it is an object of its own, and the closures that have
captured the variable refer to it. What a machine does to its heap leaves these two kinds of objects alone
but for assignments to captured variables, and gives no such cell to a new closure unless the closure is made in
a call that has it. An array may get other elements, and stays an array.

* `Assignment.latest` — the value of a cell behind assignments.
* `Heap.Spares` — closures and closed cells stay; new closures have closed cells of `own` only; arrays stay arrays.
* `Spares.insert`, `Spares.update` — the two ways in which a heap changes.
* `spares_store`, `spares_perform`, `spares_ofHost`, `spares_install` and the like — operations.
* `Spares.setCells` — open cells that are closed.
-/

namespace DeployScript

/-- **An assignment** of a value to a cell. -/
abbrev Assignment := Handle × Value

/-- The value of a cell behind assignments: the last of them counts. -/
def Assignment.latest (as : List Assignment) (h : Handle) (v : Value) : Value :=
  as.foldl (fun v a => if a.1 = h then a.2 else v) v

theorem Assignment.latest_append (as as' : List Assignment) (h : Handle) (v : Value) :
    latest (as ++ as') h v = latest as' h (latest as h v) :=
  List.foldl_append

namespace Heap

/-- **What spares closures and closed cells:** all that there are stay as they are, but for assignments. The
closed cells that a new closure has are among `own`. What is an array stays one. -/
structure Spares (own : Set Handle) (as : List Assignment) (heap heap' : Heap) : Prop where
  wf : heap'.Wf
  closure : ∀ g d, heap.closure? g = some d → heap'.closure? g = some d
  closed : ∀ h v, heap.cell? h = some (.closed v) → heap'.cell? h = some (.closed (Assignment.latest as h v))
  made : ∀ g d, heap'.closure? g = some d → heap.closure? g = some d ∨
    ∀ h ∈ d.cells, ∀ v, heap.cell? h = some (.closed v) → h ∈ own
  array : ∀ g, (heap.array? g).isSome → (heap'.array? g).isSome

variable {own : Set Handle} {as as' : List Assignment} {heap heap' heap'' : Heap} {h : Handle} {object : Object}

/-- Where all objects stay as they are, arrays stay arrays. -/
theorem Kept.array (hk : heap.Kept heap') (hi : (heap.array? h).isSome) : (heap'.array? h).isSome := by
  obtain ⟨items, hitems⟩ := Option.isSome_iff_exists.1 hi
  rw [array?_eq.2 (hk h _ (array?_eq.1 hitems))]
  rfl

namespace Spares

theorem refl (hw : heap.Wf) : heap.Spares own [] heap :=
  ⟨hw, fun _ _ hd => hd, fun _ _ hv => hv, fun _ _ hd => .inl hd, fun _ hi => hi⟩

theorem trans (hs : heap.Spares own as heap') (hs' : heap'.Spares own as' heap'') :
    heap.Spares own (as ++ as') heap'' where
  wf := hs'.wf
  closure g d hd := hs'.closure g d (hs.closure g d hd)
  closed h v hv := by
    rw [Assignment.latest_append]
    exact hs'.closed h _ (hs.closed h v hv)
  made g d hd := by
    obtain hold | hnew := hs'.made g d hd
    · exact hs.made g d hold
    · exact .inr fun h hh v hv => hnew h hh _ (hs.closed h v hv)
  array g hi := hs'.array g (hs.array g hi)

/-- **A new object.** If it is a closure, then its closed cells have to be among `own`. -/
theorem insert (hw : heap.Wf) (object : Object)
    (hown : ∀ d, object = .closure d → ∀ h ∈ d.cells, ∀ v, heap.cell? h = some (.closed v) → h ∈ own) :
    heap.Spares own [] (heap.insert object).2 := by
  cases hi : heap.insert object with
  | mk h next =>
  obtain ⟨-, hw', hget⟩ := get?_insert hw hi
  have hkept := kept_insert hw hi
  refine ⟨hw', fun g d hd => closure?_eq.2 (hkept g _ (closure?_eq.1 hd)),
    fun h v hv => cell?_eq.2 (hkept h _ (cell?_eq.1 hv)), fun g d hd => ?_, fun g hi => ?_⟩
  · have hg := closure?_eq.1 hd
    rw [hget] at hg
    split at hg
    case isTrue => exact .inr (hown d (Option.some.inj hg))
    case isFalse => exact .inl (closure?_eq.2 hg)
  · exact hkept.array hi

/-- A new object that is no closure with cells. -/
theorem insert_plain (hw : heap.Wf) (object : Object) (hplain : ∀ d, object = .closure d → d.cells = #[]) :
    heap.Spares own [] (heap.insert object).2 :=
  .insert hw object fun d hd h hh => by
    rw [hplain d hd] at hh
    simp at hh

/-- **A change of data.** -/
theorem update (hw : heap.Wf) (h : Handle) {f : Object → Object}
    (hclosure : ∀ o d, f o = .closure d ↔ o = .closure d)
    (hcell : ∀ v, f (.cell (.closed v)) = .cell (.closed v))
    (harray : ∀ items, ∃ items', f (.array items) = .array items') :
    heap.Spares own [] (heap.update h f) := by
  have hget : ∀ k, (heap.update h f).get? k = if k = h then (heap.get? h).map f else heap.get? k := get?_update f
  have hiff : ∀ g d, (heap.update h f).closure? g = some d ↔ heap.closure? g = some d := by
    intro g d
    rw [closure?_eq, closure?_eq, hget]
    split
    case isTrue he =>
      rw [he, Option.map_eq_some_iff]
      exact ⟨fun ⟨o, ho, hd⟩ => by rw [ho, (hclosure o d).1 hd], fun hd => ⟨_, hd, (hclosure _ d).2 rfl⟩⟩
    case isFalse => rfl
  refine ⟨wf_update hw f, fun g d => (hiff g d).2, fun k v hv => ?_, fun g d hd => .inl ((hiff g d).1 hd),
    fun g hi => ?_⟩
  · rw [cell?_eq] at hv ⊢
    rw [hget]
    split
    case isTrue he =>
      rw [← he, hv, Option.map_some, hcell]
      rfl
    case isFalse => exact hv
  · obtain ⟨items, hitems⟩ := Option.isSome_iff_exists.1 hi
    rw [array?_eq] at hitems
    obtain ⟨items', hitems'⟩ := harray items
    by_cases he : g = h
    · have harray' : (heap.update h f).array? g = some items' := by
        rw [array?_eq, hget, if_pos he, ← he, hitems, Option.map_some, hitems']
      rw [harray']
      rfl
    · have harray' : (heap.update h f).array? g = some items := by
        rw [array?_eq, hget, if_neg he, hitems]
      rw [harray']
      rfl

end Spares

/-! ### Data -/

theorem spares_push (hw : heap.Wf) (h : Handle) (v : Value) : heap.Spares own [] (heap.push h v) := by
  refine .update hw h (fun o d => ?_) (fun _ => rfl) fun _ => ⟨_, rfl⟩
  cases o <;> simp

theorem spares_setItem (hw : heap.Wf) (h : Handle) (index : Nat) (v : Value) :
    heap.Spares own [] (heap.setItem h index v) := by
  refine .update hw h (fun o d => ?_) (fun _ => rfl) fun _ => ⟨_, rfl⟩
  cases o <;> simp

theorem spares_setField (hw : heap.Wf) (h : Handle) (key : String) (v : Value) :
    heap.Spares own [] (heap.setField h key v) := by
  refine .update hw h (fun o d => ?_) (fun _ => rfl) fun _ => ⟨_, rfl⟩
  cases o <;> simp

theorem spares_store (hw : heap.Wf) (target : Target) (v : Value) : heap.Spares own [] (heap.store target v) := by
  cases target with
  | item h index => exact spares_setItem hw h index v
  | append h => exact spares_push hw h v
  | field h key => exact spares_setField hw h key v

theorem spares_newArray (hw : heap.Wf) (items : Array Value) : heap.Spares own [] (heap.newArray items).2 :=
  .insert_plain hw _ nofun

theorem spares_newRecord (hw : heap.Wf) (fields : Fields) : heap.Spares own [] (heap.newRecord fields).2 :=
  .insert_plain hw _ nofun

theorem spares_perform (hw : heap.Wf) (effect : Effect) : heap.Spares own [] (heap.perform effect).2 := by
  cases effect with
  | give v => exact .refl hw
  | make items => exact spares_newArray hw items
  | append h v => exact spares_push hw h v

mutual

/-- **What comes from the host** is data. -/
theorem spares_ofHost {heap : Heap} (hw : heap.Wf) (v : HostValue) : heap.Spares own [] (ofHost v heap).2 := by
  cases v with
  | bytes bs =>
    unfold ofHost
    exact spares_newArray hw _
  | list items =>
    unfold ofHost
    have hitems : heap.Spares own [] _ := spares_ofHostItems hw items #[]
    exact hitems.trans (spares_newArray hitems.wf _)
  | record fields =>
    unfold ofHost
    have hfields : heap.Spares own [] _ := spares_ofHostFields hw fields {}
    exact hfields.trans (spares_newRecord hfields.wf _)
  | _ =>
    unfold ofHost
    exact .refl hw

theorem spares_ofHostItems {heap : Heap} (hw : heap.Wf) (items : List HostValue) (stored : Array Value) :
    heap.Spares own [] (ofHostItems items stored heap).2 := by
  cases items with
  | nil =>
    unfold ofHostItems
    exact .refl hw
  | cons item items =>
    unfold ofHostItems
    have hitem : heap.Spares own [] _ := spares_ofHost hw item
    exact hitem.trans (spares_ofHostItems hitem.wf items _)

theorem spares_ofHostFields {heap : Heap} (hw : heap.Wf) (fields : List (String × HostValue)) (stored : Fields) :
    heap.Spares own [] (ofHostFields fields stored heap).2 := by
  cases fields with
  | nil =>
    unfold ofHostFields
    exact .refl hw
  | cons field fields =>
    unfold ofHostFields
    have hfield : heap.Spares own [] _ := spares_ofHost hw field.2
    exact hfield.trans (spares_ofHostFields hfield.wf fields _)

end

/-! ### Scripts and cells -/

/-- **A script that is stored** brings functions, and no closures. -/
theorem spares_install (hw : heap.Wf) (c : Compiled) : heap.Spares own [] (heap.install c).2 := by
  refine Array.foldl_induction (fun _ (stored : Array Handle × Heap) => heap.Spares own [] stored.2) (.refl hw) ?_
  rintro i ⟨handles, next⟩ hnext
  exact hnext.trans (.insert_plain hnext.wf _ nofun)

theorem array?_setCell (heap : Heap) (h : Handle) (c : Cell) (g : Handle) :
    (heap.setCell h c).array? g = heap.array? g := by
  refine Option.ext fun items => ?_
  rw [array?_eq, array?_eq, get?_setCell]
  split
  case isTrue he =>
    rw [he]
    cases heap.get? h with
    | none => simp
    | some o => cases o <;> simp
  case isFalse => rfl

theorem closure?_setCell (heap : Heap) (h : Handle) (c : Cell) (g : Handle) :
    (heap.setCell h c).closure? g = heap.closure? g := by
  refine Option.ext fun d => ?_
  rw [closure?_eq, closure?_eq, get?_setCell]
  split
  case isTrue he =>
    rw [he]
    cases heap.get? h with
    | none => simp
    | some o => cases o <;> simp
  case isFalse => rfl

/-- **A captured variable is assigned** that is no slot of the stack. -/
theorem Spares.assign (hw : heap.Wf) {old : Value} (hclosed : heap.cell? h = some (.closed old)) (v : Value) :
    heap.Spares own [(h, v)] (heap.setCell h (.closed v)) := by
  refine ⟨wf_update hw _, fun g d hd => (closure?_setCell heap h _ g).trans hd, fun k w hk => ?_,
    fun g d hd => .inl ((closure?_setCell heap h _ g).symm.trans hd),
    fun g hi => (congrArg Option.isSome (array?_setCell heap h _ g)).trans hi⟩
  rw [cell?_setCell (cell?_eq.1 hclosed)]
  by_cases he : k = h
  · subst he
    simp [Assignment.latest]
  · rw [if_neg he, hk]
    simp [Assignment.latest, Ne.symm he]

/-- An assignment to a variable that is a slot of the stack leaves the heap as it is. -/
theorem Spares.assign_open (hw : heap.Wf) (hopen : ∀ v, heap.cell? h ≠ some (.closed v)) (v : Value) :
    heap.Spares own [(h, v)] heap := by
  refine ⟨hw, fun _ _ hd => hd, fun k w hk => ?_, fun _ _ hd => .inl hd, fun _ hi => hi⟩
  have hne : h ≠ k := fun he => hopen w (he ▸ hk)
  simp [Assignment.latest, hne, hk]

/-- **A cell is set** that was not closed at the beginning. -/
theorem Spares.setCell (hs : heap.Spares own [] heap') (hopen : ∀ v, heap.cell? h ≠ some (.closed v))
    (c : Cell) :
    heap.Spares own [] (heap'.setCell h c) := by
  refine ⟨wf_update hs.wf _, fun g d hd => (closure?_setCell heap' h c g).trans (hs.closure g d hd),
    fun k v hv => ?_, fun g d hd => hs.made g d ((closure?_setCell heap' h c g).symm.trans hd),
    fun g hi => (congrArg Option.isSome (array?_setCell heap' h c g)).trans (hs.array g hi)⟩
  have hne : k ≠ h := fun he => hopen v (he ▸ hv)
  have hkept := cell?_eq.1 (hs.closed k v hv)
  rw [cell?_eq, get?_setCell, if_neg hne, hkept]

/-- **Open cells that are closed,** one after another. -/
theorem Spares.setCells (hs : heap.Spares own [] heap') {cells : List (Handle × Value)}
    (hopen : ∀ c ∈ cells, ∀ v, heap.cell? c.1 ≠ some (.closed v)) :
    heap.Spares own [] (cells.foldl (fun heap c => heap.setCell c.1 (.closed c.2)) heap') := by
  induction cells generalizing heap' with
  | nil => exact hs
  | cons c cells ih =>
    rw [List.forall_mem_cons] at hopen
    exact ih (hs.setCell hopen.1 _) hopen.2

end Heap

end DeployScript
