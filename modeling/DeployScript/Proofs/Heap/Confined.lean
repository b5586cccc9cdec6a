import Mathlib
import DeployScript.Heap.Collect
import DeployScript.Heap.Intrinsic
import DeployScript.Heap.Operator
import DeployScript.Proofs.Heap.Collect
import DeployScript.Proofs.Heap.Twin

/-!
# Where builtins are

A script gets at a builtin only through a value that is one. Nothing that a heap does makes such a
value: what it reads, it was given, and what comes from the host arrives without functions.

* `Value.Within`, `Heap.Within` — all builtins are among given ones, in whatever object they are.
* `Heap.Within.insert`, `update` — the two ways in which a heap changes.
* `Heap.Within.index`, `binary`, `perform` and the like — what is computed from such values.
* `Heap.Within.ofHost`, `install`, `collect` — imports, scripts and collections.
-/

namespace DeployScript

variable {A : Set String}

/-- A value that is no builtin but one of `A`. -/
def Value.Within (A : Set String) : Value → Prop
  | .builtin name => name ∈ A
  | _ => True

/-- The values that an object holds. -/
def Object.values : Object → List Value
  | .function p => p.chunk.constants.toList
  | .array items => items.toList
  | .record fields => fields.values
  | .closure _ => []
  | .cell (.closed value) => [value]
  | .cell (.opened _) => []

/-- An object with no builtin but those of `A`. -/
def Object.Within (A : Set String) (o : Object) : Prop := ∀ v ∈ o.values, v.Within A

/-- Fields with no builtin but those of `A`. -/
def Fields.Within (A : Set String) (fields : Fields) : Prop :=
  ∀ (key : String) (v : Value), fields[key]? = some v → v.Within A

/-- Code with no builtin but those of `A`. -/
def Chunk.Within (A : Set String) (c : Chunk Value) : Prop := ∀ v ∈ c.constants, v.Within A

/-- **A heap with no builtin** but those of `A`, in use or not. -/
def Heap.Within (A : Set String) (heap : Heap) : Prop :=
  ∀ (h : Handle) (o : Object), heap.get? h = some o → o.Within A

/-- A result with no builtin but those of `A`. -/
def Value.Yields (A : Set String) (result : Except Cause Value) : Prop :=
  ∀ v, result = .ok v → v.Within A

theorem Value.Yields.ok {v : Value} (hv : v.Within A) : Value.Yields A (.ok v) := by
  rintro _ ⟨⟩
  exact hv

theorem Value.Yields.error {cause : Cause} : Value.Yields A (.error cause) := by
  rintro _ ⟨⟩

theorem Value.within_getD {v? : Option Value} (h : ∀ v, v? = some v → v.Within A) :
    (v?.getD .nil).Within A := by
  cases v? with
  | none => trivial
  | some v => exact h v rfl

namespace Object

theorem within_array {items : Array Value} :
    (Object.array items).Within A ↔ ∀ v ∈ items, v.Within A := by
  simp only [Within, values, Array.mem_toList_iff]

theorem within_record {fields : Fields} :
    (Object.record fields).Within A ↔ Fields.Within A fields := by
  simp only [Within, values, mem_values]
  exact ⟨fun h key v hv => h v ⟨key, hv⟩, fun h v ⟨key, hv⟩ => h key v hv⟩

theorem within_function {p : Prototype Value} :
    (Object.function p).Within A ↔ p.chunk.Within A := by
  simp only [Within, values, Array.mem_toList_iff, Chunk.Within]

theorem within_closure (c : Closure) : (Object.closure c).Within A := by
  intro v hv
  cases hv

theorem within_cell {v : Value} : (Object.cell (.closed v)).Within A ↔ v.Within A := by
  simp only [Within, values, List.mem_singleton, forall_eq]

theorem within_opened (slot : Nat) : (Object.cell (.opened slot)).Within A := by
  intro v hv
  cases hv

end Object

namespace Heap.Within

variable {heap : Heap} {h : Handle} {v w : Value}

theorem empty : Heap.empty.Within A := by
  intro h o ho
  rw [Heap.get?_empty] at ho
  cases ho

/-! ### Changes -/

/-- **A new object** brings what it holds. -/
theorem insert (hh : heap.Within A) {object : Object} (ho : object.Within A) :
    (heap.insert object).2.Within A := by
  intro k o hk
  obtain rfl | hk := Heap.get?_insert_or hk
  · exact ho
  · exact hh k o hk

/-- **A changed object** holds what the change leaves in it. -/
theorem update (hh : heap.Within A) {f : Object → Object}
    (hf : ∀ o, o.Within A → (f o).Within A) : (heap.update h f).Within A := by
  intro k o hk
  rw [Heap.get?_update] at hk
  split at hk
  · obtain ⟨o', ho', rfl⟩ := Option.map_eq_some_iff.1 hk
    exact hf o' (hh h o' ho')
  · exact hh k o hk

theorem push (hh : heap.Within A) (hv : v.Within A) : (heap.push h v).Within A := by
  refine hh.update fun o ho => ?_
  split
  · rw [Object.within_array] at ho ⊢
    intro w hw
    rcases Array.mem_push.1 hw with hw | rfl
    · exact ho w hw
    · exact hv
  · exact ho

theorem setItem (hh : heap.Within A) (index : Nat) (hv : v.Within A) :
    (heap.setItem h index v).Within A := by
  refine hh.update fun o ho => ?_
  split
  · rw [Object.within_array] at ho ⊢
    intro w hw
    rcases Array.mem_or_eq_of_mem_setIfInBounds hw with hw | rfl
    · exact ho w hw
    · exact hv
  · exact ho

theorem insertField {fields : Fields} (hf : Fields.Within A fields) (key : String)
    (hv : v.Within A) : Fields.Within A (fields.insert key v) := by
  intro k w hw
  rw [Std.TreeMap.getElem?_insert] at hw
  split at hw
  · cases hw
    exact hv
  · exact hf k w hw

theorem setField (hh : heap.Within A) (key : String) (hv : v.Within A) :
    (heap.setField h key v).Within A := by
  refine hh.update fun o ho => ?_
  split
  · rw [Object.within_record] at ho ⊢
    exact insertField ho key hv
  · exact ho

theorem setCell (hh : heap.Within A) (hv : v.Within A) :
    (heap.setCell h (.closed v)).Within A := by
  refine hh.update fun o ho => ?_
  split
  · exact Object.within_cell.2 hv
  · exact ho

theorem newArray (hh : heap.Within A) {items : Array Value} (hi : ∀ v ∈ items, v.Within A) :
    (heap.newArray items).1.Within A ∧ (heap.newArray items).2.Within A :=
  ⟨trivial, hh.insert (Object.within_array.2 hi)⟩

theorem newRecord (hh : heap.Within A) {fields : Fields}
    (hf : Fields.Within A fields) :
    (heap.newRecord fields).1.Within A ∧ (heap.newRecord fields).2.Within A :=
  ⟨trivial, hh.insert (Object.within_record.2 hf)⟩

theorem store (hh : heap.Within A) (target : Heap.Target) (hv : v.Within A) :
    (heap.store target v).Within A := by
  cases target with
  | item h index => exact hh.setItem index hv
  | append h => exact hh.push hv
  | field h key => exact hh.setField key hv

/-! ### Reading -/

theorem array? (hh : heap.Within A) {items : Array Value} (hi : heap.array? h = some items) :
    ∀ v ∈ items, v.Within A :=
  Object.within_array.1 (hh _ _ (Heap.array?_eq.1 hi))

theorem record? (hh : heap.Within A) {fields : Fields} (hf : heap.record? h = some fields) :
    Fields.Within A fields :=
  Object.within_record.1 (hh _ _ (Heap.record?_eq.1 hf))

theorem function? (hh : heap.Within A) {p : Prototype Value} (hp : heap.function? h = some p) :
    p.chunk.Within A :=
  Object.within_function.1 (hh _ _ (Heap.function?_eq.1 hp))

theorem cell? (hh : heap.Within A) (hc : heap.cell? h = some (.closed v)) : v.Within A :=
  Object.within_cell.1 (hh _ _ (Heap.cell?_eq.1 hc))

/-- A field that is read was in the record. -/
theorem field (hh : heap.Within A) (h : Handle) (key : String) :
    (((heap.record? h).bind (·[key]?)).getD .nil).Within A := by
  refine Value.within_getD fun v hv => ?_
  obtain ⟨fields, hf, hv⟩ := Option.bind_eq_some_iff.1 hv
  exact hh.record? hf key v hv

theorem index (hh : heap.Within A) (container key : Value) :
    Value.Yields A (heap.index container key) := by
  unfold Heap.index
  split
  · refine .ok (Value.within_getD fun v hv => ?_)
    obtain ⟨i, -, hv⟩ := Option.bind_eq_some_iff.1 hv
    obtain ⟨items, hi, hv⟩ := Option.bind_eq_some_iff.1 hv
    exact hh.array? hi v (Array.mem_of_getElem? hv)
  · refine .ok (Value.within_getD fun v hv => ?_)
    obtain ⟨i, -, hv⟩ := Option.bind_eq_some_iff.1 hv
    obtain ⟨c, -, rfl⟩ := Option.map_eq_some_iff.1 hv
    trivial
  · exact .ok (hh.field _ _)
  all_goals exact .error

theorem property (hh : heap.Within A) (name : String) (v : Value) :
    Value.Yields A (heap.property name v) := by
  unfold Heap.property
  split
  · exact .ok (hh.field _ _)
  · split <;> first | exact .ok trivial | exact .error
  · split <;> first | exact .ok trivial | exact .error
  · exact .error

/-! ### Operators and intrinsic functions -/

/-- An operator never yields a builtin. -/
theorem binary (heap : Heap) (op : BinaryOp) (a b : Value) :
    Value.Yields A (heap.binary op a b) := by
  have hordered : ∀ byNumber byText, Value.Yields A (Heap.ordered byNumber byText a b) := by
    intro byNumber byText
    unfold Heap.ordered
    split <;> first | exact .ok trivial | exact .error
  have hrepeat : ∀ s n, Value.Yields A (repeatText s n) := by
    intro s n
    unfold repeatText
    split
    · exact .error
    · split <;> first | exact .ok trivial | exact .error
  unfold Heap.binary
  split
  case h_7 =>
    split
    · exact hrepeat _ _
    · exact .error
  case h_8 => split <;> first | exact .ok trivial | exact .error
  all_goals first | exact .ok trivial | exact .error | exact hordered _ _

theorem unary (op : UnaryOp) (v : Value) : Value.Yields A (Heap.unary op v) := by
  unfold Heap.unary
  split <;> first | exact .ok trivial | exact .error

end Heap.Within

/-- What an intrinsic function does with no builtin but those of `A`. -/
def Effect.Within (A : Set String) : Effect → Prop
  | .give v => v.Within A
  | .make items => ∀ v ∈ items, v.Within A
  | .append _ v => v.Within A

namespace Heap.Within

variable {heap : Heap}

theorem rangeEffect {start stop : Float} {effect : Effect}
    (he : Intrinsic.rangeEffect start stop = .ok effect) : effect.Within A := by
  unfold Intrinsic.rangeEffect at he
  dsimp only at he
  split at he
  · cases he
  · cases he
    intro v hv
    obtain ⟨i, -, rfl⟩ := Array.mem_map.1 hv
    trivial

/-- **An intrinsic function** passes on no builtin but an argument. -/
theorem effect? {f : Intrinsic} {args : List Value} (hargs : ∀ v ∈ args, v.Within A)
    {effect : Effect} (he : f.effect? heap args = .ok effect) : effect.Within A := by
  cases f with
  | push =>
    -- What is appended is the second argument.
    simp only [Intrinsic.effect?] at he
    split at he
    · split at he
      · cases he
        refine Value.within_getD fun v hv => hargs v ?_
        exact List.mem_of_getElem? hv
      · cases he
    · cases he
  | keys =>
    simp only [Intrinsic.effect?] at he
    split at he
    · cases he
      intro v hv
      obtain ⟨key, -, rfl⟩ := List.mem_map.1 (List.mem_toArray.1 hv)
      trivial
    · cases he
  | range =>
    unfold Intrinsic.effect? at he
    split at he <;> first | contradiction | exact rangeEffect he
  | num =>
    simp only [Intrinsic.effect?] at he
    split at he
    · cases he
      trivial
    · split at he <;> cases he
      trivial
    · cases he
      trivial
    · cases he
  | len =>
    simp only [Intrinsic.effect?] at he
    split at he <;> cases he
    trivial
  | str =>
    cases he
    trivial
  | type_ =>
    cases he
    trivial
  | assert =>
    cases args with
    | nil => cases he
    | cons condition rest =>
      simp only [Intrinsic.effect?] at he
      split at he
      · cases he
        trivial
      · split at he <;> cases he

theorem perform (hh : heap.Within A) {effect : Effect} (he : effect.Within A) :
    (heap.perform effect).1.Within A ∧ (heap.perform effect).2.Within A := by
  cases effect with
  | give v => exact ⟨he, hh⟩
  | make items => exact hh.newArray he
  | append h v => exact ⟨trivial, hh.push he⟩

/-! ### Imports -/

mutual

/-- **What comes from the host** is no builtin, and neither is any part of it. -/
theorem ofHost {heap : Heap} (hh : heap.Within A) (v : HostValue) :
    (Heap.ofHost v heap).1.Within A ∧ (Heap.ofHost v heap).2.Within A := by
  cases v with
  | bytes bs =>
    unfold Heap.ofHost
    refine hh.newArray fun v hv => ?_
    obtain ⟨b, -, rfl⟩ := List.mem_map.1 (List.mem_toArray.1 hv)
    trivial
  | list items =>
    unfold Heap.ofHost
    have hstored := ofHostItems hh items #[] fun v hv => (Array.not_mem_empty v hv).elim
    exact hstored.2.newArray hstored.1
  | record fields =>
    unfold Heap.ofHost
    have hstored := ofHostFields hh fields {} fun key v hv => by simp at hv
    exact hstored.2.newRecord hstored.1
  | _ =>
    unfold Heap.ofHost
    exact ⟨trivial, hh⟩

theorem ofHostItems {heap : Heap} (hh : heap.Within A) (items : List HostValue) (stored : Array Value)
    (hs : ∀ v ∈ stored, v.Within A) :
    (∀ v ∈ (Heap.ofHostItems items stored heap).1, v.Within A) ∧
      (Heap.ofHostItems items stored heap).2.Within A := by
  cases items with
  | nil =>
    unfold Heap.ofHostItems
    exact ⟨hs, hh⟩
  | cons item items =>
    obtain ⟨hv, hh'⟩ := ofHost hh item
    unfold Heap.ofHostItems
    refine ofHostItems hh' items _ fun w hw => ?_
    rcases Array.mem_push.1 hw with hw | rfl
    · exact hs w hw
    · exact hv

theorem ofHostFields {heap : Heap} (hh : heap.Within A) (fields : List (String × HostValue))
    (stored : Fields)
    (hs : Fields.Within A stored) :
    Fields.Within A (Heap.ofHostFields fields stored heap).1 ∧
      (Heap.ofHostFields fields stored heap).2.Within A := by
  cases fields with
  | nil =>
    unfold Heap.ofHostFields
    exact ⟨hs, hh⟩
  | cons field fields =>
    obtain ⟨key, item⟩ := field
    obtain ⟨hv, hh'⟩ := ofHost hh item
    unfold Heap.ofHostFields
    exact ofHostFields hh' fields _ (insertField hs key hv)

end

/-! ### Scripts -/

theorem mapConstants (handles : Array Handle) (c : Chunk Literal) :
    (c.mapConstants (Heap.literalValue handles)).Within A := by
  intro v hv
  obtain ⟨l, -, rfl⟩ := Array.mem_map.1 hv
  cases l with
  | number _ => trivial
  | text _ => trivial
  | function index =>
    refine Value.within_getD fun w hw => ?_
    obtain ⟨h, -, rfl⟩ := Option.map_eq_some_iff.1 hw
    trivial

/-- **A compiled script** has no builtin among its constants. -/
theorem install (hh : heap.Within A) (c : Compiled) :
    (heap.install c).1.Within A ∧ (heap.install c).2.Within A := by
  unfold Heap.install
  refine ⟨mapConstants _ _, ?_⟩
  rw [← Array.foldl_toList]
  generalize #[] = handles
  -- Functions are stored one after another, and each of them holds constants only.
  induction c.functions.toList generalizing handles heap with
  | nil => exact hh
  | cons p functions ih =>
    exact ih (hh.insert (Object.within_function.2 (mapConstants _ _))) _

end Heap.Within

/-! ### Collections -/

namespace Heap

variable {heap : Heap}

theorem Within.collect (hh : heap.Within A) (roots : List Handle) :
    ((heap.markAll roots).trace.sweep).Within A := by
  intro h o ho
  refine hh h o ?_
  -- A sweep adds no object, and a trace touches none.
  rw [get?_sweep] at ho
  split at ho
  case isTrue =>
    rw [← ho, get?, get?, trace, (rows_traceFrom _ _).1, (rows_markAll _ _).1]
  case isFalse => cases ho

end Heap

end DeployScript
