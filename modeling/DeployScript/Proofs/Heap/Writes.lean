import DeployScript.Proofs.Heap.Twin

/-!
# Writing to twins

What is written to both of two heaps that differ in where their objects lie leaves them so.

* `Link.with` — the links and one more.
* `Twin.insert` — new objects are linked; `Twin.replace` — linked objects change alike.
* `Extends` — what an operation on data does: there may be more arrays and records, and all else is
  as it was.
* `Twin.newArray`, `newRecord`, `store`, `perform`, `ofHost` — the operations.
-/

namespace DeployScript

/-- The links and one more. -/
def Link.with (β : Link) (k : Kind) (h h' : Handle) : Link where
  handle l g g' := β l g g' ∨ (l = k ∧ g = h ∧ g' = h')
  builtin := β.builtin

theorem Link.le_with (β : Link) (k : Kind) (h h' : Handle) : β.Le (β.with k h h') :=
  ⟨fun _ _ _ hh => .inl hh, rfl⟩

theorem similar_mono {β γ : Link} (hle : β.Le γ) {values values' : List Value}
    (hs : List.Forall₂ (Value.Similar β) values values') :
    List.Forall₂ (Value.Similar γ) values values' :=
  hs.imp fun _ _ hv => hv.mono hle

/-- Whether an object is an array or a record. -/
def Object.IsData : Object → Prop
  | .array _ | .record _ => True
  | _ => False

theorem forall₂_set {α : Type} {r : α → α → Prop} {l l' : List α} (hs : List.Forall₂ r l l')
    (index : Nat) {a a' : α} (ha : r a a') :
    List.Forall₂ r (l.set index a) (l'.set index a') := by
  induction hs generalizing index with
  | nil => exact .nil
  | cons hv hs ih =>
    cases index with
    | zero => exact .cons ha hs
    | succ index => exact .cons hv (ih index)

/-- Effects that do alike. -/
inductive Effect.Similar (β : Link) : Effect → Effect → Prop
  | give {v v' : Value} (hv : v.Similar β v') : Similar β (.give v) (.give v')
  | make {items items' : Array Value}
    (hs : List.Forall₂ (Value.Similar β) items.toList items'.toList) :
    Similar β (.make items) (.make items')
  | append {h h' : Handle} {v v' : Value} (hh : β .array h h') (hv : v.Similar β v') :
    Similar β (.append h v) (.append h' v')

namespace Heap

variable {β γ δ : Link} {heap heap' next next' last last' : Heap} {k : Kind} {h h' : Handle}
  {object object' : Object} {v v' : Value}

/-! ### New objects -/

theorem functionName?_congr (hfunction : ∀ g, next.function? g = heap.function? g)
    (hclosure : ∀ g, next.closure? g = heap.closure? g) (g : Handle) :
    next.functionName? g = heap.functionName? g := by
  unfold functionName? code?
  rw [hclosure, hfunction]
  split
  · rw [hfunction]
  · rfl

/-- Objects that are not linked may be stored on either side. -/
theorem Twin.keep (ht : Twin β heap heap') (hw : next.Wf) (hw' : next'.Wf)
    (hkeep : heap.Kept next) (hkeep' : heap'.Kept next') : Twin β next next' where
  wf := hw
  wf' := hw'
  one := ht.one
  kind := ht.kind
  live k a a' hl := by
    obtain ⟨hlive, hlive'⟩ := ht.live _ _ _ hl
    obtain ⟨o, ho⟩ := Option.isSome_iff_exists.1 hlive
    obtain ⟨o', ho'⟩ := Option.isSome_iff_exists.1 hlive'
    rw [hkeep _ _ ho, hkeep' _ _ ho']
    exact ⟨rfl, rfl⟩
  array a a' hl := by
    obtain ⟨items, items', hitems, hitems', hs⟩ := ht.array _ _ hl
    exact ⟨items, items', hkeep.array? hitems, hkeep'.array? hitems', hs⟩
  record a a' hl := by
    obtain ⟨fields, fields', hfields, hfields', hs⟩ := ht.record _ _ hl
    exact ⟨fields, fields', hkeep.record? hfields, hkeep'.record? hfields', hs⟩
  named a a' hl := by
    obtain ⟨name, hn, hn'⟩ := ht.named _ _ hl
    exact ⟨name, hkeep.functionName? hn, hkeep'.functionName? hn'⟩

/-- **New objects** are linked if they are alike. -/
theorem Twin.insert (ht : Twin β heap heap') (hi : heap.insert object = (h, next))
    (hi' : heap'.insert object' = (h', next'))
    (harray : k = .array → ∃ items items', object = .array items ∧ object' = .array items' ∧
      List.Forall₂ (Value.Similar β) items.toList items'.toList)
    (hrecord : k = .record → ∃ fields fields', object = .record fields ∧
      object' = .record fields' ∧ Matching (Value.Similar β) fields fields')
    (hnamed : k = .function ∨ k = .closure → ∃ name, next.functionName? h = some name ∧
      next'.functionName? h' = some name) :
    Twin (β.with k h h') next next' := by
  obtain ⟨hnone, hw, hget⟩ := get?_insert ht.wf hi
  obtain ⟨hnone', hw', hget'⟩ := get?_insert ht.wf' hi'
  have hkeep := kept_insert ht.wf hi
  have hkeep' := kept_insert ht.wf' hi'
  -- Linked handles are live, so no old link has a new end.
  have hfresh : ∀ {l g'}, ¬ β l h g' := by
    intro l g' hl
    have hlive := (ht.live _ _ _ hl).1
    rw [hnone] at hlive
    cases hlive
  have hfresh' : ∀ {l g}, ¬ β l g h' := by
    intro l g hl
    have hlive := (ht.live _ _ _ hl).2
    rw [hnone'] at hlive
    cases hlive
  have hnew : next.get? h = some object := by rw [hget, if_pos rfl]
  have hnew' : next'.get? h' = some object' := by rw [hget', if_pos rfl]
  have hold := ht.keep hw hw' hkeep hkeep'
  have hle := β.le_with k h h'
  -- A link is an old one or the new one; what would mix them fails by `hfresh` and `hfresh'`.
  refine ⟨hw, hw', ?one, ?kind, ?live, ?array, ?record, ?named⟩
  case one =>
    rintro l l' a a' b b' (hl | ⟨rfl, rfl, rfl⟩) (hl' | ⟨rfl, rfl, rfl⟩)
    · exact ht.one _ _ _ _ _ _ hl hl'
    · exact iff_of_false (fun he => hfresh (he ▸ hl)) (fun he => hfresh' (he ▸ hl))
    · exact iff_of_false (fun he => hfresh (he ▸ hl')) (fun he => hfresh' (he ▸ hl'))
    · exact iff_of_true rfl rfl
  case kind =>
    rintro l l' a a' b' (hl | ⟨rfl, rfl, rfl⟩) (hl' | ⟨rfl, he, rfl⟩)
    · exact ht.kind _ _ _ _ _ hl hl'
    · exact absurd (he ▸ hl) hfresh
    · exact absurd hl' hfresh
    · rfl
  case live =>
    rintro l a a' (hl | ⟨rfl, rfl, rfl⟩)
    · exact hold.live _ _ _ hl
    · rw [hnew, hnew']
      exact ⟨rfl, rfl⟩
  case array =>
    rintro a a' (hl | ⟨rfl, rfl, rfl⟩)
    · obtain ⟨items, items', hitems, hitems', hs⟩ := hold.array _ _ hl
      exact ⟨items, items', hitems, hitems', similar_mono hle hs⟩
    · obtain ⟨items, items', rfl, rfl, hs⟩ := harray rfl
      exact ⟨items, items', array?_eq.2 hnew, array?_eq.2 hnew', similar_mono hle hs⟩
  case record =>
    rintro a a' (hl | ⟨rfl, rfl, rfl⟩)
    · obtain ⟨fields, fields', hfields, hfields', hs⟩ := hold.record _ _ hl
      exact ⟨fields, fields', hfields, hfields', hs.mono fun _ _ hv => hv.mono hle⟩
    · obtain ⟨fields, fields', rfl, rfl, hs⟩ := hrecord rfl
      exact ⟨fields, fields', record?_eq.2 hnew, record?_eq.2 hnew',
        hs.mono fun _ _ hv => hv.mono hle⟩
  case named =>
    rintro a a' ((hl | ⟨rfl, rfl, rfl⟩) | (hl | ⟨rfl, rfl, rfl⟩))
    · exact hold.named _ _ (.inl hl)
    · exact hnamed (.inl rfl)
    · exact hold.named _ _ (.inr hl)
    · exact hnamed (.inr rfl)

/-! ### Changes -/

/-- **Linked objects** may change alike, as long as no name changes. -/
theorem Twin.replace (ht : Twin β heap heap') (hh : β k h h') (hw : next.Wf) (hw' : next'.Wf)
    (hget : ∀ g, next.get? g = if g = h then some object else heap.get? g)
    (hget' : ∀ g, next'.get? g = if g = h' then some object' else heap'.get? g)
    (harray : k = .array → ∃ items items', object = .array items ∧ object' = .array items' ∧
      List.Forall₂ (Value.Similar β) items.toList items'.toList)
    (hrecord : k = .record → ∃ fields fields', object = .record fields ∧
      object' = .record fields' ∧ Matching (Value.Similar β) fields fields')
    (hname : ∀ g, next.functionName? g = heap.functionName? g)
    (hname' : ∀ g, next'.functionName? g = heap'.functionName? g) : Twin β next next' := by
  -- Links are one to one: both ends of a link change, or neither does.
  have hother : ∀ {l a a'}, β l a a' → a ≠ h →
      next.get? a = heap.get? a ∧ next'.get? a' = heap'.get? a' := by
    intro l a a' hl hne
    rw [hget, hget', if_neg hne, if_neg fun he => hne ((ht.one _ _ _ _ _ _ hl hh).2 he)]
    exact ⟨rfl, rfl⟩
  have hsame : ∀ {a'}, β k h a' → next.get? h = some object ∧ next'.get? a' = some object' := by
    intro a' hl
    rw [hget, hget', if_pos rfl, if_pos ((ht.one _ _ _ _ _ _ hl hh).1 rfl)]
    exact ⟨rfl, rfl⟩
  refine ⟨hw, hw', ht.one, ht.kind, ?live, ?array, ?record, ?named⟩
  case live =>
    intro l a a' hl
    by_cases he : a = h
    · subst he
      obtain rfl := ht.kind _ _ _ _ _ hh hl
      rw [(hsame hl).1, (hsame hl).2]
      exact ⟨rfl, rfl⟩
    · rw [(hother hl he).1, (hother hl he).2]
      exact ht.live _ _ _ hl
  case array =>
    intro a a' hl
    by_cases he : a = h
    · subst he
      obtain rfl := ht.kind _ _ _ _ _ hh hl
      obtain ⟨items, items', rfl, rfl, hs⟩ := harray rfl
      exact ⟨items, items', array?_eq.2 (hsame hl).1, array?_eq.2 (hsame hl).2, hs⟩
    · obtain ⟨items, items', hitems, hitems', hs⟩ := ht.array _ _ hl
      refine ⟨items, items', array?_eq.2 ?_, array?_eq.2 ?_, hs⟩
      · rw [(hother hl he).1, array?_eq.1 hitems]
      · rw [(hother hl he).2, array?_eq.1 hitems']
  case record =>
    intro a a' hl
    by_cases he : a = h
    · subst he
      obtain rfl := ht.kind _ _ _ _ _ hh hl
      obtain ⟨fields, fields', rfl, rfl, hs⟩ := hrecord rfl
      exact ⟨fields, fields', record?_eq.2 (hsame hl).1, record?_eq.2 (hsame hl).2, hs⟩
    · obtain ⟨fields, fields', hfields, hfields', hs⟩ := ht.record _ _ hl
      refine ⟨fields, fields', record?_eq.2 ?_, record?_eq.2 ?_, hs⟩
      · rw [(hother hl he).1, record?_eq.1 hfields]
      · rw [(hother hl he).2, record?_eq.1 hfields']
  case named =>
    intro a a' hl
    obtain ⟨name, hn, hn'⟩ := ht.named _ _ hl
    exact ⟨name, (hname a).trans hn, (hname' a').trans hn'⟩

/-! ### Operations on data -/

/-- All that is not an array or a record stays as it is. -/
structure Steady (heap next : Heap) : Prop where
  function : ∀ g, next.function? g = heap.function? g
  closure : ∀ g, next.closure? g = heap.closure? g
  cell : ∀ g, next.cell? g = heap.cell? g

namespace Steady

theorem refl (heap : Heap) : Steady heap heap := ⟨fun _ => rfl, fun _ => rfl, fun _ => rfl⟩

theorem trans (h : Steady heap next) (h' : Steady next last) : Steady heap last where
  function g := (h'.function g).trans (h.function g)
  closure g := (h'.closure g).trans (h.closure g)
  cell g := (h'.cell g).trans (h.cell g)

theorem functionName? (h : Steady heap next) (g : Handle) :
    next.functionName? g = heap.functionName? g :=
  functionName?_congr h.function h.closure g

/-- Where objects change that were and are arrays or records, all else is steady. -/
theorem of_get? (hget : ∀ g, next.get? g = heap.get? g ∨
    ((∀ o, heap.get? g = some o → o.IsData) ∧ ∀ o, next.get? g = some o → o.IsData)) :
    Steady heap next := by
  have hdata : ∀ {t : Heap} {g : Handle}, (∀ o, t.get? g = some o → o.IsData) →
      t.function? g = none ∧ t.closure? g = none ∧ t.cell? g = none := by
    intro t g hd
    unfold function? closure? cell?
    cases ho : t.get? g with
    | none => exact ⟨rfl, rfl, rfl⟩
    | some o =>
      have ho := hd o ho
      cases o <;> first | exact ⟨rfl, rfl, rfl⟩ | cases ho
  refine ⟨fun g => ?_, fun g => ?_, fun g => ?_⟩
  all_goals
    rcases hget g with hsame | ⟨hd, hd'⟩
    · simp only [function?, closure?, cell?, hsame]
    · simp only [hdata hd, hdata hd']

end Steady

theorem steady_insert (hw : heap.Wf) (hi : heap.insert object = (h, next))
    (hobject : object.IsData) : Steady heap next := by
  obtain ⟨hnone, -, hget⟩ := get?_insert hw hi
  refine .of_get? fun g => ?_
  rw [hget]
  split
  case isTrue he =>
    refine .inr ⟨fun o ho => ?_, fun o ho => ?_⟩
    · rw [he, hnone] at ho
      cases ho
    · obtain rfl := Option.some.inj ho
      exact hobject
  case isFalse => exact .inl rfl

theorem steady_update {f : Object → Object} (hobject : heap.get? h = some object)
    (hdata : object.IsData) (hdata' : (f object).IsData) : Steady heap (heap.update h f) := by
  refine .of_get? fun g => ?_
  rw [get?_update]
  split
  case isTrue he =>
    refine .inr ⟨fun o ho => ?_, fun o ho => ?_⟩
    · rw [he, hobject] at ho
      obtain rfl := Option.some.inj ho
      exact hdata
    · rw [hobject] at ho
      obtain rfl := Option.some.inj ho
      exact hdata'
  case isFalse => exact .inl rfl

/-- **What an operation on data does to twins:** there may be new arrays and records, but nothing
else is new or changes. -/
structure Extends (β : Link) (heap heap' : Heap) (γ : Link) (next next' : Heap) : Prop where
  le : β.Le γ
  twin : Twin γ next next'
  code : ∀ l g g', γ l g g' → l = .array ∨ l = .record ∨ β l g g'
  steady : Steady heap next
  steady' : Steady heap' next'

namespace Extends

theorem refl (ht : Twin β heap heap') : Extends β heap heap' β heap heap' :=
  ⟨.refl β, ht, fun _ _ _ hl => .inr (.inr hl), .refl heap, .refl heap'⟩

theorem trans (he : Extends β heap heap' γ next next')
    (he' : Extends γ next next' δ last last') : Extends β heap heap' δ last last' where
  le := he.le.trans he'.le
  twin := he'.twin
  code l g g' hl := by
    rcases he'.code l g g' hl with hl | hl | hl
    · exact .inl hl
    · exact .inr (.inl hl)
    · exact he.code l g g' hl
  steady := he.steady.trans he'.steady
  steady' := he.steady'.trans he'.steady'

end Extends

/-- **A new array** on both sides. -/
theorem Twin.newArray (ht : Twin β heap heap') {items items' : Array Value}
    (hs : List.Forall₂ (Value.Similar β) items.toList items'.toList) :
    ∃ γ, Extends β heap heap' γ (heap.newArray items).2 (heap'.newArray items').2 ∧
      (heap.newArray items).1.Similar γ (heap'.newArray items').1 := by
  unfold Heap.newArray
  cases hi : heap.insert (.array items) with
  | mk h next =>
  cases hi' : heap'.insert (.array items') with
  | mk h' next' =>
  have hnew : Twin (β.with .array h h') next next' :=
    ht.insert hi hi' (fun _ => ⟨items, items', rfl, rfl, hs⟩) (fun he => nomatch he)
      (fun he => he.elim (fun he => nomatch he) fun he => nomatch he)
  refine ⟨β.with .array h h', ⟨β.le_with _ _ _, hnew, fun l g g' hl => ?_,
    steady_insert ht.wf hi trivial, steady_insert ht.wf' hi' trivial⟩, .array (.inr ⟨rfl, rfl, rfl⟩)⟩
  rcases hl with hl | ⟨rfl, -, -⟩
  · exact .inr (.inr hl)
  · exact .inl rfl

/-- **A new record** on both sides. -/
theorem Twin.newRecord (ht : Twin β heap heap') {fields fields' : Fields}
    (hs : Matching (Value.Similar β) fields fields') :
    ∃ γ, Extends β heap heap' γ (heap.newRecord fields).2 (heap'.newRecord fields').2 ∧
      (heap.newRecord fields).1.Similar γ (heap'.newRecord fields').1 := by
  unfold Heap.newRecord
  cases hi : heap.insert (.record fields) with
  | mk h next =>
  cases hi' : heap'.insert (.record fields') with
  | mk h' next' =>
  have hnew : Twin (β.with .record h h') next next' :=
    ht.insert hi hi' (fun he => nomatch he) (fun _ => ⟨fields, fields', rfl, rfl, hs⟩)
      (fun he => he.elim (fun he => nomatch he) fun he => nomatch he)
  refine ⟨β.with .record h h', ⟨β.le_with _ _ _, hnew, fun l g g' hl => ?_,
    steady_insert ht.wf hi trivial, steady_insert ht.wf' hi' trivial⟩,
    .record (.inr ⟨rfl, rfl, rfl⟩)⟩
  rcases hl with hl | ⟨rfl, -, -⟩
  · exact .inr (.inr hl)
  · exact .inr (.inl rfl)

/-- **An array** changes on both sides. -/
theorem Twin.updateArray (ht : Twin β heap heap') (hh : β .array h h') {f f' : Object → Object}
    (hf : ∀ items items' : Array Value, List.Forall₂ (Value.Similar β) items.toList items'.toList →
      ∃ changed changed', f (.array items) = .array changed ∧ f' (.array items') = .array changed' ∧
        List.Forall₂ (Value.Similar β) changed.toList changed'.toList) :
    Extends β heap heap' β (heap.update h f) (heap'.update h' f') := by
  obtain ⟨items, items', hi, hi', hs⟩ := ht.array _ _ hh
  rw [array?_eq] at hi hi'
  obtain ⟨changed, changed', hc, hc', hs'⟩ := hf items items' hs
  have hsteady : Steady heap (heap.update h f) :=
    steady_update hi trivial (by rw [hc]; trivial)
  have hsteady' : Steady heap' (heap'.update h' f') :=
    steady_update hi' trivial (by rw [hc']; trivial)
  refine ⟨.refl β, ?_, fun _ _ _ hl => .inr (.inr hl), hsteady, hsteady'⟩
  have hget : ∀ g, (heap.update h f).get? g = if g = h then some (.array changed) else heap.get? g := by
    intro g
    rw [get?_update, hi, Option.map_some, hc]
  have hget' : ∀ g, (heap'.update h' f').get? g
      = if g = h' then some (.array changed') else heap'.get? g := by
    intro g
    rw [get?_update, hi', Option.map_some, hc']
  exact ht.replace hh (wf_update ht.wf f) (wf_update ht.wf' f') hget hget'
    (fun _ => ⟨changed, changed', rfl, rfl, hs'⟩) (fun he => nomatch he)
    hsteady.functionName? hsteady'.functionName?

/-- **A record** gets a field on both sides. -/
theorem Twin.setField (ht : Twin β heap heap') (hh : β .record h h') (key : String)
    (hv : v.Similar β v') :
    Extends β heap heap' β (heap.setField h key v) (heap'.setField h' key v') := by
  obtain ⟨fields, fields', hf, hf', hs⟩ := ht.record _ _ hh
  rw [record?_eq] at hf hf'
  have hsteady : Steady heap (heap.setField h key v) := steady_update hf trivial trivial
  have hsteady' : Steady heap' (heap'.setField h' key v') := steady_update hf' trivial trivial
  unfold Heap.setField at hsteady hsteady' ⊢
  refine ⟨.refl β, ?_, fun _ _ _ hl => .inr (.inr hl), hsteady, hsteady'⟩
  refine ht.replace hh (wf_update ht.wf _) (wf_update ht.wf' _) (fun g => ?_) (fun g => ?_)
    (fun he => by cases he) (fun _ => ⟨_, _, rfl, rfl, hs.insert key hv⟩)
    hsteady.functionName? hsteady'.functionName?
  · rw [get?_update, hf]
    rfl
  · rw [get?_update, hf']
    rfl

theorem Twin.push (ht : Twin β heap heap') (hh : β .array h h') (hv : v.Similar β v') :
    Extends β heap heap' β (heap.push h v) (heap'.push h' v') := by
  refine ht.updateArray hh fun items items' hs => ⟨_, _, rfl, rfl, ?_⟩
  rw [Array.toList_push, Array.toList_push]
  exact List.rel_append hs (.cons hv .nil)

theorem Twin.setItem (ht : Twin β heap heap') (hh : β .array h h') (index : Nat)
    (hv : v.Similar β v') :
    Extends β heap heap' β (heap.setItem h index v) (heap'.setItem h' index v') := by
  refine ht.updateArray hh fun items items' hs => ⟨_, _, rfl, rfl, ?_⟩
  rw [Array.toList_setIfInBounds, Array.toList_setIfInBounds]
  exact forall₂_set hs index hv

/-- **A write** to like places. -/
theorem Twin.store (ht : Twin β heap heap') {target target' : Target}
    (hs : Target.Similar β target target') (hv : v.Similar β v') :
    Extends β heap heap' β (heap.store target v) (heap'.store target' v') := by
  cases hs with
  | item hh index => exact ht.setItem hh index hv
  | append hh => exact ht.push hh hv
  | field hh key => exact ht.setField hh key hv

/-! ### Functions of the language -/

theorem rangeEffect (start stop : Float) :
    Agrees (Effect.Similar β) (Intrinsic.rangeEffect start stop)
      (Intrinsic.rangeEffect start stop) := by
  unfold Intrinsic.rangeEffect
  dsimp only
  split
  · exact .error _
  · refine .ok (.make (List.forall₂_same.2 fun v hv => ?_))
    obtain ⟨i, -, rfl⟩ : ∃ i, _ ∧ Value.number (Number.ofInt (_ + (i : Nat))) = v := by
      simpa [wholeNumbers] using hv
    exact .number _

theorem range_effect {args args' : List Value} (hs : List.Forall₂ (Value.Similar β) args args') :
    Agrees (Effect.Similar β) (Intrinsic.range.effect? heap args)
      (Intrinsic.range.effect? heap' args') := by
  cases hs with
  | nil => exact .error _
  | cons hv hs =>
    cases hs with
    | nil =>
      cases hv with
      | number stop => exact rangeEffect 0 stop
      | _ => exact .error _
    | cons hw hs =>
      cases hs with
      | nil =>
        cases hv with
        | number start =>
          cases hw with
          | number stop => exact rangeEffect start stop
          | _ => exact .error _
        | _ => exact .error _
      | cons _ _ =>
        simp only [Intrinsic.effect?]
        exact .error _

/-- What the function of the language does is decided alike. -/
theorem Twin.effect? (ht : Twin β heap heap') (f : Intrinsic) {args args' : List Value}
    (hs : List.Forall₂ (Value.Similar β) args args') :
    Agrees (Effect.Similar β) (f.effect? heap args) (f.effect? heap' args') := by
  -- Nearly all of them begin with the first argument, and a missing one is `nil` on both sides.
  have hhead : (args.headD .nil).Similar β (args'.headD .nil) := by
    cases hs with
    | nil => exact .nil
    | cons hv _ => exact hv
  cases f with
  | len =>
    simp only [Intrinsic.effect?, ht.length? hhead, hhead.typeName]
    split
    · exact .ok (.give (.number _))
    · exact .error _
  | str =>
    simp only [Intrinsic.effect?, ht.display hhead]
    exact .ok (.give (.text _))
  | type_ =>
    simp only [Intrinsic.effect?, hhead.typeName]
    exact .ok (.give (.text _))
  | num =>
    simp only [Intrinsic.effect?]
    generalize args.headD .nil = v at hhead
    generalize args'.headD .nil = v' at hhead
    cases hhead with
    | number n => exact .ok (.give (.number n))
    | text s =>
      dsimp only
      split
      · exact .ok (.give (.number _))
      · exact .error _
    | bool b => exact .ok (.give (.number _))
    | _ => exact .error _
  | push =>
    simp only [Intrinsic.effect?]
    have hsecond : (args.getD 1 .nil).Similar β (args'.getD 1 .nil) := by
      cases hs with
      | nil => exact .nil
      | cons _ hs =>
        cases hs with
        | nil => exact .nil
        | cons hv _ => exact hv
    generalize args.headD .nil = v at hhead
    generalize args'.headD .nil = v' at hhead
    cases hhead with
    | array hh =>
      obtain ⟨items, items', hi, hi', -⟩ := ht.array _ _ hh
      simp only [hi, hi']
      exact .ok (.append hh hsecond)
    | _ => exact .error _
  | keys =>
    simp only [Intrinsic.effect?]
    generalize args.headD .nil = v at hhead
    generalize args'.headD .nil = v' at hhead
    cases hhead with
    | record hh =>
      obtain ⟨fields, fields', hf, hf', hm⟩ := ht.record _ _ hh
      simp only [hf, hf', Option.map_some, Option.getD_some, hm.keys]
      refine .ok (.make ?_)
      rw [List.forall₂_map_left_iff, List.forall₂_map_right_iff]
      exact List.forall₂_same.2 fun key _ => .text key
    | _ => exact .error _
  | range => exact range_effect hs
  | assert =>
    cases hs with
    | nil => exact .error _
    | cons hv hs =>
      simp only [Intrinsic.effect?, hv.isTruthy]
      split
      · exact .ok (.give .nil)
      · cases hs with
        | nil => exact .error _
        | cons hw _ =>
          simp only [ht.display hw]
          exact .error _

/-- **What is done** gives similar results. -/
theorem Twin.perform (ht : Twin β heap heap') {effect effect' : Effect}
    (hs : Effect.Similar β effect effect') :
    ∃ γ, Extends β heap heap' γ (heap.perform effect).2 (heap'.perform effect').2 ∧
      (heap.perform effect).1.Similar γ (heap'.perform effect').1 := by
  cases hs with
  | give hv => exact ⟨β, .refl ht, hv⟩
  | make hs => exact ht.newArray hs
  | append hh hv =>
    have hx := ht.push hh hv
    refine ⟨β, hx, ?_⟩
    simp only [Heap.perform, hx.twin.length? (.array hh)]
    exact .number _

/-! ### Values of the host -/

/-- Values of the host are values without handles before they are stored. -/
theorem similar_numbers (bs : List UInt8) :
    List.Forall₂ (Value.Similar β)
      (bs.map fun b => Value.number (Float.ofNat b.toNat)).toArray.toList
      (bs.map fun b => Value.number (Float.ofNat b.toNat)).toArray.toList := by
  rw [List.forall₂_map_left_iff, List.forall₂_map_right_iff]
  exact List.forall₂_same.2 fun b _ => .number _

mutual

/-- **A value of the host** is stored alike. -/
theorem Twin.ofHost {β : Link} {heap heap' : Heap} (ht : Twin β heap heap') (value : HostValue) :
    ∃ γ, Extends β heap heap' γ (Heap.ofHost value heap).2 (Heap.ofHost value heap').2 ∧
      (Heap.ofHost value heap).1.Similar γ (Heap.ofHost value heap').1 := by
  cases value with
  | nil => exact ⟨β, .refl ht, .nil⟩
  | function name => exact ⟨β, .refl ht, .nil⟩
  | bool b => exact ⟨β, .refl ht, .bool b⟩
  | number n => exact ⟨β, .refl ht, .number n⟩
  | text s => exact ⟨β, .refl ht, .text s⟩
  | bytes bs => exact ht.newArray (similar_numbers bs)
  | list items =>
    obtain ⟨γ, hx, hs⟩ := @Twin.ofHostItems _ _ _ ht items #[] #[] .nil
    obtain ⟨δ, hx', hv⟩ := hx.twin.newArray hs
    exact ⟨δ, hx.trans hx', hv⟩
  | record fields =>
    obtain ⟨γ, hx, hs⟩ := Twin.ofHostFields ht fields matching_empty
    obtain ⟨δ, hx', hv⟩ := hx.twin.newRecord hs
    exact ⟨δ, hx.trans hx', hv⟩

theorem Twin.ofHostItems {β : Link} {heap heap' : Heap} (ht : Twin β heap heap') (items : List HostValue)
    {stored stored' : Array Value}
    (hs : List.Forall₂ (Value.Similar β) stored.toList stored'.toList) :
    ∃ γ, Extends β heap heap' γ (Heap.ofHostItems items stored heap).2
        (Heap.ofHostItems items stored' heap').2 ∧
      List.Forall₂ (Value.Similar γ) (Heap.ofHostItems items stored heap).1.toList
        (Heap.ofHostItems items stored' heap').1.toList := by
  cases items with
  | nil => exact ⟨β, .refl ht, hs⟩
  | cons item items =>
    obtain ⟨γ, hx, hv⟩ := Twin.ofHost ht item
    have hs' : List.Forall₂ (Value.Similar γ) (stored.push (Heap.ofHost item heap).1).toList
        (stored'.push (Heap.ofHost item heap').1).toList := by
      rw [Array.toList_push, Array.toList_push]
      exact List.rel_append (similar_mono hx.le hs) (.cons hv .nil)
    obtain ⟨δ, hx', hall⟩ := Twin.ofHostItems hx.twin items hs'
    exact ⟨δ, hx.trans hx', hall⟩

theorem Twin.ofHostFields {β : Link} {heap heap' : Heap} (ht : Twin β heap heap')
    (fields : List (String × HostValue))
    {stored stored' : Fields} (hs : Matching (Value.Similar β) stored stored') :
    ∃ γ, Extends β heap heap' γ (Heap.ofHostFields fields stored heap).2
        (Heap.ofHostFields fields stored' heap').2 ∧
      Matching (Value.Similar γ) (Heap.ofHostFields fields stored heap).1
        (Heap.ofHostFields fields stored' heap').1 := by
  cases fields with
  | nil => exact ⟨β, .refl ht, hs⟩
  | cons field fields =>
    obtain ⟨key, item⟩ := field
    obtain ⟨γ, hx, hv⟩ := Twin.ofHost ht item
    have hs' := (hs.mono fun _ _ hw => hw.mono hx.le).insert key hv
    obtain ⟨δ, hx', hall⟩ := Twin.ofHostFields hx.twin fields hs'
    exact ⟨δ, hx.trans hx', hall⟩

end

end Heap

end DeployScript
