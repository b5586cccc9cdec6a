import DeployScript.Heap.Exchange
import DeployScript.Proofs.Heap.Collect
import DeployScript.Proofs.Heap.Twin

/-!
# What a heap makes of a value of the host

A value of the host that is stored and copied out again comes back as it was, with three exceptions that
have nothing to do with the heap: bytes come back as numbers, functions as nil, and what stands 33
containers deep or deeper as nil (`Heap.Made.round_trip`). The crux is that storing goes on while parts
already have their handles: a slot that became free may be taken at any time, and none of the earlier parts
may lie in it.

* `HostValue.plain`, `HostValue.cut` — the exceptions, said of values of the host alone.
* `Heap.Made` — the heaps that there are: whatever allocations, changes, marks and sweeps make.
* `Heap.Adds` — what storing keeps up: all that was live is as it was, and new objects refer to new objects.
* `Heap.StandsFor` — a value stands for a value of the host, and goes on doing so while objects are only added.
-/

namespace DeployScript

/-! ### Values of the host -/

namespace HostValue

/-- **A part of a value** that stands `depth` containers deep in it. -/
inductive Nested : (depth : Nat) → (part whole : HostValue) → Prop
  | root (v : HostValue) : Nested 0 v v
  | item {depth : Nat} {part item : HostValue} {items : List HostValue} (hitem : item ∈ items)
      (hpart : Nested depth part item) : Nested (depth + 1) part (.list items)
  | field {depth : Nat} {part item : HostValue} {key : String} {fields : List (String × HostValue)}
      (hfield : (key, item) ∈ fields) (hpart : Nested depth part item) :
      Nested (depth + 1) part (.record fields)

/-- **Records list their fields in the order of their keys,** each once. -/
def Ordered (v : HostValue) : Prop :=
  ∀ depth fields, Nested depth (.record fields) v → fields.Pairwise fun f g => f.1 < g.1

theorem ordered_list {items : List HostValue} :
    Ordered (.list items) ↔ ∀ item ∈ items, item.Ordered := by
  constructor
  · intro ho item hitem depth fields hn
    exact ho (depth + 1) fields (.item hitem hn)
  · intro ho depth fields hn
    cases hn with
    | item hitem hn => exact ho _ hitem _ fields hn

theorem ordered_record {fields : List (String × HostValue)} :
    Ordered (.record fields) ↔ (fields.Pairwise fun f g => f.1 < g.1) ∧
      ∀ f ∈ fields, f.2.Ordered := by
  constructor
  · intro ho
    refine ⟨ho 0 fields (.root _), ?_⟩
    intro f hf depth fields' hn
    exact ho (depth + 1) fields' (.field hf hn)
  · rintro ⟨hkeys, ho⟩ depth fields' hn
    cases hn with
    | root => exact hkeys
    | field hf hn => exact ho _ hf _ fields' hn

mutual

/-- **Without bytes and functions:** bytes are the list of their numbers, and functions are nil. -/
def plain : HostValue → HostValue
  | .bytes bs => .list (bs.map fun b => .number (Float.ofNat b.toNat))
  | .function _ => .nil
  | .list items => .list (plainItems items)
  | .record fields => .record (plainFields fields)
  | .nil => .nil
  | .bool b => .bool b
  | .number n => .number n
  | .text s => .text s

@[inherit_doc plain]
def plainItems : List HostValue → List HostValue
  | [] => []
  | item :: items => plain item :: plainItems items

@[inherit_doc plain]
def plainFields : List (String × HostValue) → List (String × HostValue)
  | [] => []
  | (key, item) :: fields => (key, plain item) :: plainFields fields

end

/-- **Only the outermost levels:** what stands below them is nil. -/
def cut : (levels : Nat) → HostValue → HostValue
  | 0, _ => .nil
  | levels + 1, .list items => .list (items.map (cut levels))
  | levels + 1, .record fields => .record (fields.map fun f => (f.1, cut levels f.2))
  | _ + 1, v => v

end HostValue

/-! ### Maps that are filled in order -/

/-- A key behind all others goes to the end. -/
theorem Fields.toList_insert {fields : Fields} {key : String}
    (hkey : ∀ e ∈ fields.toList, e.1 < key) (value : Value) :
    (fields.insert key value).toList = fields.toList ++ [(key, value)] := by
  -- Both sides are in the order of their keys, so it is enough that they have the same members.
  have hsorted := (fields.insert key value).ordered_keys_toList
  have happend : (fields.toList ++ [(key, value)]).Pairwise fun a b => compare a.1 b.1 = .lt := by
    refine List.pairwise_append.2 ⟨fields.ordered_keys_toList, List.pairwise_singleton _ _, ?_⟩
    intro a ha b hb
    rw [List.mem_singleton.1 hb]
    exact compare_lt_iff_lt.2 (hkey a ha)
  have hirrefl : ∀ a b : String × Value, compare a.1 b.1 = .lt → a ≠ b := by
    rintro a _ hlt rfl
    exact absurd (compare_lt_iff_lt.1 hlt) (lt_irrefl _)
  have hmem : ∀ e, e ∈ (fields.insert key value).toList ↔ e ∈ fields.toList ++ [(key, value)] := by
    rintro ⟨k, v⟩
    rw [Std.TreeMap.mem_toList_iff_getElem?_eq_some, List.mem_append, List.mem_singleton,
      Std.TreeMap.mem_toList_iff_getElem?_eq_some, Std.TreeMap.getElem?_insert]
    by_cases hk : key = k
    · -- The new key had no value before.
      subst hk
      have hnew : fields[key]? ≠ some v := by
        intro hv
        exact lt_irrefl _ (hkey _ (Std.TreeMap.mem_toList_iff_getElem?_eq_some.2 hv))
      simp [hnew, eq_comm]
    · simp [hk, Ne.symm hk]
  have hperm : (fields.insert key value).toList.Perm (fields.toList ++ [(key, value)]) := by
    refine (List.perm_ext_iff_of_nodup ?_ ?_).2 hmem
    · exact hsorted.imp fun hab => hirrefl _ _ hab
    · exact happend.imp fun hab => hirrefl _ _ hab
  refine hperm.eq_of_pairwise (fun a b _ _ hab hba => ?_) hsorted happend
  exact absurd hba (Std.OrientedCmp.not_lt_of_lt hab)

namespace Heap

/-! ### The heaps that there are -/

/-- **The heaps that operations make,** in any order: a collection may be under way while objects are
allocated and changed, and a sweep may come before all that is in use is marked. -/
inductive Made : Heap → Prop
  | empty : Made .empty
  | insert {heap : Heap} (hm : Made heap) (object : Object) : Made (heap.insert object).2
  | update {heap : Heap} (hm : Made heap) (h : Handle) (f : Object → Object) : Made (heap.update h f)
  | mark {heap : Heap} (hm : Made heap) (handles : List Handle) : Made (heap.markAll handles)
  | trace {heap : Heap} (hm : Made heap) (fuel : Nat) : Made (heap.traceFrom fuel)
  | sweep {heap : Heap} (hm : Made heap) : Made heap.sweep

/-- **The free list can be trusted** in each of them. -/
theorem Made.tidy {heap : Heap} (hm : heap.Made) : heap.Tidy := by
  induction hm with
  | empty => exact wf_empty.tidy
  | insert _ object ih => exact (ih.get?_insert rfl).2.1
  | update _ h f ih => exact ih.update h f
  | mark _ handles ih =>
    obtain ⟨hslots, hfree⟩ := rows_markAll _ handles
    exact ih.of_rows hslots hfree
  | trace _ fuel ih =>
    obtain ⟨hslots, hfree⟩ := rows_traceFrom fuel _
    exact ih.of_rows hslots hfree
  | sweep _ ih => exact ih.sweep

/-! ### What storing keeps up -/

/-- A handle of an object that is there now and was not there in `base`. -/
def New (base heap : Heap) (h : Handle) : Prop := base.get? h = none ∧ (heap.get? h).isSome

theorem New.kept {base heap heap' : Heap} {h : Handle} (hn : New base heap h)
    (hk : heap.Kept heap') : New base heap' h := by
  obtain ⟨object, hobject⟩ := Option.isSome_iff_exists.1 hn.2
  refine ⟨hn.1, ?_⟩
  rw [hk h object hobject]
  rfl

/-- **A heap with more objects:** those of `base` are as they were, and new ones refer to new ones. -/
structure Adds (base heap : Heap) : Prop where
  tidy : heap.Tidy
  kept : base.Kept heap
  closed : ∀ h object, New base heap h → heap.get? h = some object →
    ∀ k ∈ object.handles, New base heap k

theorem Tidy.adds {heap : Heap} (ht : heap.Tidy) : Adds heap heap where
  tidy := ht
  kept := .refl heap
  closed h object hn := by
    rw [New, ← Option.not_isSome_iff_eq_none] at hn
    exact absurd hn.2 hn.1

variable {base heap heap' : Heap} {h : Handle} {object : Object}

/-- **An allocation** changes no object: the slot of the new one held nothing. -/
theorem Tidy.insert (ht : heap.Tidy) (hi : heap.insert object = (h, heap')) :
    heap'.Tidy ∧ heap.Kept heap' ∧ heap'.get? h = some object := by
  obtain ⟨-, ht', hget⟩ := ht.get?_insert hi
  exact ⟨ht', ht.kept_insert hi, by rw [hget, if_pos rfl]⟩

/-- **An allocation** adds one object, which may refer to objects that were added before. -/
theorem Adds.insert (ha : Adds base heap) (hobject : ∀ k ∈ object.handles, New base heap k)
    (hi : heap.insert object = (h, heap')) :
    Adds base heap' ∧ heap.Kept heap' ∧ New base heap' h ∧ heap'.get? h = some object := by
  obtain ⟨hnone, -, hget⟩ := ha.tidy.get?_insert hi
  obtain ⟨ht, hkept, hself⟩ := ha.tidy.insert hi
  -- The slot was not live in `base`, all of whose objects are still in their slots.
  have hnew : New base heap' h := by
    refine ⟨?_, by rw [hself]; rfl⟩
    cases hbase : base.get? h with
    | none => rfl
    | some o =>
      have hlive := ha.kept h o hbase
      rw [hnone] at hlive
      cases hlive
  refine ⟨⟨ht, ha.kept.trans hkept, ?_⟩, hkept, hnew, hself⟩
  intro k o hk ho j hj
  by_cases he : k = h
  · subst he
    obtain rfl : object = o := Option.some.inj (hself.symm.trans ho)
    exact (hobject j hj).kept hkept
  · rw [hget, if_neg he] at ho
    have hk' : New base heap k := ⟨hk.1, by rw [ho]; rfl⟩
    exact (ha.closed k o hk' ho j hj).kept hkept

/-- **What can be reached from new objects** is new. -/
theorem Adds.reachable (ha : Adds base heap) {roots : List Handle}
    (hroots : ∀ k ∈ roots, New base heap k) (hr : heap.Reachable roots h) : New base heap h := by
  induction hr with
  | root hr => exact hroots _ hr
  | child _ hobject hk ih => exact ha.closed _ _ ih hobject _ hk

/-! ### What a stored value stands for -/

/-- **A value stands for a value of the host:** it is the same, node by node. Elements are paired by their
places. -/
inductive StandsFor (heap : Heap) : Value → HostValue → Prop
  | nil : StandsFor heap .nil .nil
  | bool (b : Bool) : StandsFor heap (.bool b) (.bool b)
  | number (n : Float) : StandsFor heap (.number n) (.number n)
  | text (s : String) : StandsFor heap (.text s) (.text s)
  | array {h : Handle} {vs : Array Value} {items : List HostValue} (hv : heap.array? h = some vs)
      (hlength : vs.toList.length = items.length)
      (hitems : ∀ p ∈ vs.toList.zip items, StandsFor heap p.1 p.2) : StandsFor heap (.array h) (.list items)
  | record {h : Handle} {fields : Fields} {items : List (String × HostValue)}
      (hf : heap.record? h = some fields) (hlength : fields.toList.length = items.length)
      (hkeys : ∀ p ∈ fields.toList.zip items, p.1.1 = p.2.1)
      (hitems : ∀ p ∈ fields.toList.zip items, StandsFor heap p.1.2 p.2.2) :
      StandsFor heap (.record h) (.record items)

/-- This stays so while objects are only added. -/
theorem StandsFor.kept {v : Value} {host : HostValue} (hs : heap.StandsFor v host) (hk : heap.Kept heap') :
    heap'.StandsFor v host := by
  induction hs with
  | nil => exact .nil
  | bool b => exact .bool b
  | number n => exact .number n
  | text s => exact .text s
  | array hv hlength _ ih => exact .array (hk.array? hv) hlength ih
  | record hf hlength hkeys _ ih => exact .record (hk.record? hf) hlength hkeys ih

/-- An array stands for the list of what its elements stand for. -/
theorem standsFor_array {vs : Array Value} {items : List HostValue} (hv : heap.array? h = some vs)
    (hitems : List.Forall₂ heap.StandsFor vs.toList items) : heap.StandsFor (.array h) (.list items) := by
  obtain ⟨hlength, hall⟩ := List.forall₂_iff_zip.1 hitems
  exact .array hv hlength fun p hp => hall hp

/-- A record stands for the fields that its own fields stand for, key by key. -/
theorem standsFor_record {fields : Fields} {items : List (String × HostValue)}
    (hf : heap.record? h = some fields)
    (hitems : List.Forall₂ (fun e f => e.1 = f.1 ∧ heap.StandsFor e.2 f.2) fields.toList items) :
    heap.StandsFor (.record h) (.record items) := by
  obtain ⟨hlength, hall⟩ := List.forall₂_iff_zip.1 hitems
  exact .record hf hlength (fun p hp => (hall hp).1) fun p hp => (hall hp).2

/-- **It is copied out** as the value of the host is cut off, with any number of levels. -/
theorem StandsFor.toHostWithin {v : Value} {host : HostValue} (hs : heap.StandsFor v host) (levels : Nat) :
    heap.toHostWithin levels v = host.cut levels := by
  induction hs generalizing levels with
  | array hv hlength _ ih =>
    cases levels with
    | zero => rfl
    | succ levels =>
      simp only [Heap.toHostWithin, hv, HostValue.cut]
      congr 1
      rw [← List.forall₂_eq_eq_eq, List.forall₂_map_left_iff, List.forall₂_map_right_iff]
      exact List.forall₂_iff_zip.2 ⟨hlength, fun hp => ih _ hp levels⟩
  | record hf hlength hkeys _ ih =>
    cases levels with
    | zero => rfl
    | succ levels =>
      simp only [Heap.toHostWithin, hf, HostValue.cut]
      congr 1
      rw [← List.forall₂_eq_eq_eq, List.forall₂_map_left_iff, List.forall₂_map_right_iff]
      exact List.forall₂_iff_zip.2 ⟨hlength, fun hp => Prod.ext (hkeys _ hp) (ih _ hp levels)⟩
  | nil | bool | number | text => cases levels <;> rfl

/-- **A part that has been stored:** it stands for a value of the host, and its handle is new. -/
structure Part (base heap : Heap) (v : Value) (host : HostValue) : Prop where
  stands : heap.StandsFor v host
  handles : ∀ k ∈ v.handles, New base heap k

theorem Part.kept {v : Value} {host : HostValue} (hp : Part base heap v host)
    (hk : heap.Kept heap') : Part base heap' v host where
  stands := hp.stands.kept hk
  handles k hmem := (hp.handles k hmem).kept hk

theorem part_number (base heap : Heap) (n : Float) : Part base heap (.number n) (.number n) where
  stands := .number n
  handles _ hk := nomatch hk

/-- **A value of the host that has been stored:** objects were added to those of `base`, none that was live
changed, and the value is a part of them. -/
structure Imported (base heap : Heap) (host : HostValue) (v : Value) (heap' : Heap) : Prop where
  adds : Adds base heap'
  kept : heap.Kept heap'
  part : Part base heap' v host

/-- What is no container is a part without a handle. -/
theorem Adds.imported (ha : Adds base heap) {v : Value} {host : HostValue}
    (hstands : heap.StandsFor v host) (hhandles : v.handles = []) : Imported base heap host v heap where
  adds := ha
  kept := .refl heap
  part := ⟨hstands, fun k hk => by rw [hhandles] at hk; cases hk⟩

theorem Adds.newArray (ha : Adds base heap) {vs : Array Value} {items : List HostValue}
    (hitems : List.Forall₂ (Part base heap) vs.toList items) :
    Imported base heap (.list items) (heap.newArray vs).1 (heap.newArray vs).2 := by
  have hhandles : ∀ k ∈ (Object.array vs).handles, New base heap k := by
    intro k hk
    obtain ⟨v, hv, hk⟩ := List.mem_flatMap.1 hk
    obtain ⟨item, -, hp⟩ := (forall₂_exists hitems).1 v hv
    exact hp.handles k hk
  obtain ⟨ha', hkept, hnew, hself⟩ := ha.insert hhandles rfl
  refine ⟨ha', hkept, standsFor_array (array?_eq.2 hself) ?_, ?_⟩
  · exact hitems.imp fun v item hp => hp.stands.kept hkept
  · intro k hk
    rw [List.mem_singleton.1 hk]
    exact hnew

theorem Adds.newRecord (ha : Adds base heap) {fields : Fields} {items : List (String × HostValue)}
    (hitems : List.Forall₂ (fun e f => e.1 = f.1 ∧ Part base heap e.2 f.2) fields.toList items) :
    Imported base heap (.record items) (heap.newRecord fields).1 (heap.newRecord fields).2 := by
  have hhandles : ∀ k ∈ (Object.record fields).handles, New base heap k := by
    intro k hk
    obtain ⟨v, hv, hk⟩ := List.mem_flatMap.1 hk
    rw [values_eq] at hv
    obtain ⟨e, he, rfl⟩ := List.mem_map.1 hv
    obtain ⟨item, -, hp⟩ := (forall₂_exists hitems).1 e he
    exact hp.2.handles k hk
  obtain ⟨ha', hkept, hnew, hself⟩ := ha.insert hhandles rfl
  refine ⟨ha', hkept, standsFor_record (record?_eq.2 hself) ?_, ?_⟩
  · exact hitems.imp fun e f hp => ⟨hp.1, hp.2.stands.kept hkept⟩
  · intro k hk
    rw [List.mem_singleton.1 hk]
    exact hnew

/-- Bytes are numbers once they are stored. -/
theorem Adds.newBytes (ha : Adds base heap) (bs : List UInt8) :
    Imported base heap (HostValue.plain (.bytes bs)) (Heap.ofHost (.bytes bs) heap).1
      (Heap.ofHost (.bytes bs) heap).2 := by
  refine ha.newArray ?_
  rw [List.forall₂_map_left_iff, List.forall₂_map_right_iff]
  exact List.forall₂_same.2 fun b _ => part_number base heap _

mutual

/-- **A value of the host is stored** part by part, and each part stays as it is while the next ones
follow. -/
theorem Adds.ofHost {base heap : Heap} (ha : Adds base heap) (host : HostValue) (ho : host.Ordered) :
    Imported base heap host.plain (Heap.ofHost host heap).1 (Heap.ofHost host heap).2 := by
  cases host with
  | bytes bs => exact ha.newBytes bs
  | list items =>
    have hnone : List.Forall₂ (Part base heap) (#[] : Array Value).toList [] := .nil
    obtain ⟨hadds, hkept, hall⟩ := Adds.ofHostItems ha items (HostValue.ordered_list.1 ho) hnone
    obtain ⟨ha', hkept', hpart⟩ := hadds.newArray hall
    exact ⟨ha', hkept.trans hkept', hpart⟩
  | record fields =>
    obtain ⟨hsorted, hfields⟩ := HostValue.ordered_record.1 ho
    have hkeys : (([] ++ fields).map Prod.fst).Pairwise (· < ·) := List.pairwise_map.2 hsorted
    have hnone : List.Forall₂ (fun (e : String × Value) (f : String × HostValue) =>
        e.1 = f.1 ∧ Part base heap e.2 f.2) ({} : Fields).toList [] := .nil
    obtain ⟨hadds, hkept, hall⟩ := Adds.ofHostFields ha fields hfields hkeys hnone
    obtain ⟨ha', hkept', hpart⟩ := hadds.newRecord hall
    exact ⟨ha', hkept.trans hkept', hpart⟩
  | nil | function => exact ha.imported .nil rfl
  | bool b => exact ha.imported (.bool b) rfl
  | number n => exact ha.imported (.number n) rfl
  | text s => exact ha.imported (.text s) rfl

theorem Adds.ofHostItems {base heap : Heap} (ha : Adds base heap) (items : List HostValue)
    (ho : ∀ item ∈ items, item.Ordered) {stored : Array Value} {done : List HostValue}
    (hs : List.Forall₂ (Part base heap) stored.toList done) :
    Adds base (Heap.ofHostItems items stored heap).2 ∧
      heap.Kept (Heap.ofHostItems items stored heap).2 ∧
      List.Forall₂ (Part base (Heap.ofHostItems items stored heap).2)
        (Heap.ofHostItems items stored heap).1.toList (done ++ HostValue.plainItems items) := by
  cases items with
  | nil =>
    rw [HostValue.plainItems, List.append_nil]
    exact ⟨ha, .refl heap, hs⟩
  | cons item items =>
    obtain ⟨ha', hkept, hpart⟩ := Adds.ofHost ha item (ho item List.mem_cons_self)
    have hs' : List.Forall₂ (Part base (Heap.ofHost item heap).2)
        (stored.push (Heap.ofHost item heap).1).toList (done ++ [item.plain]) := by
      rw [Array.toList_push]
      exact List.rel_append (hs.imp fun _ _ hp => hp.kept hkept) (.cons hpart .nil)
    obtain ⟨ha'', hkept', hall⟩ :=
      Adds.ofHostItems ha' items (fun it hit => ho it (List.mem_cons_of_mem _ hit)) hs'
    rw [List.append_assoc] at hall
    exact ⟨ha'', hkept.trans hkept', hall⟩

/-- Fields go to the end of the record one after another, since their keys come in order. -/
theorem Adds.ofHostFields {base heap : Heap} (ha : Adds base heap)
    (fields : List (String × HostValue)) (ho : ∀ f ∈ fields, f.2.Ordered)
    {stored : Fields} {done : List (String × HostValue)}
    (hkeys : ((done ++ fields).map Prod.fst).Pairwise (· < ·))
    (hs : List.Forall₂ (fun e f => e.1 = f.1 ∧ Part base heap e.2 f.2) stored.toList done) :
    Adds base (Heap.ofHostFields fields stored heap).2 ∧
      heap.Kept (Heap.ofHostFields fields stored heap).2 ∧
      List.Forall₂ (fun e f => e.1 = f.1 ∧ Part base (Heap.ofHostFields fields stored heap).2 e.2 f.2)
        (Heap.ofHostFields fields stored heap).1.toList (done ++ HostValue.plainFields fields) := by
  cases fields with
  | nil =>
    rw [HostValue.plainFields, List.append_nil]
    exact ⟨ha, .refl heap, hs⟩
  | cons field fields =>
    obtain ⟨key, item⟩ := field
    obtain ⟨ha', hkept, hpart⟩ := Adds.ofHost ha item (ho (key, item) List.mem_cons_self)
    -- The keys that were stored are those of `done`, which come before this one.
    have hlast : ∀ e ∈ stored.toList, e.1 < key := by
      intro e he
      obtain ⟨f, hf, hef, -⟩ := (forall₂_exists hs).1 e he
      rw [hef]
      rw [List.map_append, List.pairwise_append] at hkeys
      exact hkeys.2.2 f.1 (List.mem_map_of_mem hf) key List.mem_cons_self
    have hs' : List.Forall₂ (fun e f => e.1 = f.1 ∧ Part base (Heap.ofHost item heap).2 e.2 f.2)
        (stored.insert key (Heap.ofHost item heap).1).toList (done ++ [(key, item.plain)]) := by
      rw [Fields.toList_insert hlast]
      refine List.rel_append (hs.imp fun _ _ hp => ⟨hp.1, hp.2.kept hkept⟩) (.cons ⟨rfl, hpart⟩ .nil)
    have hkeys' : ((done ++ [(key, item.plain)] ++ fields).map Prod.fst).Pairwise (· < ·) := by
      simpa using hkeys
    obtain ⟨ha'', hkept', hall⟩ := Adds.ofHostFields ha' fields
      (fun f hf => ho f (List.mem_cons_of_mem _ hf)) hkeys' hs'
    rw [List.append_assoc] at hall
    exact ⟨ha'', hkept.trans hkept', hall⟩

end

/-! ### Out of a heap -/

/-- **A copy has a bounded depth,** whatever the heap and whatever refers to itself in it. -/
theorem depth_toHostWithin (heap : Heap) (levels : Nat) (v : Value) {depth : Nat} {part : HostValue}
    (hn : HostValue.Nested depth part (heap.toHostWithin levels v)) : depth ≤ levels := by
  induction levels generalizing v depth with
  | zero =>
    cases hn with
    | root => exact Nat.le_refl _
  | succ levels ih =>
    cases v with
    | array h =>
      rw [toHostWithin] at hn
      split at hn
      · cases hn with
        | root => exact Nat.zero_le _
        | item hitem hpart =>
          obtain ⟨w, -, rfl⟩ := List.mem_map.1 hitem
          exact Nat.succ_le_succ (ih w hpart)
      · cases hn with
        | root => exact Nat.zero_le _
    | record h =>
      rw [toHostWithin] at hn
      split at hn
      · cases hn with
        | root => exact Nat.zero_le _
        | field hfield hpart =>
          obtain ⟨e, -, he⟩ := List.mem_map.1 hfield
          obtain ⟨-, rfl⟩ := Prod.mk.inj he
          exact Nat.succ_le_succ (ih e.2 hpart)
      · cases hn with
        | root => exact Nat.zero_le _
    | _ =>
      -- What is no container is copied into a single node.
      cases hn with
      | root => exact Nat.zero_le _

/-! ### There and back -/

/-- **Stored and copied out again,** a value of the host comes back without bytes and functions, and without
what stands 33 containers deep or deeper. All that was live on the heap is unchanged, and whatever the value
refers to is new. A copy of any value of any heap ends, and no part of it stands deeper than that. -/
theorem Made.round_trip (hm : heap.Made) {host : HostValue} (ho : host.Ordered) :
    (ofHost host heap).2.toHost (ofHost host heap).1 = host.plain.cut 33 ∧
      (∀ h object, heap.get? h = some object → (ofHost host heap).2.get? h = some object) ∧
      (∀ h, (ofHost host heap).2.Reachable (ofHost host heap).1.handles h →
        heap.get? h = none ∧ ((ofHost host heap).2.get? h).isSome) ∧
      ∀ (other : Heap) (v : Value) (depth : Nat) (part : HostValue),
        HostValue.Nested depth part (other.toHost v) → depth ≤ 33 := by
  obtain ⟨hadds, hkept, hpart⟩ := hm.tidy.adds.ofHost host ho
  refine ⟨hpart.stands.toHostWithin 33, hkept, ?_, ?_⟩
  · intro h hr
    exact hadds.reachable hpart.handles hr
  · intro other v depth part hn
    exact depth_toHostWithin other 33 v hn

/-- Two arrays, of which a collection has freed the first. -/
def oneFreed : Heap :=
  (((Heap.empty.insert (.array #[])).2.insert (.array #[.nil])).2.markAll [⟨1⟩]).sweep

theorem oneFreed_made : oneFreed.Made := (((Made.empty.insert _).insert _).mark _).sweep

/-- A list with bytes, a function, and a record of two fields. -/
def parcel : HostValue :=
  .list [.bytes [104, 0], .function "f", .record [("a", .bool true), ("b", .list [])]]

/-- The first bytes take the slot that was freed, and nothing is lost. -/
theorem parcel_round_trip :
    oneFreed.Made ∧ parcel.Ordered ∧
      (ofHost parcel oneFreed).2.toHost (ofHost parcel oneFreed).1
        = .list [.list [.number (Float.ofNat 104), .number (Float.ofNat 0)], .nil,
            .record [("a", .bool true), ("b", .list [])]] ∧
      (ofHost parcel oneFreed).2.get? ⟨1⟩ = some (.array #[.nil]) := by
  have ho : parcel.Ordered := by
    have hbytes : (HostValue.bytes [104, 0]).Ordered := fun _ _ hn => nomatch hn
    have hfunction : (HostValue.function "f").Ordered := fun _ _ hn => nomatch hn
    have hbool : (HostValue.bool true).Ordered := fun _ _ hn => nomatch hn
    simp only [parcel, HostValue.ordered_list, HostValue.ordered_record, List.forall_mem_cons]
    exact ⟨hbytes, hfunction, ⟨by decide, hbool, nofun, nofun⟩, nofun⟩
  have hkept : oneFreed.get? ⟨1⟩ = some (.array #[.nil]) := by
    rw [oneFreed, get?_sweep, if_pos]
    · rw [get?, (rows_markAll _ _).1]
      rfl
    · simp [markAll, mark, insert, get?, Heap.empty]
  obtain ⟨hback, hlive, -⟩ := Made.round_trip oneFreed_made ho
  exact ⟨oneFreed_made, ho, hback, hlive ⟨1⟩ _ hkept⟩

end Heap

end DeployScript
