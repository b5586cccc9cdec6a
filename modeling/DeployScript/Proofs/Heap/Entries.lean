import DeployScript.Machine.Step
import DeployScript.Proofs.Heap.Objects

/-!
# Entries of containers

Entries are counted, read and written by operations that match containers and keys each in its own way. How they
fit together is said here.

* `Heap.sequence?` — the entries of an array or a text in their order; `Heap.index_sequence` — what is read by
  number.
* `Heap.Place`, `Value.place?` — two keys stand for the same entry if they are the same place.
* `Heap.Wrote` — the laws of a write: the entry has the new value, all others have theirs, and there is one more
  entry if the place was new.
* `Heap.wrote_of_target` — a write that finds its target keeps the laws.
* `Machine.setIndex_laws` — so does the instruction, which leaves the heap alone if it fails.
-/

namespace DeployScript

/-! ### Characters -/

/-- The characters behind a place of a text, counted from there. -/
theorem charFrom?_eq {s before rest : String} {p : s.Pos} (hp : p.Splits before rest) (i : Nat) :
    charFrom? i p = rest.toList[i]? := by
  induction i generalizing before rest p with
  | zero =>
    rw [charFrom?]
    split
    case isTrue he =>
      rw [hp.eq_endPos_iff.1 he]
      rfl
    case isFalse he =>
      obtain ⟨rest', rfl⟩ := hp.exists_eq_singleton_append he
      simp
  | succ i ih =>
    rw [charFrom?]
    split
    case isTrue he =>
      rw [hp.eq_endPos_iff.1 he]
      rfl
    case isFalse he =>
      obtain ⟨rest', rfl⟩ := hp.exists_eq_singleton_append he
      rw [ih hp.next]
      simp

theorem charAt?_eq (s : String) (i : Nat) : charAt? s i = s.toList[i]? :=
  charFrom?_eq (String.splits_startPos s) i

/-! ### Places -/

/-- A place in a container: a position or a key. -/
inductive Heap.Place
  | position (index : Nat)
  | key (name : String)

/-- The place that a value stands for. Two numbers can be the same position, as 0 and -0 are. -/
def Value.place? : Value → Option Heap.Place
  | .number n => (Number.toNat? n).map .position
  | .text name => some (.key name)
  | _ => none

namespace Heap

variable {heap : Heap} {h : Handle} {container key x : Value} {target : Target}

/-- **A value that is no array or record, or one that is there.** -/
def Present (heap : Heap) : Value → Prop
  | .array h => (heap.array? h).isSome
  | .record h => (heap.record? h).isSome
  | _ => True

/-- **A place that a write adds:** the one right behind the elements of an array, or a key that a record does not
have. -/
inductive Vacant (heap : Heap) : (container key : Value) → Prop
  | behind {h : Handle} {items : Array Value} {n : Float} (hitems : heap.array? h = some items)
    (hn : Number.toNat? n = some items.size) : Vacant heap (.array h) (.number n)
  | absent {h : Handle} {fields : Fields} {name : String} (hfields : heap.record? h = some fields)
    (hname : name ∉ fields) : Vacant heap (.record h) (.text name)

/-- **What a write does.** `heap'` is `heap` behind the write of `x` to the entry of a container. -/
structure Wrote (heap heap' : Heap) (container key x : Value) : Prop where
  /-- The entry has the new value. -/
  read : heap'.index container key = .ok x
  /-- All other places of the container read as before. -/
  others : ∀ other : Value, other.place? ≠ key.place? →
    heap'.index container other = heap.index container other
  /-- There is one more entry if the place was new. -/
  longer : heap.Vacant container key →
    ∃ n, heap.length? container = some n ∧ heap'.length? container = some (n + 1)
  /-- There are as many entries as before if it was not. -/
  asLong : ¬ heap.Vacant container key →
    ∃ n, heap.length? container = some n ∧ heap'.length? container = some n
  /-- No other object has changed. -/
  objects : ∀ k, k ∉ container.handles → heap'.get? k = heap.get? k

/-! ### Objects behind a write -/

theorem array?_push {items : Array Value} (hitems : heap.array? h = some items) (x : Value) :
    (heap.push h x).array? h = some (items.push x) := by
  rw [array?_eq] at hitems ⊢
  rw [push, get?_update, if_pos rfl, hitems]
  rfl

theorem array?_setItem {items : Array Value} (hitems : heap.array? h = some items) (i : Nat) (x : Value) :
    (heap.setItem h i x).array? h = some (items.setIfInBounds i x) := by
  rw [array?_eq] at hitems ⊢
  rw [setItem, get?_update, if_pos rfl, hitems]
  rfl

theorem record?_setField {fields : Fields} (hfields : heap.record? h = some fields) (name : String)
    (x : Value) : (heap.setField h name x).record? h = some (fields.insert name x) := by
  rw [record?_eq] at hfields ⊢
  rw [setField, get?_update, if_pos rfl, hfields]
  rfl

/-- The object that a write goes to. -/
def Target.handle : Target → Handle
  | .item h _ | .append h | .field h _ => h

/-- A write changes the object that it goes to and no other. -/
theorem get?_store (target : Target) (x : Value) {k : Handle} (hk : k ≠ target.handle) :
    (heap.store target x).get? k = heap.get? k := by
  cases target with
  | item | append | field => exact (get?_update _ k).trans (if_neg hk)

/-! ### Reads of live containers -/

theorem index_array {items : Array Value} (hitems : heap.array? h = some items) (n : Float) :
    heap.index (.array h) (.number n) = .ok (((Number.toNat? n).bind (items[·]?)).getD .nil) := by
  simp only [index, hitems, Option.bind_some]

theorem index_record {fields : Fields} (hfields : heap.record? h = some fields) (name : String) :
    heap.index (.record h) (.text name) = .ok (fields[name]?.getD .nil) := by
  simp only [index, hfields, Option.bind_some]

/-- **The entries of an array or a text** in their order: its elements, its characters. -/
def sequence? (heap : Heap) : Value → Option (List Value)
  | .array h => (heap.array? h).map Array.toList
  | .text s => some (s.toList.map fun c => .text (String.singleton c))
  | _ => none

/-- As many entries are counted as there are. -/
theorem length?_sequence {v : Value} {entries : List Value} (hs : heap.sequence? v = some entries) :
    heap.length? v = some entries.length := by
  cases v with
  | array h =>
    obtain ⟨items, hitems, rfl⟩ := Option.map_eq_some_iff.1 hs
    rw [length?, hitems, Option.map_some, Array.length_toList]
  | text s =>
    cases hs
    rw [length?, List.length_map, String.length_toList]
  | _ => cases hs

/-- **An array or a text is read by number.** A position of an entry gives that entry, any other number nil. -/
theorem index_sequence {v : Value} {entries : List Value} (hs : heap.sequence? v = some entries) (n : Float) :
    heap.index v (.number n) = .ok (((Number.toNat? n).bind (entries[·]?)).getD .nil) := by
  cases v with
  | array h =>
    obtain ⟨items, hitems, rfl⟩ := Option.map_eq_some_iff.1 hs
    simp only [index_array hitems, Array.getElem?_toList]
  | text s =>
    cases hs
    simp only [index, charAt?_eq, List.getElem?_map]
  | _ => cases hs

/-- **A read at another place** of an array is not changed by what agrees with the array there. -/
theorem index_array_congr {heap heap' : Heap} {items items' : Array Value} (hitems : heap.array? h = some items)
    (hitems' : heap'.array? h = some items') {i : Nat} (hagree : ∀ j ≠ i, items'[j]? = items[j]?)
    {other : Value} (hother : other.place? ≠ some (.position i)) :
    heap'.index (.array h) other = heap.index (.array h) other := by
  cases other with
  | number n =>
    rw [index_array hitems, index_array hitems']
    cases hn : Number.toNat? n with
    | none => rfl
    | some j =>
      have hne : j ≠ i := fun he => hother (by rw [Value.place?, hn, he]; rfl)
      rw [Option.bind_some, Option.bind_some, hagree j hne]
  | _ => rfl

/-! ### The laws -/

theorem vacant_array {items : Array Value} (hitems : heap.array? h = some items) {n : Float} {i : Nat}
    (hn : Number.toNat? n = some i) : heap.Vacant (.array h) (.number n) ↔ i = items.size := by
  constructor
  · intro hv
    cases hv with
    | behind hitems' hn' =>
      rw [hitems] at hitems'
      rw [hn] at hn'
      cases hitems'
      exact Option.some.inj hn'
  · rintro rfl
    exact .behind hitems hn

theorem vacant_record {fields : Fields} (hfields : heap.record? h = some fields) (name : String) :
    heap.Vacant (.record h) (.text name) ↔ name ∉ fields := by
  constructor
  · intro hv
    cases hv with
    | absent hfields' hname =>
      rw [hfields] at hfields'
      cases hfields'
      exact hname
  · exact .absent hfields

/-- **A write to an array** keeps the laws if the elements behind it are `x` at the position and what they were
elsewhere. -/
theorem wrote_array {heap' : Heap} {items items' : Array Value} (hitems : heap.array? h = some items) {n : Float}
    {i : Nat} (hn : Number.toNat? n = some i) (hitems' : heap'.array? h = some items')
    (hread : items'[i]? = some x) (hagree : ∀ j ≠ i, items'[j]? = items[j]?)
    (hsize : items'.size = if i = items.size then items.size + 1 else items.size)
    (hobjects : ∀ k ≠ h, heap'.get? k = heap.get? k) :
    heap.Wrote heap' (.array h) (.number n) x := by
  have hlength : heap.length? (.array h) = some items.size := by
    rw [length?, hitems]
    rfl
  have hlength' : heap'.length? (.array h) = some items'.size := by
    rw [length?, hitems']
    rfl
  constructor
  case read =>
    rw [index_array hitems', hn, Option.bind_some, hread]
    rfl
  case others =>
    intro other hother
    rw [Value.place?, hn, Option.map_some] at hother
    exact index_array_congr hitems hitems' hagree hother
  case longer =>
    intro hv
    rw [if_pos ((vacant_array hitems hn).1 hv)] at hsize
    exact ⟨items.size, hlength, by rw [hlength', hsize]⟩
  case asLong =>
    intro hv
    rw [if_neg (mt (vacant_array hitems hn).2 hv)] at hsize
    exact ⟨items.size, hlength, by rw [hlength', hsize]⟩
  case objects => exact fun k hk => hobjects k (List.ne_of_not_mem_cons hk)

/-- **A write to a record** keeps the laws. -/
theorem wrote_field {fields : Fields} (hfields : heap.record? h = some fields) (name : String) :
    heap.Wrote (heap.store (.field h name) x) (.record h) (.text name) x := by
  have hfields' : (heap.store (.field h name) x).record? h = some (fields.insert name x) :=
    record?_setField hfields name x
  have hlength : heap.length? (.record h) = some fields.size := by
    rw [length?, hfields]
    rfl
  have hlength' : (heap.store (.field h name) x).length? (.record h)
      = some (if name ∈ fields then fields.size else fields.size + 1) := by
    rw [length?, hfields', Option.map_some, Std.TreeMap.size_insert]
    rfl
  constructor
  case read =>
    rw [index_record hfields', Std.TreeMap.getElem?_insert_self]
    rfl
  case others =>
    intro other hother
    cases other with
    | text other =>
      have hne : ¬ compare name other = .eq := by
        intro he
        obtain rfl := Std.LawfulEqCmp.eq_of_compare he
        exact hother rfl
      rw [index_record hfields', index_record hfields, Std.TreeMap.getElem?_insert, if_neg hne]
    | _ => rfl
  case longer =>
    intro hv
    rw [if_neg ((vacant_record hfields name).1 hv)] at hlength'
    exact ⟨fields.size, hlength, hlength'⟩
  case asLong =>
    intro hv
    rw [if_pos (not_not.1 (mt (vacant_record hfields name).2 hv))] at hlength'
    exact ⟨fields.size, hlength, hlength'⟩
  case objects => exact fun k hk => get?_store _ x (List.ne_of_not_mem_cons hk)

/-- **Where a write to an array goes:** to an element, or right behind the last one. -/
theorem target_array {items : Array Value} (hitems : heap.array? h = some items) {n : Float}
    (ht : heap.target (.array h) (.number n) = .ok target) :
    ∃ i, Number.toNat? n = some i ∧
      ((i < items.size ∧ target = .item h i) ∨ (i = items.size ∧ target = .append h)) := by
  simp only [Heap.target, hitems] at ht
  cases hn : Number.toNat? n with
  | none =>
    rw [hn] at ht
    cases ht
  | some i =>
    simp only [hn] at ht
    refine ⟨i, rfl, ?_⟩
    split at ht
    case isTrue hlt =>
      cases ht
      exact .inl ⟨hlt, rfl⟩
    case isFalse =>
      split at ht
      case isTrue he =>
        cases ht
        exact .inr ⟨he, rfl⟩
      case isFalse => cases ht

/-- **A write that finds its target** keeps the laws. -/
theorem wrote_of_target (hpresent : heap.Present container) (ht : heap.target container key = .ok target) (x : Value) :
    heap.Wrote (heap.store target x) container key x := by
  match container, key, hpresent, ht with
  | .array h, .number n, hpresent, ht =>
    obtain ⟨items, hitems⟩ := Option.isSome_iff_exists.1 hpresent
    obtain ⟨i, hn, ⟨hi, rfl⟩ | ⟨rfl, rfl⟩⟩ := target_array hitems ht
    · refine wrote_array hitems hn (array?_setItem hitems i x) (Array.getElem?_setIfInBounds_self_of_lt hi)
        (fun j hj => Array.getElem?_setIfInBounds_ne (Ne.symm hj)) ?_ fun k hk => get?_store _ x hk
      rw [Array.size_setIfInBounds, if_neg (Nat.ne_of_lt hi)]
    · refine wrote_array hitems hn (array?_push hitems x) Array.getElem?_push_size (fun j hj => ?_) ?_
        fun k hk => get?_store _ x hk
      · rw [Array.getElem?_push, if_neg hj]
      · rw [Array.size_push, if_pos rfl]
  | .record h, .text name, hpresent, ht =>
    obtain ⟨fields, hfields⟩ := Option.isSome_iff_exists.1 hpresent
    cases ht
    exact wrote_field hfields name

end Heap

namespace Machine

variable {ω : Type}

theorem pop_push (m : Machine ω) (v : Value) : (m.push v).pop = (v, m) := by
  simp [Machine.pop, Machine.push]

/-- **Indexed writes obey the laws of reading after writing.** The instruction takes a container, a key and a
value off the stack. If it succeeds, the value is left there and the heap has been written; if it fails, the heap
is as it was. -/
theorem setIndex_laws (m : Machine ω) (start : Nat) (container key x : Value)
    (hpresent : m.heap.Present container) :
    (∃ heap, (((m.push container).push key).push x).exec start ⟨.setIndex, ()⟩
        = .next ({ m with heap }.push x) ∧ m.heap.Wrote heap container key x) ∨
      ∃ cause, (((m.push container).push key).push x).exec start ⟨.setIndex, ()⟩ = .raise cause m := by
  simp only [exec, pop_push]
  cases htarget : m.heap.target container key with
  | error cause => exact .inr ⟨cause, rfl⟩
  | ok target => exact .inl ⟨m.heap.store target x, rfl, Heap.wrote_of_target hpresent htarget x⟩

/-- An array that holds itself grows by an element. -/
theorem ring_grows :
    let ring : Value := .array ⟨0⟩
    let m : Machine Unit :=
      { Machine.new {} () with heap := { Heap.empty with slots := #[some (.array #[ring])] } }
    m.heap.Vacant ring (.number 1) ∧ ∃ heap,
      (((m.push ring).push (.number 1)).push ring).exec 0 ⟨.setIndex, ()⟩ = .next ({ m with heap }.push ring) ∧
        m.heap.Wrote heap ring (.number 1) ring := by
  intro ring m
  have hone : Number.toNat? 1 = some 1 := by decide +kernel
  have hitems : m.heap.array? ⟨0⟩ = some #[ring] := rfl
  refine ⟨.behind hitems hone, ?_⟩
  obtain hwrote | ⟨cause, hraise⟩ := setIndex_laws m 0 ring (.number 1) ring rfl
  · exact hwrote
  · have htarget : m.heap.target ring (.number 1) = .ok (.append ⟨0⟩) := by
      simp [Heap.target, ring, hitems, hone]
    simp only [exec, pop_push, htarget, write] at hraise
    cases hraise

end Machine

end DeployScript
