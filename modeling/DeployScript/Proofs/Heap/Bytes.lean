import DeployScript.Proofs.Heap.Arguments

/-!
# Bytes in an array, read on either side

An array of numbers from 0 to 255 stands for bytes. A builtin reads it where it is (`Heap.convert`), and a host
reads a copy of it (`HostValue.toBytes?`). The two agree on numbers, but a builtin asks what an element is, and
a host what it reads as: `true` and the text `7` are bytes to a host only.

* `Value.ReadsAsByte` — what an element can be for a host to take it as a byte; `Value.IsByte` is that for a
  builtin.
* `Heap.toBytes?_toHost` — a host takes a copy of an array as bytes if and only if it takes each element so.
* `Heap.truth_is_byte_to_host` — an array that a host reads as bytes and that no builtin accepts.
* `Heap.bytes_iff_host_bytes` — a builtin accepts exactly what a host reads as bytes without a truth value or a
  text in it, and then as the same bytes.
-/

namespace DeployScript

namespace Value

/-- **A value that a host reads as a byte:** a byte, a truth value as 0 or 1, or a text that spells a byte. -/
inductive ReadsAsByte : Value → UInt8 → Prop
  | byte {v : Value} {b : UInt8} (hv : v.IsByte b) : ReadsAsByte v b
  | truth (t : Bool) : ReadsAsByte (.bool t) (if t then 1 else 0)
  | spelled {s : String} {n : Float} {b : UInt8} (hs : Number.read? (Text.trim s) = some n)
      (hn : (number n).IsByte b) : ReadsAsByte (.text s) b

/-- A truth value or a text: what reads as a number without being one. -/
def Coerced : Value → Prop
  | .bool _ | .text _ => True
  | _ => False

/-- What a host reads as a byte is one, unless it is a truth value or a text. -/
theorem ReadsAsByte.isByte {v : Value} {b : UInt8} (hv : v.ReadsAsByte b) (hcoerced : ¬ v.Coerced) :
    v.IsByte b := by
  cases hv with
  | byte hv => exact hv
  | truth | spelled => exact absurd trivial hcoerced

theorem IsByte.not_coerced {v : Value} {b : UInt8} (hv : v.IsByte b) : ¬ v.Coerced := by
  cases hv with
  | number => exact id

end Value

/-- **Reading a list** succeeds if each of its elements is read. -/
theorem mapM_eq_some {α ι : Type} {f : α → Option ι} {l : List α} {out : List ι} :
    l.mapM f = some out ↔ List.Forall₂ (fun a b => f a = some b) l out := by
  induction l generalizing out with
  | nil => simp [eq_comm]
  | cons a l ih =>
    simp only [List.mapM_cons, Option.bind_eq_bind, Option.bind_eq_some_iff, Option.pure_def, Option.some_inj,
      List.forall₂_cons_left_iff, ih]
    constructor
    · rintro ⟨b, hb, out', hout, rfl⟩
      exact ⟨b, out', hb, hout, rfl⟩
    · rintro ⟨b, out', hb, hout, rfl⟩
      exact ⟨b, hb, out', hout, rfl⟩

theorem byteOf?_truth (t : Bool) : byteOf? (if t then 1 else 0) = some (if t then 1 else 0) := by
  cases t <;> decide +kernel

namespace Heap

variable {heap : Heap} {h : Handle}

/-- Of what is copied out, only numbers, truth values and texts read as numbers. -/
theorem toNumber?_toHostWithin {v : Value} (hnumber : ∀ n, v ≠ .number n) (hcoerced : ¬ v.Coerced)
    (levels : Nat) : (heap.toHostWithin levels v).toNumber? = none := by
  cases levels with
  | zero => rfl
  | succ levels =>
    cases v with
    | number n => exact absurd rfl (hnumber n)
    | bool | text => exact absurd trivial hcoerced
    | array h =>
      rw [toHostWithin]
      cases heap.array? h <;> rfl
    | record h =>
      rw [toHostWithin]
      cases heap.record? h <;> rfl
    | _ => rfl

/-- **An element of a copy** is a byte to a host if and only if the element itself reads as that byte. -/
theorem byte_toHostWithin (levels : Nat) (v : Value) (b : UInt8) :
    (heap.toHostWithin (levels + 1) v).toNumber?.bind byteOf? = some b ↔ v.ReadsAsByte b := by
  cases v with
  | number n =>
    show byteOf? n = some b ↔ _
    rw [byteOf?_eq_some]
    constructor
    · intro hn
      exact .byte (.number hn)
    · rintro (⟨⟨hn⟩⟩)
      exact hn
  | bool t =>
    show byteOf? (if t then 1 else 0) = some b ↔ _
    rw [byteOf?_truth, Option.some_inj]
    constructor
    · rintro rfl
      exact .truth t
    · rintro (⟨⟨⟩⟩ | ⟨⟩)
      rfl
  | text s =>
    show (Number.read? (Text.trim s)).bind byteOf? = some b ↔ _
    rw [Option.bind_eq_some_iff]
    constructor
    · rintro ⟨n, hs, hn⟩
      exact .spelled hs (.number (byteOf?_eq_some.1 hn))
    · rintro (⟨⟨⟩⟩ | ⟨⟩ | ⟨hs, ⟨hn⟩⟩)
      exact ⟨_, hs, byteOf?_eq_some.2 hn⟩
  | _ =>
    rw [toNumber?_toHostWithin (by rintro _ ⟨⟩) id, Option.bind_none]
    constructor
    · rintro ⟨⟩
    · rintro ⟨⟨⟩⟩

/-- **A host reads a copy of an array** as bytes if and only if each element reads as its byte. -/
theorem toBytes?_toHost (hlive : (heap.array? h).isSome) (bs : List UInt8) :
    (heap.toHost (.array h)).toBytes? = some bs ↔
      List.Forall₂ Value.ReadsAsByte (heap.itemsOf h) bs := by
  obtain ⟨items, hitems⟩ := Option.isSome_iff_exists.1 hlive
  have hcopy : heap.toHost (.array h) = .list (items.toList.map (heap.toHostWithin maxExportDepth)) := by
    simp only [toHost, toHostWithin, hitems]
  have hof : heap.itemsOf h = items.toList := by
    rw [itemsOf, hitems]
    rfl
  rw [hcopy, hof, HostValue.toBytes?, mapM_eq_some, List.forall₂_map_left_iff]
  constructor
  · intro hall
    exact hall.imp fun v b => (byte_toHostWithin 31 v b).1
  · intro hall
    exact hall.imp fun v b => (byte_toHostWithin 31 v b).2

/-- **A builtin reads an array** as bytes if and only if each element is its byte. -/
theorem unpack_bytes_eq_ok {builtin : String} {args : List Arg} :
    heap.unpack builtin [.bytes] [.array h] = .ok args ↔
      ∃ bs, args = [.bytes bs] ∧ List.Forall₂ Value.IsByte (heap.itemsOf h) bs := by
  rw [unpack_eq_ok]
  constructor
  · rintro ⟨-, hall⟩
    obtain ⟨arg, rest, hr, hrest, rfl⟩ := List.forall₂_cons_left_iff.1 hall
    cases hrest
    cases hr with
    | bytes hitems => exact ⟨_, rfl, hitems⟩
  · rintro ⟨bs, rfl, hitems⟩
    exact ⟨rfl, .cons (.bytes hitems) .nil⟩

/-- **A truth value is a byte to a host only:** an array that a host reads as bytes and a builtin refuses. -/
theorem truth_is_byte_to_host :
    ∃ (heap : Heap) (h : Handle), (heap.array? h).isSome ∧
      (heap.toHost (.array h)).toBytes? = some [1] ∧
      heap.unpack "WriteFile" [.bytes] [.array h]
        = .error (.argumentType "WriteFile" 1 "bytes" "array containing bool") := by
  refine ⟨(Heap.empty.newArray #[.bool true]).2, ⟨0⟩, rfl, ?_, rfl⟩
  exact (toBytes?_toHost rfl [1]).2 (.cons (.truth true) .nil)

/-- **A builtin accepts what a host reads as bytes** without a truth value or a text in it, and nothing else. Then
both read the same bytes. What a host takes as bytes is said element by element. -/
theorem bytes_iff_host_bytes (hlive : (heap.array? h).isSome) (builtin : String) :
    (∀ args, heap.unpack builtin [.bytes] [.array h] = .ok args ↔
      ∃ bs, args = [.bytes bs] ∧ (heap.toHost (.array h)).toBytes? = some bs ∧
        ∀ item ∈ heap.itemsOf h, ¬ item.Coerced) ∧
    ∀ bs, (heap.toHost (.array h)).toBytes? = some bs ↔
      List.Forall₂ Value.ReadsAsByte (heap.itemsOf h) bs := by
  refine ⟨fun args => ?_, toBytes?_toHost hlive⟩
  rw [unpack_bytes_eq_ok]
  refine exists_congr fun bs => and_congr_right fun _ => ?_
  rw [toBytes?_toHost hlive]
  constructor
  · intro hall
    refine ⟨hall.imp fun _ _ => .byte, ?_⟩
    intro item hitem
    obtain ⟨b, -, hb⟩ := (forall₂_exists hall).1 item hitem
    exact hb.not_coerced
  · rintro ⟨hall, hnone⟩
    refine List.forall₂_iff_zip.2 ⟨hall.length_eq, ?_⟩
    intro item b hmem
    exact ((List.forall₂_iff_zip.1 hall).2 hmem).isByte (hnone item (List.of_mem_zip hmem).1)

/-- An array of a byte and of the text of a byte, with blanks around its digits. -/
def spelledBytes : Heap := (Heap.empty.newArray #[.number 7, .text " 255 "]).2

/-- A host reads it as two bytes, and a builtin refuses it. -/
theorem spelledBytes_refused :
    (spelledBytes.array? ⟨0⟩).isSome ∧
      (spelledBytes.toHost (.array ⟨0⟩)).toBytes? = some [7, 255] ∧
      ∀ args, spelledBytes.unpack "WriteFile" [.bytes] [.array ⟨0⟩] ≠ .ok args := by
  have hlive : (spelledBytes.array? ⟨0⟩).isSome := rfl
  obtain ⟨haccepts, hreads⟩ := bytes_iff_host_bytes hlive "WriteFile"
  have hseven : Value.IsByte (.number 7) 7 := .number (by decide +kernel)
  have hspelled : Value.ReadsAsByte (.text " 255 ") 255 :=
    .spelled (n := 255) (by decide +kernel) (.number (by decide +kernel))
  refine ⟨hlive, (hreads [7, 255]).2 (.cons (.byte hseven) (.cons hspelled .nil)), ?_⟩
  intro args hok
  obtain ⟨-, -, -, hnone⟩ := (haccepts args).1 hok
  exact hnone (.text " 255 ") (List.mem_cons_of_mem _ List.mem_cons_self) trivial

end Heap

end DeployScript
