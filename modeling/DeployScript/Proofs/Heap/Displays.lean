import DeployScript.Proofs.Heap.Arguments

/-!
# Values and their copies as text

A script shows a value where it lies on the heap (`Heap.display`), and a host shows the copy that it gets
(`HostValue.display`). The one prints dots 17 levels deep, and the other gets nil 33 levels deep. Up to 16 levels
both print the same.

* `Heap.Nested` — the parts of a value, each with its depth; `Heap.Plain` — a value that a script and a host can
  show alike, said of its parts.
* `Heap.Plain.display_toHostWithin` — a copy shows what the value shows.
* `Heap.StandsFor.plain` — so the copy of what stands for a value of the host may be shown instead.
* `Heap.display_alike` — both directions: copies of values, and what values of the host become.
-/

namespace DeployScript

/-! ### Values of the host as text -/

/-- A number that equals a positive integer has no sign. -/
theorem Number.parts_of_toInt? {x : Float} {n : Nat} (hn : Number.toInt? x = some (n : Int))
    (hpos : 0 < n) : ∃ significand exponent,
      Number.parts x = .finite false significand exponent ∧ significand ≠ 0 := by
  have hsigned : ∀ negative k, Number.signed negative k = (n : Int) → negative = false := by
    intro negative k hk
    cases negative with
    | false => rfl
    | true =>
      simp only [Number.signed, if_true] at hk
      omega
  unfold Number.toInt? at hn
  cases hparts : Number.parts x with
  | undefined | infinite =>
    rw [hparts] at hn
    cases hn
  | finite negative significand exponent =>
    simp only [hparts] at hn
    split at hn
    case isTrue =>
      have hn' : (0 : Int) = n := Option.some.inj hn
      omega
    case isFalse hzero =>
      split at hn
      · obtain rfl := hsigned _ _ (Option.some.inj hn)
        exact ⟨significand, exponent, rfl, hzero⟩
      · split at hn
        · obtain rfl := hsigned _ _ (Option.some.inj hn)
          exact ⟨significand, exponent, rfl, hzero⟩
        · cases hn

/-- **A positive integer that is exact** is written with its digits alone. -/
theorem Number.text_of_toInt? {x : Float} {n : Nat} (hn : Number.toInt? x = some (n : Int)) (hpos : 0 < n)
    (hlt : n < Nat.pow 2 53) : Number.text x = toString n := by
  obtain ⟨significand, exponent, hparts, hzero⟩ := Number.parts_of_toInt? hn hpos
  simp only [Number.text, hparts, hn, if_neg hzero, Int.natAbs_natCast, if_pos hlt, Bool.false_eq_true,
    if_false, String.empty_append]

namespace HostValue

theorem displayItems_eq (items : List HostValue) (shown : List String) :
    displayItems items shown = (items.map display).reverse ++ shown := by
  induction items generalizing shown with
  | nil => rfl
  | cons item items ih => simp [displayItems, ih]

theorem displayFields_eq (fields : List (String × HostValue)) (shown : List String) :
    displayFields fields shown = (fields.map fun f => f.1 ++ ": " ++ f.2.display).reverse ++ shown := by
  induction fields generalizing shown with
  | nil => rfl
  | cons field fields ih => simp [displayFields, ih]

@[simp]
theorem display_list (items : List HostValue) :
    (list items).display = ",".intercalate (items.map display) := by
  simp [display, displayItems_eq, joined]

@[simp]
theorem display_record (fields : List (String × HostValue)) :
    (record fields).display
      = "\x7b" ++ ", ".intercalate (fields.map fun f => f.1 ++ ": " ++ f.2.display) ++ "\x7d" := by
  simp [display, displayFields_eq, joined]

theorem plainItems_eq (items : List HostValue) : plainItems items = items.map plain := by
  induction items with
  | nil => rfl
  | cons item items ih => rw [plainItems, ih, List.map_cons]

theorem plainFields_eq (fields : List (String × HostValue)) :
    plainFields fields = fields.map fun f => (f.1, f.2.plain) := by
  induction fields with
  | nil => rfl
  | cons field fields ih => rw [plainFields, ih, List.map_cons]

/-- A value that holds no function, at whatever depth. -/
def NoFunction (v : HostValue) : Prop := ∀ depth part, Nested depth part v → part.isFunction = false

/-- The number of a byte is shown as the byte is. -/
theorem text_byte (b : UInt8) : Number.text (Float.ofNat b.toNat) = toString b.toNat := by
  cases Heap.isByte_ofNat b with
  | number hn =>
    rcases Nat.eq_zero_or_pos b.toNat with hzero | hpos
    · rw [hzero]
      decide +kernel
    · have hlt : b.toNat < Nat.pow 2 53 := Nat.lt_trans b.toNat_lt_size (by decide)
      exact Number.text_of_toInt? hn hpos hlt

/-- **Bytes are shown as the list of their numbers.** -/
theorem display_plain : ∀ v : HostValue, v.NoFunction → v.plain.display = v.display
  | bytes bs, _ => by
    rw [plain, display_list, display, List.map_map]
    exact congrArg _ (List.map_congr_left fun b _ => text_byte b)
  | list items, hv => by
    rw [plain, plainItems_eq, display_list, display_list, List.map_map]
    refine congrArg _ (List.map_congr_left fun item hitem => ?_)
    exact display_plain item fun depth part hn => hv (depth + 1) part (.item hitem hn)
  | record fields, hv => by
    rw [plain, plainFields_eq, display_record, display_record, List.map_map]
    refine congrArg (fun shown => "\x7b" ++ ", ".intercalate shown ++ "\x7d")
      (List.map_congr_left fun f hf => ?_)
    have hvalue : f.2.plain.display = f.2.display :=
      display_plain f.2 fun depth part hn => hv (depth + 1) part (.field hf hn)
    show f.1 ++ ": " ++ f.2.plain.display = _
    rw [hvalue]
  | function name, hv => absurd (hv 0 _ (.root _)) (by simp [isFunction])
  | nil, _ | bool _, _ | number _, _ | text _, _ => rfl
termination_by v => v
decreasing_by
  · have hsize := List.sizeOf_lt_of_mem hitem
    simp only [list.sizeOf_spec]
    omega
  · have hsize := List.sizeOf_lt_of_mem hf
    rcases f with ⟨key, item⟩
    simp only [Prod.mk.sizeOf_spec, record.sizeOf_spec] at hsize ⊢
    omega

/-- **A value of few levels:** all its parts stand less deep than that. -/
def Shallow (levels : Nat) (v : HostValue) : Prop := ∀ depth part, Nested depth part v → depth < levels

variable {levels : Nat}

theorem Shallow.exists_succ {v : HostValue} (hs : v.Shallow levels) : ∃ fewer, levels = fewer + 1 :=
  Nat.exists_eq_succ_of_ne_zero (Nat.ne_of_gt (hs 0 v (.root v)))

theorem Shallow.item {items : List HostValue} (hs : (list items).Shallow (levels + 1))
    {item : HostValue} (hitem : item ∈ items) : item.Shallow levels :=
  fun depth part hn => Nat.lt_of_succ_lt_succ (hs (depth + 1) part (.item hitem hn))

theorem Shallow.field {fields : List (String × HostValue)} (hs : (record fields).Shallow (levels + 1))
    {f : String × HostValue} (hf : f ∈ fields) : f.2.Shallow levels :=
  fun depth part hn => Nat.lt_of_succ_lt_succ (hs (depth + 1) part (.field hf hn))

/-- **Cutting off deep parts** changes nothing if there are none. -/
theorem Shallow.cut_eq {more : Nat} {v : HostValue} (hs : v.Shallow levels) (hle : levels ≤ more) :
    v.cut more = v := by
  induction levels generalizing v more with
  | zero => exact absurd (hs 0 v (.root v)) (Nat.not_lt_zero 0)
  | succ levels ih =>
    obtain ⟨more, rfl⟩ : ∃ k, more = k + 1 := Nat.exists_eq_succ_of_ne_zero (by omega)
    replace hle := Nat.le_of_succ_le_succ hle
    cases v with
    | list items =>
      have hitems : items.map (cut more) = items.map id :=
        List.map_congr_left fun item hitem => ih (hs.item hitem) hle
      rw [cut, hitems, List.map_id]
    | record fields =>
      have hfields : fields.map (fun f => (f.1, cut more f.2)) = fields.map id :=
        List.map_congr_left fun f hf => Prod.ext rfl (ih (hs.field hf) hle)
      rw [cut, hfields, List.map_id]
    | _ => rfl

end HostValue

/-- A function that no script has written: an intrinsic or a builtin. -/
def Value.Provided : Value → Prop
  | .intrinsic _ | .builtin _ => True
  | _ => False

namespace Heap

variable {heap heap' : Heap} {h : Handle} {object : Object} {v : Value} {host : HostValue} {levels : Nat}

/-! ### Values and their copies -/

/-- **A part of a value** that stands `depth` containers deep in it. -/
inductive Nested (heap : Heap) : (depth : Nat) → (part whole : Value) → Prop
  | root (v : Value) : Nested heap 0 v v
  | item {depth : Nat} {part item : Value} {h : Handle} {items : Array Value}
      (hitems : heap.array? h = some items) (hitem : item ∈ items.toList)
      (hpart : Nested heap depth part item) : Nested heap (depth + 1) part (.array h)
  | field {depth : Nat} {part : Value} {e : String × Value} {h : Handle} {fields : Fields}
      (hfields : heap.record? h = some fields) (hfield : e ∈ fields.toList)
      (hpart : Nested heap depth part e.2) : Nested heap (depth + 1) part (.record h)

/-- **The object of a value is there:** an array, a record, or the code of a function. -/
def Live (heap : Heap) : Value → Prop
  | .array h => (heap.array? h).isSome
  | .record h => (heap.record? h).isSome
  | .function h | .closure h => (heap.code? h).isSome
  | _ => True

/-- **A value of few levels,** all of whose objects are there, and whose functions come from scripts. -/
def Plain (heap : Heap) (levels : Nat) (v : Value) : Prop :=
  ∀ depth part, heap.Nested depth part v → depth < levels ∧ heap.Live part ∧ ¬ part.Provided

theorem Plain.item (hp : heap.Plain (levels + 1) (.array h)) {items : Array Value}
    (hitems : heap.array? h = some items) {item : Value} (hitem : item ∈ items.toList) :
    heap.Plain levels item := by
  intro depth part hn
  obtain ⟨hdepth, hrest⟩ := hp (depth + 1) part (.item hitems hitem hn)
  exact ⟨Nat.lt_of_succ_lt_succ hdepth, hrest⟩

theorem Plain.field (hp : heap.Plain (levels + 1) (.record h)) {fields : Fields}
    (hfields : heap.record? h = some fields) {e : String × Value} (he : e ∈ fields.toList) :
    heap.Plain levels e.2 := by
  intro depth part hn
  obtain ⟨hdepth, hrest⟩ := hp (depth + 1) part (.field hfields he hn)
  exact ⟨Nat.lt_of_succ_lt_succ hdepth, hrest⟩

/-- A function whose code is there is shown by its name on both sides. -/
theorem displayFunction_of_live (hlive : (heap.code? h).isSome) :
    heap.displayFunction h = "<fn " ++ (heap.functionName? h).getD "<fn>" ++ ">" := by
  obtain ⟨p, hp⟩ := Option.isSome_iff_exists.1 hlive
  have hname : heap.functionName? h = some p.name := by rw [functionName?, hp, Option.map_some]
  rw [displayFunction, hname, Option.getD_some]

/-- **A copy shows what the value shows,** if it has at least as many levels. -/
theorem Plain.display_toHostWithin {more : Nat} (hle : levels ≤ more) (hp : heap.Plain levels v) :
    (heap.toHostWithin more v).display = heap.displayWithin levels v := by
  induction levels generalizing v more with
  | zero => exact absurd (hp 0 v (.root v)).1 (Nat.not_lt_zero 0)
  | succ levels ih =>
    obtain ⟨more, rfl⟩ : ∃ k, more = k + 1 := Nat.exists_eq_succ_of_ne_zero (by omega)
    replace hle := Nat.le_of_succ_le_succ hle
    obtain ⟨-, hlive, hscripted⟩ := hp 0 v (.root v)
    cases v with
    | array h =>
      obtain ⟨items, hitems⟩ := Option.isSome_iff_exists.1 hlive
      simp only [toHostWithin, displayWithin, hitems, HostValue.display_list, List.map_map]
      exact congrArg _ (List.map_congr_left fun item hitem => ih hle (hp.item hitems hitem))
    | record h =>
      obtain ⟨fields, hfields⟩ := Option.isSome_iff_exists.1 hlive
      simp only [toHostWithin, displayWithin, hfields, HostValue.display_record, List.map_map]
      refine congrArg (fun shown => "\x7b" ++ ", ".intercalate shown ++ "\x7d")
        (List.map_congr_left fun e he => ?_)
      exact congrArg (e.1 ++ ": " ++ ·) (ih hle (hp.field hfields he))
    | function h => exact (displayFunction_of_live hlive).symm
    | closure h => exact (displayFunction_of_live hlive).symm
    | intrinsic | builtin => exact absurd trivial hscripted
    | nil | bool | number | text => rfl

/-! ### Values of the host and what they become -/

/-- **What stands for a value of the host** has as few levels as that one, and all its objects are there. -/
theorem StandsFor.plain (hs : heap.StandsFor v host) (hshallow : host.Shallow levels) :
    heap.Plain levels v := by
  intro depth part hn
  induction hn generalizing host levels with
  | root v =>
    refine ⟨hshallow 0 host (.root host), ?_⟩
    cases hs with
    | array hv => exact ⟨by rw [Live, hv]; rfl, id⟩
    | record hf => exact ⟨by rw [Live, hf]; rfl, id⟩
    | nil | bool | number | text => exact ⟨trivial, id⟩
  | item hitems hitem _ ih =>
    cases hs with
    | array hv hlength hall =>
      obtain rfl := Option.some.inj (hv.symm.trans hitems)
      obtain ⟨levels, rfl⟩ := hshallow.exists_succ
      have hpairs : List.Forall₂ heap.StandsFor _ _ := List.forall₂_iff_zip.2 ⟨hlength, fun hp => hall _ hp⟩
      obtain ⟨hostItem, hmem, hpair⟩ := (forall₂_exists hpairs).1 _ hitem
      obtain ⟨hdepth, hrest⟩ := ih hpair (hshallow.item hmem)
      exact ⟨Nat.succ_lt_succ hdepth, hrest⟩
  | field hfields hfield _ ih =>
    cases hs with
    | record hf hlength _ hall =>
      obtain rfl := Option.some.inj (hf.symm.trans hfields)
      obtain ⟨levels, rfl⟩ := hshallow.exists_succ
      have hpairs : List.Forall₂ (fun (e : String × Value) (f : String × HostValue) =>
          heap.StandsFor e.2 f.2) _ _ :=
        List.forall₂_iff_zip.2 ⟨hlength, fun hp => hall _ hp⟩
      obtain ⟨hostField, hmem, hpair⟩ := (forall₂_exists hpairs).1 _ hfield
      obtain ⟨hdepth, hrest⟩ := ih hpair (hshallow.field hmem)
      exact ⟨Nat.succ_lt_succ hdepth, hrest⟩

/-! ### Both ways -/

/-- **Scripts and hosts show values alike,** if no part of a value stands more than 16 containers deep. A value of
a script, all of whose objects are there and whose functions come from scripts, is shown as its copy is. A value
of the host without functions is shown as what it becomes on a heap, where bytes are an array of numbers. -/
theorem display_alike :
    (∀ (heap : Heap) (v : Value),
      (∀ depth part, heap.Nested depth part v → depth ≤ 16 ∧ heap.Live part ∧ ¬ part.Provided) →
      (heap.toHost v).display = heap.display v) ∧
    ∀ (heap : Heap) (host : HostValue), heap.Made → host.Ordered →
      (∀ depth part, HostValue.Nested depth part host → part.isFunction = false) →
      (∀ depth part, HostValue.Nested depth part host.plain → depth ≤ 16) →
      (ofHost host heap).2.display (ofHost host heap).1 = host.display := by
  constructor
  · intro heap v hparts
    have hplain : heap.Plain 17 v := by
      intro depth part hn
      obtain ⟨hdepth, hrest⟩ := hparts depth part hn
      exact ⟨Nat.lt_succ_of_le hdepth, hrest⟩
    exact hplain.display_toHostWithin (by decide)
  · intro heap host hm ho hfunction hdepth
    obtain ⟨-, -, hpart⟩ := hm.tidy.adds.ofHost host ho
    have hshallow : host.plain.Shallow 17 := fun depth part hn => Nat.lt_succ_of_le (hdepth depth part hn)
    have hcopy : (ofHost host heap).2.toHost (ofHost host heap).1 = host.plain := by
      rw [toHost, hpart.stands.toHostWithin, hshallow.cut_eq (by decide)]
    rw [← HostValue.display_plain host hfunction, ← hcopy]
    exact ((hpart.stands.plain hshallow).display_toHostWithin (by decide)).symm

/-- Lists in one another, with bytes in the innermost one. -/
def nest : (lists : Nat) → HostValue
  | 0 => .bytes [0, 255]
  | lists + 1 => .list [.text "in", nest lists]

theorem nest_ordered (lists : Nat) : (nest lists).Ordered := by
  have htext : (HostValue.text "in").Ordered := fun _ _ hn => nomatch hn
  induction lists with
  | zero => exact fun _ _ hn => nomatch hn
  | succ lists ih =>
    refine HostValue.ordered_list.2 (List.forall_mem_cons.2 ⟨htext, ?_⟩)
    exact List.forall_mem_singleton.2 ih

theorem nest_noFunction (lists : Nat) : (nest lists).NoFunction := by
  induction lists with
  | zero =>
    intro depth part hn
    cases hn with
    | root => rfl
  | succ lists ih =>
    intro depth part hn
    cases hn with
    | root => rfl
    | item hitem hn =>
      rcases List.mem_pair.1 hitem with rfl | rfl
      · cases hn with
        | root => rfl
      · exact ih _ part hn

/-- The bytes are one more level. -/
theorem nest_shallow (lists : Nat) : (nest lists).plain.Shallow (lists + 2) := by
  induction lists with
  | zero =>
    intro depth part hn
    cases hn with
    | root => exact Nat.zero_lt_two
    | item hitem hn =>
      obtain ⟨b, -, rfl⟩ := List.mem_map.1 hitem
      cases hn with
      | root => exact Nat.one_lt_two
  | succ lists ih =>
    intro depth part hn
    cases hn with
    | root => exact Nat.succ_pos _
    | item hitem hn =>
      rcases List.mem_pair.1 hitem with rfl | rfl
      · cases hn with
        | root => exact Nat.succ_lt_succ (Nat.succ_pos _)
      · exact Nat.succ_lt_succ (ih _ part hn)

/-- Bytes in fifteen lists are shown in full on both sides, also where they took a slot that was freed. -/
theorem nest_display :
    oneFreed.Made ∧ (nest 15).Ordered ∧ (nest 15).NoFunction ∧ (nest 15).plain.Shallow 17 ∧
      (ofHost (nest 15) oneFreed).2.Plain 17 (ofHost (nest 15) oneFreed).1 ∧
      (ofHost (nest 15) oneFreed).2.display (ofHost (nest 15) oneFreed).1 = (nest 15).display ∧
      ((ofHost (nest 15) oneFreed).2.toHost (ofHost (nest 15) oneFreed).1).display
        = (ofHost (nest 15) oneFreed).2.display (ofHost (nest 15) oneFreed).1 := by
  obtain ⟨hcopy, hstored⟩ := display_alike
  obtain ⟨-, -, hpart⟩ := oneFreed_made.tidy.adds.ofHost (nest 15) (nest_ordered 15)
  have hplain := hpart.stands.plain (nest_shallow 15)
  refine ⟨oneFreed_made, nest_ordered 15, nest_noFunction 15, nest_shallow 15, hplain, ?_, ?_⟩
  · refine hstored oneFreed (nest 15) oneFreed_made (nest_ordered 15) (nest_noFunction 15) ?_
    exact fun depth part hn => Nat.le_of_lt_succ (nest_shallow 15 depth part hn)
  · refine hcopy _ _ fun depth part hn => ?_
    obtain ⟨hdepth, hrest⟩ := hplain depth part hn
    exact ⟨Nat.le_of_lt_succ hdepth, hrest⟩

end Heap

end DeployScript
