import DeployScript.Proofs.Heap.Exchange

/-!
# What is read of the arguments of a builtin

A builtin asks for its arguments by shapes, and gets all of them or a refusal. Here the shapes are said once
more, by relations that speak of values and of no reading, and `Heap.unpack` is compared with them.

* `Heap.Fits` — whether a value has a shape; `Heap.Reads` — as what it is read; `Heap.Misfits` — what a
  refusal says of it.
* `FirstNot` — the first element of a list that lacks a property. Refusals name it twice: among the arguments,
  and among the elements of an array.
* `Heap.unpack_complete` — each call is refused for its count, or for its first argument that does not fit, or
  else all its arguments are read. Bytes that come from the host are read as they were.
-/

namespace DeployScript

/-! ### The first element that lacks a property -/

/-- **The first element** of a list that lacks a property, with its place. -/
def FirstNot {α : Type} (P : α → Prop) (l : List α) (i : Nat) (a : α) : Prop :=
  l[i]? = some a ∧ ¬ P a ∧ ∀ j < i, ∀ b, l[j]? = some b → P b

section FirstNot

variable {α ε ι : Type} {P Q : α → Prop} {l : List α}

theorem FirstNot.congr (hPQ : ∀ a, P a ↔ Q a) {i : Nat} {a : α} :
    FirstNot P l i a ↔ FirstNot Q l i a := by
  simp only [FirstNot, hPQ]

/-- There is only one that is the first. -/
theorem FirstNot.unique {i j : Nat} {a b : α} (h : FirstNot P l i a) (h' : FirstNot P l j b) :
    a = b := by
  obtain ⟨hi, ha, hbefore⟩ := h
  obtain ⟨hj, hb, hbefore'⟩ := h'
  rcases Nat.lt_trichotomy i j with hlt | rfl | hlt
  · exact absurd (hbefore' i hlt a hi) ha
  · exact Option.some.inj (hi.symm.trans hj)
  · exact absurd (hbefore j hlt b hj) hb

/-- There is a first one if there is one at all. -/
theorem exists_firstNot : (∃ i a, FirstNot P l i a) ↔ ∃ a ∈ l, ¬ P a := by
  constructor
  · rintro ⟨i, a, hi, ha, -⟩
    exact ⟨a, List.mem_of_getElem? hi, ha⟩
  · rintro ⟨a, hmem, ha⟩
    -- Of the places with such an element the least one is taken.
    have hplace : ∃ i : Nat, ∃ a, l[i]? = some a ∧ ¬ P a := by
      obtain ⟨i, hi⟩ := List.mem_iff_getElem?.1 hmem
      exact ⟨i, a, hi, ha⟩
    classical
    obtain ⟨a', hi, ha'⟩ := Nat.find_spec hplace
    refine ⟨Nat.find hplace, a', hi, ha', ?_⟩
    intro j hj b hb
    by_contra hnot
    exact Nat.find_min hplace hj ⟨b, hb, hnot⟩

/-- **Reading a list** succeeds if each of its elements is read. -/
theorem mapM_eq_ok {f : α → Except ε ι} {out : List ι} :
    l.mapM f = .ok out ↔ List.Forall₂ (fun a b => f a = .ok b) l out := by
  induction l generalizing out with
  | nil =>
    rw [List.mapM_nil, List.forall₂_nil_left_iff]
    constructor
    · rintro ⟨⟩
      rfl
    · rintro rfl
      rfl
  | cons a l ih =>
    rw [List.mapM_cons, List.forall₂_cons_left_iff]
    cases ha : f a with
    | error e =>
      constructor
      · rintro ⟨⟩
      · rintro ⟨b, _, ⟨⟩, _⟩
    | ok b =>
      cases hl : l.mapM f with
      | error e =>
        constructor
        · rintro ⟨⟩
        · rintro ⟨_, out', _, hout, _⟩
          rw [← ih, hl] at hout
          cases hout
      | ok out' =>
        have hout := ih.1 hl
        constructor
        · rintro ⟨⟩
          exact ⟨b, out', rfl, hout, rfl⟩
        · rintro ⟨c, out'', hc, hout', rfl⟩
          cases hc
          rw [← ih, hl] at hout'
          cases hout'
          rfl

/-- It fails at the first element that is not read, with the failure of that element. -/
theorem mapM_eq_error {f : α → Except ε ι} {e : ε} :
    l.mapM f = .error e ↔ ∃ i a, FirstNot (fun a => ∃ b, f a = .ok b) l i a ∧ f a = .error e := by
  induction l with
  | nil =>
    constructor
    · rintro ⟨⟩
    · rintro ⟨i, a, ⟨hi, -⟩, -⟩
      cases hi
  | cons a l ih =>
    rw [List.mapM_cons]
    cases ha : f a with
    | error e' =>
      constructor
      · rintro ⟨⟩
        refine ⟨0, a, ⟨rfl, ?_, fun j hj => absurd hj (Nat.not_lt_zero j)⟩, ha⟩
        show ¬ ∃ b, f a = .ok b
        rw [ha]
        rintro ⟨b, ⟨⟩⟩
      · rintro ⟨i, b, ⟨hi, -, hbefore⟩, hb⟩
        -- No later element can be the first one.
        cases i with
        | zero =>
          cases hi
          rw [ha] at hb
          cases hb
          rfl
        | succ i =>
          obtain ⟨c, hc⟩ := hbefore 0 (Nat.succ_pos i) a rfl
          rw [ha] at hc
          cases hc
    | ok b =>
      have hrest : (do let b ← Except.ok b; let bs ← l.mapM f; pure (b :: bs)) = .error e ↔
          l.mapM f = .error e := by
        cases l.mapM f with
        | error e' => exact Iff.rfl
        | ok bs => exact ⟨nofun, nofun⟩
      rw [hrest, ih]
      constructor
      · rintro ⟨i, c, ⟨hi, hnot, hbefore⟩, hc⟩
        refine ⟨i + 1, c, ⟨hi, hnot, ?_⟩, hc⟩
        intro j hj d hd
        cases j with
        | zero =>
          cases hd
          exact ⟨b, ha⟩
        | succ j => exact hbefore j (Nat.lt_of_succ_lt_succ hj) d hd
      · rintro ⟨i, c, ⟨hi, hnot, hbefore⟩, hc⟩
        cases i with
        | zero =>
          cases hi
          exact absurd ⟨b, ha⟩ hnot
        | succ i =>
          exact ⟨i, c, ⟨hi, hnot, fun j hj => hbefore (j + 1) (Nat.succ_lt_succ hj)⟩, hc⟩

end FirstNot

/-! ### Elements of arrays -/

namespace Value

/-- **A value that is a byte:** a number that equals an integer from 0 to 255. -/
inductive IsByte : Value → UInt8 → Prop
  | number {n : Float} {b : UInt8} (hn : Number.toInt? n = some (b.toNat : Int)) : IsByte (.number n) b

/-- **A value that is a text in an array of texts:** a text, or a number as its text. -/
inductive IsText : Value → String → Prop
  | text (s : String) : IsText (.text s) s
  | number (n : Float) : IsText (.number n) (Number.text n)

/-- How a refusal shows an element: a number is shown itself, anything else by its type. -/
def shownInArray : Value → String
  | .number n => "array containing " ++ Number.text n
  | v => "array containing " ++ v.typeName

end Value

/-- A number is a byte if it equals an integer that fits. -/
theorem byteOf?_eq_some {n : Float} {b : UInt8} :
    byteOf? n = some b ↔ Number.toInt? n = some (b.toNat : Int) := by
  unfold byteOf? Number.toNat?
  cases Number.toInt? n with
  | none => simp
  | some i =>
    cases i with
    | negSucc k => simp
    | ofNat k =>
      show (if k < UInt8.size then some (UInt8.ofNat k) else none) = some b ↔
        some (k : Int) = some (b.toNat : Int)
      have hb : b.toNat < UInt8.size := b.toNat_lt_size
      rw [Option.some_inj, Nat.cast_inj]
      constructor
      · intro h
        split at h
        case isTrue hk =>
          cases h
          exact (UInt8.toNat_ofNat_of_lt hk).symm
        case isFalse => cases h
      · rintro rfl
        rw [if_pos hb, UInt8.ofNat_toNat]

namespace Heap

theorem itemByte_eq_ok {v : Value} {b : UInt8} : itemByte v = .ok b ↔ v.IsByte b := by
  cases v with
  | number n =>
    have hread : itemByte (.number n) = .ok b ↔ byteOf? n = some b := by
      cases hb : byteOf? n <;> simp [itemByte, hb]
    rw [hread, byteOf?_eq_some]
    exact ⟨.number, fun hv => by cases hv with | number hn => exact hn⟩
  | _ => exact ⟨nofun, nofun⟩

theorem itemText_eq_ok {v : Value} {s : String} : itemText v = .ok s ↔ v.IsText s := by
  cases v with
  | text _ => exact ⟨fun h => by cases h; exact .text _, fun hv => by cases hv; rfl⟩
  | number _ => exact ⟨fun h => by cases h; exact .number _, fun hv => by cases hv; rfl⟩
  | _ => exact ⟨nofun, nofun⟩

/-- An element that is no byte is refused as what it is. -/
theorem itemByte_error {v : Value} {got : String} (h : itemByte v = .error got) :
    got = v.shownInArray := by
  cases v with
  | number n =>
    cases hb : byteOf? n with
    | some b =>
      simp only [itemByte, hb] at h
      cases h
    | none =>
      simp only [itemByte, hb] at h
      exact (Except.error.inj h).symm
  | _ => exact (Except.error.inj h).symm

theorem itemText_error {v : Value} {got : String} (h : itemText v = .error got) :
    got = v.shownInArray := by
  cases v with
  | text | number => cases h
  | _ => exact (Except.error.inj h).symm

end Heap

/-! ### Shapes -/

namespace Shape

/-- The kinds of values that a shape accepts, whatever is in them. -/
def Accepts : Shape → Value → Prop
  | .text, .text _ => True
  | .number, .number _ => True
  | .bytes, .text _ => True
  | .bytes, .array _ => True
  | .texts, .array _ => True
  | _, _ => False

/-- The elements that an array of the shape may have. -/
def Takes : Shape → Value → Prop
  | .bytes, v => ∃ b, v.IsByte b
  | .texts, v => ∃ s, v.IsText s
  | _, _ => False

end Shape

/-- The shape of an argument that has been read. -/
def Arg.shape : Arg → Shape
  | .text _ => .text
  | .number _ => .number
  | .bytes _ => .bytes
  | .texts _ => .texts

namespace Heap

/-- **A value has a shape:** it is of a kind that the shape accepts, and if it is an array, the shape takes all
its elements. -/
def Fits (heap : Heap) (shape : Shape) (v : Value) : Prop :=
  shape.Accepts v ∧ ∀ h, v = .array h → ∀ item ∈ heap.itemsOf h, shape.Takes item

/-- **What a value of a shape is read as.** -/
inductive Reads (heap : Heap) : Shape → Value → Arg → Prop
  | text (s : String) : Reads heap .text (.text s) (.text s)
  | number (n : Float) : Reads heap .number (.number n) (.number n)
  | encoded (s : String) : Reads heap .bytes (.text s) (.bytes s.toUTF8.toList)
  | bytes {h : Handle} {bs : List UInt8} (hitems : List.Forall₂ Value.IsByte (heap.itemsOf h) bs) :
    Reads heap .bytes (.array h) (.bytes bs)
  | texts {h : Handle} {ss : List String} (hitems : List.Forall₂ Value.IsText (heap.itemsOf h) ss) :
    Reads heap .texts (.array h) (.texts ss)

/-- **What a refusal says** of a value that does not have a shape: its type if it is of a wrong kind, and of an
array the first element that the shape does not take. -/
inductive Misfits (heap : Heap) : Shape → Value → String → Prop
  | kind {shape : Shape} {v : Value} (hkind : ¬ shape.Accepts v) : Misfits heap shape v v.typeName
  | element {shape : Shape} {h : Handle} {i : Nat} {item : Value} (hkind : shape.Accepts (.array h))
      (hfirst : FirstNot shape.Takes (heap.itemsOf h) i item) :
    Misfits heap shape (.array h) item.shownInArray

variable {heap : Heap} {shape : Shape} {v : Value} {arg : Arg} {got : String}

theorem Reads.shape_eq (hr : heap.Reads shape v arg) : arg.shape = shape := by
  cases hr <;> rfl

/-- A value that is read has the shape. -/
theorem Reads.fits (hr : heap.Reads shape v arg) : heap.Fits shape v := by
  cases hr with
  | text | number | encoded => exact ⟨trivial, nofun⟩
  | bytes hitems =>
    refine ⟨trivial, ?_⟩
    rintro _ ⟨⟩ item hitem
    obtain ⟨b, -, hb⟩ := (forall₂_exists hitems).1 item hitem
    exact ⟨b, hb⟩
  | texts hitems =>
    refine ⟨trivial, ?_⟩
    rintro _ ⟨⟩ item hitem
    obtain ⟨s, -, hs⟩ := (forall₂_exists hitems).1 item hitem
    exact ⟨s, hs⟩

/-- A value that a refusal speaks of does not have the shape. -/
theorem Misfits.not_fits (hm : heap.Misfits shape v got) : ¬ heap.Fits shape v := by
  rintro ⟨hkind, hitems⟩
  cases hm with
  | kind hnot => exact hnot hkind
  | element _ hfirst =>
    obtain ⟨hi, hnot, -⟩ := hfirst
    exact hnot (hitems _ rfl _ (List.mem_of_getElem? hi))

/-! ### One argument -/

theorem convert_of_not_accepts (hkind : ¬ shape.Accepts v) :
    heap.convert shape v = .error v.typeName := by
  cases shape <;> cases v <;> first | rfl | exact absurd trivial hkind

/-- The elements of an array, of whatever shape: all of them are read, or the first that cannot be is what
the refusal shows. -/
theorem mapM_items_cases {ι : Type} {read : Value → Except String ι}
    (htakes : ∀ item, (∃ b, read item = .ok b) ↔ shape.Takes item)
    (herror : ∀ item e, read item = .error e → e = item.shownInArray) (items : List Value) :
    (∃ out, items.mapM read = .ok out ∧ List.Forall₂ (fun a b => read a = .ok b) items out) ∨
      ∃ i item, FirstNot shape.Takes items i item ∧ items.mapM read = .error item.shownInArray := by
  cases hall : items.mapM read with
  | ok out => exact Or.inl ⟨out, rfl, mapM_eq_ok.1 hall⟩
  | error e =>
    obtain ⟨i, item, hfirst, he⟩ := mapM_eq_error.1 hall
    rw [herror item e he]
    exact Or.inr ⟨i, item, (FirstNot.congr htakes).1 hfirst, rfl⟩

/-- **An argument** is read as what its shape asks for, or refused for what it is. -/
theorem convert_cases (heap : Heap) (shape : Shape) (v : Value) :
    (∃ arg, heap.convert shape v = .ok arg ∧ heap.Reads shape v arg) ∨
      ∃ got, heap.convert shape v = .error got ∧ heap.Misfits shape v got := by
  by_cases hkind : shape.Accepts v
  · cases shape with
    | text =>
      cases v with
      | text s => exact Or.inl ⟨_, rfl, .text s⟩
      | _ => exact hkind.elim
    | number =>
      cases v with
      | number n => exact Or.inl ⟨_, rfl, .number n⟩
      | _ => exact hkind.elim
    | bytes =>
      cases v with
      | text s => exact Or.inl ⟨_, rfl, .encoded s⟩
      | array h =>
        have htakes : ∀ item, (∃ b, itemByte item = .ok b) ↔ Shape.bytes.Takes item :=
          fun item => exists_congr fun b => itemByte_eq_ok
        obtain ⟨bs, hbs, hall⟩ | ⟨i, item, hfirst, he⟩ :=
          mapM_items_cases htakes (fun _ _ => itemByte_error) (heap.itemsOf h)
        · refine Or.inl ⟨.bytes bs, ?_, .bytes (hall.imp fun _ _ => itemByte_eq_ok.1)⟩
          rw [convert, hbs]
          rfl
        · refine Or.inr ⟨_, ?_, .element hkind hfirst⟩
          rw [convert, he]
          rfl
      | _ => exact hkind.elim
    | texts =>
      cases v with
      | array h =>
        have htakes : ∀ item, (∃ s, itemText item = .ok s) ↔ Shape.texts.Takes item :=
          fun item => exists_congr fun s => itemText_eq_ok
        obtain ⟨ss, hss, hall⟩ | ⟨i, item, hfirst, he⟩ :=
          mapM_items_cases htakes (fun _ _ => itemText_error) (heap.itemsOf h)
        · refine Or.inl ⟨.texts ss, ?_, .texts (hall.imp fun _ _ => itemText_eq_ok.1)⟩
          rw [convert, hss]
          rfl
        · refine Or.inr ⟨_, ?_, .element hkind hfirst⟩
          rw [convert, he]
          rfl
      | _ => exact hkind.elim
  · exact Or.inr ⟨_, convert_of_not_accepts hkind, .kind hkind⟩

/-- A value is read as one argument at most. -/
theorem convert_eq_ok : heap.convert shape v = .ok arg ↔ heap.Reads shape v arg := by
  constructor
  · intro h
    obtain ⟨arg', hok, hr⟩ | ⟨got, herror, -⟩ := convert_cases heap shape v
    · obtain rfl : arg' = arg := Except.ok.inj (hok.symm.trans h)
      exact hr
    · rw [herror] at h
      cases h
  · intro hr
    cases hr with
    | text | number | encoded => rfl
    | bytes hitems =>
      rw [convert, mapM_eq_ok.2 (hitems.imp fun _ _ => itemByte_eq_ok.2)]
      rfl
    | texts hitems =>
      rw [convert, mapM_eq_ok.2 (hitems.imp fun _ _ => itemText_eq_ok.2)]
      rfl

theorem Misfits.unique {got' : String} (hm : heap.Misfits shape v got)
    (hm' : heap.Misfits shape v got') : got = got' := by
  cases hm with
  | kind hnot =>
    cases hm' with
    | kind => rfl
    | element hkind _ => exact absurd hkind hnot
  | element hkind hfirst =>
    cases hm' with
    | kind hnot => exact absurd hkind hnot
    | element _ hfirst' => rw [hfirst.unique hfirst']

/-- A value is refused in one way at most, and not if it is read. -/
theorem convert_eq_error : heap.convert shape v = .error got ↔ heap.Misfits shape v got := by
  obtain ⟨arg, hok, hr⟩ | ⟨got', herror, hm⟩ := convert_cases heap shape v
  · rw [hok]
    exact ⟨nofun, fun hm => absurd hr.fits hm.not_fits⟩
  · rw [herror]
    constructor
    · rintro ⟨⟩
      exact hm
    · intro hm'
      rw [hm.unique hm']

/-- A value has a shape if and only if it is read. -/
theorem fits_iff : heap.Fits shape v ↔ ∃ arg, heap.convert shape v = .ok arg := by
  constructor
  · intro hf
    obtain ⟨arg, hok, -⟩ | ⟨got, -, hm⟩ := convert_cases heap shape v
    · exact ⟨arg, hok⟩
    · exact absurd hf hm.not_fits
  · rintro ⟨arg, hok⟩
    exact (convert_eq_ok.1 hok).fits

/-! ### All arguments -/

/-- Reads the argument at a position. -/
def argument (heap : Heap) (builtin : String) (a : (Shape × Value) × Nat) : Except Cause Arg :=
  match heap.convert a.1.1 a.1.2 with
  | .error got => .error (.argumentType builtin a.2 a.1.1.name got)
  | .ok arg => .ok arg

theorem argument_eq_ok {builtin : String} {a : (Shape × Value) × Nat} :
    heap.argument builtin a = .ok arg ↔ heap.convert a.1.1 a.1.2 = .ok arg := by
  unfold argument
  cases heap.convert a.1.1 a.1.2 with
  | ok arg' => simp
  | error got => exact ⟨nofun, nofun⟩

theorem argument_eq_error {builtin : String} {a : (Shape × Value) × Nat} {c : Cause} :
    heap.argument builtin a = .error c ↔ ∃ got, heap.convert a.1.1 a.1.2 = .error got ∧
      c = .argumentType builtin a.2 a.1.1.name got := by
  unfold argument
  cases heap.convert a.1.1 a.1.2 with
  | ok arg' => exact ⟨nofun, nofun⟩
  | error got => simp [eq_comm]

/-- Arguments are read one after another, and their positions are counted. -/
theorem convertFrom_eq (heap : Heap) (builtin : String) (position : Nat) (shapes : List Shape)
    (values : List Value) :
    heap.convertFrom builtin position shapes values
      = ((shapes.zip values).zipIdx position).mapM (heap.argument builtin) := by
  induction shapes generalizing position values with
  | nil => rfl
  | cons shape shapes ih =>
    cases values with
    | nil => rfl
    | cons v values =>
      rw [convertFrom, List.zip_cons_cons, List.zipIdx_cons, List.mapM_cons, ih, argument]
      cases heap.convert shape v <;> rfl

/-- The first of numbered elements that lacks a property of elements. -/
theorem firstNot_zipIdx {α : Type} {P : α → Prop} {l : List α} {n i : Nat} {a : α × Nat} :
    FirstNot (fun a => P a.1) (l.zipIdx n) i a ↔ FirstNot P l i a.1 ∧ a.2 = n + i := by
  obtain ⟨a, k⟩ := a
  have hbefore : (∀ j < i, ∀ b : α × Nat, (l.zipIdx n)[j]? = some b → P b.1) ↔
      ∀ j < i, ∀ b, l[j]? = some b → P b := by
    refine forall₂_congr fun j _ => ?_
    simp only [List.getElem?_zipIdx, Option.map_eq_some_iff]
    constructor
    · intro h b hb
      exact h (b, n + j) ⟨b, hb, rfl⟩
    · rintro h _ ⟨b, hb, rfl⟩
      exact h b hb
  have hhere : (l.zipIdx n)[i]? = some (a, k) ↔ l[i]? = some a ∧ k = n + i := by
    rw [List.getElem?_zipIdx, Option.map_eq_some_iff]
    constructor
    · rintro ⟨b, hb, he⟩
      cases he
      exact ⟨hb, rfl⟩
    · rintro ⟨hb, rfl⟩
      exact ⟨a, hb, rfl⟩
  unfold FirstNot
  rw [hhere, hbefore]
  constructor
  · rintro ⟨⟨hi, hk⟩, hrest⟩
    exact ⟨⟨hi, hrest⟩, hk⟩
  · rintro ⟨⟨hi, hrest⟩, hk⟩
    exact ⟨⟨hi, hk⟩, hrest⟩

variable {builtin : String} {shapes : List Shape} {values : List Value}

/-- **A call is refused** for its count, or else for its first argument that does not fit. -/
theorem unpack_eq_error {c : Cause} :
    heap.unpack builtin shapes values = .error c ↔
      (values.length ≠ shapes.length ∧
        c = .argumentCount builtin shapes.length values.length) ∨
      (values.length = shapes.length ∧ ∃ i shape v got,
        FirstNot (fun a => heap.Fits a.1 a.2) (shapes.zip values) i (shape, v) ∧
          heap.Misfits shape v got ∧ c = .argumentType builtin (i + 1) shape.name got) := by
  unfold unpack
  by_cases hlength : values.length = shapes.length
  · -- The arguments are those of `mapM`, whose first failure is the first misfit.
    rw [if_pos hlength, convertFrom_eq, mapM_eq_error]
    have hfits : ∀ a : (Shape × Value) × Nat,
        (∃ arg, heap.argument builtin a = .ok arg) ↔ heap.Fits a.1.1 a.1.2 := by
      intro a
      simp only [argument_eq_ok, fits_iff]
    simp only [FirstNot.congr hfits, argument_eq_error, convert_eq_error, hlength, ne_eq,
      not_true_eq_false, false_and, false_or, true_and]
    constructor
    · rintro ⟨i, ⟨⟨shape, v⟩, k⟩, hfirst, got, hm, rfl⟩
      obtain ⟨hfirst, rfl⟩ := (firstNot_zipIdx (P := fun a : Shape × Value => heap.Fits a.1 a.2)).1 hfirst
      refine ⟨i, shape, v, got, hfirst, hm, ?_⟩
      rw [Nat.add_comm]
    · rintro ⟨i, shape, v, got, hfirst, hm, rfl⟩
      refine ⟨i, ((shape, v), 1 + i), ?_, got, hm, ?_⟩
      · exact (firstNot_zipIdx (P := fun a : Shape × Value => heap.Fits a.1 a.2)).2 ⟨hfirst, rfl⟩
      · rw [Nat.add_comm]
  · rw [if_neg hlength]
    simp [hlength, eq_comm]

/-- **A call is not refused** if and only if all its arguments are read as what the shapes ask for. -/
theorem unpack_eq_ok {args : List Arg} :
    heap.unpack builtin shapes values = .ok args ↔ values.length = shapes.length ∧
      List.Forall₂ (fun a arg => heap.Reads a.1 a.2 arg) (shapes.zip values) args := by
  unfold unpack
  by_cases hlength : values.length = shapes.length
  · rw [if_pos hlength, convertFrom_eq, mapM_eq_ok]
    simp only [argument_eq_ok, convert_eq_ok, hlength, true_and]
    -- The positions play no part.
    conv_rhs => rw [← List.zipIdx_map_fst 1 (shapes.zip values)]
    rw [List.forall₂_map_left_iff]
  · rw [if_neg hlength]
    simp [hlength]

/-- What is read has the shapes that were asked for, in their order. -/
theorem map_shape_of_reads {args : List Arg} (hlength : values.length = shapes.length)
    (hall : List.Forall₂ (fun a arg => heap.Reads a.1 a.2 arg) (shapes.zip values) args) :
    args.map Arg.shape = shapes := by
  have hzip : (shapes.zip values).map Prod.fst = shapes := List.map_fst_zip (Nat.le_of_eq hlength.symm)
  have hshapes : args.map Arg.shape = (shapes.zip values).map Prod.fst := by
    rw [← List.forall₂_eq_eq_eq, List.forall₂_map_left_iff, List.forall₂_map_right_iff]
    exact hall.flip.imp fun arg a hr => hr.shape_eq
  rw [hshapes, hzip]

/-! ### Bytes -/

/-- **The number of a byte is that byte.** -/
theorem isByte_ofNat (b : UInt8) : (Value.number (Float.ofNat b.toNat)).IsByte b := by
  have hall : ∀ n < UInt8.size, byteOf? (Float.ofNat n) = some (UInt8.ofNat n) := by decide +kernel
  have hb := hall b.toNat b.toNat_lt_size
  rw [UInt8.ofNat_toNat] at hb
  exact .number (byteOf?_eq_some.1 hb)

/-- A new array has the elements that it was made of. -/
theorem Tidy.itemsOf_newArray (ht : heap.Tidy) (vs : Array Value) :
    ∃ h, (heap.newArray vs).1 = .array h ∧ (heap.newArray vs).2.itemsOf h = vs.toList := by
  rcases hi : heap.insert (.array vs) with ⟨h, heap'⟩
  obtain ⟨-, -, hget⟩ := ht.get?_insert hi
  have harray : heap'.array? h = some vs := by
    rw [array?_eq, hget, if_pos rfl]
  refine ⟨h, ?_, ?_⟩
  · rw [newArray, hi]
  · rw [newArray, hi, itemsOf, harray]
    rfl

/-- **Bytes of the host** are read back from the array that they are stored as. -/
theorem Made.reads_bytes (hm : heap.Made) (bs : List UInt8) :
    (ofHost (.bytes bs) heap).2.Reads .bytes (ofHost (.bytes bs) heap).1 (.bytes bs) := by
  let vs := (bs.map fun b => Value.number (Float.ofNat b.toNat)).toArray
  obtain ⟨h, hvalue, hitems⟩ := hm.tidy.itemsOf_newArray vs
  show (heap.newArray vs).2.Reads .bytes (heap.newArray vs).1 (.bytes bs)
  rw [hvalue]
  refine .bytes ?_
  rw [hitems, List.forall₂_map_left_iff]
  exact List.forall₂_same.2 fun b _ => isByte_ofNat b

/-! ### Complete checks -/

/-- **Each call of a builtin is checked completely.** It is refused for its count exactly if that is wrong, and
else for an argument exactly if one does not fit: the first that does not, and in an array the first element.
Else all arguments are read, each as what its shape asks for. Bytes that a builtin has returned reach the next
one as they were. -/
theorem unpack_complete (heap : Heap) (builtin : String) (shapes : List Shape) (values : List Value) :
    (∀ c, heap.unpack builtin shapes values = .error c ↔
      (values.length ≠ shapes.length ∧
        c = .argumentCount builtin shapes.length values.length) ∨
      (values.length = shapes.length ∧ ∃ i shape v got,
        FirstNot (fun a => heap.Fits a.1 a.2) (shapes.zip values) i (shape, v) ∧
          heap.Misfits shape v got ∧ c = .argumentType builtin (i + 1) shape.name got)) ∧
    (values.length = shapes.length →
      ((∃ c, heap.unpack builtin shapes values = .error c) ↔
        ∃ a ∈ shapes.zip values, ¬ heap.Fits a.1 a.2)) ∧
    (∀ args, heap.unpack builtin shapes values = .ok args ↔ values.length = shapes.length ∧
      List.Forall₂ (fun a arg => heap.Reads a.1 a.2 arg) (shapes.zip values) args) ∧
    (∀ args, heap.unpack builtin shapes values = .ok args → args.map Arg.shape = shapes) ∧
    (heap.Made → ∀ bs, (ofHost (.bytes bs) heap).2.unpack builtin [.bytes]
      [(ofHost (.bytes bs) heap).1] = .ok [.bytes bs]) := by
  refine ⟨fun _ => unpack_eq_error, ?_, fun _ => unpack_eq_ok, ?_, ?_⟩
  · intro hlength
    rw [← exists_firstNot]
    simp only [unpack_eq_error, hlength, ne_eq, not_true_eq_false, false_and, false_or, true_and]
    constructor
    · rintro ⟨_, i, shape, v, _, hfirst, -, -⟩
      exact ⟨i, (shape, v), hfirst⟩
    · rintro ⟨i, ⟨shape, v⟩, hfirst⟩
      -- What does not fit is refused for something.
      obtain ⟨arg, hok, -⟩ | ⟨got, -, hm⟩ := convert_cases heap shape v
      · exact absurd (fits_iff.2 ⟨arg, hok⟩) hfirst.2.1
      · exact ⟨_, i, shape, v, got, hfirst, hm, rfl⟩
  · intro args hok
    obtain ⟨hlength, hall⟩ := unpack_eq_ok.1 hok
    exact map_shape_of_reads hlength hall
  · intro hm bs
    exact unpack_eq_ok.2 ⟨rfl, .cons (hm.reads_bytes bs) .nil⟩

/-- On a heap with a freed slot: nil in place of bytes is refused, and bytes pass. -/
theorem oneFreed_arguments :
    oneFreed.Made ∧ [Value.text "a", Value.nil].length = [Shape.text, Shape.bytes].length ∧
      (∃ c, oneFreed.unpack "WriteFile" [.text, .bytes] [.text "a", .nil] = .error c) ∧
      (ofHost (.bytes [0, 255]) oneFreed).2.unpack "WriteFile" [.bytes]
        [(ofHost (.bytes [0, 255]) oneFreed).1] = .ok [.bytes [0, 255]] := by
  obtain ⟨-, hrefused, -, -, hbytes⟩ :=
    unpack_complete oneFreed "WriteFile" [.text, .bytes] [.text "a", .nil]
  have hnil : ¬ oneFreed.Fits .bytes .nil := fun hf => hf.1
  refine ⟨oneFreed_made, rfl, (hrefused rfl).2 ⟨(.bytes, .nil), ?_, hnil⟩, ?_⟩
  · exact List.mem_cons_of_mem _ List.mem_cons_self
  · obtain ⟨-, -, -, -, hall⟩ := unpack_complete oneFreed "WriteFile" [] []
    exact hall oneFreed_made [0, 255]

end Heap

end DeployScript
