import DeployScript.Code.Block
import Mathlib

/-!
# The bytes of a block

A block and the code it becomes hold the same instructions at the same places. A place in a block
is the number of bytes before an item.

* `Instr.decode_bytes` — reading at the place of a written instruction gives that instruction, as
  long as its operand can be written (`Instr.Writable`: a closure has fewer than 256 captures, since
  their count is one byte). `Instr.decode_le` — what is read lies within the code.
* `Block.code_toChunk`, `Block.lines_toChunk` — the bytes of a chunk are those of its items in turn,
  and each of them has the line of its item.
* `Block.decode_toChunk`, `Block.lineAt?_toChunk` — so an item of a block is found by its place.
-/

namespace DeployScript

/-! ### Operands -/

/-- An operand of two bytes is read back. -/
theorem wide_of_bytes (n : UInt16) :
    ((n >>> 8).toUInt8.toUInt16 <<< 8) ||| n.toUInt8.toUInt16 = n := by
  apply UInt16.toBitVec_inj.1
  rw [UInt16.toBitVec_or, UInt16.toBitVec_shiftLeft, UInt8.toBitVec_toUInt16,
    UInt8.toBitVec_toUInt16, UInt16.toBitVec_toUInt8, UInt16.toBitVec_toUInt8,
    UInt16.toBitVec_shiftRight]
  apply BitVec.eq_of_getLsbD_eq
  intro i hi
  by_cases h : i < 8
  · simp [h, hi]
  · have hlow : i - 8 < 8 := by omega
    have hsum : 8 + (i - 8) = i := by omega
    simp [h, hi, hlow, hsum]

/-- An operand fits its written form: the captures of a closure are counted by one byte. -/
def Layout.Fits : (layout : Layout) → layout.Operand → Prop
  | .closure, (_, captures) => captures.length < UInt8.size
  | _, _ => True

/-- An instruction that can be written. -/
def Instr.Writable (i : Instr) : Prop := i.op.layout.Fits i.operand

variable {before after : List UInt8} {offset : Nat}

/-- Two bytes behind `before` are read as the number that they are. -/
theorem readWide?_wideBytes (n : UInt16) (rest : List UInt8) (h : before.length = offset) :
    readWide? (before ++ (wideBytes n ++ rest)).toArray offset = some n := by
  have h0 : (before ++ (wideBytes n ++ rest)).toArray[offset]? = some (n >>> 8).toUInt8 := by
    subst h; simp [wideBytes]
  have h1 : (before ++ (wideBytes n ++ rest)).toArray[offset + 1]? = some n.toUInt8 := by
    subst h; simp [wideBytes]
  simp only [readWide?, h0, h1, Option.bind_eq_bind, Option.bind_some, pure, Option.some.injEq]
  exact wide_of_bytes n

/-- The sources of captures are read back. -/
theorem readCaptures?_bytes (captures : List CaptureSource) (rest : List UInt8)
    (h : before.length = offset) :
    readCaptures? (before ++ (captures.flatMap CaptureSource.bytes ++ rest)).toArray
      captures.length offset = some captures := by
  induction captures generalizing before offset with
  | nil => rfl
  | cons c captures ih =>
    have ih := @ih (before ++ c.bytes) (offset + 2) (by simp [CaptureSource.bytes, h])
    have h0 : (before ++ ((c :: captures).flatMap CaptureSource.bytes ++ rest)).toArray[offset]?
        = some (if c.isLocal then 1 else 0) := by
      subst h; simp [CaptureSource.bytes]
    have h1 : (before ++ ((c :: captures).flatMap CaptureSource.bytes ++ rest)).toArray[offset + 1]?
        = some c.index := by
      subst h; simp [CaptureSource.bytes]
    rw [List.append_assoc] at ih
    rw [List.flatMap_cons, List.append_assoc] at h0 h1 ⊢
    simp only [List.length_cons, readCaptures?, h0, h1, ih, Option.bind_eq_bind, Option.bind_some,
      pure]
    cases c with
    | mk isLocal index => cases isLocal <;> rfl

/-- **An operand is read back** from behind its opcode. -/
theorem Layout.read?_bytes (layout : Layout) (operand : layout.Operand)
    (hfits : layout.Fits operand) (rest : List UInt8) (h : before.length = offset) :
    layout.read? (before ++ (layout.bytes operand ++ rest)).toArray offset = some operand := by
  cases layout with
  | plain => rfl
  | byte => subst h; simp [Layout.read?, Layout.bytes]
  | wide => exact readWide?_wideBytes operand rest h
  | closure =>
    obtain ⟨function, captures⟩ := operand
    have hcount : (UInt8.ofNat captures.length).toNat = captures.length := by
      rw [UInt8.toNat_ofNat']
      exact Nat.mod_eq_of_lt hfits
    have hread := @readWide?_wideBytes before _ function
      (UInt8.ofNat captures.length :: (captures.flatMap CaptureSource.bytes ++ rest)) h
    have hlength : (before ++ wideBytes function ++ [UInt8.ofNat captures.length]).length
        = offset + 3 := by
      simp [wideBytes, h]
    have hcaptures := readCaptures?_bytes captures rest hlength
    have hbyte : (before ++ (wideBytes function ++ UInt8.ofNat captures.length ::
        (captures.flatMap CaptureSource.bytes ++ rest))).toArray[offset + 2]?
        = some (UInt8.ofNat captures.length) := by
      subst h; simp [wideBytes]
    simp only [List.append_assoc, List.cons_append, List.nil_append] at hcaptures
    simp only [Layout.read?, Layout.bytes, List.append_assoc, List.cons_append, hread, hbyte,
      hcount, hcaptures, Option.bind_eq_bind, Option.bind_some, pure]

/-- **An instruction is read back** from its place in a code. -/
theorem Instr.decode_bytes (i : Instr) (hw : i.Writable) (h : before.length = offset) :
    Instr.decode (before ++ i.bytes ++ after).toArray offset = .instr i := by
  have hop : (before ++ i.bytes ++ after).toArray[offset]? = some i.op.toByte := by
    subst h; simp [Instr.bytes]
  have hoperand := Layout.read?_bytes i.op.layout i.operand hw after
    (show (before ++ [i.op.toByte]).length = offset + 1 by simp [h])
  have hcode : before ++ i.bytes ++ after
      = before ++ [i.op.toByte] ++ (i.op.layout.bytes i.operand ++ after) := by
    simp [Instr.bytes]
  rw [← hcode] at hoperand
  simp only [Instr.decode, hop, Opcode.ofByte?_toByte, hoperand]

/-! ### What is read lies within the code -/

section Within

variable {code : Array UInt8} {offset : Nat}

theorem lt_size_of_getElem? {byte : UInt8} (h : code[offset]? = some byte) : offset < code.size :=
  (Array.getElem?_eq_some_iff.1 h).1

theorem readWide?_le {n : UInt16} (h : readWide? code offset = some n) :
    offset + 2 ≤ code.size := by
  simp only [readWide?, Option.bind_eq_bind, Option.bind_eq_some_iff] at h
  obtain ⟨high, -, low, hlow, -⟩ := h
  exact lt_size_of_getElem? hlow

theorem readCaptures?_le {count : Nat} {captures : List CaptureSource}
    (h : readCaptures? code count offset = some captures) (hoffset : offset ≤ code.size) :
    captures.length = count ∧ offset + 2 * count ≤ code.size := by
  induction count generalizing offset captures with
  | zero =>
    cases h
    exact ⟨rfl, hoffset⟩
  | succ count ih =>
    simp only [readCaptures?, Option.bind_eq_bind, Option.bind_eq_some_iff] at h
    obtain ⟨kind, -, index, hindex, rest, hrest, h⟩ := h
    cases h
    obtain ⟨hlength, hle⟩ := ih hrest (lt_size_of_getElem? hindex)
    exact ⟨by rw [List.length_cons, hlength], by omega⟩

theorem Layout.read?_le {layout : Layout} {operand : layout.Operand}
    (h : layout.read? code offset = some operand) (hoffset : offset ≤ code.size) :
    offset + layout.size operand ≤ code.size := by
  cases layout with
  | plain => exact hoffset
  | byte => exact lt_size_of_getElem? h
  | wide => exact readWide?_le h
  | closure =>
    simp only [Layout.read?, Option.bind_eq_bind, Option.bind_eq_some_iff] at h
    obtain ⟨function, -, count, hcount, captures, hcaptures, h⟩ := h
    cases h
    obtain ⟨hlength, hle⟩ := readCaptures?_le hcaptures (lt_size_of_getElem? hcount)
    simp only [Layout.size]
    omega

/-- **An instruction that is read** lies within the code. -/
theorem Instr.decode_le {i : Instr} (h : Instr.decode code offset = .instr i) :
    offset + i.size ≤ code.size := by
  unfold Instr.decode at h
  split at h
  case h_1 => cases h
  case h_2 byte hbyte =>
    split at h
    case h_1 => cases h
    case h_2 op hop =>
      split at h
      case h_1 => cases h
      case h_2 operand hoperand =>
        cases h
        have hle := Layout.read?_le hoperand (lt_size_of_getElem? hbyte)
        simp only [Instr.size]
        omega

end Within

/-! ### Blocks -/

namespace Block

/-- The bytes of the first items: the place of the next. -/
def place (items : List Item) : Nat := (items.map Item.size).sum

@[simp] theorem place_nil : place [] = 0 := rfl

@[simp] theorem place_cons (item : Item) (items : List Item) :
    place (item :: items) = item.size + place items := by
  simp [place]

@[simp] theorem place_append (items rest : List Item) :
    place (items ++ rest) = place items + place rest := by
  simp [place]

/-- The size of a block is the place behind its items. -/
theorem size_eq_place (b : Block) : b.size = place b.toList := by
  have hfold : ∀ (items : List Item) (n : Nat),
      items.foldl (fun n item => n + item.size) n = n + place items := by
    intro items
    induction items with
    | nil => intro n; rfl
    | cons item items ih => intro n; simp [ih, Nat.add_assoc]
  rw [Block.size, ← Array.foldl_toList, hfold, Nat.zero_add]


/-- Every item takes a byte at least. -/
theorem size_item_pos (item : Item) : 0 < item.size := by
  cases item with
  | instr i line => simp only [Item.size, Instr.size]; omega
  | exit line => simp [Item.size]

/-- An item is as long as the bytes that are written for it. -/
theorem length_bytes_item (item : Item) : item.toInstr.bytes.length = item.size := by
  rw [Instr.length_bytes]
  cases item <;> rfl

/-- The bytes of items in turn. -/
def bytes (items : List Item) : List UInt8 := items.flatMap fun item => item.toInstr.bytes

/-- The lines of the bytes of items. -/
def byteLines (items : List Item) : List Nat :=
  items.flatMap fun item => List.replicate item.size item.line

theorem length_bytes (items : List Item) : (bytes items).length = place items := by
  simp [bytes, place, List.length_flatMap, length_bytes_item]

theorem length_byteLines (items : List Item) : (byteLines items).length = place items := by
  simp [byteLines, place, List.length_flatMap]

section Chunk

variable {κ : Type}

/-- Appending writes the bytes with one line each. -/
theorem append_eq (c : Chunk κ) (bs : List UInt8) (line : Nat) :
    c.append bs line = { c with
      code := c.code ++ bs.toArray, lines := c.lines ++ (List.replicate bs.length line).toArray } := by
  induction bs generalizing c with
  | nil => simp [Chunk.append]
  | cons b bs ih =>
    have ih := ih (c.push b line)
    simp only [Chunk.append, List.foldl_cons] at ih ⊢
    rw [ih]
    simp only [Chunk.push, Chunk.mk.injEq, and_true, ← Array.toList_inj]
    simp [List.replicate_succ]

/-- **Code with a block behind it** has the bytes of the items of the block behind its own. -/
theorem extend_eq (c : Chunk κ) (b : Block) : c.extend b = { c with
    code := c.code ++ (bytes b.toList).toArray, lines := c.lines ++ (byteLines b.toList).toArray } := by
  have hfold : ∀ (items : List Item) (c : Chunk κ),
      items.foldl (fun c item => c.append item.toInstr.bytes item.line) c = { c with
        code := c.code ++ (bytes items).toArray, lines := c.lines ++ (byteLines items).toArray } := by
    intro items
    induction items with
    | nil => intro c; simp [bytes, byteLines]
    | cons item items ih =>
      intro c
      rw [List.foldl_cons, ih, append_eq, length_bytes_item]
      simp only [Chunk.mk.injEq, and_true, ← Array.toList_inj]
      simp [bytes, byteLines]
  rw [Chunk.extend, ← Array.foldl_toList, hfold]

/-- A block becomes the bytes of its items in turn, with the constants and names beside them. -/
theorem toChunk_eq (b : Block) (constants : Array κ) (names : Array String) :
    b.toChunk constants names =
      { code := (bytes b.toList).toArray, lines := (byteLines b.toList).toArray, constants, names } := by
  have h := extend_eq { code := #[], lines := #[], constants, names } b
  simp only [Array.empty_append] at h
  exact h

theorem code_toChunk (b : Block) (constants : Array κ) (names : Array String) :
    (b.toChunk constants names).code = (bytes b.toList).toArray := by
  rw [toChunk_eq]

theorem lines_toChunk (b : Block) (constants : Array κ) (names : Array String) :
    (b.toChunk constants names).lines = (byteLines b.toList).toArray := by
  rw [toChunk_eq]

variable {b : Block} {before after : List Item} {item : Item}

/-- **An item of a block is found by its place.** -/
theorem decode_toChunk (constants : Array κ) (names : Array String)
    (hb : b.toList = before ++ item :: after) (hw : item.toInstr.Writable) :
    Instr.decode (b.toChunk constants names).code (place before) = .instr item.toInstr := by
  have hbytes : bytes b.toList = bytes before ++ item.toInstr.bytes ++ bytes after := by
    simp [bytes, hb]
  rw [code_toChunk, hbytes]
  exact Instr.decode_bytes _ hw (length_bytes before)

/-- Each byte of an item has the line of the item. -/
theorem lineAt?_toChunk (constants : Array κ) (names : Array String)
    (hb : b.toList = before ++ item :: after) {k : Nat} (hk : k < item.size) :
    (b.toChunk constants names).lineAt? (place before + k) = some item.line := by
  have hlines : byteLines b.toList
      = byteLines before ++ (List.replicate item.size item.line ++ byteLines after) := by
    simp [byteLines, hb]
  rw [Chunk.lineAt?, lines_toChunk, hlines, List.getElem?_toArray,
    List.getElem?_append_right (by rw [length_byteLines]; omega), length_byteLines,
    Nat.add_sub_cancel_left, List.getElem?_append_left (by simpa using hk),
    List.getElem?_replicate_of_lt hk]

end Chunk

/-! ### Loops that are closed -/

/-- The second items are the first with the jumps out of a loop measured: `left` bytes are left up
to the end of the loop. -/
inductive Closes : (left : Nat) → List Item → List Item → Prop
  | nil {left : Nat} : Closes left [] []
  | instr {left : Nat} {i : Instr} {line : Nat} {items closed : List Item}
      (rest : Closes (left - i.size) items closed) :
      Closes left (.instr i line :: items) (.instr i line :: closed)
  | exit {left : Nat} {distance : UInt16} {line : Nat} {items closed : List Item}
      (hd : distance.toNat = left - 3) (rest : Closes (left - 3) items closed) :
      Closes left (.exit line :: items) (.instr ⟨.jump, distance⟩ line :: closed)

/-- One item of a loop that is being closed, with the bytes that are left behind it. -/
def closeItem (state : Block × Nat) (item : Item) : Option (Block × Nat) :=
  let left := state.2 - item.size
  match item with
  | .instr .. => some (state.1.push item, left)
  | .exit line => (wide? left).map fun distance =>
    (state.1.push (.instr ⟨.jump, distance⟩ line), left)

theorem closeLoop?_eq (b : Block) :
    b.closeLoop? = (b.foldlM closeItem (#[], b.size)).map (·.1) := rfl

/-- Closing a loop measures its jumps. -/
theorem closes_of_closeLoop? {b b' : Block} (h : b.closeLoop? = some b') :
    Closes (place b.toList) b.toList b'.toList := by
  have hfold : ∀ (items : List Item) (before : Block) (left : Nat) (r : Block × Nat),
      items.foldlM closeItem (before, left) = some r →
      ∃ closed, r.1.toList = before.toList ++ closed ∧ Closes left items closed := by
    intro items
    induction items with
    | nil =>
      intro before left r hr
      cases hr
      exact ⟨[], by simp, .nil⟩
    | cons item items ih =>
      intro before left r hr
      rw [List.foldlM_cons] at hr
      cases item with
      | instr i line =>
        obtain ⟨closed, hclosed, hrest⟩ := ih _ _ _ hr
        exact ⟨.instr i line :: closed, by simp [hclosed], .instr hrest⟩
      | exit line =>
        change (wide? (left - (Item.exit line).size)).map _ >>= _ = _ at hr
        cases hd : wide? (left - (Item.exit line).size) with
        | none => rw [hd] at hr; cases hr
        | some distance =>
          rw [hd] at hr
          obtain ⟨closed, hclosed, hrest⟩ := ih _ _ _ hr
          exact ⟨.instr ⟨.jump, distance⟩ line :: closed, by simp [hclosed],
            .exit (toNat_of_wide? hd) hrest⟩
  rw [closeLoop?_eq] at h
  obtain ⟨r, hr, rfl⟩ := Option.map_eq_some_iff.1 h
  rw [← Array.foldlM_toList, size_eq_place] at hr
  obtain ⟨closed, hclosed, hcloses⟩ := hfold _ _ _ _ hr
  rw [hclosed]
  exact hcloses

theorem Closes.place_eq {left : Nat} {items closed : List Item} (h : Closes left items closed) :
    place closed = place items := by
  induction h with
  | nil => rfl
  | instr _ ih => simp only [place_cons, ih]
  | exit _ _ ih => simp only [place_cons, ih]; rfl

/-- Parts of a loop that is closed are closed one behind another. -/
theorem Closes.of_append {left : Nat} {items rest closed : List Item}
    (h : Closes left (items ++ rest) closed) : ∃ first last, closed = first ++ last ∧
      Closes left items first ∧ Closes (left - place items) rest last := by
  induction items generalizing left closed with
  | nil => exact ⟨[], closed, rfl, .nil, h⟩
  | cons item items ih =>
    cases h with
    | instr hrest =>
      obtain ⟨first, last, rfl, hfirst, hlast⟩ := ih hrest
      exact ⟨_ :: first, last, rfl, .instr hfirst, by rwa [place_cons, ← Nat.sub_sub]⟩
    | exit hd hrest =>
      obtain ⟨first, last, rfl, hfirst, hlast⟩ := ih hrest
      exact ⟨_ :: first, last, rfl, .exit hd hfirst, by rwa [place_cons, ← Nat.sub_sub]⟩

/-- Items none of which leaves a loop. -/
def Measured (items : List Item) : Prop := ∀ item ∈ items, ∃ i line, item = .instr i line

/-- A closed loop has no jumps that are not measured. -/
theorem Closes.measured {left : Nat} {items closed : List Item} (h : Closes left items closed) :
    Measured closed := by
  induction h with
  | nil => exact fun _ hm => nomatch hm
  | instr _ ih | exit _ _ ih =>
    intro item hm
    rcases List.mem_cons.1 hm with rfl | hm
    · exact ⟨_, _, rfl⟩
    · exact ih item hm

/-- Items that are measured stay what they are. -/
theorem Closes.eq_of_measured {left : Nat} {items closed : List Item} (h : Closes left items closed)
    (hm : Measured items) : closed = items := by
  induction h with
  | nil => rfl
  | instr _ ih => rw [ih fun item hi => hm item (List.mem_cons_of_mem _ hi)]
  | exit =>
    obtain ⟨i, line, heq⟩ := hm _ List.mem_cons_self
    cases heq

theorem Closes.of_measured {left : Nat} {items : List Item} (hm : Measured items) :
    Closes left items items := by
  induction items generalizing left with
  | nil => exact .nil
  | cons item items ih =>
    obtain ⟨i, line, rfl⟩ := hm item List.mem_cons_self
    exact .instr (ih fun item hi => hm item (List.mem_cons_of_mem _ hi))

/-- Closing a loop keeps the size of its code. -/
theorem size_closeLoop? {b b' : Block} (h : b.closeLoop? = some b') : b'.size = b.size := by
  rw [size_eq_place, size_eq_place, (closes_of_closeLoop? h).place_eq]

end Block

end DeployScript
