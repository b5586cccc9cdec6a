import DeployScript.Code.Listing
import DeployScript.Proofs.Code.Typing

/-!
# Reading a chunk

A chunk is read from its start, one instruction behind another. Sealed code is read without a rest,
and a listing of it has one line for each instruction that is read: what a listing reads of an opcode, and how
far it goes on, agrees with the instruction.

* `Written` — instructions with their lines; `Written.places` — where each of them starts.
* `Chunk.Reads` — reading a chunk gives instructions and ends with the code. The sizes are those by
  which the machine and the listing go on.
* `Chunk.Regular` — what holds of every chunk that was compiled: what operands refer to exists, and
  jumps lead to the starts of instructions.
* `Chunk.instrText?` — an instruction as text; `Chunk.listingLine?_eq` — it is what a listing shows.
* `Chunk.Lists` — the lines that a listing has for the instructions; `Chunk.Reads.listing`.
-/

namespace DeployScript

/-! ### Instructions in turn -/

/-- Instructions, each with its line. -/
abbrev Written := List (Instr × Nat)

namespace Written

/-- How many bytes the instructions have. -/
def size (code : Written) : Nat := (code.map fun e => e.1.size).sum

@[simp] theorem size_nil : size [] = 0 := rfl

@[simp] theorem size_cons (e : Instr × Nat) (code : Written) :
    size (e :: code) = e.1.size + size code := by
  simp [size]

@[simp] theorem size_append (code code' : Written) : size (code ++ code') = size code + size code' := by
  simp [size]

/-- Where the instructions start, if the first one starts at `offset`. -/
def places : (offset : Nat) → Written → List Nat
  | _, [] => []
  | offset, e :: rest => offset :: places (offset + e.1.size) rest

theorem mem_places {offset place : Nat} {code : Written} : place ∈ places offset code ↔
    ∃ before e after, code = before ++ e :: after ∧ place = offset + size before := by
  induction code generalizing offset with
  | nil => simp [places]
  | cons e code ih =>
    rw [places, List.mem_cons, ih]
    constructor
    · rintro (rfl | ⟨before, e', after, rfl, rfl⟩)
      · exact ⟨[], e, code, rfl, rfl⟩
      · exact ⟨e :: before, e', after, rfl, by rw [size_cons, Nat.add_assoc]⟩
    · rintro ⟨before, e', after, heq, rfl⟩
      cases before with
      | nil => exact Or.inl rfl
      | cons a before =>
        cases heq
        exact Or.inr ⟨before, e', after, rfl, by rw [size_cons, Nat.add_assoc]⟩

end Written

/-- Items as instructions with lines. -/
def Block.written (items : List Item) : Written := items.map fun item => (item.toInstr, item.line)

namespace Block

@[simp] theorem written_nil : written [] = [] := rfl

@[simp] theorem written_cons (item : Item) (items : List Item) :
    written (item :: items) = (item.toInstr, item.line) :: written items := rfl

@[simp] theorem written_append (items rest : List Item) :
    written (items ++ rest) = written items ++ written rest := List.map_append

theorem size_toInstr (item : Item) : item.toInstr.size = item.size := by
  cases item <;> rfl

@[simp] theorem size_written (items : List Item) : (written items).size = place items := by
  induction items with
  | nil => rfl
  | cons item items ih => rw [written_cons, Written.size_cons, place_cons, ih, size_toInstr]

end Block

/-! ### Reading -/

section Reads

variable {κ : Type}

/-- **Reading a chunk** from a place on gives instructions, and ends where the code ends. -/
inductive Chunk.Reads (c : Chunk κ) : (offset : Nat) → Written → Prop
  | done : Reads c c.code.size []
  | next {offset line : Nat} {i : Instr} {rest : Written}
      (hi : Instr.decode c.code offset = .instr i) (hline : c.lineAt? offset = some line)
      (h : Reads c (offset + i.size) rest) : Reads c offset ((i, line) :: rest)

/-- A block of instructions that can be written is read back. -/
theorem Block.reads_toChunk {b : Block} (constants : Array κ) (names : Array String)
    (hw : ∀ item ∈ b.toList, item.toInstr.Writable) :
    (b.toChunk constants names).Reads 0 (Block.written b.toList) := by
  have hrest : ∀ before after, b.toList = before ++ after →
      (b.toChunk constants names).Reads (place before) (Block.written after) := by
    intro before after
    induction after generalizing before with
    | nil =>
      intro hb
      have hsize : place before = (b.toChunk constants names).code.size := by
        rw [code_toChunk, List.size_toArray, length_bytes, hb, List.append_nil]
      rw [hsize]
      exact .done
    | cons item after ih =>
      intro hb
      have hline := lineAt?_toChunk constants names hb (size_item_pos item)
      have htail := ih (before ++ [item]) (by simp [hb])
      rw [place_append, place_cons, place_nil, Nat.add_zero, ← size_toInstr] at htail
      exact .next (decode_toChunk constants names hb (hw item (by simp [hb]))) hline htail
  exact hrest [] b.toList rfl

theorem Chunk.Reads.le {c : Chunk κ} {offset : Nat} {code : Written} (h : c.Reads offset code) :
    offset ≤ c.code.size := by
  induction h with
  | done => exact Nat.le_refl _
  | next _ _ _ ih => omega

/-- There is one way to read a chunk. -/
theorem Chunk.Reads.unique {c : Chunk κ} {offset : Nat} {code code' : Written}
    (h : c.Reads offset code) (h' : c.Reads offset code') : code = code' := by
  induction h generalizing code' with
  | done =>
    cases h' with
    | done => rfl
    | next hi _ h' =>
      have hle := h'.le
      simp only [Instr.size] at hle
      omega
  | @next offset line i rest hi hline h ih =>
    cases h' with
    | done =>
      have hle := h.le
      simp only [Instr.size] at hle
      omega
    | next hi' hline' h' =>
      obtain rfl := Instr.Decoded.instr.inj (hi.symm.trans hi')
      obtain rfl := Option.some.inj (hline.symm.trans hline')
      rw [ih h']

end Reads

/-! ### Instructions as text -/

/-- The source of a capture in words. -/
def CaptureSource.text (c : CaptureSource) : String :=
  (if c.isLocal then "local " else "upvalue ") ++ toString c.index.toNat

/-- An instruction as text, without its place. -/
def Chunk.instrText? {κ : Type} (c : Chunk κ) (shown : κ → String) (offset : Nat) : Instr → Option String
  | ⟨.constant, index⟩ => do
    let constant ← c.constants[index.toNat]?
    return "CONSTANT " ++ zeroPadded 4 index.toNat ++ " '" ++ shown constant ++ "'"
  | ⟨.closure, (index, captures)⟩ =>
    some ("CLOSURE " ++ zeroPadded 4 index.toNat ++ " [" ++
      ", ".intercalate (captures.map CaptureSource.text) ++ "]")
  | ⟨.defineLet, index⟩ => named .defineLet index
  | ⟨.defineVar, index⟩ => named .defineVar index
  | ⟨.getGlobal, index⟩ => named .getGlobal index
  | ⟨.setGlobal, index⟩ => named .setGlobal index
  | ⟨.getProperty, index⟩ => named .getProperty index
  | ⟨.setProperty, index⟩ => named .setProperty index
  | ⟨.getLocal, slot⟩ => numbered .getLocal slot
  | ⟨.setLocal, slot⟩ => numbered .setLocal slot
  | ⟨.getCapture, slot⟩ => numbered .getCapture slot
  | ⟨.setCapture, slot⟩ => numbered .setCapture slot
  | ⟨.jump, distance⟩ => forward .jump distance
  | ⟨.jumpIfFalse, distance⟩ => forward .jumpIfFalse distance
  | ⟨.jumpIfTrue, distance⟩ => forward .jumpIfTrue distance
  | ⟨.loop, distance⟩ => do
    let target ← backTarget? offset distance.toNat
    return Opcode.name .loop ++ " -> " ++ zeroPadded 4 target
  | ⟨.call, count⟩ => counted .call count.toNat
  | ⟨.print, count⟩ => counted .print count.toNat
  | ⟨.array, count⟩ => counted .array count.toNat
  | ⟨.record, count⟩ => counted .record count.toNat
  | ⟨op, _⟩ => some op.name
where
  named (op : Opcode) (index : UInt16) : Option String := do
    let name ← c.names[index.toNat]?
    return op.name ++ " " ++ zeroPadded 4 index.toNat ++ " '" ++ name ++ "'"
  numbered (op : Opcode) (slot : UInt16) : Option String :=
    some (op.name ++ " " ++ zeroPadded 4 slot.toNat)
  forward (op : Opcode) (distance : UInt16) : Option String :=
    some (op.name ++ " -> " ++ zeroPadded 4 (offset + 3 + distance.toNat))
  counted (op : Opcode) (count : Nat) : Option String :=
    some (op.name ++ " (" ++ toString count ++ ")")

section Texts

variable {κ : Type} (c : Chunk κ) (shown : κ → String)

/-- The sources of captures are shown where they are read. -/
theorem mapM_captureText? (count offset : Nat) :
    ((List.range count).mapM fun i => c.captureText? (offset + i * 2)) =
      (readCaptures? c.code count offset).map (List.map CaptureSource.text) := by
  induction count generalizing offset with
  | zero => rfl
  | succ count ih =>
    have hrest : (fun i => c.captureText? (offset + i.succ * 2)) = fun i => c.captureText? (offset + 2 + i * 2) := by
      funext i
      congr 1
      omega
    rw [List.range_succ_eq_map, List.mapM_cons, List.mapM_map, Function.comp_def, hrest, ih, readCaptures?,
      Nat.zero_mul, Nat.add_zero, Chunk.captureText?]
    cases c.code[offset]? with
    | none => rfl
    | some kind =>
      cases c.code[offset + 1]? with
      | none => rfl
      | some index =>
        cases readCaptures? c.code count (offset + 2) with
        | none => rfl
        | some captures => simp [CaptureSource.text]

/-- **What a listing reads behind an opcode,** and how far it goes on, agrees with the instruction. -/
theorem Chunk.opText?_eq {op : Opcode} {operand : op.layout.Operand} {offset : Nat}
    (h : op.layout.read? c.code (offset + 1) = some operand) :
    c.opText? shown offset op = (c.instrText? shown offset ⟨op, operand⟩).map fun text =>
      (text, offset + Instr.size ⟨op, operand⟩) := by
  cases op
  case constant =>
    have hindex : readWide? c.code (offset + 1) = some operand := h
    simp only [opText?, instrText?, hindex, Option.bind_eq_bind, Option.bind_some]
    cases c.constants[operand.toNat]? <;> rfl
  case defineLet | defineVar | getGlobal | setGlobal | getProperty | setProperty =>
    have hindex : readWide? c.code (offset + 1) = some operand := h
    simp only [opText?, instrText?, instrText?.named, hindex, Option.bind_eq_bind, Option.bind_some]
    cases c.names[operand.toNat]? <;> rfl
  case getLocal | setLocal | getCapture | setCapture | jump | jumpIfFalse | jumpIfTrue | array | record =>
    have hnumber : readWide? c.code (offset + 1) = some operand := h
    simp only [opText?, hnumber, Option.bind_eq_bind, Option.bind_some]
    rfl
  case loop =>
    have hdistance : readWide? c.code (offset + 1) = some operand := h
    simp only [opText?, instrText?, hdistance, Option.bind_eq_bind, Option.bind_some]
    cases backTarget? offset operand.toNat <;> rfl
  case call | print =>
    have hcount : c.code[offset + 1]? = some operand := h
    simp only [opText?, hcount, Option.bind_eq_bind, Option.bind_some]
    rfl
  case closure =>
    obtain ⟨index, captures⟩ := operand
    simp only [Layout.read?, Option.bind_eq_bind, Option.bind_eq_some_iff] at h
    obtain ⟨index', hindex, count, hcount, captures', hcaptures, heq⟩ := h
    obtain ⟨rfl, rfl⟩ := Prod.mk.inj (Option.some.inj heq)
    have htexts := mapM_captureText? c count.toNat (offset + 4)
    rw [hcaptures, Option.map_some] at htexts
    have hsize : offset + 4 + count.toNat * 2 = offset + Instr.size ⟨.closure, (index', captures')⟩ := by
      rw [← (readCaptures?_le hcaptures (lt_size_of_getElem? hcount)).1]
      simp only [Instr.size, Layout.size]
      omega
    simp only [opText?, instrText?, hindex, hcount, htexts, hsize, Option.bind_eq_bind, Option.bind_some]
    rfl
  all_goals rfl

/-- **A listing shows the instruction that is read,** and goes on behind it. -/
theorem Chunk.listingLine?_eq {offset : Nat} {i : Instr} (h : Instr.decode c.code offset = .instr i) :
    c.listingLine? shown offset = (c.instrText? shown offset i).map fun text =>
      (zeroPadded 4 offset ++ " " ++ blankPadded 4 ((c.lineAt? offset).getD 0) ++ " " ++ text,
        offset + i.size) := by
  unfold Instr.decode at h
  split at h
  · cases h
  · next byte hbyte =>
    split at h
    · cases h
    · next op hop =>
      split at h
      · cases h
      · next operand hoperand =>
        cases h
        simp only [listingLine?, hbyte, hop, c.opText?_eq shown hoperand, Option.bind_eq_bind, Option.bind_some]
        cases c.instrText? shown offset ⟨op, operand⟩ <;> rfl

end Texts

/-! ### Compiled chunks -/

/-- What an operand of a compiled function refers to exists: a constant that is data, a name, or a
function that captures as many variables as the operand has sources. -/
def Instr.Refers (c : Chunk Literal) (functions : Array (Prototype Literal)) : Instr → Prop
  | ⟨.constant, index⟩ =>
    ∃ literal, c.constants[index.toNat]? = some literal ∧ ∀ k, literal ≠ .function k
  | ⟨.defineLet, index⟩ | ⟨.defineVar, index⟩ | ⟨.getGlobal, index⟩ | ⟨.setGlobal, index⟩ =>
    index.toNat < c.names.size
  | ⟨.getProperty, index⟩ | ⟨.setProperty, index⟩ => index.toNat < c.names.size
  | ⟨.closure, (index, sources)⟩ => ∃ k f, c.constants[index.toNat]? = some (.function k) ∧
      functions[k]? = some f ∧ f.captures = sources.length
  | _ => True

/-- Where a jump leads, from the place behind it. A loop that leads to before the code has no
target. -/
def Instr.jumpTarget? : Instr → (behind : Nat) → Option Nat
  | ⟨.jump, distance⟩, behind => some (behind + distance.toNat)
  | ⟨.jumpIfFalse, distance⟩, behind => some (behind + distance.toNat)
  | ⟨.jumpIfTrue, distance⟩, behind => some (behind + distance.toNat)
  | ⟨.loop, distance⟩, behind => if distance.toNat ≤ behind then some (behind - distance.toNat) else none
  | _, _ => none

/-- Whether an instruction may lead elsewhere than behind itself. -/
def Opcode.isJump : Opcode → Bool
  | jump | jumpIfFalse | jumpIfTrue | loop => true
  | _ => false

/-- A jump as a listing shows it. -/
def Instr.jumpText (i : Instr) (target : Nat) : String := i.op.name ++ " -> " ++ zeroPadded 4 target

/-- **A compiled chunk** with the instructions that it is read as. -/
structure Chunk.Regular (c : Chunk Literal) (functions : Array (Prototype Literal))
    (code : Written) : Prop where
  lines : c.lines.size = c.code.size
  reads : c.Reads 0 code
  refers : ∀ i line, (i, line) ∈ code → i.Refers c functions
  jumps : ∀ before i line after, code = before ++ (i, line) :: after → i.op.isJump = true →
    ∃ target, i.jumpTarget? (Written.size before + i.size) = some target ∧
      target ∈ Written.places 0 code ∧
      ∀ shown, c.instrText? shown (Written.size before) i = some (i.jumpText target)

section Sealed

open Annotated

variable {P : Pool} {b : Block} {t : StackShape}

/-- **The items of sealed code** are instructions that find what they need, and lead to where items
are. -/
theorem Sealed.item (h : Sealed P b t) {before after : List Item} {item : Item}
    (hb : b.toList = before ++ item :: after) : ∃ i line u, item = .instr i line ∧
      i.Fits P u (Block.place before + i.size) ∧
      ∀ place ∈ i.targets (Block.place before + i.size),
        place ∈ Written.places 0 (Block.written b.toList) := by
  obtain ⟨l, hl, -, hcheck⟩ := h
  rw [← hl] at hb
  obtain ⟨l₁, l₂, rfl, rfl, hl₂⟩ := List.map_eq_append_iff.1 hb
  obtain ⟨⟨item', u⟩, l₃, rfl, rfl, rfl⟩ := List.map_eq_cons_iff.1 hl₂
  obtain ⟨hfits, hlabels⟩ := hcheck.item rfl
  have hplace : 0 + size l₁ = Block.place (l₁.map Prod.fst) := Nat.zero_add _
  cases item' with
  | exit line =>
    obtain ⟨place, hplace, -⟩ := hlabels .exit (List.mem_singleton.2 rfl)
    cases hplace
  | instr i line =>
    rw [hplace] at hfits hlabels
    refine ⟨i, line, u, rfl, hfits, fun place hmem => ?_⟩
    obtain ⟨place', heq, hknown⟩ := hlabels (.at_ place) (List.mem_map_of_mem hmem)
    cases heq
    obtain ⟨before', item', u', after', heq, rfl, -⟩ := hknown.item
    rw [← hl, heq, Written.mem_places]
    exact ⟨Block.written (before'.map Prod.fst), _, Block.written (after'.map Prod.fst),
      by rw [List.map_append, Block.written_append]; rfl, by rw [Block.size_written]; rfl⟩

/-- Sealed code is read back. -/
theorem Sealed.reads {κ : Type} (h : Sealed P b t) (constants : Array κ) (names : Array String) :
    (b.toChunk constants names).Reads 0 (Block.written b.toList) := by
  refine Block.reads_toChunk constants names fun item hitem => ?_
  obtain ⟨before, after, hb⟩ := List.append_of_mem hitem
  obtain ⟨i, line, u, rfl, hfits, -⟩ := h.item hb
  exact hfits.writable

end Sealed

/-! ### Listings -/

section Listings

variable {κ : Type} {c : Chunk κ} {shown : κ → String}

/-- The line of an instruction in a listing. -/
def listedLine (offset line : Nat) (text : String) : String :=
  zeroPadded 4 offset ++ " " ++ blankPadded 4 line ++ " " ++ text

/-- **The lines of a listing** for instructions, the first of which is at `offset`. -/
inductive Chunk.Lists (c : Chunk κ) (shown : κ → String) :
    (offset : Nat) → Written → List String → Prop
  | nil {offset : Nat} : Lists c shown offset [] []
  | cons {offset line : Nat} {i : Instr} {text : String} {code : Written} {lines : List String}
      (hi : c.instrText? shown offset i = some text) (h : Lists c shown (offset + i.size) code lines) :
      Lists c shown offset ((i, line) :: code) (listedLine offset line text :: lines)

/-- The heading of a listing with its lines. -/
def listingText (name : String) (lines : List String) : String :=
  lines.foldl (fun text line => text ++ line ++ "\n") ("== " ++ name ++ " ==\n")

/-- **A chunk is listed as it is read,** if the text of every instruction exists. -/
theorem Chunk.Reads.listing {code : Written} (h : c.Reads 0 code)
    (htext : ∀ before i line after, code = before ++ (i, line) :: after →
      ∃ text, c.instrText? shown (Written.size before) i = some text) (name : String) :
    ∃ lines, c.Lists shown 0 code lines ∧
      c.listing? shown name = some (listingText name lines) := by
  have hfrom : ∀ (rest : Written) (offset : Nat), c.Reads offset rest →
      (∀ before i line after, rest = before ++ (i, line) :: after →
        ∃ text, c.instrText? shown (offset + Written.size before) i = some text) →
      ∃ lines, c.Lists shown offset rest lines ∧ ∀ fuel text, c.code.size ≤ offset + fuel →
        c.listingFrom? shown fuel offset text
          = some (lines.foldl (fun text line => text ++ line ++ "\n") text) := by
    intro rest
    induction rest with
    | nil =>
      intro offset hr _
      cases hr
      refine ⟨[], .nil, fun fuel text _ => ?_⟩
      cases fuel with
      | zero => rfl
      | succ fuel => rw [listingFrom?, if_neg (Nat.lt_irrefl _)]; rfl
    | cons e rest ih =>
      intro offset hr htext
      obtain ⟨i, line⟩ := e
      cases hr with
      | next hi hline hr =>
      obtain ⟨text, hshown⟩ := htext [] i line rest rfl
      rw [Written.size_nil, Nat.add_zero] at hshown
      obtain ⟨lines, hlists, hrest⟩ := ih (offset + i.size) hr fun before i' line' after heq => by
        obtain ⟨text', htext'⟩ := htext ((i, line) :: before) i' line' after (by rw [heq]; rfl)
        rw [Written.size_cons, ← Nat.add_assoc] at htext'
        exact ⟨text', htext'⟩
      refine ⟨_, .cons hshown hlists, fun fuel text' hfuel => ?_⟩
      have hle := hr.le
      have hpos : 0 < i.size := by simp only [Instr.size]; omega
      cases fuel with
      | zero => omega
      | succ fuel =>
        have hstep : c.listingLine? shown offset
            = some (listedLine offset line text, offset + i.size) := by
          rw [c.listingLine?_eq shown hi, hshown, hline]
          rfl
        rw [listingFrom?, if_pos (by omega), hstep]
        exact hrest fuel _ (by omega)
  obtain ⟨lines, hlists, hlisting⟩ := hfrom code 0 h fun before i line after heq => by
    rw [Nat.zero_add]
    exact htext before i line after heq
  exact ⟨lines, hlists, hlisting _ _ (Nat.le_add_left _ _)⟩

/-- What refers to something has a text. -/
theorem Chunk.instrText?_isSome {offset : Nat} {i : Instr}
    (hconstant : ∀ index, i = ⟨.constant, index⟩ → index.toNat < c.constants.size)
    (hname : ∀ index : UInt16, i = ⟨.defineLet, index⟩ ∨ i = ⟨.defineVar, index⟩ ∨
      i = ⟨.getGlobal, index⟩ ∨ i = ⟨.setGlobal, index⟩ ∨ i = ⟨.getProperty, index⟩ ∨
      i = ⟨.setProperty, index⟩ → index.toNat < c.names.size)
    (hloop : ∀ distance, i = ⟨.loop, distance⟩ → distance.toNat ≤ offset + 3) :
    ∃ text, c.instrText? shown offset i = some text := by
  have hnamed : ∀ (op : Opcode) (index : UInt16), index.toNat < c.names.size →
      ∃ text, instrText?.named c op index = some text := fun op index hlt => by
    simp [instrText?.named, Array.getElem?_eq_getElem hlt]
  obtain ⟨op, operand⟩ := i
  cases op
  case constant =>
    have hlt := hconstant operand rfl
    simp [instrText?, Array.getElem?_eq_getElem hlt]
  case loop =>
    have hle := hloop operand rfl
    simp [instrText?, backTarget?, hle]
  case defineLet | defineVar | getGlobal | setGlobal | getProperty | setProperty =>
    exact hnamed _ operand (hname operand (by simp))
  all_goals exact ⟨_, rfl⟩

end Listings

/-! ### Sealed code is regular -/

/-- A jump that fits leads where one of its targets is, and is listed with that target. -/
theorem Instr.Fits.jump {P : Pool} {t : StackShape} {offset : Nat} {i : Instr}
    (h : i.Fits P t (offset + i.size)) (hi : i.op.isJump = true) :
    ∃ target ∈ i.targets (offset + i.size), i.jumpTarget? (offset + i.size) = some target ∧
      ∀ {κ : Type} (c : Chunk κ) (shown : κ → String),
        c.instrText? shown offset i = some (i.jumpText target) := by
  have hoperand := h.operand
  obtain ⟨op, operand⟩ := i
  cases op
  case jump => exact ⟨_, List.mem_singleton.2 rfl, rfl, fun _ _ => rfl⟩
  case jumpIfFalse | jumpIfTrue =>
    exact ⟨_, List.mem_cons_of_mem _ (List.mem_singleton.2 rfl), rfl, fun _ _ => rfl⟩
  case loop =>
    have hle : operand.toNat ≤ offset + 3 := hoperand
    refine ⟨_, List.mem_singleton.2 rfl, if_pos hle, fun _ _ => ?_⟩
    simp only [Chunk.instrText?, backTarget?, if_pos hle]
    rfl
  all_goals cases hi

end DeployScript
