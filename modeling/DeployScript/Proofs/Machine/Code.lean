import DeployScript.Heap.Basic
import DeployScript.Proofs.Code.Scripts
import DeployScript.Proofs.Heap.Writes

/-!
# Code in a heap

The functions of a script are stored in a heap before it runs, and their constants become values.
What is known of the stack along their code is not lost by that.

* `Instr.Path` — the heights of the stack along all ways through a code.
* `Checked.instr` — where the shape is known there is an instruction, it finds what it needs, and
  wherever it leads the shape is known again; `Sealed.instr_of_path` — so are all instructions found.
* `Prototype.Shaped` — a shape of the stack before each instruction of a function;
  `Shaped.path_unique` — each place has one height.
* `Heap.shaped_install` — compiled functions are shaped where they are stored.
-/

namespace DeployScript

open Annotated

/-- A constant that is no function. -/
def Value.IsLiteral : Value → Prop
  | .number _ | .text _ => True
  | _ => False

/-- What the instructions of a function in a heap refer to. -/
def Heap.pool (heap : Heap) (p : Prototype Value) : Pool where
  data i := ∃ v : Value, p.chunk.constants[i]? = some v ∧ v.IsLiteral
  function i n := ∃ h q, p.chunk.constants[i]? = some (.function h) ∧ heap.function? h = some q ∧
    q.captures = n
  names := p.chunk.names.size
  captures := p.captures

/-- Functions stay what they are to their pools while a heap keeps its functions. -/
theorem Heap.pool_le {heap next : Heap} {p : Prototype Value}
    (hkeep : ∀ h q, Value.function h ∈ p.chunk.constants → heap.function? h = some q →
      next.function? h = some q) :
    (heap.pool p).Le (next.pool p) where
  data _ hi := hi
  function := fun _ _ ⟨h, q, hi, hq, hn⟩ =>
    ⟨h, q, hi, hkeep h q (Array.mem_of_getElem? hi) hq, hn⟩
  names := Nat.le_refl _
  captures := Nat.le_refl _

/-! ### Heights along all ways -/

/-- **The heights of the stack** along the ways through a code: the start has the function and its
arguments, and each instruction takes and leaves values on every way on. -/
inductive Instr.Path (code : Array UInt8) (params : Nat) : (ip height : Nat) → Prop
  | start : Path code params 0 (params + 1)
  | next {ip height place : Nat} {i : Instr} (hp : Path code params ip height)
    (hi : Instr.decode code ip = .instr i) (hplace : place ∈ i.targets (ip + i.size)) :
    Path code params place (height - i.taken + i.given)

section Checked

variable {κ : Type} {P : Pool} {b : Block} {l : Annotated} {ip n params : Nat} {t entry : StackShape}

/-- **An instruction** of checked code stands where the shape is known; it finds what it needs, and
wherever it leads the shape is known. -/
theorem Annotated.Checked.instr
    (h : Checked P (fun label s => ∃ place, label = .at_ place ∧ Known 0 l place s) 0 l)
    (hl : l.map Prod.fst = b.toList) (hk : Known 0 l ip t) :
    ∃ before i line after u, b.toList = before ++ Item.instr i line :: after ∧ ip = Block.place before ∧
      t ≤ u ∧ i.Fits P u (ip + i.size) ∧ ∀ place ∈ i.targets (ip + i.size), Known 0 l place (i.after u) := by
  obtain ⟨before, item, u, after, rfl, rfl, ht⟩ := hk.item
  obtain ⟨hfits, hlabels⟩ := h.item rfl
  cases item with
  | exit line =>
    obtain ⟨place, hplace, -⟩ := hlabels .exit (List.mem_singleton.2 rfl)
    cases hplace
  | instr i line =>
    refine ⟨before.map Prod.fst, i, line, after.map Prod.fst, u, ?_, Nat.zero_add _, ht, hfits,
      fun place hplace => ?_⟩
    · rw [← hl, List.map_append, List.map_cons]
    · obtain ⟨place', heq, hknown⟩ := hlabels (.at_ place) (List.mem_map_of_mem hplace)
      cases heq
      exact hknown

/-- **Every way** through checked code keeps to the shapes. -/
theorem Annotated.Checked.known_of_path
    (h : Checked P (fun label s => ∃ place, label = .at_ place ∧ Known 0 l place s) 0 l)
    (hl : l.map Prod.fst = b.toList) (hentry : Known 0 l 0 entry) {constants : Array κ}
    {names : Array String} (hp : Instr.Path (b.toChunk constants names).code params ip n) :
    ∃ t, Known 0 l ip t ∧ (entry.height = params + 1 → t.height = n) := by
  induction hp with
  | start => exact ⟨entry, hentry, id⟩
  | next _ hi hplace ih =>
    obtain ⟨t, hk, hheight⟩ := ih
    obtain ⟨before, i, line, after, u, hitems, rfl, ht, hfits, hnext⟩ := h.instr hl hk
    obtain rfl := Instr.Decoded.instr.inj
      (hi.symm.trans (Block.decode_toChunk constants names hitems hfits.writable))
    refine ⟨_, hnext _ hplace, fun hentry => ?_⟩
    change u.height - _ + _ = _
    rw [← ht.1, hheight hentry]

/-- **Every way** through sealed code leads from one instruction to another. -/
theorem Sealed.instr_of_path (h : Sealed P b entry) {constants : Array κ} {names : Array String}
    (hp : Instr.Path (b.toChunk constants names).code params ip n) : ∃ before i line after,
      b.toList = before ++ Item.instr i line :: after ∧ ip = Block.place before ∧ i.Writable := by
  obtain ⟨l, hl, hentry, hchecked⟩ := h
  obtain ⟨t, hk, -⟩ := hchecked.known_of_path hl hentry hp
  obtain ⟨before, i, line, after, u, hitems, hip, -, hfits, -⟩ := hchecked.instr hl hk
  exact ⟨before, i, line, after, hitems, hip, hfits.writable⟩

end Checked

/-! ### Shaped functions -/

/-- **A function with the shape of the stack** before each of its instructions. -/
structure Prototype.Shaped (heap : Heap) (p : Prototype Value) (l : Annotated) : Prop where
  chunk : ∃ b : Block, p.chunk = b.toChunk p.chunk.constants p.chunk.names ∧
    l.map Prod.fst = b.toList
  entry : Known 0 l 0 (entryShape p.params.length)
  checked : Checked (heap.pool p) (fun label s => ∃ place, label = .at_ place ∧ Known 0 l place s)
    0 l

namespace Prototype.Shaped

variable {heap next : Heap} {p : Prototype Value} {l : Annotated} {ip n n' : Nat} {t : StackShape}

theorem mono (hs : p.Shaped heap l)
    (hkeep : ∀ h q, Value.function h ∈ p.chunk.constants → heap.function? h = some q →
      next.function? h = some q) : p.Shaped next l :=
  ⟨hs.chunk, hs.entry, hs.checked.mono (Heap.pool_le hkeep) fun _ _ h => h⟩

/-- **An instruction** stands where the shape is known; it finds what it needs, and wherever it
leads the shape is known. -/
theorem instr (hs : p.Shaped heap l) (hk : Known 0 l ip t) :
    ∃ i u, Instr.decode p.chunk.code ip = .instr i ∧ t ≤ u ∧
      i.Fits (heap.pool p) u (ip + i.size) ∧
      ∀ place ∈ i.targets (ip + i.size), Known 0 l place (i.after u) := by
  obtain ⟨b, hchunk, hl⟩ := hs.chunk
  obtain ⟨before, i, line, after, u, hitems, rfl, ht, hfits, hnext⟩ := hs.checked.instr hl hk
  refine ⟨i, u, ?_, ht, hfits, hnext⟩
  rw [hchunk]
  exact Block.decode_toChunk _ _ hitems hfits.writable

/-- Every way keeps to the shapes. -/
theorem known_of_path (hs : p.Shaped heap l)
    (hp : Instr.Path p.chunk.code p.params.length ip n) : ∃ t, t.height = n ∧ Known 0 l ip t := by
  obtain ⟨b, hchunk, hl⟩ := hs.chunk
  rw [hchunk] at hp
  obtain ⟨t, hk, hheight⟩ := hs.checked.known_of_path hl hs.entry hp
  exact ⟨t, hheight rfl, hk⟩

/-- **All ways to one place** have one height there. -/
theorem path_unique (hs : p.Shaped heap l) (hp : Instr.Path p.chunk.code p.params.length ip n)
    (hp' : Instr.Path p.chunk.code p.params.length ip n') : n = n' := by
  obtain ⟨t, rfl, hk⟩ := hs.known_of_path hp
  obtain ⟨t', rfl, hk'⟩ := hs.known_of_path hp'
  exact hk.unique hk'

end Prototype.Shaped

/-! ### Scripts in a heap -/

/-- **All functions of a heap** have shapes. -/
def Heap.Coded (heap : Heap) : Prop := ∀ h p, heap.function? h = some p → ∃ l, p.Shaped heap l

/-- Where functions are found as before, they have the shapes that they had. -/
theorem Heap.Coded.congr {heap next : Heap} (hc : heap.Coded)
    (hfunction : ∀ g, next.function? g = heap.function? g) : next.Coded := by
  intro g p hp
  rw [hfunction] at hp
  obtain ⟨l, hl⟩ := hc g p hp
  exact ⟨l, hl.mono fun k q _ hq => (hfunction k).trans hq⟩

/-- A function with the values of its constants. -/
def Prototype.valued (handles : Array Handle) (p : Prototype Literal) : Prototype Value :=
  { p with chunk := p.chunk.mapConstants (Heap.literalValue handles) }

/-- The functions of a script up to a number are stored, in order. -/
structure Heap.Stores (heap : Heap) (functions : Array (Prototype Literal)) (number : Nat)
    (handles : Array Handle) : Prop where
  size : handles.size = number
  stored : ∀ (k : Nat) (h : Handle), handles[k]? = some h → ∃ p handles',
    functions[k]? = some p ∧ heap.function? h = some (p.valued handles')

/-- **A finished function** is shaped where the functions that it refers to are stored. -/
theorem Prototype.Finished.shaped {functions : Array (Prototype Literal)} {number : Nat}
    {p : Prototype Literal} {heap : Heap} {handles : Array Handle}
    (hf : p.Finished functions number) (hs : heap.Stores functions number handles) :
    ∃ l, (p.valued handles).Shaped heap l := by
  obtain ⟨b, hb, hsealed⟩ := hf.code
  have hpool : (poolOf p.chunk.constants functions p.chunk.names.size p.captures).Le
      (heap.pool (p.valued handles)) := by
    refine ⟨?_, ?_, Nat.le_refl _, Nat.le_refl _⟩
    · rintro i ⟨literal, hi, hne⟩
      refine ⟨Heap.literalValue handles literal, ?_, ?_⟩
      · change (p.chunk.constants.map _)[i]? = _
        rw [Array.getElem?_map, hi]
        rfl
      · cases literal with
        | number n => trivial
        | text s => trivial
        | function k => exact absurd rfl (hne k)
    · rintro i n ⟨k, q, hi, hk, rfl⟩
      have hlt : k < handles.size := hs.size ▸ hf.below k (Array.mem_of_getElem? hi)
      obtain ⟨q', handles', hq', hstored⟩ := hs.stored k _ (Array.getElem?_eq_getElem hlt)
      obtain rfl := Option.some.inj (hk.symm.trans hq')
      refine ⟨handles[k], _, ?_, hstored, rfl⟩
      change (p.chunk.constants.map _)[i]? = _
      rw [Array.getElem?_map, hi]
      simp [Heap.literalValue, hlt]
  obtain ⟨l, hl, hentry, hcheck⟩ := hsealed.mono hpool
  refine ⟨l, ⟨b, ?_, hl⟩, hentry, hcheck⟩
  change p.chunk.mapConstants _ = _
  rw [hb, Block.toChunk_eq]
  simp only [Chunk.mapConstants, Block.toChunk_eq]
  rfl

/-- The functions of a script are stored one after another. -/
theorem Heap.stores_next {heap next : Heap} {functions : Array (Prototype Literal)} {number : Nat}
    {handles : Array Handle} {p : Prototype Literal} {h : Handle} (hw : heap.Wf)
    (hcoded : heap.Coded) (hs : heap.Stores functions number handles)
    (hp : functions[number]? = some p) (hf : p.Finished functions number)
    (hi : heap.insert (.function (p.valued handles)) = (h, next)) :
    next.Coded ∧ next.Stores functions (number + 1) (handles.push h) := by
  obtain ⟨-, -, hget⟩ := get?_insert hw hi
  have hkeep := kept_insert hw hi
  have hnew : next.function? h = some (p.valued handles) :=
    function?_eq.2 (by rw [hget, if_pos rfl])
  refine ⟨fun g q hq => ?_, ?_, fun k g hk => ?_⟩
  · rw [function?_eq, hget] at hq
    split at hq
    case isTrue =>
      obtain rfl : p.valued handles = q := by simpa using hq
      obtain ⟨l, hl⟩ := hf.shaped hs
      exact ⟨l, hl.mono fun _ _ _ hq => hkeep.function? hq⟩
    case isFalse =>
      obtain ⟨l, hl⟩ := hcoded g q (function?_eq.2 hq)
      exact ⟨l, hl.mono fun _ _ _ hq => hkeep.function? hq⟩
  · rw [Array.size_push, hs.size]
  · rw [Array.getElem?_push] at hk
    split at hk
    case isTrue he =>
      obtain rfl := Option.some.inj hk
      exact ⟨p, handles, by rw [he, hs.size, hp], hnew⟩
    case isFalse =>
      obtain ⟨q, handles', hq, hstored⟩ := hs.stored k g hk
      exact ⟨q, handles', hq, hkeep.function? hstored⟩

/-- A heap with more functions, and nothing else new. -/
structure Heap.AddsCode (heap next : Heap) : Prop where
  wf : next.Wf
  keep : ∀ g o, heap.get? g = some o → next.get? g = some o
  new : ∀ g o, next.get? g = some o → heap.get? g = some o ∨ ∃ p, o = .function p

theorem Heap.AddsCode.refl {heap : Heap} (hw : heap.Wf) : heap.AddsCode heap :=
  ⟨hw, fun _ _ hg => hg, fun _ _ hg => .inl hg⟩

theorem Heap.AddsCode.trans {heap next last : Heap} (h : heap.AddsCode next)
    (h' : next.AddsCode last) : heap.AddsCode last where
  wf := h'.wf
  keep g o hg := h'.keep g o (h.keep g o hg)
  new g o hg := (h'.new g o hg).elim (h.new g o) .inr

theorem Heap.addsCode_insert {heap next : Heap} {p : Prototype Value} {h : Handle} (hw : heap.Wf)
    (hi : heap.insert (.function p) = (h, next)) : heap.AddsCode next := by
  obtain ⟨-, hw', hget⟩ := get?_insert hw hi
  refine ⟨hw', kept_insert hw hi, fun g o hg => ?_⟩
  rw [hget] at hg
  split at hg
  · exact .inr ⟨p, (Option.some.inj hg).symm⟩
  · exact .inl hg

/-- **Compiled functions** are shaped where they are stored, and so is the script. -/
theorem Heap.shaped_install {heap : Heap} (hw : heap.Wf) (hcoded : heap.Coded) {c : Compiled}
    (hc : c.Sound) :
    heap.AddsCode (heap.install c).2 ∧ (heap.install c).2.Coded ∧
      ∃ l, (scriptPrototype (heap.install c).1).Shaped (heap.install c).2 l := by
  let store := fun (state : Array Handle × Heap) (p : Prototype Literal) =>
    let stored := state.2.insert (.function (p.valued state.1))
    (state.1.push stored.1, stored.2)
  have hall : ∀ (rest done : List (Prototype Literal)) (handles : Array Handle) (heap : Heap),
      c.functions.toList = done ++ rest → heap.Wf → heap.Coded →
      heap.Stores c.functions done.length handles →
      heap.AddsCode (rest.foldl store (handles, heap)).2 ∧
        (rest.foldl store (handles, heap)).2.Coded ∧
        (rest.foldl store (handles, heap)).2.Stores c.functions c.functions.size
          (rest.foldl store (handles, heap)).1 := by
    intro rest
    induction rest with
    | nil =>
      intro done handles heap hdone hw hcoded hs
      have hsize : c.functions.size = done.length := by
        rw [← Array.length_toList, hdone, List.append_nil]
      rw [hsize]
      exact ⟨.refl hw, hcoded, hs⟩
    | cons p rest ih =>
      intro done handles heap hdone hw hcoded hs
      have hp : c.functions[done.length]? = some p := by
        rw [← Array.getElem?_toList, hdone]
        simp
      cases hi : heap.insert (.function (p.valued handles)) with
      | mk h next =>
      obtain ⟨hcoded', hs'⟩ := stores_next hw hcoded hs hp (hc.functions _ _ hp) hi
      have hadds := addsCode_insert hw hi
      have hstep : store (handles, heap) p = (handles.push h, next) := by
        simp only [store, hi]
      obtain ⟨hadds', hrest⟩ := ih (done ++ [p]) (handles.push h) next (by simp [hdone]) hadds.wf
        hcoded' (by rwa [List.length_append, List.length_singleton])
      rw [List.foldl_cons, hstep]
      exact ⟨hadds.trans hadds', hrest⟩
  have hinstall : heap.install c = ((c.main.mapConstants
      (literalValue (c.functions.toList.foldl store (#[], heap)).1)),
      (c.functions.toList.foldl store (#[], heap)).2) := by
    unfold install
    simp only [← Array.foldl_toList]
    rfl
  obtain ⟨hadds, hcoded', hs⟩ := hall c.functions.toList [] #[] heap rfl hw hcoded
    ⟨rfl, fun k h hk => by simp at hk⟩
  rw [hinstall]
  exact ⟨hadds, hcoded', hc.main.shaped hs⟩

end DeployScript
