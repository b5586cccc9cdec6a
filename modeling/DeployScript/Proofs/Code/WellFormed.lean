import DeployScript.Proofs.Code.Exact
import DeployScript.Proofs.Code.Refusals

/-!
# Compiled scripts are well formed

All chunks of a compiled script are read without a rest, and listed as they are read; what their
operands refer to exists, and jumps lead to the starts of instructions. No number in them was cut to
fit into its bytes: the code says what the program says, and where it could not, the compilation fails.

* `Prototype.Finished.regular` — the chunk of a finished function.
* `Compiled.chunks_well_formed` — all of this for what a source compiles to.
-/

namespace DeployScript

open Block

theorem Block.lines_size_toChunk {κ : Type} (b : Block) (constants : Array κ) (names : Array String) :
    (b.toChunk constants names).lines.size = (b.toChunk constants names).code.size := by
  rw [lines_toChunk, code_toChunk, List.size_toArray, List.size_toArray, length_byteLines,
    length_bytes]

/-- What an operand that fits refers to exists. -/
theorem Instr.OperandFits.refers {c : Chunk Literal} {functions : Array (Prototype Literal)}
    {captures behind : Nat} {t : StackShape} {i : Instr}
    (h : i.OperandFits (poolOf c.constants functions c.names.size captures) t behind) :
    i.Refers c functions := by
  obtain ⟨op, operand⟩ := i
  cases op
  case closure => exact h.1
  all_goals first | exact h | trivial

/-- An instruction whose operand refers to something has a text. -/
theorem Instr.OperandFits.text {c : Chunk Literal} {functions : Array (Prototype Literal)}
    {captures offset : Nat} {t : StackShape} {i : Instr} (shown : Literal → String)
    (h : i.OperandFits (poolOf c.constants functions c.names.size captures) t (offset + i.size)) :
    ∃ text, c.instrText? shown offset i = some text := by
  refine Chunk.instrText?_isSome ?_ ?_ ?_
  · rintro index rfl
    obtain ⟨literal, hindex, -⟩ := h
    exact (Array.getElem?_eq_some_iff.1 hindex).1
  · rintro index (rfl | rfl | rfl | rfl | rfl | rfl) <;> exact h
  · rintro distance rfl
    exact h

/-- **The chunk of a finished function** is regular, and listed as it is read. -/
theorem Prototype.Finished.regular {functions : Array (Prototype Literal)} {number : Nat}
    {p : Prototype Literal} (h : p.Finished functions number) :
    ∃ code, p.chunk.Regular functions code ∧ ∀ shown name, ∃ lines, p.chunk.Lists shown 0 code lines ∧
      p.chunk.listing? shown name = some (listingText name lines) := by
  obtain ⟨b, hb, hsealed⟩ := h.code
  have hreads := hsealed.reads p.chunk.constants p.chunk.names
  rw [← hb] at hreads
  -- An instruction that is read is that of an item.
  have hitem : ∀ before i line after, written b.toList = before ++ (i, line) :: after →
      ∃ u, i.Fits (poolOf p.chunk.constants functions p.chunk.names.size p.captures) u
          (Written.size before + i.size) ∧
        ∀ place ∈ i.targets (Written.size before + i.size),
          place ∈ Written.places 0 (written b.toList) := by
    intro before i line after hcode
    obtain ⟨items, rest, hitems, rfl, hrest⟩ := List.map_eq_append_iff.1 hcode
    obtain ⟨item, items', rfl, hitem, rfl⟩ := List.map_eq_cons_iff.1 hrest
    obtain ⟨i', line', u, rfl, hfits, htargets⟩ := hsealed.item hitems
    cases hitem
    rw [← size_written] at hfits htargets
    exact ⟨u, hfits, htargets⟩
  have htext : ∀ shown before i line after, written b.toList = before ++ (i, line) :: after →
      ∃ text, p.chunk.instrText? shown (Written.size before) i = some text := by
    intro shown before i line after hcode
    obtain ⟨u, hfits, -⟩ := hitem before i line after hcode
    exact hfits.operand.text shown
  refine ⟨written b.toList, ⟨?_, hreads, fun i line hmem => ?_, fun before i line after hcode hjump => ?_⟩,
    fun shown name => hreads.listing (htext shown) name⟩
  · rw [hb]
    exact lines_size_toChunk b _ _
  · obtain ⟨before, after, hcode⟩ := List.append_of_mem hmem
    obtain ⟨u, hfits, -⟩ := hitem before i line after hcode
    exact hfits.operand.refers
  · obtain ⟨u, hfits, htargets⟩ := hitem before i line after hcode
    obtain ⟨target, hmem, htarget, hshown⟩ := hfits.jump hjump
    exact ⟨target, htarget, htargets target hmem, fun shown => hshown p.chunk shown⟩

/-- The chunks of a compiled script: that which runs first, and those of all its functions. -/
def Compiled.chunks (c : Compiled) : List (Chunk Literal) :=
  c.main :: c.functions.toList.map (·.chunk)

theorem Compiled.Sound.finished_of_mem {c : Compiled} (h : c.Sound) {chunk : Chunk Literal}
    (hmem : chunk ∈ c.chunks) : ∃ (p : Prototype Literal) (n : Nat), p.chunk = chunk ∧
      p.Finished c.functions n := by
  rcases List.mem_cons.1 hmem with rfl | hmem
  · exact ⟨scriptPrototype c.main, c.functions.size, rfl, h.main⟩
  · obtain ⟨p, hp, rfl⟩ := List.mem_map.1 hmem
    obtain ⟨n, hn, rfl⟩ := List.mem_iff_getElem.1 hp
    exact ⟨_, n, rfl, h.functions n _ (by simp)⟩

/-- **Compiled chunks are well formed, and listed as the machine reads them.** Lines and bytes are
equally many; reading goes from the start to the end; what operands refer to exists; jumps lead to
the starts of instructions and are listed with these targets. Every index, count and distance is the
one that is meant. A program that is not compiled exceeds a limit, or assigns an immutable binding,
or leaves a loop where there is none. -/
theorem Compiled.chunks_well_formed {source : String} {p : Program}
    (hp : Program.ofSource source = .ok p) :
    (∀ c, Compiled.ofProgram p = .ok c → c.Translates p ∧
      ∀ chunk ∈ c.chunks, ∃ code, chunk.Regular c.functions code ∧
        ∀ shown name, ∃ lines, chunk.Lists shown 0 code lines ∧
          chunk.listing? shown name = some (listingText name lines)) ∧
    ∀ e, Compiled.ofProgram p = .error e → Refusal e := by
  have hregular := (Program.spelled_ofSource hp).1
  refine ⟨fun c hc => ⟨translates_ofProgram hregular hc, fun chunk hmem => ?_⟩,
    fun e he => refusal_ofProgram he⟩
  obtain ⟨f, n, rfl, hf⟩ := (sound_ofProgram hregular hc).finished_of_mem hmem
  exact hf.regular

/-- A loop with a variable that a function has captured, a call and a break: its code is what the script says,
and it is listed. -/
theorem Compiled.loop_well_formed :
    let source := "var last\nfn same(a) \x7b return a \x7d\nfor x in [\"a\", \"b\"] \x7b\n fn show() \x7b return x \x7d\n " ++
    "last = show\n if same(x) == \"b\" \x7b break \x7d\n\x7d\nlast()"
    ∃ p c, Program.ofSource source = .ok p ∧ Compiled.ofProgram p = .ok c ∧ c.Translates p ∧
    ∀ chunk ∈ c.chunks, ∃ code, chunk.Regular c.functions code ∧
      ∀ shown name, ∃ lines, chunk.Lists shown 0 code lines ∧
        chunk.listing? shown name = some (listingText name lines) := by
  intro source
  obtain ⟨c, h, -⟩ := Compiled.exists_of_any source (fun _ => true) (by decide +kernel)
  obtain ⟨p, hp, hc⟩ := Compiled.of_ofSource h
  exact ⟨p, c, hp, hc, (Compiled.chunks_well_formed hp).1 c hc⟩

end DeployScript
