import DeployScript.Proofs.Bindings.Allowed
import DeployScript.Proofs.Bindings.Coded
import DeployScript.Proofs.Meaning.Scripts

/-!
# Routines in a heap

Compiled functions are stored before they run, and every function of a machine is then the code of a
routine. What the painting of its code says can be read off the machine: which variables are in scope
at a place, and what the instruction there may do to them.

A function that is stored refers to functions that were stored before it. A collection may free some of
these functions, but never one that a function refers to which stays; this is why `Heap.Holds` speaks of
the functions that are still there and not of all functions of a script.

* `Heap.Holds` — a function of a heap is the code of a routine.
* `Routine.InScope` — the variables in scope at a place of a code.
* `Heap.Paints` — what is known at an instruction; `Heap.Holds.paints`.
* `Heap.holds_install` — the functions of a script when it starts.
-/

namespace DeployScript

open Compile

/-! ### Functions that refer to one another -/

/-- **A compiled function in a heap,** where the functions that it refers to are found by `at_`. -/
def Heap.Stored (heap : Heap) (at_ : Nat → Handle → Prop) (h : Handle) (q : Prototype Literal) : Prop :=
  ∃ handles, heap.function? h = some (q.valued handles) ∧
    ∀ k, Literal.function k ∈ q.chunk.constants → ∃ g, handles[k]? = some g ∧ at_ k g

/-- **A function in a heap is the code of a routine.** -/
def Heap.Holds (heap : Heap) (h : Handle) (r : Routine) : Prop :=
  ∃ functions at_ q, (∀ k g, at_ k g → ∃ q, functions[k]? = some q ∧ heap.Stored at_ g q) ∧
    heap.Stored at_ h q ∧ r.Codes functions q

section Holds

variable {heap next : Heap} {h : Handle} {r : Routine}

theorem Heap.Stored.mono {at_ : Nat → Handle → Prop} {q : Prototype Literal}
    (hs : heap.Stored at_ h q)
    (hfunction : ∀ g p, heap.function? g = some p → next.function? g = some p) :
    next.Stored at_ h q := by
  obtain ⟨handles, hp, hrefers⟩ := hs
  exact ⟨handles, hfunction _ _ hp, hrefers⟩

theorem Heap.Holds.mono (hh : heap.Holds h r)
    (hfunction : ∀ g p, heap.function? g = some p → next.function? g = some p) : next.Holds h r := by
  obtain ⟨functions, at_, q, hstocks, hstored, hcodes⟩ := hh
  refine ⟨functions, at_, q, fun k g hg => ?_, hstored.mono hfunction, hcodes⟩
  obtain ⟨q', hq', hs⟩ := hstocks k g hg
  exact ⟨q', hq', hs.mono hfunction⟩

/-- A function that stays keeps those that it refers to. -/
theorem Heap.Stored.keep {at_ : Nat → Handle → Prop} {q : Prototype Literal} {P : Handle → Prop}
    (hs : heap.Stored at_ h q) (hk : Heap.Keeps heap next P) (hP : P h) :
    next.Stored (fun k g => at_ k g ∧ P g) h q := by
  obtain ⟨handles, hp, hrefers⟩ := hs
  refine ⟨handles, (hk.function? hP).trans hp, fun k hmem => ?_⟩
  obtain ⟨g, hg, hat⟩ := hrefers k hmem
  refine ⟨g, hg, hat, hk.closed _ _ hP (Heap.function?_eq.1 hp) g ?_⟩
  have hvalue : Heap.literalValue handles (.function k) = .function g := by
    simp [Heap.literalValue, hg]
  refine List.mem_flatMap.2 ⟨.function g, Array.mem_toList_iff.2 ?_, List.mem_cons_self⟩
  exact Array.mem_map.2 ⟨_, hmem, hvalue⟩

theorem Heap.Holds.keep {P : Handle → Prop} (hh : heap.Holds h r) (hk : Heap.Keeps heap next P)
    (hP : P h) : next.Holds h r := by
  obtain ⟨functions, at_, q, hstocks, hstored, hcodes⟩ := hh
  refine ⟨functions, _, q, fun k g hg => ?_, hstored.keep hk hP, hcodes⟩
  obtain ⟨q', hq', hs⟩ := hstocks k g hg.1
  exact ⟨q', hq', hs.keep hk hg.2⟩

end Holds

/-! ### The variables at a place -/

namespace Written

/-- No two instructions start at one place. -/
theorem places_inj {start place n n' : Nat} {code : Written}
    (h : (places start code)[n]? = some place) (h' : (places start code)[n']? = some place) : n = n' := by
  have hlt : ∀ {start : Nat} (code : Written) (k : Nat), (places start code)[k]? = some place →
      start ≤ place := by
    intro start code k hk
    obtain ⟨before, -, -, -, rfl⟩ := mem_places.1 (List.mem_of_getElem? hk)
    exact Nat.le_add_right _ _
  have hpos : ∀ i : Instr, 0 < i.size := fun i => by
    rw [Instr.size]
    omega
  induction code generalizing start n n' with
  | nil => cases h
  | cons e code ih =>
    cases n with
    | zero =>
      cases n' with
      | zero => rfl
      | succ n' =>
        obtain rfl : start = place := Option.some.inj h
        have hle := hlt code n' h'
        have := hpos e.1
        omega
    | succ n =>
      cases n' with
      | zero =>
        obtain rfl : start = place := Option.some.inj h'
        have hle := hlt code n h
        have := hpos e.1
        omega
      | succ n' => rw [ih h h']

end Written

/-- **The variables in scope at a place** of the code of a routine, the innermost first. -/
def Routine.InScope {κ : Type} (r : Routine) (chunk : Chunk κ) (place : Nat) (vars : List Variable) :
    Prop :=
  ∃ (code : Written) (n : Nat), chunk.Reads 0 code ∧ (Written.places 0 code)[n]? = some place ∧ r.scopes[n]? = some vars

/-- The variables at a place are known. -/
theorem Routine.InScope.unique {κ : Type} {r : Routine} {chunk : Chunk κ} {place : Nat}
    {vars vars' : List Variable} (h : r.InScope chunk place vars) (h' : r.InScope chunk place vars') :
    vars = vars' := by
  obtain ⟨code, n, hreads, hplace, hvars⟩ := h
  obtain ⟨code', n', hreads', hplace', hvars'⟩ := h'
  obtain rfl := hreads.unique hreads'
  obtain rfl := Written.places_inj hplace hplace'
  exact Option.some.inj (hvars.symm.trans hvars')

namespace Painting

variable {l : Painting} {start place : Nat} {q : Paint}

/-- The paints are those of the instructions in turn. -/
theorem Shows.index (h : Shows start l place q) : ∃ n : Nat,
    (Written.places start (l.map Prod.fst))[n]? = some place ∧ (l.map Prod.snd)[n]? = some q := by
  induction l generalizing start with
  | nil => exact h.elim
  | cons a l ih =>
    rcases h with ⟨rfl, rfl⟩ | h
    · exact ⟨0, rfl, rfl⟩
    · obtain ⟨n, hplace, hq⟩ := ih h
      exact ⟨n + 1, hplace, hq⟩

end Painting

/-! ### What an instruction may do -/

/-- **What is known at an instruction** of a function that is the code of a routine: the variables in
scope, that what it assigns may be assigned, and the variables wherever it leads. -/
structure Heap.Paints (heap : Heap) (r : Routine) (p : Prototype Value) (place : Nat) (i : Instr)
    (paint : Paint) : Prop where
  scope : r.InScope p.chunk place paint.vars
  slot : ∀ w, i = ⟨.setLocal, w⟩ →
    ∃ x, paint.vars.reverse[w.toNat]? = some x ∧ x.isMutable = true
  capture : ∀ w, i = ⟨.setCapture, w⟩ → ∃ x, r.captured? w.toNat = some x ∧ x.isMutable = true
  declaration : ∀ w, i = ⟨.defineLet, w⟩ ∨ i = ⟨.defineVar, w⟩ →
    ∃ name, p.chunk.names[w.toNat]? = some name ∧ r.Declares name
  result : i.op = .return_ → 0 < paint.temps
  leads : ∀ place' ∈ i.targets (place + i.size), ∃ q, i.Moves paint q ∧
    r.InScope p.chunk place' q.vars ∧ ∀ w sources, i = ⟨.closure, (w, sources)⟩ →
      ∃ g params body, p.chunk.constants[w.toNat]? = some (.function g) ∧
        (params, body) ∈ r.functions ∧
        heap.Holds g ⟨.function params body, sources, ⟨q.vars, r.captures⟩ :: r.outer⟩

section Paints

variable {heap : Heap} {h : Handle} {r : Routine} {p : Prototype Value} {ip n : Nat} {i : Instr}

/-- **At an instruction** of a function that is the code of a routine: the stack has its variables and
some values above them. -/
theorem Heap.Holds.paints (hh : heap.Holds h r) (hp : heap.function? h = some p)
    (hpath : Instr.Path p.chunk.code p.params.length ip n) (hi : Instr.decode p.chunk.code ip = .instr i) :
    ∃ paint, paint.height = n ∧ heap.Paints r p ip i paint := by
  obtain ⟨functions, at_, f, hstocks, ⟨handles, hf, hrefers⟩, hcodes⟩ := hh
  obtain rfl : p = f.valued handles := Option.some.inj (hp.symm.trans hf)
  obtain ⟨l, hreads, hl⟩ := hcodes.painting
  have hreads' : (f.valued handles).chunk.Reads 0 (l.map Prod.fst) := hreads.mapConstants _
  have hshown : ∀ {place paint}, Painting.Shows 0 l place paint →
      r.InScope (f.valued handles).chunk place paint.vars := by
    intro place paint hs
    obtain ⟨n, hplace, hpaint⟩ := hs.index
    refine ⟨_, n, hreads', hplace, ?_⟩
    rw [← hl.scopes, List.getElem?_map]
    rw [List.getElem?_map] at hpaint
    obtain ⟨e, he, rfl⟩ := Option.map_eq_some_iff.1 hpaint
    rw [he]
    rfl
  -- Where the painting shows a paint, the instruction is the one that is decoded.
  have hinstr : ∀ {place paint j}, Painting.Shows 0 l place paint →
      Instr.decode (f.valued handles).chunk.code place = .instr j →
      j.Sits r (r.tables functions f.chunk) paint ∧ ∀ place' ∈ j.targets (place + j.size), ∃ q,
        j.Leads r (r.tables functions f.chunk) paint q ∧ Painting.Shows 0 l place' q := by
    intro place paint j hs hj
    obtain ⟨before, e, after, hsplit, rfl⟩ := hs.instr
    have hhas : (f.valued handles).chunk.Has 0 (before.map Prod.fst ++ e :: after.map Prod.fst) := by
      have hcode : l.map Prod.fst = before.map Prod.fst ++ e :: after.map Prod.fst := by
        rw [hsplit, List.map_append, List.map_cons]
      exact hcode ▸ hreads'.has
    have hdecode := hhas.right.decode
    obtain rfl : e.1 = j := Instr.Decoded.instr.inj (hdecode.symm.trans hj)
    exact hl.checked.head hsplit
  have hpaint : ∃ paint, paint.height = n ∧ Painting.Shows 0 l ip paint := by
    clear hi
    induction hpath with
    | start =>
      refine ⟨_, ?_, hl.entry⟩
      have hparams : (f.valued handles).params = r.params := hcodes.params
      simp [Paint.height, Routine.entry, Variable.entry, hparams]
    | next _ hj hplace ih =>
      obtain ⟨paint, rfl, hs⟩ := ih
      obtain ⟨q, hq, hs'⟩ := (hinstr hs hj).2 _ hplace
      exact ⟨q, hq.moves.height.2, hs'⟩
  obtain ⟨paint, hheight, hs⟩ := hpaint
  obtain ⟨hsits, hleads⟩ := hinstr hs hi
  refine ⟨paint, hheight, hshown hs, hsits.slot, hsits.capture, hsits.declaration,
    hsits.result, fun place' hplace' => ?_⟩
  obtain ⟨q, hq, hs'⟩ := hleads place' hplace'
  refine ⟨q, hq.moves, hshown hs', fun w sources he => ?_⟩
  obtain ⟨k, g, params, body, hk, hg, -, hmem, hcodes'⟩ := hq.makes w sources he
  obtain ⟨g', hg', hat⟩ := hrefers k (Array.mem_of_getElem? hk)
  obtain ⟨g₂, hg₂, hstored⟩ := hstocks k g' hat
  obtain rfl : g = g₂ := Option.some.inj (hg.symm.trans hg₂)
  refine ⟨g', params, body, ?_, hmem, functions, at_, g, hstocks, hstored, hcodes'⟩
  change (f.chunk.constants.map (Heap.literalValue handles))[w.toNat]? = _
  rw [Array.getElem?_map, show f.chunk.constants[w.toNat]? = some (.function k) from hk, Option.map_some]
  simp [Heap.literalValue, hg']

end Paints

/-! ### Scripts -/

/-- **The code of a program** is the code of its routine. -/
theorem Routine.codes_ofProgram {p : Program} {c : Compiled} (hp : Stmt.AllRegular p.statements)
    (h : Compiled.ofProgram p = .ok c) :
    (Routine.ofProgram p).Codes c.functions (scriptPrototype c.main) := by
  obtain ⟨body, value, hbody, hvalue, hreads⟩ := Compiled.translates_ofProgram hp h
  obtain ⟨hallowed, hallowed'⟩ := Program.allowed_of_compiled hp h
  exact ⟨rfl, splitLast_regular hp, ⟨hallowed, hallowed'⟩, _, ⟨body, value, hbody, hvalue, rfl⟩, hreads⟩

/-- **A script that is stored** with all its functions. -/
theorem Heap.holds_install {heap next : Heap} (hw : heap.Wf) {p : Program} {c : Compiled} {f : Handle}
    (hp : Stmt.AllRegular p.statements) (h : Compiled.ofProgram p = .ok c)
    (hi : (heap.install c).2.insert (.function (scriptPrototype (heap.install c).1)) = (f, next)) :
    next.Holds f (Routine.ofProgram p) := by
  have hinstalled := Heap.installed_storeAll hw c.functions
  have hsize := Heap.size_storeAll heap c.functions
  have hadds := Heap.addsCode_storeAll hw c.functions
  have hsound := Compiled.sound_ofProgram hp h
  change (heap.storeAll c.functions).2.insert (.function
    ((scriptPrototype c.main).valued (heap.storeAll c.functions).1)) = (f, next) at hi
  generalize (heap.storeAll c.functions).1 = handles at hinstalled hsize hi
  generalize (heap.storeAll c.functions).2 = stored at hinstalled hadds hi
  obtain ⟨-, -, hget⟩ := Heap.get?_insert hadds.wf hi
  have hkeep := Heap.kept_insert hadds.wf hi
  have hbelow : ∀ {k : Nat}, k < c.functions.size → ∃ g, handles[k]? = some g :=
    fun hk => ⟨_, Array.getElem?_eq_getElem (hsize ▸ hk)⟩
  refine ⟨c.functions, fun k g => handles[k]? = some g, scriptPrototype c.main, fun k g hg => ?_, ?_,
    Routine.codes_ofProgram hp h⟩
  · obtain ⟨q, hq, hstored⟩ := hinstalled k g hg
    refine ⟨q, hq, _, hkeep.function? hstored, fun j hj => ?_⟩
    have hlt : j < k := (hsound.functions k q hq).below j hj
    have hk : k < c.functions.size := (Array.getElem?_eq_some_iff.1 hq).1
    obtain ⟨g', hg'⟩ := hbelow (hlt.trans hk)
    refine ⟨g', ?_, hg'⟩
    rw [List.getElem?_toArray, List.getElem?_take_of_lt hlt, Array.getElem?_toList]
    exact hg'
  · refine ⟨handles, Heap.function?_eq.2 (by rw [hget, if_pos rfl]), fun j hj => ?_⟩
    obtain ⟨g, hg⟩ := hbelow (hsound.main.below j hj)
    exact ⟨g, hg, hg⟩

end DeployScript
