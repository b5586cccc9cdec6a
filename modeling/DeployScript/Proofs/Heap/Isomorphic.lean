import DeployScript.Proofs.Heap.Collect
import DeployScript.Proofs.Heap.Writes

/-!
# Heaps that are equal up to their handles

Twins in which linked functions, closures and cells are alike too, so that every object that can
be reached from linked handles has a partner.

* `Heap.Isomorphic` — twins with like code.
* `Isomorphic.extend`, `insert`, `setCell` — what is done to both keeps them so.
* `Isomorphic.restrict` — objects may be dropped on either side, as long as what is kept is closed
  under references.
-/

namespace DeployScript

/-- Code that is equal up to the handles among its constants. -/
structure Chunk.Similar (β : Link) (c c' : Chunk Value) : Prop where
  code : c.code = c'.code
  lines : c.lines = c'.lines
  constants : List.Forall₂ (Value.Similar β) c.constants.toList c'.constants.toList
  names : c.names = c'.names

/-- Functions that are equal up to the handles among their constants. -/
structure Prototype.Similar (β : Link) (p p' : Prototype Value) : Prop where
  name : p.name = p'.name
  params : p.params = p'.params
  captures : p.captures = p'.captures
  chunk : p.chunk.Similar β p'.chunk

/-- Closures of linked functions over linked cells. -/
structure Closure.Similar (β : Link) (c c' : Closure) : Prop where
  function : β .function c.function c'.function
  cells : List.Forall₂ (β .cell) c.cells.toList c'.cells.toList

/-- Cells that are the same slot, or hold similar values. -/
inductive Cell.Similar (β : Link) : Cell → Cell → Prop
  | opened (slot : Nat) : Similar β (.opened slot) (.opened slot)
  | closed {v v' : Value} (hv : v.Similar β v') : Similar β (.closed v) (.closed v')

section

variable {β γ : Link}

theorem Chunk.Similar.mono {c c' : Chunk Value} (hc : c.Similar β c') (hle : β.Le γ) :
    c.Similar γ c' :=
  ⟨hc.code, hc.lines, similar_mono hle hc.constants, hc.names⟩

theorem Prototype.Similar.mono {p p' : Prototype Value} (hp : p.Similar β p') (hle : β.Le γ) :
    p.Similar γ p' :=
  ⟨hp.name, hp.params, hp.captures, hp.chunk.mono hle⟩

theorem Closure.Similar.mono {c c' : Closure} (hc : c.Similar β c') (hle : β.Le γ) :
    c.Similar γ c' :=
  ⟨hle.handle _ _ _ hc.function, hc.cells.imp fun _ _ hh => hle.handle _ _ _ hh⟩

theorem Cell.Similar.mono {c c' : Cell} (hc : c.Similar β c') (hle : β.Le γ) :
    c.Similar γ c' := by
  cases hc with
  | opened slot => exact .opened slot
  | closed hv => exact .closed (hv.mono hle)

end

namespace Heap

/-- **Heaps that are equal up to their handles.** -/
structure Isomorphic (β : Link) (heap heap' : Heap) : Prop extends Twin β heap heap' where
  function : ∀ h h', β .function h h' → ∃ p p', heap.function? h = some p ∧
    heap'.function? h' = some p' ∧ p.Similar β p'
  closure : ∀ h h', β .closure h h' → ∃ c c', heap.closure? h = some c ∧
    heap'.closure? h' = some c' ∧ c.Similar β c'
  cell : ∀ h h', β .cell h h' → ∃ c c', heap.cell? h = some c ∧
    heap'.cell? h' = some c' ∧ c.Similar β c'

namespace Isomorphic

variable {β γ : Link} {heap heap' next next' : Heap} {k : Kind} {h h' : Handle}
  {object object' : Object}

theorem empty : Isomorphic ⟨fun _ _ _ => False, fun _ => True⟩ Heap.empty Heap.empty where
  wf := wf_empty
  wf' := wf_empty
  one _ _ _ _ _ _ hh := hh.elim
  kind _ _ _ _ _ hh := hh.elim
  live _ _ _ hh := hh.elim
  array _ _ hh := hh.elim
  record _ _ hh := hh.elim
  named _ _ hh := hh.elim False.elim False.elim
  function _ _ hh := hh.elim
  closure _ _ hh := hh.elim
  cell _ _ hh := hh.elim

/-- Operations on data keep code alike. -/
theorem extend (hi : Isomorphic β heap heap') (hx : Extends β heap heap' γ next next') :
    Isomorphic γ next next' where
  toTwin := hx.twin
  function g g' hg := by
    rcases hx.code _ _ _ hg with he | he | hg
    · cases he
    · cases he
    obtain ⟨p, p', hp, hp', hs⟩ := hi.function _ _ hg
    exact ⟨p, p', (hx.steady.function g).trans hp, (hx.steady'.function g').trans hp',
      hs.mono hx.le⟩
  closure g g' hg := by
    rcases hx.code _ _ _ hg with he | he | hg
    · cases he
    · cases he
    obtain ⟨c, c', hc, hc', hs⟩ := hi.closure _ _ hg
    exact ⟨c, c', (hx.steady.closure g).trans hc, (hx.steady'.closure g').trans hc',
      hs.mono hx.le⟩
  cell g g' hg := by
    rcases hx.code _ _ _ hg with he | he | hg
    · cases he
    · cases he
    obtain ⟨c, c', hc, hc', hs⟩ := hi.cell _ _ hg
    exact ⟨c, c', (hx.steady.cell g).trans hc, (hx.steady'.cell g').trans hc',
      hs.mono hx.le⟩

/-- **New functions, closures and cells** are linked if they are alike. -/
theorem insert (hi : Isomorphic β heap heap') (hs : heap.insert object = (h, next))
    (hs' : heap'.insert object' = (h', next')) (harray : k ≠ .array) (hrecord : k ≠ .record)
    (hfunction : k = .function → ∃ p p', object = .function p ∧ object' = .function p' ∧
      p.Similar β p')
    (hclosure : k = .closure → ∃ c c', object = .closure c ∧ object' = .closure c' ∧
      c.Similar β c')
    (hcell : k = .cell → ∃ c c', object = .cell c ∧ object' = .cell c' ∧ c.Similar β c') :
    Isomorphic (β.with k h h') next next' := by
  obtain ⟨-, -, hget⟩ := get?_insert hi.wf hs
  obtain ⟨-, -, hget'⟩ := get?_insert hi.wf' hs'
  have hnew : next.get? h = some object := by rw [hget, if_pos rfl]
  have hnew' : next'.get? h' = some object' := by rw [hget', if_pos rfl]
  have hkeep := kept_insert hi.wf hs
  have hkeep' := kept_insert hi.wf' hs'
  have hle := β.le_with k h h'
  have hfunctions : ∀ g g', β .function g g' → ∃ p p', next.function? g = some p ∧
      next'.function? g' = some p' ∧ p.Similar β p' := by
    intro g g' hg
    obtain ⟨p, p', hp, hp', hps⟩ := hi.function _ _ hg
    exact ⟨p, p', hkeep.function? hp, hkeep'.function? hp', hps⟩
  -- A closure is named by its function, which was there before it.
  have hnamed : k = .function ∨ k = .closure → ∃ name, next.functionName? h = some name ∧
      next'.functionName? h' = some name := by
    rintro (hk | hk)
    · obtain ⟨p, p', rfl, rfl, hps⟩ := hfunction hk
      refine ⟨p.name, ?_, ?_⟩
      · simp [functionName?, code?, closure?, function?, hnew]
      · simp [functionName?, code?, closure?, function?, hnew', hps.name]
    · obtain ⟨c, c', rfl, rfl, hcs⟩ := hclosure hk
      obtain ⟨p, p', hp, hp', hps⟩ := hfunctions _ _ hcs.function
      refine ⟨p.name, ?_, ?_⟩
      · simp [functionName?, code?, closure?_eq.2 hnew, hp]
      · simp [functionName?, code?, closure?_eq.2 hnew', hp', hps.name]
  refine ⟨hi.toTwin.insert hs hs' (fun he => absurd he harray) (fun he => absurd he hrecord) hnamed,
    ?function, ?closure, ?cell⟩
  case function =>
    rintro g g' (hg | ⟨he, rfl, rfl⟩)
    · obtain ⟨p, p', hp, hp', hps⟩ := hfunctions _ _ hg
      exact ⟨p, p', hp, hp', hps.mono hle⟩
    · obtain ⟨p, p', rfl, rfl, hps⟩ := hfunction he.symm
      exact ⟨p, p', function?_eq.2 hnew, function?_eq.2 hnew', hps.mono hle⟩
  case closure =>
    rintro g g' (hg | ⟨he, rfl, rfl⟩)
    · obtain ⟨c, c', hc, hc', hcs⟩ := hi.closure _ _ hg
      exact ⟨c, c', hkeep.closure? hc, hkeep'.closure? hc', hcs.mono hle⟩
    · obtain ⟨c, c', rfl, rfl, hcs⟩ := hclosure he.symm
      exact ⟨c, c', closure?_eq.2 hnew, closure?_eq.2 hnew', hcs.mono hle⟩
  case cell =>
    rintro g g' (hg | ⟨he, rfl, rfl⟩)
    · obtain ⟨c, c', hc, hc', hcs⟩ := hi.cell _ _ hg
      exact ⟨c, c', hkeep.cell? hc, hkeep'.cell? hc', hcs.mono hle⟩
    · obtain ⟨c, c', rfl, rfl, hcs⟩ := hcell he.symm
      exact ⟨c, c', cell?_eq.2 hnew, cell?_eq.2 hnew', hcs.mono hle⟩

/-- **Cells** are set on both sides. -/
theorem setCell (hi : Isomorphic β heap heap') (hh : β .cell h h') {c c' : Cell}
    (hc : c.Similar β c') : Isomorphic β (heap.setCell h c) (heap'.setCell h' c') := by
  obtain ⟨a, a', ha, ha', -⟩ := hi.cell _ _ hh
  rw [cell?_eq] at ha ha'
  have hget : ∀ g, (heap.setCell h c).get? g = if g = h then some (.cell c) else heap.get? g := by
    intro g
    rw [get?_setCell, ha]
    rfl
  have hget' : ∀ g, (heap'.setCell h' c').get? g
      = if g = h' then some (.cell c') else heap'.get? g := by
    intro g
    rw [get?_setCell, ha']
    rfl
  have hfunction := fun g => (other_setCell ha c g).1
  have hclosure := fun g => (other_setCell ha c g).2.1
  have hfunction' := fun g => (other_setCell ha' c' g).1
  have hclosure' := fun g => (other_setCell ha' c' g).2.1
  have htwin : Twin β (heap.setCell h c) (heap'.setCell h' c') :=
    hi.toTwin.replace hh (wf_update hi.wf _) (wf_update hi.wf' _) hget hget'
      (fun he => nomatch he) (fun he => nomatch he)
      (functionName?_congr hfunction hclosure) (functionName?_congr hfunction' hclosure')
  refine ⟨htwin, fun g g' hg => ?_, fun g g' hg => ?_, fun g g' hg => ?_⟩
  · rw [hfunction, hfunction']
    exact hi.function _ _ hg
  · rw [hclosure, hclosure']
    exact hi.closure _ _ hg
  · by_cases he : g = h
    · have he' := (hi.one _ _ _ _ _ _ hg hh).1 he
      refine ⟨c, c', cell?_eq.2 ?_, cell?_eq.2 ?_, hc⟩
      · rw [hget, if_pos he]
      · rw [hget', if_pos he']
    · have he' : g' ≠ h' := fun hne => he ((hi.one _ _ _ _ _ _ hg hh).2 hne)
      obtain ⟨b, b', hb, hb', hbs⟩ := hi.cell _ _ hg
      refine ⟨b, b', cell?_eq.2 ?_, cell?_eq.2 ?_, hbs⟩
      · rw [hget, if_neg he, cell?_eq.1 hb]
      · rw [hget', if_neg he', cell?_eq.1 hb']

end Isomorphic

end Heap

/-! ### What linked objects refer to -/

/-- Handles that are linked, whatever they stand for. -/
def Link.Joins (β : Link) (h h' : Handle) : Prop := ∃ k, β k h h'

theorem Value.Similar.handles {β : Link} {v v' : Value} (hv : v.Similar β v') :
    List.Forall₂ β.Joins v.handles v'.handles := by
  cases hv with
  | function hh => exact .cons ⟨_, hh⟩ .nil
  | closure hh => exact .cons ⟨_, hh⟩ .nil
  | array hh => exact .cons ⟨_, hh⟩ .nil
  | record hh => exact .cons ⟨_, hh⟩ .nil
  | _ => exact .nil

theorem handles_similar {β : Link} {values values' : List Value}
    (hs : List.Forall₂ (Value.Similar β) values values') :
    List.Forall₂ β.Joins (values.flatMap Value.handles) (values'.flatMap Value.handles) :=
  List.rel_flatMap hs fun _ _ hv => hv.handles

namespace Heap.Isomorphic

variable {β : Link} {heap heap' : Heap}

/-- **Linked objects** refer to linked objects. -/
theorem handles (hi : Isomorphic β heap heap') {h h' : Handle} (hh : β.Joins h h') :
    ∃ o o', heap.get? h = some o ∧ heap'.get? h' = some o' ∧
      List.Forall₂ β.Joins o.handles o'.handles := by
  obtain ⟨k, hh⟩ := hh
  cases k with
  | array =>
    obtain ⟨items, items', hl, hl', hs⟩ := hi.array _ _ hh
    exact ⟨_, _, array?_eq.1 hl, array?_eq.1 hl', handles_similar hs⟩
  | record =>
    obtain ⟨fields, fields', hl, hl', hs⟩ := hi.record _ _ hh
    exact ⟨_, _, record?_eq.1 hl, record?_eq.1 hl', handles_similar hs.values⟩
  | function =>
    obtain ⟨p, p', hl, hl', hs⟩ := hi.function _ _ hh
    exact ⟨_, _, function?_eq.1 hl, function?_eq.1 hl', handles_similar hs.chunk.constants⟩
  | closure =>
    obtain ⟨c, c', hl, hl', hs⟩ := hi.closure _ _ hh
    exact ⟨_, _, closure?_eq.1 hl, closure?_eq.1 hl',
      .cons ⟨_, hs.function⟩ (hs.cells.imp fun _ _ hc => ⟨_, hc⟩)⟩
  | cell =>
    obtain ⟨c, c', hl, hl', hs⟩ := hi.cell _ _ hh
    refine ⟨_, _, cell?_eq.1 hl, cell?_eq.1 hl', ?_⟩
    cases hs with
    | opened slot => exact .nil
    | closed hv => exact hv.handles

end Heap.Isomorphic

/-- Where related roots have related references, what can be reached is related. -/
theorem Heap.Reachable.related {heap heap' : Heap} {roots roots' : List Handle}
    {r : Handle → Handle → Prop} (hroots : ∀ h ∈ roots, ∃ h' ∈ roots', r h h')
    (hstep : ∀ h h' o, r h h' → heap.get? h = some o →
      ∃ o', heap'.get? h' = some o' ∧ ∀ k ∈ o.handles, ∃ k' ∈ o'.handles, r k k')
    {h : Handle} (hr : heap.Reachable roots h) :
    ∃ h', r h h' ∧ heap'.Reachable roots' h' := by
  induction hr with
  | root hr =>
    obtain ⟨h', hmem, hh⟩ := hroots _ hr
    exact ⟨h', hh, .root hmem⟩
  | child _ hobject hk ih =>
    obtain ⟨h', hh, hr'⟩ := ih
    obtain ⟨o', ho', hall⟩ := hstep _ _ _ hh hobject
    obtain ⟨k', hmem, hkk⟩ := hall _ hk
    exact ⟨k', hkk, hr'.child ho' hmem⟩

/-- **The links pair what can be reached** from linked roots, on either side. -/
theorem Heap.Isomorphic.pairs {β : Link} {heap heap' : Heap} {roots roots' : List Handle}
    (hi : Heap.Isomorphic β heap heap') (hroots : List.Forall₂ β.Joins roots roots') :
    (∀ h, heap.Reachable roots h → ∃! h', β.Joins h h' ∧ heap'.Reachable roots' h') ∧
      ∀ h', heap'.Reachable roots' h' → ∃! h, β.Joins h h' ∧ heap.Reachable roots h := by
  refine ⟨fun h hr => ?_, fun h' hr => ?_⟩
  · obtain ⟨h', hh, hr'⟩ := hr.related (r := β.Joins) (forall₂_exists hroots).1 fun a a' o ha ho => by
      obtain ⟨b, b', hb, hb', hs⟩ := hi.handles ha
      obtain rfl := Option.some.inj (ho.symm.trans hb)
      exact ⟨b', hb', (forall₂_exists hs).1⟩
    refine ⟨h', ⟨hh, hr'⟩, fun g hg => ?_⟩
    obtain ⟨k, hh⟩ := hh
    obtain ⟨⟨l, hg⟩, -⟩ := hg
    exact ((hi.one _ _ _ _ _ _ hh hg).1 rfl).symm
  · obtain ⟨h, hh, hr'⟩ := hr.related (r := fun a' a => β.Joins a a') (forall₂_exists hroots).2
      fun a' a o ha ho => by
        obtain ⟨b, b', hb, hb', hs⟩ := hi.handles ha
        obtain rfl := Option.some.inj (ho.symm.trans hb')
        exact ⟨b, hb, (forall₂_exists hs).2⟩
    refine ⟨h, ⟨hh, hr'⟩, fun g hg => ?_⟩
    obtain ⟨k, hh⟩ := hh
    obtain ⟨⟨l, hg⟩, -⟩ := hg
    exact ((hi.one _ _ _ _ _ _ hh hg).2 rfl).symm

/-! ### Dropping objects -/

/-- The links among what is kept on both sides. -/
def Link.within (β : Link) (P P' : Handle → Prop) : Link where
  handle k h h' := β k h h' ∧ P h ∧ P' h'
  builtin := β.builtin

section

variable {β : Link} {P P' : Handle → Prop}

theorem Value.Similar.within {v v' : Value} (hv : v.Similar β v') (hP : ∀ h ∈ v.handles, P h)
    (hP' : ∀ h ∈ v'.handles, P' h) : v.Similar (β.within P P') v' := by
  cases hv with
  | function hh => exact .function ⟨hh, hP _ List.mem_cons_self, hP' _ List.mem_cons_self⟩
  | closure hh => exact .closure ⟨hh, hP _ List.mem_cons_self, hP' _ List.mem_cons_self⟩
  | array hh => exact .array ⟨hh, hP _ List.mem_cons_self, hP' _ List.mem_cons_self⟩
  | record hh => exact .record ⟨hh, hP _ List.mem_cons_self, hP' _ List.mem_cons_self⟩
  | builtin hname => exact .builtin hname
  | _ => constructor

theorem forall₂_imp_mem {α ι : Type} {r s : α → ι → Prop} {l : List α} {l' : List ι}
    (h : List.Forall₂ r l l') (hrs : ∀ a ∈ l, ∀ b ∈ l', r a b → s a b) : List.Forall₂ s l l' := by
  induction h with
  | nil => exact .nil
  | cons hab _ ih =>
    refine .cons (hrs _ List.mem_cons_self _ List.mem_cons_self hab) (ih fun a ha b hb => ?_)
    exact hrs a (List.mem_cons_of_mem _ ha) b (List.mem_cons_of_mem _ hb)

theorem similar_within {values values' : List Value}
    (hs : List.Forall₂ (Value.Similar β) values values')
    (hP : ∀ h ∈ values.flatMap Value.handles, P h)
    (hP' : ∀ h ∈ values'.flatMap Value.handles, P' h) :
    List.Forall₂ (Value.Similar (β.within P P')) values values' :=
  forall₂_imp_mem hs fun _ ha _ hb hv =>
    hv.within (fun h hh => hP h (List.mem_flatMap.2 ⟨_, ha, hh⟩))
      fun h hh => hP' h (List.mem_flatMap.2 ⟨_, hb, hh⟩)

theorem Matching.imp_mem {κ ι : Type} {r s : κ → ι → Prop} {t : Std.TreeMap String κ}
    {t' : Std.TreeMap String ι} (hm : Matching r t t')
    (hrs : ∀ a ∈ t.values, ∀ b ∈ t'.values, r a b → s a b) : Matching s t t' := by
  intro key
  have hk := hm key
  cases ha : t[key]? with
  | none =>
    rw [ha] at hk
    generalize t'[key]? = b at hk
    cases hk
    exact .none
  | some a =>
    cases hb : t'[key]? with
    | none =>
      rw [ha, hb] at hk
      cases hk
    | some b =>
      rw [ha, hb] at hk
      cases hk with
      | some hab => exact .some (hrs a (mem_values.2 ⟨key, ha⟩) b (mem_values.2 ⟨key, hb⟩) hab)

end

namespace Heap

/-- **A heap with fewer objects:** what is kept is as it was, and so is all that it refers to. -/
structure Keeps (heap next : Heap) (P : Handle → Prop) : Prop where
  wf : next.Wf
  get? : ∀ h, P h → next.get? h = heap.get? h
  closed : ∀ h o, P h → heap.get? h = some o → ∀ k ∈ o.handles, P k

variable {β : Link} {heap heap' next next' : Heap} {P P' : Handle → Prop} {h : Handle}

theorem Keeps.refl (hw : heap.Wf) : Keeps heap heap fun _ => True :=
  ⟨hw, fun _ _ => rfl, fun _ _ _ _ _ _ => trivial⟩

theorem keeps_collected (hw : heap.Wf) (roots : List Handle) :
    Keeps heap (heap.markAll roots).trace.sweep (heap.Reachable roots) := by
  obtain ⟨hw', hget, -⟩ := get?_collected hw roots
  exact ⟨hw', hget, fun h o hr ho k hk => hr.child ho hk⟩

theorem Keeps.function? (hk : Keeps heap next P) (hh : P h) :
    next.function? h = heap.function? h := by
  unfold Heap.function?
  rw [hk.get? h hh]

theorem Keeps.closure? (hk : Keeps heap next P) (hh : P h) :
    next.closure? h = heap.closure? h := by
  unfold Heap.closure?
  rw [hk.get? h hh]

/-- A closure that is kept keeps its function and its cells. -/
theorem Keeps.of_closure (hk : Keeps heap next P) (hh : P h) {c : Closure}
    (hc : heap.closure? h = some c) : P c.function ∧ ∀ g ∈ c.cells, P g := by
  have hclosed := hk.closed _ _ hh (closure?_eq.1 hc)
  exact ⟨hclosed _ List.mem_cons_self,
    fun g hg => hclosed _ (List.mem_cons_of_mem _ (Array.mem_toList_iff.2 hg))⟩

/-- A function that is kept keeps its name. -/
theorem Keeps.functionName? (hk : Keeps heap next P) (hh : P h) :
    next.functionName? h = heap.functionName? h := by
  unfold Heap.functionName? Heap.code?
  rw [hk.closure? hh]
  cases hc : heap.closure? h with
  | none =>
    dsimp only
    rw [hk.function? hh]
  | some c =>
    dsimp only
    rw [hk.function? (hk.of_closure hh hc).1]

/-- **Objects may be dropped** on both sides, -/
theorem Twin.restrict (ht : Twin β heap heap') (hk : Keeps heap next P)
    (hk' : Keeps heap' next' P') : Twin (β.within P P') next next' where
  wf := hk.wf
  wf' := hk'.wf
  one k l a a' b b' ha hb := ht.one _ _ _ _ _ _ ha.1 hb.1
  kind k l a a' b' ha hb := ht.kind _ _ _ _ _ ha.1 hb.1
  live := by
    rintro k a a' ⟨ha, hp, hp'⟩
    rw [hk.get? a hp, hk'.get? a' hp']
    exact ht.live _ _ _ ha
  array := by
    rintro a a' ⟨ha, hp, hp'⟩
    obtain ⟨items, items', hitems, hitems', hs⟩ := ht.array _ _ ha
    rw [array?_eq] at hitems hitems'
    refine ⟨items, items', array?_eq.2 ((hk.get? a hp).trans hitems),
      array?_eq.2 ((hk'.get? a' hp').trans hitems'), ?_⟩
    exact similar_within hs (hk.closed _ _ hp hitems) (hk'.closed _ _ hp' hitems')
  record := by
    rintro a a' ⟨ha, hp, hp'⟩
    obtain ⟨fields, fields', hfields, hfields', hs⟩ := ht.record _ _ ha
    rw [record?_eq] at hfields hfields'
    refine ⟨fields, fields', record?_eq.2 ((hk.get? a hp).trans hfields),
      record?_eq.2 ((hk'.get? a' hp').trans hfields'), ?_⟩
    refine hs.imp_mem fun v hv w hw hvw => hvw.within (fun g hg => ?_) fun g hg => ?_
    · exact hk.closed _ _ hp hfields g (List.mem_flatMap.2 ⟨v, hv, hg⟩)
    · exact hk'.closed _ _ hp' hfields' g (List.mem_flatMap.2 ⟨w, hw, hg⟩)
  named a a' hl := by
    obtain ⟨hl, hp, hp'⟩ : (β .function a a' ∨ β .closure a a') ∧ P a ∧ P' a' := by
      rcases hl with ⟨hl, hp⟩ | ⟨hl, hp⟩
      · exact ⟨.inl hl, hp⟩
      · exact ⟨.inr hl, hp⟩
    rw [hk.functionName? hp, hk'.functionName? hp']
    exact ht.named _ _ hl

/-- and so they may where code is alike. -/
theorem Isomorphic.restrict (hi : Isomorphic β heap heap') (hk : Keeps heap next P)
    (hk' : Keeps heap' next' P') : Isomorphic (β.within P P') next next' := by
  refine ⟨hi.toTwin.restrict hk hk', ?function, ?closure, ?cell⟩
  case function =>
    rintro g g' ⟨hg, hp, hp'⟩
    obtain ⟨p, p', hf, hf', hs⟩ := hi.function _ _ hg
    refine ⟨p, p', (hk.function? hp).trans hf, (hk'.function? hp').trans hf', ?_⟩
    refine ⟨hs.name, hs.params, hs.captures, hs.chunk.code, hs.chunk.lines, ?_, hs.chunk.names⟩
    exact similar_within hs.chunk.constants (hk.closed _ _ hp (function?_eq.1 hf))
      (hk'.closed _ _ hp' (function?_eq.1 hf'))
  case closure =>
    rintro g g' ⟨hg, hp, hp'⟩
    obtain ⟨c, c', hc, hc', hs⟩ := hi.closure _ _ hg
    refine ⟨c, c', (hk.closure? hp).trans hc, (hk'.closure? hp').trans hc', ?_⟩
    obtain ⟨hf, hcells⟩ := hk.of_closure hp hc
    obtain ⟨hf', hcells'⟩ := hk'.of_closure hp' hc'
    refine ⟨⟨hs.function, hf, hf'⟩, forall₂_imp_mem hs.cells fun a ha b hb hab => ?_⟩
    exact ⟨hab, hcells a (Array.mem_toList_iff.1 ha), hcells' b (Array.mem_toList_iff.1 hb)⟩
  case cell =>
    rintro a a' ⟨ha, hp, hp'⟩
    obtain ⟨c, c', hc, hc', hs⟩ := hi.cell _ _ ha
    rw [cell?_eq] at hc hc'
    refine ⟨c, c', cell?_eq.2 ((hk.get? a hp).trans hc), cell?_eq.2 ((hk'.get? a' hp').trans hc'),
      ?_⟩
    cases hs with
    | opened slot => exact .opened slot
    | closed hv => exact .closed (hv.within (hk.closed _ _ hp hc) (hk'.closed _ _ hp' hc'))

end Heap

end DeployScript
