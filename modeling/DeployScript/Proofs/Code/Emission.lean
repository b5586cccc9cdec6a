import DeployScript.Proofs.Code.Captures
import DeployScript.Proofs.Code.Counting
import DeployScript.Proofs.Code.Steps
import DeployScript.Proofs.Code.Typing

/-!
# What compiled code does to the stack

What holds of the state in which code is compiled, and of the code that a node becomes.

* `State.Wf` — the captures of the functions under way are linked, and every finished function has
  sealed code.
* `State.Grows` — compiling a node adds variables, constants, names, captures and functions, and
  makes notes; nothing is taken back.
* `Computes` — the code of expressions: it leaves a number of values on the stack, shares nothing,
  and leads nowhere else.
* `Executes` — the code of statements: behind it the stack is as high as there are variables. The
  shape of the stack says which slots may be shared (`State.shape`): those of the innermost loop
  that are noted so far, and of the slots further out any that the loop notes at all, since its code
  runs again behind notes that are made later.
-/

namespace DeployScript

/-- What instructions refer to, by the constants of a function and the functions of the script. -/
def poolOf (constants : Array Literal) (functions : Array (Prototype Literal))
    (names captures : Nat) : Pool where
  data i := ∃ literal, constants[i]? = some literal ∧ ∀ k, literal ≠ .function k
  function i n := ∃ k p, constants[i]? = some (.function k) ∧ functions[k]? = some p ∧
    p.captures = n
  names
  captures

/-- More constants and functions are a larger pool. -/
theorem poolOf_le {constants constants' : Array Literal}
    {functions functions' : Array (Prototype Literal)} {names names' captures captures' : Nat}
    (hc : constants.toList <+: constants'.toList) (hf : functions.toList <+: functions'.toList)
    (hn : names ≤ names') (hcap : captures ≤ captures') :
    (poolOf constants functions names captures).Le
      (poolOf constants' functions' names' captures') where
  data := fun _ ⟨literal, hi, hne⟩ => ⟨literal, getElem?_of_extends hc hi, hne⟩
  function := fun _ _ ⟨k, p, hi, hk, hp⟩ =>
    ⟨k, p, getElem?_of_extends hc hi, getElem?_of_extends hf hk, hp⟩
  names := hn
  captures := hcap

/-- The stack at the start of a function: the function itself and its arguments. -/
def entryShape (params : Nat) : StackShape := ⟨params + 1, fun _ => False⟩

/-- **A finished function** with a number: it refers to functions with smaller numbers only, and its
code is sealed. -/
structure Prototype.Finished (functions : Array (Prototype Literal)) (number : Nat)
    (p : Prototype Literal) : Prop where
  below : ∀ k, .function k ∈ p.chunk.constants → k < number
  code : ∃ b : Block, p.chunk = b.toChunk p.chunk.constants p.chunk.names ∧
    Sealed (poolOf p.chunk.constants functions p.chunk.names.size p.captures) b
      (entryShape p.params.length)

theorem Prototype.Finished.mono {functions functions' : Array (Prototype Literal)} {number : Nat}
    {p : Prototype Literal} (hf : functions.toList <+: functions'.toList)
    (h : p.Finished functions number) : p.Finished functions' number := by
  obtain ⟨b, hb, hsealed⟩ := h.code
  exact ⟨h.below, b, hb, hsealed.mono (poolOf_le List.prefix_rfl hf (Nat.le_refl _) (Nat.le_refl _))⟩

namespace Compile

namespace State

/-- What the instructions of the current function refer to. -/
def pool (s : State) : Pool :=
  poolOf s.current.constants s.functions s.current.names.size s.current.captures.size

/-- **What holds of the state between two nodes.** -/
structure Wf (s : State) : Prop where
  linked : Linked s.current.captures s.enclosing
  depths : ∀ l ∈ s.current.locals, l.depth ≤ s.current.depth
  starts : ∀ loop ∈ s.current.loops, loop.start ≤ s.current.offset
  bounded : ∀ c ∈ s.current :: s.enclosing, ∀ k, .function k ∈ c.constants → k < s.functions.size
  finished : ∀ n (p : Prototype Literal), s.functions[n]? = some p → p.Finished s.functions n

/-- **The state behind a node** has more of everything. New variables are those of the innermost
block. -/
structure Grows (s s' : State) : Prop where
  locals : ∃ new old, s'.current.locals = new ++ old ∧
    List.Forall₂ Local.Noted s.current.locals old ∧ ∀ l ∈ new, l.depth = s.current.depth
  captures : s.current.captures.toList <+: s'.current.captures.toList
  depth : s'.current.depth = s.current.depth
  loops : s'.current.loops = s.current.loops
  constants : s.current.constants.toList <+: s'.current.constants.toList
  names : s.current.names.toList <+: s'.current.names.toList
  enclosing : List.Forall₂ Scope.Noted s.enclosing s'.enclosing
  functions : s.functions.toList <+: s'.functions.toList

variable {s s' s'' : State}

theorem Grows.refl (s : State) : s.Grows s where
  locals := ⟨[], s.current.locals, rfl, Scope.noted_refl _, fun _ h => nomatch h⟩
  captures := List.prefix_rfl
  depth := rfl
  loops := rfl
  constants := List.prefix_rfl
  names := List.prefix_rfl
  enclosing := Scope.notedAll_refl _
  functions := List.prefix_rfl

theorem Grows.trans (h : s.Grows s') (h' : s'.Grows s'') : s.Grows s'' where
  locals := by
    obtain ⟨new, old, hs', hold, hnew⟩ := h.locals
    obtain ⟨new', old', hs'', hold', hnew'⟩ := h'.locals
    rw [hs'] at hold'
    have hmid := (List.forall₂_take_append _ _ _ hold'.flip).flip
    have hlast := (List.forall₂_drop_append _ _ _ hold'.flip).flip
    refine ⟨new' ++ old'.take new.length, old'.drop new.length, ?_, Scope.noted_trans hold hlast, ?_⟩
    · rw [hs'', List.append_assoc, List.take_append_drop]
    intro l hl
    rcases List.mem_append.1 hl with hl | hl
    · rw [hnew' l hl, h.depth]
    · obtain ⟨i, hi, rfl⟩ := List.mem_iff_getElem.1 hl
      have hi' : i < new.length := hmid.length_eq ▸ hi
      have hnoted := hmid.get hi' hi
      exact hnoted.depth.trans (hnew _ (List.getElem_mem hi'))
  captures := h.captures.trans h'.captures
  depth := h'.depth.trans h.depth
  loops := h'.loops.trans h.loops
  constants := h.constants.trans h'.constants
  names := h.names.trans h'.names
  enclosing := Scope.notedAll_trans h.enclosing h'.enclosing
  functions := h.functions.trans h'.functions

theorem Grows.pool_le (h : s.Grows s') : s.pool.Le s'.pool :=
  poolOf_le h.constants h.functions (size_le_of_extends h.names) (size_le_of_extends h.captures)

theorem Grows.flagged (h : s.Grows s') {j : Nat} (hj : s.current.Flagged j) :
    s'.current.Flagged j := by
  obtain ⟨new, old, hs', hold, _⟩ := h.locals
  obtain ⟨l, hl, hcap⟩ := Scope.flagged_noted hold hj
  refine ⟨l, ?_, hcap⟩
  rw [hs', List.reverse_append, List.getElem?_append_left (List.getElem?_eq_some_iff.1 hl).1]
  exact hl

/-- The variables that are kept when the innermost loop is left. -/
def kept (s : State) : Nat :=
  match s.current.loops with
  | [] => 0
  | loop :: _ => (s.current.locals.dropWhile fun l => loop.depth < l.depth).length

/-- The innermost block is one inside the innermost loop. -/
def Inside (s : State) : Prop := ∀ loop ∈ s.current.loops.head?, loop.depth < s.current.depth

theorem Grows.inside (h : s.Grows s') (hs : s.Inside) : s'.Inside := by
  unfold Inside
  rw [h.loops, h.depth]
  exact hs

theorem kept_le (s : State) : s.kept ≤ s.current.locals.length := by
  unfold kept
  split
  · exact Nat.zero_le _
  · exact List.IsSuffix.length_le (List.dropWhile_suffix _)

/-- Variables that only get notes are kept as they were. -/
theorem length_dropWhile_noted {ls ls' : List Local} (h : List.Forall₂ Local.Noted ls ls')
    (depth : Nat) : (ls'.dropWhile fun l => depth < l.depth).length
      = (ls.dropWhile fun l => depth < l.depth).length := by
  induction h with
  | nil => rfl
  | @cons a a' ls ls' ha hls ih =>
    simp only [List.dropWhile_cons, ha.depth]
    split
    · exact ih
    · simp [hls.length_eq]

/-- A node that adds no variable changes nothing about what is kept. -/
theorem Grows.kept_of_length (h : s.Grows s')
    (hl : s'.current.locals.length = s.current.locals.length) :
    s'.kept = s.kept ∧ List.Forall₂ Local.Noted s.current.locals s'.current.locals := by
  obtain ⟨new, old, hs', hold, _⟩ := h.locals
  obtain rfl : new = [] := by
    rw [hs', List.length_append, hold.length_eq] at hl
    exact List.length_eq_zero_iff.1 (by omega)
  rw [List.nil_append] at hs'
  rw [← hs'] at hold
  refine ⟨?_, hold⟩
  unfold kept
  rw [h.loops]
  split
  · rfl
  · exact length_dropWhile_noted hold _

/-- A node inside the innermost loop changes nothing about what is kept. -/
theorem Grows.kept_eq (h : s.Grows s') (hs : s.Inside) : s'.kept = s.kept := by
  unfold kept
  rw [h.loops]
  cases hloops : s.current.loops with
  | nil => rfl
  | cons loop outer =>
    have hdepth : loop.depth < s.current.depth := hs loop (by rw [hloops]; rfl)
    obtain ⟨new, old, hs', hold, hnew⟩ := h.locals
    have hdrop : (new ++ old).dropWhile (fun l => loop.depth < l.depth)
        = old.dropWhile (fun l => loop.depth < l.depth) := by
      rw [List.dropWhile_append_of_pos]
      intro l hl
      rw [hnew l hl]
      exact decide_eq_true hdepth
    change ((s'.current.locals.dropWhile _).length = _)
    rw [hs', hdrop]
    exact length_dropWhile_noted hold loop.depth

/-- The slots that may be shared between two statements, when `outer` says it of the slots outside
the innermost loop. -/
def sharing (s : State) (outer : Nat → Prop) (j : Nat) : Prop :=
  if j < s.kept then outer j else s.current.Flagged j

/-- The stack between two statements. -/
def shape (s : State) (outer : Nat → Prop) : StackShape :=
  ⟨s.current.locals.length, s.sharing outer⟩

theorem sharing_lt {outer : Nat → Prop} {j : Nat} (h : s.sharing outer j) :
    j < s.current.locals.length := by
  unfold sharing at h
  split at h
  case isTrue hj => exact Nat.lt_of_lt_of_le hj s.kept_le
  case isFalse => exact h.lt

theorem Grows.sharing (h : s.Grows s') (hkept : s'.kept = s.kept) {outer : Nat → Prop} {j : Nat}
    (hj : s.sharing outer j) : s'.sharing outer j := by
  unfold State.sharing at hj ⊢
  rw [hkept]
  split at hj
  case isTrue hlt => rwa [if_pos hlt]
  case isFalse hlt => rw [if_neg hlt]; exact h.flagged hj

end State

/-! ### Expressions -/

/-- **Code that leaves `count` values on the stack.** -/
structure Computes (s : State) (b : Block) (s' : State) (count : Nat) : Prop where
  wf : s'.Wf
  grows : s.Grows s'
  locals : s'.current.locals.length = s.current.locals.length
  size : s'.current.offset = s.current.offset + b.size
  typed : ∀ (P : Pool) (E : Arrivals) (h : Nat) (K : Nat → Prop), s'.pool.Le P →
    s.current.locals.length ≤ h → (∀ j, K j → j < s.current.locals.length) →
    Typed P E s.current.offset b ⟨h, K⟩ ⟨h + count, K⟩

theorem size_single (i : Instr) (line : Nat) : Block.size #[.instr i line] = i.size := by
  simp [Block.size_eq_place, Item.size]

/-- The current function may change, but for its captures and its constants. -/
theorem State.Wf.scope {s : State} (hs : s.Wf) {c : Scope}
    (hcaptures : c.captures = s.current.captures) (hconstants : c.constants = s.current.constants)
    (hdepths : ∀ l ∈ c.locals, l.depth ≤ c.depth)
    (hstarts : ∀ loop ∈ c.loops, loop.start ≤ c.offset) : ({ s with current := c } : State).Wf where
  linked := by
    dsimp only
    rw [hcaptures]
    exact hs.linked
  depths := hdepths
  starts := hstarts
  bounded d hd k hk := by
    rcases List.mem_cons.1 hd with rfl | hd
    · exact hs.bounded s.current List.mem_cons_self k (hconstants ▸ hk)
    · exact hs.bounded d (List.mem_cons_of_mem _ hd) k hk
  finished := hs.finished

/-- More code is counted than there is. -/
theorem wf_over {s : State} (hs : s.Wf) (size : Nat) : (s.over size).Wf :=
  hs.scope rfl rfl hs.depths fun loop hl =>
    Nat.le_trans (hs.starts loop hl) (Nat.le_add_right _ _)

theorem grows_over (s : State) (size : Nat) : s.Grows (s.over size) := { State.Grows.refl s with }

namespace Computes

variable {s s₁ s₂ s' : State} {b b₁ b₂ : Block} {m n : Nat}

theorem nil (hs : s.Wf) : Computes s #[] s 0 where
  wf := hs
  grows := .refl s
  locals := rfl
  size := rfl
  typed _ _ _ _ _ _ _ := Typed.nil (StackShape.le_refl _)

/-- Values one behind another. -/
theorem append (h : Computes s b₁ s₁ m) (h' : Computes s₁ b₂ s₂ n) :
    Computes s (b₁ ++ b₂) s₂ (m + n) where
  wf := h'.wf
  grows := h.grows.trans h'.grows
  locals := h'.locals.trans h.locals
  size := by rw [h'.size, h.size, size_append, Nat.add_assoc]
  typed P E height K hP hlow hK := by
    have hfirst := h.typed P E height K (Pool.le_trans h'.grows.pool_le hP) hlow hK
    have hsecond := h'.typed P E (height + m) K hP (by rw [h.locals]; omega)
      (by rw [h.locals]; exact hK)
    rw [h.size] at hsecond
    rw [← Nat.add_assoc]
    exact hfirst.append hsecond

/-- A change of the state that adds no code. -/
theorem quiet (hs' : s'.Wf) (hg : s.Grows s')
    (hl : s'.current.locals.length = s.current.locals.length)
    (ho : s'.current.offset = s.current.offset) : Computes s #[] s' 0 where
  wf := hs'
  grows := hg
  locals := hl
  size := ho
  typed _ _ _ _ _ _ _ := Typed.nil (StackShape.le_refl _)

/-- A change of the state behind values. -/
theorem quietly (h : Computes s b s₁ m) (h' : Computes s₁ #[] s₂ 0) : Computes s b s₂ m := by
  have hall := h.append h'
  rwa [Array.append_empty] at hall

/-- An instruction behind values, some of which it takes. -/
theorem instr (h : Computes s b s₁ m) {i : Instr} (line : Nat) (htaken : i.taken ≤ m)
    (hn : m - i.taken + i.given = n) (htargets : ∀ behind, i.targets behind = [behind])
    (hshared : ∀ t, i.sharedAfter t = t.shared)
    (hop : ∀ P t behind, s₁.pool.Le P → s₁.current.locals.length ≤ t.height →
      i.OperandFits P t behind) :
    Computes s (b ++ #[.instr i line]) (s₁.over i.size) n where
  wf := wf_over h.wf _
  grows := h.grows.trans (grows_over s₁ _)
  locals := h.locals
  size := by
    rw [size_append, size_single, ← Nat.add_assoc, ← h.size]
    rfl
  typed P E height K hP hlow hK := by
    have hfirst := h.typed P E height K hP hlow hK
    refine hfirst.append (.instr ⟨?_, ?_, ?_⟩ (htargets _) ⟨?_, ?_⟩)
    · exact hop P _ _ hP (by rw [h.locals]; exact Nat.le_add_right_of_le hlow)
    · exact Nat.le_trans htaken (Nat.le_add_left _ _)
    · refine Or.inr fun j hj _ hshare => ?_
      have hlt : j < s.current.locals.length := hK j hshare
      change height + m - i.taken ≤ j at hj
      omega
    · change height + m - i.taken + i.given = height + n
      omega
    · intro j hj
      rw [Instr.after, hshared] at hj
      exact hj

/-- An instruction that takes nothing. -/
theorem alone (h : Computes s #[] s₁ 0) {i : Instr} (line : Nat) (htaken : i.taken = 0)
    (hgiven : i.given = 1) (htargets : ∀ behind, i.targets behind = [behind])
    (hshared : ∀ t, i.sharedAfter t = t.shared)
    (hop : ∀ P t behind, s₁.pool.Le P → s₁.current.locals.length ≤ t.height →
      i.OperandFits P t behind) :
    Computes s #[.instr i line] (s₁.over i.size) 1 := by
  have hall := h.instr line (Nat.le_of_eq htaken) (by rw [htaken, hgiven]) htargets hshared hop
  rwa [Array.empty_append] at hall

end Computes

/-! ### Statements -/

/-- **Code that changes the stack only by its new variables.** It may leave the innermost loop, or
go on with it, with the variables that are kept. -/
structure Executes (s : State) (b : Block) (s' : State) : Prop where
  wf : s'.Wf
  grows : s.Grows s'
  size : s'.current.offset = s.current.offset + b.size
  typed : ∀ (P : Pool) (E : Arrivals) (G : Nat → Prop), s'.pool.Le P →
    (∀ j, j < s.kept → s'.current.Flagged j → G j) →
    (∀ loop ∈ s.current.loops.head?, ∀ t, t ≤ ⟨s.kept, G⟩ → E .exit t ∧ E (.at_ loop.start) t) →
    Typed P E s.current.offset b (s.shape G) (s'.shape G)

/-! ### Constants, names and variables -/

section Changes

variable {s s' : State}

/-- A constant that is data is added. -/
theorem computes_withConstant (hs : s.Wf) {literal : Literal} (hdata : ∀ k, literal ≠ .function k) :
    Computes s #[] (s.withConstant literal) 0 := by
  refine .quiet ⟨hs.linked, hs.depths, hs.starts, fun c hc k hk => ?_, hs.finished⟩
    { State.Grows.refl s with constants := ?_ } rfl rfl
  · rcases List.mem_cons.1 hc with rfl | hc
    · rcases Array.mem_push.1 hk with hk | hk
      · exact hs.bounded s.current List.mem_cons_self k hk
      · exact absurd hk.symm (hdata k)
    · exact hs.bounded c (List.mem_cons_of_mem _ hc) k hk
  · simp [State.withConstant]

theorem computes_withNames (hs : s.Wf) {names : Array String}
    (hnames : s.current.names.toList <+: names.toList) :
    Computes s #[] (s.withNames names) 0 := by
  exact .quiet (hs.scope rfl rfl hs.depths hs.starts) { State.Grows.refl s with names := hnames }
    rfl rfl

/-- A name is added, and its index is in range. -/
theorem computes_addName (hs : s.Wf) {name : String} {line : Nat} {w : UInt16}
    (h : Gives (addName name line) s w s') :
    Computes s #[] s' 0 ∧ w.toNat < s'.current.names.size := by
  obtain ⟨names, rfl, hpre, hname⟩ := h.addName
  exact ⟨computes_withNames hs hpre, (Array.getElem?_eq_some_iff.1 hname).1⟩

/-- Where a place lies in a function. -/
def Place.Valid (s : State) : Place → Prop
  | .slot n _ => n < s.current.locals.length
  | .capture n _ => n < s.current.captures.size
  | .global => True

/-- Finding a variable makes notes at most. -/
theorem computes_resolved (hs : s.Wf) {name : String} {line : Nat} {place : Place}
    (h : Resolved name line s place s') : Computes s #[] s' 0 ∧ place.Valid s' := by
  cases h with
  | slot hl => exact ⟨.nil hs, Scope.find?_lt hl⟩
  | global hl hr => exact ⟨.nil hs, trivial⟩
  | @capture index current enclosing hl hr =>
    obtain ⟨⟨captures, rfl⟩, hpre, henclosing, hlinked, hfound⟩ :=
      Scope.resolveCapture_spec hs.linked hr
    refine ⟨.quiet ⟨hlinked, hs.depths, hs.starts, fun c hc k hk => ?_, hs.finished⟩
      { State.Grows.refl s with captures := hpre, enclosing := henclosing } rfl rfl, hfound.lt⟩
    rcases List.mem_cons.1 hc with rfl | hc
    · exact hs.bounded s.current List.mem_cons_self k hk
    · obtain ⟨i, hi, rfl⟩ := List.mem_iff_getElem.1 hc
      have hi' : i < s.enclosing.length := henclosing.length_eq ▸ hi
      have hnoted := henclosing.get hi' hi
      have hk : Literal.function k ∈ (s.enclosing[i]).constants := hnoted.constants ▸ hk
      exact hs.bounded _ (List.mem_cons_of_mem _ (List.getElem_mem hi')) k hk

/-- A variable that is located is there. -/
theorem computes_located (hs : s.Wf) {name : String} {line : Nat} {place : Place} {w : UInt16}
    (h : Located name line s place w s') :
    Computes s #[] s' 0 ∧ ((∃ slot m, place = .slot slot m ∧ w.toNat < s'.current.locals.length) ∨
      (∃ index m, place = .capture index m ∧ w.toNat < s'.current.captures.size) ∨
      (place = .global ∧ w.toNat < s'.current.names.size)) := by
  cases h with
  | slot hl hw =>
    refine ⟨.nil hs, Or.inl ⟨_, _, rfl, ?_⟩⟩
    rw [toNat_of_wide? hw]
    exact Scope.find?_lt hl
  | @capture index isMutable _ _ hr hw =>
    obtain ⟨hcomputes, hvalid⟩ := computes_resolved hs hr
    refine ⟨hcomputes, Or.inr (Or.inl ⟨index, isMutable, rfl, ?_⟩)⟩
    rw [toNat_of_wide? hw]
    exact hvalid
  | global hr hw =>
    obtain ⟨hcomputes, hlt⟩ := computes_addName hs hw
    exact ⟨hcomputes, Or.inr (Or.inr ⟨rfl, hlt⟩)⟩

end Changes

end Compile

end DeployScript
