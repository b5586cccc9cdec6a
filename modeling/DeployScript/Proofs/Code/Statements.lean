import DeployScript.Proofs.Code.Expressions
import DeployScript.Proofs.Program.Regular

/-!
# The code of statements

The code of a statement changes the stack only by the variables that it declares: `executes_stmt`,
by induction over the statement. What follows an `else` has to be a block or another conditional,
since a declaration there would leave the two ways through a conditional with different variables.

* `typed_unwinding` — variables leave the stack by the instruction that their note asks for.
* `executes_withBlock`, `executes_whileLoop`, `executes_conditional`, `function_spec` — one rule for
  each form of a body.
-/

namespace DeployScript.Compile

open State

variable {s s' s₁ s₂ : State} {b b₁ b₂ : Block} {m n : Nat}

/-! ### Rules -/

/-- Values behind the variables. -/
theorem Computes.shaped (h : Computes s b s₁ m) {P : Pool} {E : Arrivals} (G : Nat → Prop)
    (hP : s₁.pool.Le P) :
    Typed P E s.current.offset b (s.shape G) ⟨s.current.locals.length + m, s₁.sharing G⟩ := by
  have hkept := (h.grows.kept_of_length h.locals).1
  have htyped := h.typed P E s.current.locals.length (s₁.sharing G) hP (Nat.le_refl _)
    fun j hj => Nat.lt_of_lt_of_le (sharing_lt hj) (Nat.le_of_eq h.locals)
  have hle : s.shape G ≤ ⟨s.current.locals.length, s₁.sharing G⟩ :=
    ⟨rfl, fun j hj => h.grows.sharing hkept hj⟩
  exact htyped.weaken hle (StackShape.le_refl _)

namespace Executes

theorem nil (hs : s.Wf) : Executes s #[] s where
  wf := hs
  grows := .refl s
  size := rfl
  typed _ _ _ _ _ _ := Typed.nil (StackShape.le_refl _)

/-- Statements one behind another. -/
theorem append (hkept : s₁.kept = s.kept) (h : Executes s b₁ s₁) (h' : Executes s₁ b₂ s₂) :
    Executes s (b₁ ++ b₂) s₂ where
  wf := h'.wf
  grows := h.grows.trans h'.grows
  size := by rw [h'.size, h.size, size_append, Nat.add_assoc]
  typed P E G hP houter hleave := by
    have hfirst := h.typed P E G (Pool.le_trans h'.grows.pool_le hP)
      (fun j hj hf => houter j hj (h'.grows.flagged hf)) hleave
    have hsecond := h'.typed P E G hP (by rwa [hkept]) (by rwa [hkept, h.grows.loops])
    rw [h.size] at hsecond
    exact hfirst.append hsecond

/-- Code that leaves nothing. -/
theorem of_computes (h : Computes s b s' 0) : Executes s b s' where
  wf := h.wf
  grows := h.grows
  size := h.size
  typed P E G hP _ _ := by
    have htyped := h.shaped (E := E) G hP
    rwa [Nat.add_zero, ← h.locals] at htyped

end Executes

theorem wf_declare (hs : s.Wf) (name : String) (isMutable : Bool) :
    (s.withScope (·.declare name isMutable)).Wf := by
  refine hs.scope rfl rfl (fun l hl => ?_) hs.starts
  rcases List.mem_cons.1 hl with rfl | hl
  · exact Nat.le_refl _
  · exact hs.depths l hl

theorem grows_declare (s : State) (name : String) (isMutable : Bool) :
    s.Grows (s.withScope (·.declare name isMutable)) :=
  { State.Grows.refl s with
    locals := ⟨[_], s.current.locals, rfl, Scope.noted_refl _, fun l hl => by
      rw [List.mem_singleton.1 hl]⟩ }

/-- A value becomes a variable. -/
theorem executes_declare (hin : s.Inside) (h : Computes s b s₁ 1) (name : String)
    (isMutable : Bool) : Executes s b (s₁.withScope (·.declare name isMutable)) := by
  have hgrows := grows_declare s₁ name isMutable
  refine ⟨wf_declare h.wf name isMutable, h.grows.trans hgrows, h.size,
    fun P E G hP houter hleave => ?_⟩
  have hkept := hgrows.kept_eq (h.grows.inside hin)
  refine (h.shaped (E := E) G hP).weaken (StackShape.le_refl _) ⟨?_, fun j hj => ?_⟩
  · change s.current.locals.length + 1 = s₁.current.locals.length + 1
    rw [h.locals]
  · exact hgrows.sharing hkept hj

/-! ### Variables leave the stack -/

/-- The slot of a variable, counted from the innermost. -/
theorem flagged_iff {c : Scope} {k : Nat} (hk : k < c.locals.length) :
    c.Flagged (c.locals.length - 1 - k) ↔ c.locals[k].isCaptured = true := by
  have hslot : c.locals.reverse[c.locals.length - 1 - k]? = some c.locals[k] := by
    rw [List.getElem?_reverse (by omega)]
    have hindex : c.locals.length - 1 - (c.locals.length - 1 - k) = k := by omega
    rw [hindex, List.getElem?_eq_getElem hk]
  unfold Scope.Flagged
  rw [hslot]
  constructor
  · rintro ⟨l, hl, hcap⟩
    cases hl
    exact hcap
  · exact fun hcap => ⟨_, rfl, hcap⟩

/-- **Variables leave the stack** by the instruction that their note asks for. -/
theorem typed_unwinding {P : Pool} {E : Arrivals} {start depth line : Nat} {c : Scope}
    {K : Nat → Prop} (hK : ∀ j, (c.locals.dropWhile fun l => depth < l.depth).length ≤ j → K j →
      c.Flagged j) :
    Typed P E start (straight (c.unwinding depth) line) ⟨c.locals.length, K⟩
      ⟨(c.locals.dropWhile fun l => depth < l.depth).length,
        fun j => K j ∧ j < (c.locals.dropWhile fun l => depth < l.depth).length⟩ := by
  have hsplit : c.deeper depth ++ (c.locals.dropWhile fun l => depth < l.depth) = c.locals :=
    List.takeWhile_append_dropWhile
  have hlength := congrArg List.length hsplit
  rw [List.length_append] at hlength
  generalize (c.locals.dropWhile fun l => depth < l.depth) = old at hsplit hlength hK ⊢
  -- Behind `k` instructions the innermost `k` variables are gone.
  let shape (k : Nat) : StackShape :=
    ⟨c.locals.length - k, fun j => K j ∧ j < c.locals.length - k⟩
  have hinstrs : (c.unwinding depth).length = (c.deeper depth).length := by
    simp [Scope.unwinding]
  have hall : Typed P E start (straight (c.unwinding depth) line) (shape 0)
      (shape (c.unwinding depth).length) := by
    refine .straight fun k hk => ?_
    have hk' : k < (c.deeper depth).length := hinstrs ▸ hk
    have hlt : k < c.locals.length := by omega
    have hlocal : (c.deeper depth)[k] = c.locals[k] := by
      have hget : (c.deeper depth ++ old)[k]? = c.locals[k]? := by rw [hsplit]
      rw [List.getElem?_append_left hk', List.getElem?_eq_getElem hk',
        List.getElem?_eq_getElem hlt] at hget
      exact Option.some.inj hget
    have hflag := flagged_iff hlt
    have hinstr : (c.unwinding depth)[k]
        = if c.locals[k].isCaptured then ⟨.closeCapture, ()⟩ else ⟨.pop, ()⟩ := by
      simp only [Scope.unwinding, List.getElem_map, hlocal]
    rw [hinstr]
    cases hcap : c.locals[k].isCaptured with
    | true =>
      refine ⟨rfl, fun _ => ⟨trivial, by change 1 ≤ c.locals.length - k; omega, Or.inl (Or.inl rfl)⟩,
        ?_, fun j hj => ?_⟩
      · change c.locals.length - k - 1 + 0 = c.locals.length - (k + 1)
        omega
      · obtain ⟨⟨hKj, _⟩, hj⟩ := hj
        change j < c.locals.length - k - 1 at hj
        exact ⟨hKj, by omega⟩
    | false =>
      have hunshared : ∀ j, c.locals.length - k - 1 ≤ j → j < c.locals.length - k → ¬ K j := by
        intro j hj hjk hKj
        obtain rfl : j = c.locals.length - 1 - k := by omega
        have hcaptured := hflag.1 (hK _ (by omega) hKj)
        rw [hcap] at hcaptured
        cases hcaptured
      refine ⟨rfl, fun _ => ⟨trivial, by change 1 ≤ c.locals.length - k; omega,
        Or.inr fun j hj hjk hshare => hunshared j hj hjk hshare.1⟩, ?_, fun j hj => ?_⟩
      · change c.locals.length - k - 1 + 0 = c.locals.length - (k + 1)
        omega
      · obtain ⟨hKj, hjk⟩ := hj
        refine ⟨hKj, Nat.lt_of_not_le fun hle => hunshared j (by omega) hjk hKj⟩
  rw [hinstrs] at hall
  have hend : c.locals.length - (c.deeper depth).length = old.length := by omega
  have hfront : (⟨c.locals.length, K⟩ : StackShape) ≤ shape 0 := by
    refine ⟨rfl, fun j hj => ⟨hj, ?_⟩⟩
    rcases Nat.lt_or_ge j old.length with hlt | hge
    · omega
    · exact (hK j hge hj).lt
  have hback : shape (c.deeper depth).length ≤ ⟨old.length, fun j => K j ∧ j < old.length⟩ := by
    refine ⟨hend, fun j hj => ⟨hj.1, ?_⟩⟩
    rw [← hend]
    exact hj.2
  exact hall.weaken hfront hback

theorem size_straight_unwinding (c : Scope) (depth line : Nat) :
    Block.size (straight (c.unwinding depth) line) = (c.deeper depth).length := by
  have hfold := size_unwinding c depth 0
  rw [Nat.zero_add] at hfold
  rw [← hfold, Block.size, straight, List.foldl_toArray, List.foldl_map]
  rfl

/-! ### Blocks -/

section Blocks

/-- Behind the body of a block its new variables are the deeper ones, and the others are those from
before with more notes. -/
theorem closed_locals (hs : s.Wf) (h : s.entered.Grows s₁) :
    s₁.left.current.depth = s.current.depth ∧
      List.Forall₂ Local.Noted s.current.locals
        (s₁.current.locals.dropWhile fun l => s.current.depth < l.depth) := by
  have hdepth : s₁.left.current.depth = s.current.depth := by
    change s₁.current.depth - 1 = s.current.depth
    rw [h.depth]
    exact Nat.add_sub_cancel _ _
  refine ⟨hdepth, ?_⟩
  obtain ⟨new, old, hs₁, hold, hnew⟩ := h.locals
  have hdrop : s₁.current.locals.dropWhile (fun l => s.current.depth < l.depth) = old := by
    rw [hs₁, List.dropWhile_append_of_pos]
    · cases old with
      | nil => rfl
      | cons a old =>
        refine List.dropWhile_cons_of_neg ?_
        have ha : List.Forall₂ Local.Noted s.current.locals (a :: old) := hold
        cases hl : s.current.locals with
        | nil => rw [hl] at ha; cases ha
        | cons a₀ rest =>
          rw [hl] at ha
          cases ha with
          | cons hnoted _ =>
            have hle := hs.depths a₀ (by rw [hl]; exact List.mem_cons_self)
            rw [← hnoted.depth] at hle
            simpa using hle
    · intro l hl
      rw [hnew l hl]
      exact decide_eq_true (Nat.lt_succ_self _)
  rwa [hdrop]

/-- **A block** leaves no variable behind. -/
theorem executes_withBlock (hs : s.Wf) (hin : s.entered.Inside)
    (h : Executes s.entered b₁ s₁) :
    Executes s (b₁ ++ straight (s₁.left.current.unwinding s₁.left.current.depth) 0) s₁.closed ∧
      s₁.closed.current.locals.length = s.current.locals.length := by
  obtain ⟨hdepth, hold⟩ := closed_locals hs h.grows
  have hclosed : s₁.closed.current.locals
      = s₁.current.locals.dropWhile fun l => s.current.depth < l.depth := by
    change s₁.current.locals.dropWhile (fun l => s₁.left.current.depth < l.depth) = _
    rw [hdepth]
  have hlength := hold.length_eq
  rw [← hclosed] at hold hlength
  have hgrows : s.Grows s₁.closed :=
    { captures := h.grows.captures
      loops := h.grows.loops
      constants := h.grows.constants
      names := h.grows.names
      enclosing := h.grows.enclosing
      functions := h.grows.functions
      depth := hdepth
      locals := ⟨[], s₁.closed.current.locals, rfl, hold, fun _ hl => nomatch hl⟩ }
  have hkept : s₁.kept = s.kept := h.grows.kept_eq hin
  have hkept' := (hgrows.kept_of_length hlength.symm).1
  -- The slots below the block hold the same variables before and behind the unwinding.
  have hflag : ∀ j, j < s.current.locals.length →
      (s₁.current.Flagged j ↔ s₁.closed.current.Flagged j) := by
    intro j hj
    have hsplit : s₁.current.locals
        = s₁.current.locals.takeWhile (fun l => s.current.depth < l.depth) ++
          s₁.closed.current.locals := by
      rw [hclosed, List.takeWhile_append_dropWhile]
    unfold Scope.Flagged
    rw [hsplit, List.reverse_append, List.getElem?_append_left (by simpa [← hlength] using hj)]
  refine ⟨⟨h.wf.scope rfl rfl (fun l hl => ?_) fun loop hl => ?_, hgrows, ?_,
    fun P E G hP houter hleave => ?_⟩, hlength.symm⟩
  · obtain ⟨i, hi, rfl⟩ := List.mem_iff_getElem.1 hl
    have hi' : i < s.current.locals.length := hlength ▸ hi
    have hnoted := hold.get hi' hi
    refine Nat.le_trans (Nat.le_of_eq hnoted.depth) ?_
    refine Nat.le_trans (hs.depths _ (List.getElem_mem hi')) (Nat.le_of_eq hdepth.symm)
  · exact Nat.le_trans (h.wf.starts loop hl) (Nat.le_add_right _ _)
  · rw [size_append, size_straight_unwinding, ← Nat.add_assoc]
    exact congrArg (· + _) h.size
  · have hbody := h.typed P E G hP
      (fun j hj hf => houter j hj ((hflag j (Nat.lt_of_lt_of_le hj s.kept_le)).1 hf)) hleave
    have hdrop : (s₁.left.current.locals.dropWhile fun l => s₁.left.current.depth < l.depth).length
        = s.current.locals.length := hlength.symm
    have hunwind := @typed_unwinding P E (s.current.offset + b₁.size) s₁.left.current.depth 0
      s₁.left.current (s₁.sharing G) fun j hj hshare => by
        rw [hdrop] at hj
        have hnot : ¬ j < s₁.kept := by
          have := s.kept_le
          omega
        unfold sharing at hshare
        rwa [if_neg hnot] at hshare
    rw [hdrop] at hunwind
    have hend : (⟨s.current.locals.length,
        fun j => s₁.sharing G j ∧ j < s.current.locals.length⟩ : StackShape)
        ≤ s₁.closed.shape G := by
      refine ⟨hlength, fun j hj => ?_⟩
      obtain ⟨hshare, hj⟩ := hj
      change s₁.closed.sharing G j
      unfold sharing at hshare ⊢
      rw [hkept']
      rw [hkept] at hshare
      split at hshare
      case isTrue hlt => rwa [if_pos hlt]
      case isFalse hlt => rw [if_neg hlt]; exact (hflag j hj).1 hshare
    exact hbody.append (hunwind.weaken (StackShape.le_refl _) hend)

end Blocks

/-! ### Leaving a loop -/

/-- Variables of the loop leave the stack, and then control leaves the loop or starts its next
round. -/
theorem executes_leave (hs : s.Wf) {loop : Loop} {outer : List Loop}
    (hloops : s.current.loops = loop :: outer) {item : Item} {line : Nat} (hsize : item.size = 3)
    (hitem : ∀ (P : Pool) (E : Arrivals) (t : StackShape), (E .exit t ∧ E (.at_ loop.start) t) →
      ∀ u, Typed P E (s.current.offset + (s.current.deeper loop.depth).length) #[item] t u) :
    Executes s (straight (s.current.unwinding loop.depth) line ++ #[item])
      ((s.over (s.current.deeper loop.depth).length).over 3) where
  wf := wf_over (wf_over hs _) _
  grows := (grows_over s _).trans (grows_over _ _)
  size := by
    rw [size_append, size_straight_unwinding, ← Nat.add_assoc]
    have hone : Block.size #[item] = 3 := by simp [Block.size_eq_place, hsize]
    rw [hone]
    rfl
  typed P E G hP houter hleave := by
    have hkept : (s.current.locals.dropWhile fun l => loop.depth < l.depth).length = s.kept := by
      unfold kept
      rw [hloops]
    have hunwind := @typed_unwinding P E s.current.offset loop.depth line s.current (s.sharing G)
      fun j hj hshare => by
        unfold sharing at hshare
        rwa [if_neg (by omega)] at hshare
    rw [hkept] at hunwind
    have hle : (⟨s.kept, fun j => s.sharing G j ∧ j < s.kept⟩ : StackShape) ≤ ⟨s.kept, G⟩ := by
      refine ⟨rfl, fun j hj => ?_⟩
      obtain ⟨hshare, hj⟩ := hj
      unfold sharing at hshare
      rwa [if_pos hj] at hshare
    refine hunwind.append ?_
    rw [size_straight_unwinding]
    exact hitem P E _ (hleave loop (by rw [hloops]; rfl) _ hle) _

theorem executes_break (hs : s.Wf) {span : Span} (h : Gives (stmt (.break_ span)) s b s') :
    Executes s b s' := by
  obtain ⟨loop, outer, hloops, rfl, rfl⟩ := h.stmt_break
  refine executes_leave hs hloops rfl fun P E t hE u => .single trivial fun label hlabel => Or.inr ?_
  obtain rfl : label = .exit := List.mem_singleton.1 hlabel
  exact hE.1

theorem executes_continue (hs : s.Wf) {span : Span} (h : Gives (stmt (.continue_ span)) s b s') :
    Executes s b s' := by
  obtain ⟨loop, outer, w, hloops, hw, rfl, rfl⟩ := h.stmt_continue
  have hback := toNat_of_wide? hw
  have hstart := hs.starts loop (by rw [hloops]; exact List.mem_cons_self)
  change w.toNat = s.current.offset + (s.current.deeper loop.depth).length + 3 - loop.start at hback
  refine executes_leave hs hloops rfl fun P E t hE u => .single ⟨?_, Nat.zero_le _, ?_⟩
    fun label hlabel => Or.inr ?_
  · change w.toNat ≤ s.current.offset + (s.current.deeper loop.depth).length + 3
    omega
  · exact Or.inr fun j hj hlt => absurd hlt (Nat.not_lt.2 hj)
  · obtain rfl : label = .at_ (s.current.offset + (s.current.deeper loop.depth).length + 3 - w.toNat)
      := List.mem_singleton.1 hlabel
    rw [show s.current.offset + (s.current.deeper loop.depth).length + 3 - w.toNat = loop.start by
      omega]
    exact hE.2

/-! ### Loops -/

/-- Where a loop may lead while its jumps out are not measured: to its end with the shape `u`, and to
places around it. -/
def leaving (E : Arrivals) (u : StackShape) : Arrivals
  | .exit, t => t ≤ u
  | .at_ place, t => E (.at_ place) t

/-- Where a round of a loop may lead: back to the start as well. -/
def rounding (E : Arrivals) (start : Nat) (u : StackShape) : Arrivals
  | .exit, t => t ≤ u
  | .at_ place, t => E (.at_ place) t ∨ (place = start ∧ t ≤ u)

/-- A jump back to the start of a loop. -/
theorem typed_loop {P : Pool} {E : Arrivals} {start line place : Nat} {back : UInt16}
    {t u : StackShape} (hback : back.toNat + start = place + 3) (hE : E (.at_ start) t) :
    Typed P E place #[Item.instr ⟨.loop, back⟩ line] t u := by
  refine .single ⟨?_, Nat.zero_le _, Or.inr fun j hj hlt => absurd hlt (Nat.not_lt.2 hj)⟩
    fun label hlabel => Or.inr ?_
  · change back.toNat ≤ place + 3
    omega
  · obtain rfl : label = .at_ (place + 3 - back.toNat) := List.mem_singleton.1 hlabel
    rw [show place + 3 - back.toNat = start by omega]
    exact hE

/-- A value is dropped that no variable lies above. -/
theorem typed_pop {P : Pool} {E : Arrivals} {start line height : Nat} {K : Nat → Prop}
    (hK : ∀ j, K j → j < height) :
    Typed P E start #[Item.instr ⟨.pop, ()⟩ line] ⟨height + 1, K⟩ ⟨height, K⟩ :=
  .instr ⟨trivial, Nat.le_add_left _ _, Or.inr fun j hj _ hshare =>
    absurd (hK j hshare) (Nat.not_lt.2 hj)⟩ rfl (StackShape.le_refl _)

/-- The rounds of a loop, whose parts keep to one shape. -/
theorem typed_whileLoop {P : Pool} {E : Arrivals} {start line height : Nat} {K : Nat → Prop}
    {back exit : UInt16} (hK : ∀ j, K j → j < height)
    (hcondition : Typed P (rounding E start ⟨height, K⟩) start b₁ ⟨height, K⟩ ⟨height + 1, K⟩)
    (hbody : Typed P (rounding E start ⟨height, K⟩) (start + b₁.size + 3 + 1) b₂ ⟨height, K⟩
      ⟨height, K⟩)
    (hback : back.toNat + start = start + b₁.size + 3 + 1 + b₂.size + 3)
    (hexit : wide? (roundCode b₂ back line).size = some exit)
    (hclose : Block.closeLoop? (b₁ ++ (#[Item.instr ⟨.jumpIfFalse, exit⟩ line] ++
      (roundCode b₂ back line ++ #[Item.instr ⟨.pop, ()⟩ line]))) = some b) :
    Typed P E start b ⟨height, K⟩ ⟨height, K⟩ := by
  have hround : Typed P (rounding E start ⟨height, K⟩) (start + b₁.size + 3)
      (roundCode b₂ back line) ⟨height + 1, K⟩ ⟨height + 1, K⟩ :=
    (typed_pop hK).append
      (hbody.append (typed_loop hback (Or.inr ⟨rfl, StackShape.le_refl _⟩)))
  have hjump := @Typed.branch _ _ _ _ _ _ _ _ line (Or.inl rfl) (toNat_of_wide? hexit)
    (Nat.succ_pos height) (fun j hj => Nat.succ_lt_succ (hK j hj)) (StackShape.le_refl _) hround
  have hall := hcondition.append (hjump.append (@typed_pop _ _ _ line _ _ hK))
  rw [Array.append_assoc] at hall
  -- The jump back is one to the start of the block, and the jumps out are measured.
  have hrounds : Typed P (leaving E ⟨height, K⟩) start (b₁ ++ (#[Item.instr ⟨.jumpIfFalse, exit⟩ line] ++
      (roundCode b₂ back line ++ #[Item.instr ⟨.pop, ()⟩ line]))) ⟨height, K⟩ ⟨height, K⟩ := by
    refine Typed.loop (hall.mono P.le_refl ?_)
    rintro (place | _) t ht
    · exact ht.imp_right fun ⟨he, ht⟩ => ⟨congrArg Label.at_ he, ht⟩
    · exact Or.inl ht
  exact Typed.closeLoop hclose hrounds (fun t ht => ht) fun place t ht => ht

theorem wf_looping (hs : s.Wf) : s.looping.Wf := by
  refine hs.scope rfl rfl hs.depths fun loop hl => ?_
  rcases List.mem_cons.1 hl with rfl | hl
  · exact Nat.le_refl _
  · exact hs.starts loop hl

theorem wf_looped (hs : s.Wf) : s.looped.Wf :=
  hs.scope rfl rfl hs.depths fun loop hl => hs.starts loop (List.mem_of_mem_tail hl)

theorem grows_looped (h : s.looping.Grows s') : s.Grows s'.looped where
  locals := h.locals
  captures := h.captures
  depth := h.depth
  loops := by
    change s'.current.loops.tail = s.current.loops
    rw [h.loops]
    rfl
  constants := h.constants
  names := h.names
  enclosing := h.enclosing
  functions := h.functions

/-- At the start of a loop all variables are kept. -/
theorem kept_looping (hs : s.Wf) : s.looping.kept = s.current.locals.length := by
  change (s.current.locals.dropWhile fun l => s.current.depth < l.depth).length = _
  rw [List.dropWhile_eq_self_iff.2]
  intro hpos
  have hle := hs.depths _ (List.getElem_mem hpos)
  simpa using hle

/-- **A block that keeps all variables** leaves a shape as it was in which all that the block notes
may be shared. -/
theorem Executes.typed_kept (h : Executes s b s')
    (hlength : s'.current.locals.length = s.current.locals.length)
    (hkept : s.kept = s.current.locals.length) {P : Pool} {E : Arrivals} {K : Nat → Prop}
    (hP : s'.pool.Le P) (hlow : ∀ j, K j → j < s.current.locals.length)
    (hnotes : ∀ j, s'.current.Flagged j → K j)
    (hleave : ∀ loop ∈ s.current.loops.head?, ∀ t, t ≤ ⟨s.current.locals.length, K⟩ →
      E .exit t ∧ E (.at_ loop.start) t) :
    Typed P E s.current.offset b ⟨s.current.locals.length, K⟩ ⟨s.current.locals.length, K⟩ := by
  have htyped := h.typed P E K hP (fun j _ => hnotes j) fun loop hl t ht =>
    hleave loop hl t (hkept ▸ ht)
  refine htyped.weaken ?_ ?_
  · refine ⟨rfl, fun j hj => ?_⟩
    change s.sharing K j
    unfold sharing
    rwa [if_pos (hkept ▸ hlow j hj)]
  · refine ⟨hlength, fun j hj => ?_⟩
    change s'.sharing K j at hj
    have hlt : j < s'.kept := by
      rw [(h.grows.kept_of_length hlength).1, hkept, ← hlength]
      exact sharing_lt hj
    unfold sharing at hj
    rwa [if_pos hlt] at hj

/-- **A loop:** its condition leaves one value, and its body leaves the stack as it was. What the
body notes may be shared from the start of the loop on. -/
theorem executes_whileLoop (hs : s.Wf) {line : Nat} {back exit : UInt16}
    (hcondition : Computes s.looping b₁ s₁ 1)
    (hbody : Executes ((s₁.over 3).over 1) b₂ s₂)
    (hlength : s₂.current.locals.length = s.current.locals.length)
    (hback : wide? (s₂.current.offset + jumpSize - s.current.offset) = some back)
    (hexit : wide? (roundCode b₂ back line).size = some exit)
    (hclose : Block.closeLoop? (b₁ ++ (#[Item.instr ⟨.jumpIfFalse, exit⟩ line] ++
      (roundCode b₂ back line ++ #[Item.instr ⟨.pop, ()⟩ line]))) = some b) :
    Executes s b ((s₂.over 3).over 1).looped ∧
      ((s₂.over 3).over 1).looped.current.locals.length = s.current.locals.length := by
  have hgrows₁ : s₁.Grows ((s₁.over 3).over 1) := (grows_over s₁ 3).trans (grows_over _ 1)
  have hgrows₂ : s.looping.Grows s₂ := hcondition.grows.trans (hgrows₁.trans hbody.grows)
  have hgrows : s.Grows ((s₂.over 3).over 1).looped :=
    grows_looped (hgrows₂.trans ((grows_over s₂ 3).trans (grows_over _ 1)))
  have hbacknat := toNat_of_wide? hback
  change back.toNat = s₂.current.offset + 3 - s.current.offset at hbacknat
  have hsize₁ : s₁.current.offset = s.current.offset + b₁.size := hcondition.size
  have hsize₂ : s₂.current.offset = s₁.current.offset + 3 + 1 + b₂.size := hbody.size
  have hround : Block.size (roundCode b₂ back line) = 1 + (b₂.size + 3) := by
    rw [roundCode, size_append, size_append]
    rfl
  have hlen₁ : s₁.current.locals.length = s.current.locals.length := hcondition.locals
  refine ⟨⟨wf_looped (wf_over (wf_over hbody.wf _) _), hgrows, ?_, fun P E G hP houter hleave => ?_⟩,
    hlength⟩
  · rw [Block.size_closeLoop? hclose, size_append, size_append, size_append, hround, size_single,
      size_single]
    change s₂.current.offset + 3 + 1 = s.current.offset + (b₁.size + (3 + (1 + (b₂.size + 3) + 1)))
    omega
  · -- The shape at the start of every round: what is noted anywhere in the loop may be shared.
    have hkept' := (hgrows.kept_of_length hlength).1
    have hkept₁ : s₁.kept = s₁.current.locals.length :=
      ((hcondition.grows.kept_of_length hcondition.locals).1).trans ((kept_looping hs).trans hlen₁.symm)
    generalize hlast : ((s₂.over 3).over 1).looped = last at *
    have hflag : ∀ j, s₂.current.Flagged j ↔ last.current.Flagged j := by
      intro j
      rw [← hlast]
      rfl
    have hlastlength : last.current.locals.length = s.current.locals.length := by
      rw [← hlast]
      exact hlength
    have hpool : s₂.pool = last.pool := by
      rw [← hlast]
      rfl
    let K := last.sharing G
    have hK : ∀ j, K j → j < s.current.locals.length := fun j hj =>
      Nat.lt_of_lt_of_le (sharing_lt hj) (Nat.le_of_eq hlastlength)
    let F : Arrivals := rounding E s.current.offset ⟨s.current.locals.length, K⟩
    have hshape : last.shape G = ⟨s.current.locals.length, K⟩ := by
      unfold shape
      rw [hlastlength]
    have htcond : Typed P F s.current.offset b₁ ⟨s.current.locals.length, K⟩
        ⟨s.current.locals.length + 1, K⟩ :=
      hcondition.typed P F s.current.locals.length K
        (Pool.le_trans (hgrows₁.trans hbody.grows).pool_le (hpool ▸ hP)) (Nat.le_refl _) hK
    have hnotes : ∀ j, s₂.current.Flagged j → K j := by
      intro j hf
      change last.sharing G j
      unfold sharing
      rw [hkept']
      split
      case isTrue hlt => exact houter j hlt ((hflag j).1 hf)
      case isFalse => exact (hflag j).1 hf
    have htbody : Typed P F (s.current.offset + b₁.size + 3 + 1) b₂ ⟨s.current.locals.length, K⟩
        ⟨s.current.locals.length, K⟩ := by
      rw [← hlen₁] at hK ⊢
      rw [← hsize₁]
      refine hbody.typed_kept (hlength.trans hlen₁.symm) hkept₁ (hpool ▸ hP) hK hnotes
        fun loop hl t ht => ?_
      -- In the body the innermost loop is this one.
      change loop ∈ s₁.current.loops.head? at hl
      rw [hcondition.grows.loops] at hl
      obtain rfl : _ = loop := Option.some.inj hl
      have hle : t ≤ ⟨s.current.locals.length, K⟩ := hlen₁ ▸ ht
      exact ⟨hle, Or.inr ⟨rfl, hle⟩⟩
    have hclosed : Typed P E s.current.offset b (last.shape G) (last.shape G) := by
      rw [hshape]
      exact typed_whileLoop hK htcond htbody (by omega) hexit hclose
    have hle : s.shape G ≤ last.shape G :=
      ⟨hlastlength.symm, fun j hj => hgrows.sharing hkept' hj⟩
    exact hclosed.weaken hle (StackShape.le_refl _)

/-! ### Conditionals -/

/-- **A conditional** whose parts leave the stack as it was. -/
theorem executes_conditional {b₃ : Block} {line : Nat} {toElse toEnd : UInt16}
    (hcondition : Computes s b₁ s₁ 1)
    (hbody : Executes ((s₁.over 3).over 1) b₂ s₂)
    (hlength : s₂.current.locals.length = s₁.current.locals.length)
    (hsecond : Executes ((s₂.over 3).over 1) b₃ s')
    (hlength' : s'.current.locals.length = s₂.current.locals.length)
    (helse : wide? (Block.size (#[Item.instr ⟨.pop, ()⟩ line] ++ b₂) + jumpSize) = some toElse)
    (hend : wide? (Block.size (#[Item.instr ⟨.pop, ()⟩ line] ++ b₃)) = some toEnd) :
    Executes s (b₁ ++ (#[Item.instr ⟨.jumpIfFalse, toElse⟩ line] ++ ((#[Item.instr ⟨.pop, ()⟩ line] ++ b₂) ++
      (#[Item.instr ⟨.jump, toEnd⟩ line] ++ (#[Item.instr ⟨.pop, ()⟩ line] ++ b₃))))) s' := by
  have hgrows₁ : s₁.Grows s₂ := ((grows_over s₁ 3).trans (grows_over _ 1)).trans hbody.grows
  have hgrows₂ : s₂.Grows s' := ((grows_over s₂ 3).trans (grows_over _ 1)).trans hsecond.grows
  have hsize₁ := hcondition.size
  have hsize₂ : s₂.current.offset = s₁.current.offset + 3 + 1 + b₂.size := hbody.size
  have hsize₃ : s'.current.offset = s₂.current.offset + 3 + 1 + b₃.size := hsecond.size
  refine ⟨hsecond.wf, (hcondition.grows.trans hgrows₁).trans hgrows₂, ?_,
    fun P E G hP houter hleave => ?_⟩
  · simp only [size_append, size_single, Instr.size, Layout.size]
    omega
  · have hkept₁ := (hcondition.grows.kept_of_length hcondition.locals).1
    have hkept₂ := (hgrows₁.kept_of_length hlength).1
    have hkept₃ := (hgrows₂.kept_of_length hlength').1
    have hlow : ∀ {t : State}, t.current.locals.length = s.current.locals.length →
        ∀ j, t.sharing G j → j < s.current.locals.length :=
      fun ht j hj => Nat.lt_of_lt_of_le (sharing_lt hj) (Nat.le_of_eq ht)
    have hlen₁ : s₁.current.locals.length = s.current.locals.length := hcondition.locals
    have hlen₂ := hlength.trans hlen₁
    -- The body leads behind the alternative, and the alternative starts where the jump over the
    -- body leads.
    let F : Arrivals := fun label t => E label t ∨
      (label = .at_ (s₂.current.offset + 3 + Block.size (#[Item.instr ⟨.pop, ()⟩ line] ++ b₃)) ∧
        t ≤ s'.shape G)
    have hleave₁ : ∀ loop ∈ s₁.current.loops.head?, ∀ t, t ≤ (⟨s₁.kept, G⟩ : StackShape) →
        F .exit t ∧ F (.at_ loop.start) t := by
      intro loop hl t ht
      rw [hcondition.grows.loops] at hl
      rw [hkept₁] at ht
      exact ⟨Or.inl (hleave loop hl t ht).1, Or.inl (hleave loop hl t ht).2⟩
    have htbody := hbody.typed P F G (Pool.le_trans hgrows₂.pool_le hP)
      (fun j hj hf => houter j (by rw [← hkept₁]; exact hj) (hgrows₂.flagged hf)) hleave₁
    have htsecond := hsecond.typed P E G hP
      (fun j hj hf => houter j (by rw [← hkept₁, ← hkept₂]; exact hj) hf) (fun loop hl t ht => by
        change loop ∈ s₂.current.loops.head? at hl
        change t ≤ ⟨s₂.kept, G⟩ at ht
        rw [hgrows₁.loops, hcondition.grows.loops] at hl
        rw [hkept₂, hkept₁] at ht
        exact hleave loop hl t ht)
    have htjump : Typed P F (s₁.current.offset + 3 + Block.size (#[Item.instr ⟨.pop, ()⟩ line] ++ b₂))
        #[Item.instr ⟨.jump, toEnd⟩ line] (s₂.shape G) ⟨s.current.locals.length + 1, s₂.sharing G⟩ := by
      refine .single ⟨trivial, Nat.zero_le _, Or.inr fun j hj hlt => absurd hlt (Nat.not_lt.2 hj)⟩
        fun label hlabel => Or.inr (Or.inr ?_)
      obtain rfl := List.mem_singleton.1 hlabel
      refine ⟨?_, hlength'.symm, fun j hj => hgrows₂.sharing hkept₃ hj⟩
      rw [toNat_of_wide? hend]
      simp only [size_append, size_single, Instr.size, Layout.size, Item.size]
      congr 1
      omega
    have hfront : (⟨s.current.locals.length, s₁.sharing G⟩ : StackShape)
        ≤ ((s₁.over 3).over 1).shape G := ⟨hlen₁.symm, fun j hj => hj⟩
    have htskipped := ((@typed_pop P F (s₁.current.offset + 3) line _ _ (hlow hlen₁)).append
      (htbody.weaken hfront (StackShape.le_refl _))).append htjump
    have hmore : (⟨s.current.locals.length + 1, s₁.sharing G⟩ : StackShape)
        ≤ ⟨s.current.locals.length + 1, s₂.sharing G⟩ :=
      ⟨rfl, fun j hj => hgrows₁.sharing hkept₂ hj⟩
    have hdistance : toElse.toNat = Block.size (#[Item.instr ⟨.pop, ()⟩ line] ++ b₂ ++
        #[Item.instr ⟨.jump, toEnd⟩ line]) := by
      rw [toNat_of_wide? helse]
      simp only [size_append, size_single]
      rfl
    have htbranch := @Typed.branch _ _ _ _ _ _ _ toElse line (Or.inl rfl) hdistance
      (Nat.succ_pos s.current.locals.length) (fun j hj => Nat.succ_lt_succ (hlow hlen₁ j hj))
      hmore htskipped
    have htfirst := (hcondition.shaped G (Pool.le_trans (hgrows₁.trans hgrows₂).pool_le hP)).append
      (hsize₁ ▸ htbranch)
    have hback : (⟨s.current.locals.length, s₂.sharing G⟩ : StackShape)
        ≤ ((s₂.over 3).over 1).shape G := ⟨hlen₂.symm, fun j hj => hj⟩
    have htelse := (@typed_pop P E (s₂.current.offset + 3) line _ _ (hlow hlen₂)).append
      (htsecond.weaken hback (StackShape.le_refl _))
    have hplace : s.current.offset + Block.size (b₁ ++ (#[Item.instr ⟨.jumpIfFalse, toElse⟩ line] ++
        (#[Item.instr ⟨.pop, ()⟩ line] ++ b₂ ++ #[Item.instr ⟨.jump, toEnd⟩ line])))
          = s₂.current.offset + 3 := by
      simp only [size_append, size_single, Instr.size, Layout.size]
      omega
    have htall := Typed.append_over (htfirst.mono P.le_refl fun label t ht => ?_) (hplace ▸ htelse)
    · simpa only [Array.append_assoc] using htall
    · rw [hplace]
      exact ht

/-! ### Loops over a container -/

/-- The start of a round leaves the answer whether there is one. -/
theorem computes_nextIndex (hs : s.Wf) {container index line : Nat}
    (hcontainer : container < s.current.locals.length) (hindex : index < s.current.locals.length)
    (h : Gives (nextIndex container index line) s b s') : Computes s b s' 1 := by
  obtain ⟨wc, wi, one, hc, hi, hone, rfl, rfl⟩ := h.nextIndex
  have hwc := toNat_of_wide? hc
  have hwi := toNat_of_wide? hi
  have hread : ∀ {s₁ : State} {b₁ : Block} {m : Nat} {w : UInt16}, Computes s b₁ s₁ m →
      w.toNat < s.current.locals.length →
      Computes s (b₁ ++ #[Item.instr ⟨.getLocal, w⟩ line]) (s₁.over 3) (m + 1) :=
    fun {_ _ _ w} h hw => h.instr (i := ⟨.getLocal, w⟩) line (Nat.zero_le _) rfl (fun _ => rfl)
      (fun _ => rfl) fun _ _ _ _ hlow =>
        Nat.lt_of_lt_of_le (Nat.lt_of_lt_of_le hw (Nat.le_of_eq h.locals.symm)) hlow
  have h₁ := hread (.nil hs) (w := wi) (by omega)
  have h₂ := h₁.append (computes_emitConstant h₁.wf (number_ne_function 1) hone line)
  have h₃ := h₂.plain (n := 1) (i := ⟨.add, ()⟩) line (Nat.le_refl 2) rfl (fun _ => rfl)
    (fun _ => rfl) fun _ _ _ => trivial
  have h₄ := h₃.instr (n := 1) (i := ⟨.setLocal, wi⟩) line (Nat.le_refl 1) rfl (fun _ => rfl)
    (fun _ => rfl) fun _ _ _ _ hlow => by
      refine Nat.lt_of_lt_of_le ?_ hlow
      rw [h₃.locals, hwi]
      exact hindex
  have h₅ := h₄.plain (n := 0) (i := ⟨.pop, ()⟩) line (Nat.le_refl 1) rfl (fun _ => rfl)
    (fun _ => rfl) fun _ _ _ => trivial
  have h₆ := hread h₅ (w := wc) (by omega)
  have h₇ := h₆.plain (n := 1) (i := ⟨.len, ()⟩) line (Nat.le_refl 1) rfl (fun _ => rfl)
    (fun _ => rfl) fun _ _ _ => trivial
  have h₈ := hread h₇ (w := wi) (by omega)
  have h₉ := h₈.plain (n := 1) (i := ⟨.gt, ()⟩) line (Nat.le_refl 2) rfl (fun _ => rfl)
    (fun _ => rfl) fun _ _ _ => trivial
  simp only [over_withConstant, over_over] at h₉
  simpa [straight, Instr.size, Layout.size] using h₉

/-- An element is moved to its variable. -/
theorem computes_takeElement (hs : s.Wf) {container index element line : Nat}
    (hcontainer : container < s.current.locals.length) (hindex : index < s.current.locals.length)
    (helement : element < s.current.locals.length)
    (h : Gives (takeElement container index element line) s b s') : Computes s b s' 0 := by
  obtain ⟨wc, wi, we, hc, hi, he, rfl, rfl⟩ := h.takeElement
  have hwc := toNat_of_wide? hc
  have hwi := toNat_of_wide? hi
  have hwe := toNat_of_wide? he
  have h₁ := (Computes.nil hs).instr (n := 1) (i := ⟨.getLocal, wc⟩) line (Nat.zero_le _) rfl
    (fun _ => rfl) (fun _ => rfl) fun _ _ _ _ hlow => Nat.lt_of_lt_of_le (by omega) hlow
  have h₂ := h₁.instr (n := 2) (i := ⟨.getLocal, wi⟩) line (Nat.zero_le _) rfl (fun _ => rfl)
    (fun _ => rfl) fun _ _ _ _ hlow => Nat.lt_of_lt_of_le (by rw [h₁.locals]; omega) hlow
  have h₃ := h₂.plain (n := 1) (i := ⟨.index, ()⟩) line (Nat.le_refl 2) rfl (fun _ => rfl)
    (fun _ => rfl) fun _ _ _ => trivial
  have h₄ := h₃.instr (n := 1) (i := ⟨.setLocal, we⟩) line (Nat.le_refl 1) rfl (fun _ => rfl)
    (fun _ => rfl) fun _ _ _ _ hlow => Nat.lt_of_lt_of_le (by rw [h₃.locals]; omega) hlow
  have h₅ := h₄.plain (n := 0) (i := ⟨.pop, ()⟩) line (Nat.le_refl 1) rfl (fun _ => rfl)
    (fun _ => rfl) fun _ _ _ => trivial
  simp only [over_over] at h₅
  simpa [straight, Instr.size, Layout.size] using h₅


/-- A body that can stand in a block. -/
def Sound (body : Step Block) : Prop :=
  ∀ {s s' : State} {b : Block}, s.Wf → s.Inside → Gives body s b s' → Executes s b s'

theorem wf_entered (hs : s.Wf) : s.entered.Wf :=
  hs.scope rfl rfl (fun l hl => Nat.le_succ_of_le (hs.depths l hl)) hs.starts

theorem sound_withBlock {body : Step Block} (hbody : Sound body) (hs : s.Wf)
    (hin : s.entered.Inside) (h : Gives (withBlock body) s b s') :
    Executes s b s' ∧ s'.current.locals.length = s.current.locals.length := by
  obtain ⟨b₁, s₁, h₁, rfl, rfl⟩ := h.withBlock
  exact executes_withBlock hs hin (hbody (wf_entered hs) hin h₁)

/-- The start of the innermost loop is inside it, where a block follows. -/
theorem inside_entered_looping (s : State) {t : State} (hdepth : t.current.depth = s.current.depth)
    (hloops : t.current.loops = s.looping.current.loops) : t.entered.Inside := by
  intro loop hl
  change loop ∈ t.current.loops.head? at hl
  rw [hloops] at hl
  change some _ = some loop at hl
  obtain rfl := Option.some.inj hl
  change s.current.depth < t.current.depth + 1
  omega

theorem executes_while {condition : Expr} {body : Step Block} {line : Nat} (hbody : Sound body)
    (hs : s.Wf) (h : Gives (whileLoop (expr condition) (withBlock body) line) s b s') :
    Executes s b s' := by
  obtain ⟨b₁, s₁, b₂, s₂, back, exit, h₁, h₂, hback, hexit, hclose, rfl⟩ := h.whileLoop
  have hcondition := computes_expr condition (wf_looping hs) h₁
  obtain ⟨hround, hlength⟩ := sound_withBlock hbody (wf_over (wf_over hcondition.wf 3) 1)
    (inside_entered_looping s hcondition.grows.depth hcondition.grows.loops) h₂
  have hlen₁ : s₁.current.locals.length = s.current.locals.length := hcondition.locals
  exact (executes_whileLoop hs hcondition hround (hlength.trans hlen₁) hback hexit hclose).1

/-- The parts of the rounds of a loop over the container in a slot. -/
theorem rounds_parts {container line : Nat} {body : Step Block} (hbody : Sound body) (hs : s.Wf)
    (hslots : s.current.locals.length = container + 3)
    (h : Gives (whileLoop (nextIndex container (container + 1) line) (do
      return (← takeElement container (container + 1) (container + 2) line) ++ (← withBlock body))
      line) s b s') :
    ∃ (c₁ : Block) (t₁ : State) (c₂ : Block) (t₂ : State) (c₃ : Block) (t₃ : State)
      (back exit : UInt16),
      Gives (nextIndex container (container + 1) line) s.looping c₁ t₁ ∧
      Computes s.looping c₁ t₁ 1 ∧
      Gives (takeElement container (container + 1) (container + 2) line) ((t₁.over 3).over 1) c₂ t₂ ∧
      Computes ((t₁.over 3).over 1) c₂ t₂ 0 ∧
      Gives (withBlock body) t₂ c₃ t₃ ∧ t₂.entered.Inside ∧ Executes t₂ c₃ t₃ ∧
      t₃.current.locals.length = s.current.locals.length ∧
      wide? (t₃.current.offset + jumpSize - s.current.offset) = some back ∧
      wide? (roundCode (c₂ ++ c₃) back line).size = some exit ∧
      Block.closeLoop? (c₁ ++ (#[Item.instr ⟨.jumpIfFalse, exit⟩ line] ++
        (roundCode (c₂ ++ c₃) back line ++ #[Item.instr ⟨.pop, ()⟩ line]))) = some b ∧
      s' = ((t₃.over 3).over 1).looped := by
  obtain ⟨c₁, t₁, _, t₃, back, exit, g₁, g₂, hback, hexit, hclose, rfl⟩ := h.whileLoop
  have hnext := computes_nextIndex (wf_looping hs)
    (show container < s.current.locals.length by omega)
    (show container + 1 < s.current.locals.length by omega) g₁
  have hlen₁ : t₁.current.locals.length = s.current.locals.length := hnext.locals
  simp only [gives_bind, gives_pure] at g₂
  obtain ⟨c₂, t₂, g₂, c₃, _, g₃, rfl, rfl⟩ := g₂
  have htake := computes_takeElement (wf_over (wf_over hnext.wf 3) 1)
    (show container < t₁.current.locals.length by omega)
    (show container + 1 < t₁.current.locals.length by omega)
    (show container + 2 < t₁.current.locals.length by omega) g₂
  have hin := inside_entered_looping s (htake.grows.depth.trans hnext.grows.depth)
    (htake.grows.loops.trans hnext.grows.loops)
  obtain ⟨hblock, hlength⟩ := sound_withBlock hbody htake.wf hin g₃
  exact ⟨c₁, t₁, c₂, t₂, c₃, _, back, exit, g₁, hnext, g₂, htake, g₃, hin, hblock,
    hlength.trans (htake.locals.trans hnext.locals), hback, hexit, hclose, rfl⟩

/-- In front of its rounds a loop over a container has its three variables. -/
theorem executes_forSlots {iterable : Expr} (name : String) (line : Nat) {w : UInt16} (hs : s.Wf)
    (hin : s.Inside) (h : Gives (expr iterable) s b₁ s₁)
    (hw : wide? s₁.current.constants.size = some w) :
    Executes s (b₁ ++ (#[Item.instr ⟨.constant, w⟩ line] ++ #[Item.instr ⟨.nil, ()⟩ line]))
      (s₁.forSlots name) := by
  have hcontainer := executes_declare hin (computes_expr iterable hs h) "__iter__" false
  have hin₁ := hcontainer.grows.inside hin
  have hindex := executes_declare hin₁
    (computes_emitConstant hcontainer.wf (number_ne_function (-1)) hw line) "__idx__" true
  have helement := executes_declare (hindex.grows.inside hin₁) (computes_nil hindex.wf line) name true
  exact hcontainer.append (hcontainer.grows.kept_eq hin)
    (hindex.append (hindex.grows.kept_eq hin₁) helement)

/-- **What stands in the block of a loop over a container:** three variables and a loop. -/
theorem executes_iteration {name : String} {iterable : Expr} {body : Step Block} {line : Nat}
    (hbody : Sound body) : Sound (iteration name (expr iterable) (withBlock body) line) := by
  intro s s' b hs hin h
  obtain ⟨b₁, s₁, w, b₂, h₁, hw, h₂, rfl⟩ := h.iteration
  have hslots := executes_forSlots name line hs hin h₁ hw
  obtain ⟨c₁, t₁, c₂, t₂, c₃, t₃, back, exit, -, hnext, -, htake, -, -, hblock, hlength, hback, hexit,
    hclose, rfl⟩ := rounds_parts hbody hslots.wf rfl h₂
  have hround := (Executes.of_computes htake).append (htake.grows.kept_of_length htake.locals).1
    hblock
  have hwhile := (executes_whileLoop hslots.wf hnext hround hlength hback hexit hclose).1
  have hall := hslots.append (hslots.grows.kept_eq hin) hwhile
  simpa only [Array.append_assoc] using hall

theorem executes_forLoop {name : String} {iterable : Expr} {body : Step Block} {line : Nat}
    (hbody : Sound body) (hs : s.Wf) (hin : s.Inside)
    (h : Gives (forLoop name (expr iterable) (withBlock body) line) s b s') : Executes s b s' := by
  rw [forLoop_eq] at h
  exact (sound_withBlock (executes_iteration hbody) hs (fun loop hl => Nat.lt_succ_of_lt (hin loop hl))
    h).1

/-! ### Functions -/

/-- A closure is made, whose captured slots are known to be shared behind it. -/
theorem typed_closure {P : Pool} {E : Arrivals} {start line height : Nat} {K K' : Nat → Prop}
    {w : UInt16} {sources : List CaptureSource} (hpool : P.function w.toNat sources.length)
    (hlength : sources.length < UInt8.size) (hK : ∀ j, K j → K' j)
    (hlocal : ∀ c ∈ sources, c.isLocal = true → c.index.toNat ≤ height ∧ K' c.index.toNat)
    (houter : ∀ c ∈ sources, c.isLocal = false → c.index.toNat < P.captures) :
    Typed P E start #[Item.instr ⟨.closure, (w, sources)⟩ line] ⟨height, K⟩ ⟨height + 1, K'⟩ := by
  refine .instr ⟨⟨hpool, hlength, fun c hc => ?_⟩, Nat.zero_le _,
    Or.inr fun j hj hlt => absurd hlt (Nat.not_lt.2 hj)⟩ rfl ⟨rfl, fun j hj => ?_⟩
  · unfold Instr.SourceFits
    cases hkind : c.isLocal with
    | true => exact (hlocal c hc hkind).1
    | false => exact houter c hc hkind
  · rcases hj with hj | ⟨c, hc, hkind, rfl⟩
    · exact hK j hj
    · exact (hlocal c hc hkind).2

theorem length_foldl_declare (params : List String) (c : Scope) :
    (params.foldl (fun f p => f.declare p true) c).locals.length
        = c.locals.length + params.length ∧
      ∃ ls, params.foldl (fun f p => f.declare p true) c = { c with locals := ls } ∧
        ((∀ l ∈ c.locals, l.depth ≤ c.depth ∧ l.isCaptured = false) →
          ∀ l ∈ ls, l.depth ≤ c.depth ∧ l.isCaptured = false) := by
  induction params generalizing c with
  | nil => exact ⟨rfl, c.locals, rfl, id⟩
  | cons p params ih =>
    obtain ⟨hlength, ls, hls, hall⟩ := ih (c.declare p true)
    refine ⟨?_, ls, hls, fun hc => hall fun l hl => ?_⟩
    · rw [List.foldl_cons, hlength]
      change c.locals.length + 1 + params.length = c.locals.length + (params.length + 1)
      omega
    · rcases List.mem_cons.1 hl with rfl | hl
      · exact ⟨Nat.le_refl _, rfl⟩
      · exact hc l hl

/-- **The state in front of the body of a function:** its parameters are on the stack, and nothing
is captured. -/
theorem wf_nested (hs : s.Wf) (params : List String) :
    (s.nested params).Wf ∧ (s.nested params).current.loops = [] ∧
      (s.nested params).current.offset = 0 ∧
      entryShape params.length ≤ (s.nested params).shape fun _ => False := by
  obtain ⟨hlength, ls, hls, hall⟩ :=
    length_foldl_declare params { Scope.start with depth := 1 }
  have hlocals := hall fun l hl => by
    rw [List.mem_singleton.1 hl]
    exact ⟨Nat.zero_le _, rfl⟩
  have hcurrent : (s.nested params).current = { Scope.start with depth := 1, locals := ls } := hls
  refine ⟨⟨?_, ?_, ?_, ?_, hs.finished⟩, by rw [hcurrent]; rfl, by rw [hcurrent]; rfl, ?_,
    fun j hj => hj.elim⟩
  · rw [hcurrent]
    exact ⟨Nat.zero_le _, fun i hi => absurd hi (Nat.not_lt_zero i), hs.linked⟩
  · rw [hcurrent]
    exact fun l hl => (hlocals l hl).1
  · rw [hcurrent]
    exact fun loop hl => nomatch hl
  · intro c hc k hk
    rcases List.mem_cons.1 hc with rfl | hc
    · rw [hcurrent] at hk
      exact absurd hk (by simp [Scope.start])
    · exact hs.bounded c hc k hk
  · change params.length + 1 = (s.nested params).current.locals.length
    rw [show (s.nested params).current.locals.length = _ from hlength]
    exact Nat.add_comm _ _


/-- **A function** that was compiled: its code is sealed, a constant of the function around it refers
to it, and what it captures is noted there. -/
structure Finishes (s : State) (line : Nat) (b : Block) (s' : State) : Prop where
  wf : s'.Wf
  grows : s.Grows s'
  locals : s'.current.locals.length = s.current.locals.length
  size : s'.current.offset = s.current.offset + b.size
  code : ∃ w sources, b = #[Item.instr ⟨.closure, (w, sources)⟩ line] ∧
    s'.pool.function w.toNat sources.length ∧ sources.length < UInt8.size ∧
    (∀ c ∈ sources, c.isLocal = true → s'.current.Flagged c.index.toNat) ∧
    ∀ c ∈ sources, c.isLocal = false → c.index.toNat < s'.current.captures.size

/-- The body of a function becomes sealed code. -/
theorem sealed_body {params : List String} (h : Executes (s.nested params) b₁ s₁)
    (hloops : (s.nested params).current.loops = []) (hoffset : (s.nested params).current.offset = 0)
    (hentry : entryShape params.length ≤ (s.nested params).shape fun _ => False) (line : Nat) :
    Sealed s₁.pool (bodyCode b₁ line) (entryShape params.length) := by
  have hkept : (s.nested params).kept = 0 := by
    unfold kept
    rw [hloops]
  have htyped := h.typed s₁.pool (fun _ _ => False) (fun _ => False) s₁.pool.le_refl
    (fun j hj => absurd hj (by rw [hkept]; exact Nat.not_lt_zero j))
    (fun loop hl => by rw [hloops] at hl; cases hl)
  rw [hoffset] at htyped
  have hnil : Typed s₁.pool (fun _ _ => False) (0 + b₁.size) #[Item.instr ⟨.nil, ()⟩ line]
      (s₁.shape fun _ => False)
      ⟨s₁.current.locals.length + 1, s₁.sharing fun _ => False⟩ :=
    .instr ⟨trivial, Nat.zero_le _, Or.inr fun j hj hlt => absurd hlt (Nat.not_lt.2 hj)⟩ rfl
      (StackShape.le_refl _)
  have hall := ((htyped.append hnil).weaken hentry (StackShape.le_refl _)).sealed
    (Nat.succ_pos _) line
  rwa [Array.append_assoc] at hall

/-- A source of a capture is that of one that stands for a variable. -/
theorem mem_sources {c : Scope} {enclosing : List Scope} (h : Linked c.captures enclosing)
    {source : CaptureSource} (hsource : source ∈ sources c) :
    ∃ k i, c.captures[i]? = some k ∧ (∃ name, CapturedAs name c.captures enclosing i) ∧
      k.source = source := by
  simp only [sources, Array.toList_map, List.mem_map] at hsource
  obtain ⟨k, hk, rfl⟩ := hsource
  obtain ⟨i, hi, rfl⟩ := List.mem_iff_getElem.1 hk
  refine ⟨_, i, by simp, ?_, rfl⟩
  cases enclosing with
  | nil =>
    have hzero : c.captures.size = 0 := h
    rw [Array.length_toList] at hi
    omega
  | cons parent outer => exact h.2.1 i (by simpa using hi)

theorem finishes_function (hs : s.Wf) {name : String} {params : List String} {body : Step Block}
    {line : Nat} (hbody : Sound body) (h : Gives (function name params body line) s b s') :
    Finishes s line b s' := by
  obtain ⟨hparams, b₁, s₁, s₂, w, h₁, rfl, hw, rfl, rfl⟩ := h.function
  obtain ⟨hwf, hloops, hoffset, hentry⟩ := wf_nested hs params
  have hcode := hbody hwf (fun loop hl => by rw [hloops] at hl; cases hl) h₁
  have hsealed := sealed_body hcode hloops hoffset hentry line
  -- The functions around got notes only.
  have henclosing := hcode.grows.enclosing
  change List.Forall₂ Scope.Noted (s.current :: s.enclosing) s₁.enclosing at henclosing
  have hwf₁ := hcode.wf
  have hfunctions : s.functions.toList <+: s₁.functions.toList := hcode.grows.functions
  obtain ⟨current, enclosing, functions⟩ := s₁
  obtain ⟨parent, outer, hp, ho, rfl⟩ := List.forall₂_cons_left_iff.1 henclosing
  have hlinked := hwf₁.linked
  change wide? parent.constants.size = some w at hw
  have hpush : functions.toList <+: (functions.push
      { name, params, captures := current.captures.size
        chunk := (bodyCode b₁ line).toChunk current.constants current.names }).toList := by simp
  refine ⟨⟨hlinked.2.2, fun l hl => ?_, fun loop hl => ?_, fun c hc k hk => ?_, fun n p hn => ?_⟩, ?_,
    hp.locals.length_eq.symm, ?_, w, sources current, rfl, ?_, ?_, fun c hc hlocal => ?_,
    fun c hc hlocal => ?_⟩
  · obtain ⟨i, hi, rfl⟩ := List.mem_iff_getElem.1 hl
    have hi' : i < s.current.locals.length := hp.locals.length_eq ▸ hi
    have hnoted := hp.locals.get hi' hi
    refine Nat.le_trans (Nat.le_of_eq hnoted.depth) ?_
    exact Nat.le_trans (hs.depths _ (List.getElem_mem hi')) (Nat.le_of_eq hp.depth.symm)
  · change loop ∈ parent.loops at hl
    rw [hp.loops] at hl
    change loop.start ≤ parent.offset + _
    rw [hp.offset]
    exact Nat.le_add_right_of_le (hs.starts loop hl)
  · change k < (functions.push _).size
    rw [Array.size_push]
    rcases List.mem_cons.1 hc with rfl | hc
    · change Literal.function k ∈ parent.constants.push _ at hk
      rcases Array.mem_push.1 hk with hk | hk
      · exact Nat.lt_succ_of_lt
          (hwf₁.bounded parent (List.mem_cons_of_mem _ List.mem_cons_self) k hk)
      · cases hk
        exact Nat.lt_succ_self _
    · exact Nat.lt_succ_of_lt
        (hwf₁.bounded c (List.mem_cons_of_mem _ (List.mem_cons_of_mem _ hc)) k hk)
  · change (functions.push _)[n]? = some p at hn
    rw [Array.getElem?_push] at hn
    split at hn
    case isTrue heq =>
      cases hn
      rw [heq]
      refine ⟨fun k hk => ?_, bodyCode b₁ line, ?_, ?_⟩
      · rw [Block.toChunk_eq] at hk
        exact hwf₁.bounded current List.mem_cons_self k hk
      · simp only [Block.toChunk_eq]
      · simp only [Block.toChunk_eq] at hpush ⊢
        exact hsealed.mono (poolOf_le List.prefix_rfl hpush (Nat.le_refl _) (Nat.le_refl _))
    case isFalse => exact (hwf₁.finished n p hn).mono hpush
  · exact
      { captures := hp.captures
        depth := hp.depth
        loops := hp.loops
        constants := by
          change s.current.constants.toList <+: (parent.constants.push _).toList
          rw [hp.constants]
          simp
        names := by
          change s.current.names.toList <+: parent.names.toList
          exact hp.names ▸ List.prefix_rfl
        enclosing := ho
        functions := hfunctions.trans hpush
        locals := ⟨[], parent.locals, rfl, hp.locals, fun _ hl => nomatch hl⟩ }
  · rw [size_single]
    change parent.offset + _ = _
    rw [hp.offset]
    simp only [Instr.size, Layout.size, sources, Array.length_toList, Array.size_map]
    omega
  · refine ⟨functions.size, _, ?_, Array.getElem?_push_size, ?_⟩
    · change (parent.constants.push _)[w.toNat]? = _
      rw [toNat_of_wide? hw]
      exact Array.getElem?_push_size
    · simp [sources]
  · have hsize := hlinked.1
    simp only [sources, Array.length_toList, Array.size_map]
    exact Nat.lt_of_le_of_lt hsize (by decide)
  · obtain ⟨k, i, hi, ⟨_, hcap⟩, rfl⟩ := mem_sources hlinked hc
    cases hcap with
    | slot hk _ hl hflag =>
      obtain ⟨_, hslot⟩ := Scope.find?_slot hl
      obtain rfl := Option.some.inj (hk.symm.trans hi)
      exact ⟨_, hslot, hflag⟩
    | outer hk hkind =>
      obtain rfl := Option.some.inj (hk.symm.trans hi)
      rw [hlocal] at hkind
      cases hkind
  · obtain ⟨k, i, hi, ⟨_, hcap⟩, rfl⟩ := mem_sources hlinked hc
    cases hcap with
    | slot hk hkind =>
      obtain rfl := Option.some.inj (hk.symm.trans hi)
      rw [hlocal] at hkind
      cases hkind
    | outer hk _ _ hinner =>
      obtain rfl := Option.some.inj (hk.symm.trans hi)
      exact hinner.lt

/-- A function inside a block becomes the variable that was declared for it. -/
theorem executes_local_function (hin : s.Inside) {name : String} {line : Nat}
    (h : Finishes (s.withScope (·.declare name false)) line b s') : Executes s b s' := by
  have hgrows := (grows_declare s name false).trans h.grows
  obtain ⟨w, sources, rfl, hpool, hlength, hlocal, houter⟩ := h.code
  have hlen : s'.current.locals.length = s.current.locals.length + 1 := h.locals
  refine ⟨h.wf, hgrows, h.size, fun P E G hP hG _ => ?_⟩
  have hkept := hgrows.kept_eq hin
  unfold shape
  rw [hlen]
  refine typed_closure (hP.function _ _ hpool) hlength (fun j hj => hgrows.sharing hkept hj)
    (fun c hc hkind => ⟨?_, ?_⟩) fun c hc hkind => Nat.lt_of_lt_of_le (houter c hc hkind) hP.captures
  · exact Nat.le_of_lt_succ (Nat.lt_of_lt_of_le (hlocal c hc hkind).lt (Nat.le_of_eq hlen))
  · have hflag := hlocal c hc hkind
    unfold sharing
    split
    case isTrue hj => exact hG _ (hkept ▸ hj) hflag
    case isFalse => exact hflag

/-- A function outside all blocks becomes a global. -/
theorem executes_global_function {name : String} {line : Nat} {w : UInt16}
    (h : Finishes s line b₁ s₁) (hw : Gives (addName name line) s₁ w s₂) :
    Executes s (b₁ ++ #[Item.instr ⟨.defineLet, w⟩ line]) (s₂.over 3) ∧
      (s₂.over 3).current.locals.length = s.current.locals.length := by
  obtain ⟨hname, hlt⟩ := computes_addName h.wf hw
  have hgrows := h.grows.trans hname.grows
  have hlen : s₂.current.locals.length = s.current.locals.length := hname.locals.trans h.locals
  refine ⟨⟨wf_over hname.wf 3, hgrows.trans (grows_over s₂ 3), ?_, fun P E G hP hG _ => ?_⟩, hlen⟩
  · rw [size_append, size_single, ← Nat.add_assoc, ← h.size]
    exact congrArg (· + 3) hname.size
  · obtain ⟨w', sources, rfl, hpool, hlength, hlocal, houter⟩ := h.code
    have hkept := (hgrows.kept_of_length hlen).1
    have hlow : ∀ j, (s₂.over 3).sharing G j → j < s.current.locals.length := fun j hj =>
      Nat.lt_of_lt_of_le (sharing_lt hj) (Nat.le_of_eq hlen)
    have hclosure : Typed P E s.current.offset #[Item.instr ⟨.closure, (w', sources)⟩ line] (s.shape G)
        ⟨s.current.locals.length + 1, (s₂.over 3).sharing G⟩ := by
      have hpool' := (hname.grows.trans (grows_over s₂ 3)).pool_le
      refine typed_closure (hP.function _ _ (hpool'.function _ _ hpool)) hlength
        (fun j hj => hgrows.sharing hkept hj) (fun c hc hkind => ?_) fun c hc hkind => ?_
      · have hflag := hname.grows.flagged (hlocal c hc hkind)
        have hshare : (s₂.over 3).sharing G c.index.toNat := by
          unfold sharing
          split
          case isTrue hj => exact hG _ (hkept ▸ hj) hflag
          case isFalse => exact hflag
        exact ⟨Nat.le_of_lt (hlow _ hshare), hshare⟩
      · exact Nat.lt_of_lt_of_le (houter c hc hkind)
          (Nat.le_trans hpool'.captures hP.captures)
    have hdefine : Typed P E (s.current.offset + Block.size #[Item.instr ⟨.closure, (w', sources)⟩ line])
        #[Item.instr ⟨.defineLet, w⟩ line]
        ⟨s.current.locals.length + 1, (s₂.over 3).sharing G⟩ ((s₂.over 3).shape G) := by
      refine .instr ⟨?_, Nat.le_add_left _ _, Or.inr fun j hj _ hshare => ?_⟩ rfl
        ⟨hlen.symm, fun j hj => hj⟩
      · exact Nat.lt_of_lt_of_le hlt hP.names
      · exact absurd (hlow j hshare) (Nat.not_lt.2 hj)
    exact hclosure.append hdefine

theorem computes_valueOrNil (hs : s.Wf) {value : Option Expr} {line : Nat}
    (h : Gives (valueOrNil value line) s b s') : Computes s b s' 1 := by
  cases value with
  | some value => exact computes_expr value hs h
  | none =>
    obtain ⟨rfl, rfl⟩ := gives_emit.1 h
    exact computes_nil hs line

/-- A declaration binds a value: to a global outside all blocks, to its slot inside. -/
theorem executes_binding (hin : s.Inside) {name : String} {isMutable : Bool} {line : Nat}
    (h₁ : Computes s b₁ s₁ 1) (h : Gives (declare name isMutable line) s₁ b₂ s') :
    Executes s (b₁ ++ b₂) s' := by
  rcases h.declare with ⟨_, w, t, hw, rfl, rfl⟩ | ⟨_, rfl, rfl⟩
  · refine .of_computes ?_
    have hsize : (defineInstr isMutable w).size = 3 := by cases isMutable <;> rfl
    rw [← hsize]
    refine h₁.named hw ?_ ?_ ?_ ?_ ?_ <;> cases isMutable
    all_goals first
      | exact Nat.le_refl 1
      | exact fun _ => rfl
      | exact fun _ _ _ hlt => hlt
      | rfl
  · rw [Array.append_empty]
    exact executes_declare hin h₁ name isMutable

/-- A return leaves the function. -/
theorem executes_return (hs : s.Wf) {value : Option Expr} {span : Span}
    (h : Gives (stmt (.return_ value span)) s b s') : Executes s b s' := by
  obtain ⟨b₁, s₁, h₁, rfl, rfl⟩ := h.stmt_return
  have hvalue := computes_valueOrNil hs h₁
  refine ⟨wf_over hvalue.wf 1, hvalue.grows.trans (grows_over s₁ 1), ?_, fun P E G hP _ _ => ?_⟩
  · rw [size_append, size_single, ← Nat.add_assoc, ← hvalue.size]
    rfl
  · exact (hvalue.shaped G hP).append (.single ⟨trivial, Nat.le_add_left _ _, Or.inl (Or.inr rfl)⟩
      fun label hlabel => nomatch hlabel)

/-! ### The induction -/

mutual

/-- **The code of a statement** changes the stack only by the variables that it declares. A block or
a conditional declares none. -/
theorem executes_stmt : (p : Stmt) → p.Regular → {s s' : State} → {b : Block} → s.Wf → s.Inside →
    Gives (stmt p) s b s' →
    Executes s b s' ∧ (p.isBranch = true → s'.current.locals.length = s.current.locals.length)
  | .expr value, _, s, s', b, hs, _, h => by
    obtain ⟨b₁, s₁, h₁, rfl, rfl⟩ := h.stmt_expr
    exact ⟨.of_computes ((computes_expr value hs h₁).plain (i := ⟨.pop, ()⟩) _ (Nat.le_refl 1) rfl
      (fun _ => rfl) (fun _ => rfl) fun _ _ _ => trivial), nofun⟩
  | .var name value span, _, s, s', b, hs, hin, h => by
    obtain ⟨b₁, s₁, b₂, h₁, h₂, rfl⟩ := h.stmt_var
    exact ⟨executes_binding hin (computes_valueOrNil hs h₁) h₂, nofun⟩
  | .let_ name value span, _, s, s', b, hs, hin, h => by
    obtain ⟨b₁, s₁, b₂, h₁, h₂, rfl⟩ := h.stmt_let
    exact ⟨executes_binding hin (computes_expr value hs h₁) h₂, nofun⟩
  | .block body span, hp, s, s', b, hs, hin, h => by
    rw [Stmt.Regular] at hp
    rw [stmt] at h
    obtain ⟨hexec, hlength⟩ := sound_withBlock (sound_stmts body hp) hs
      (fun loop hl => Nat.lt_succ_of_lt (hin loop hl)) h
    exact ⟨hexec, fun _ => hlength⟩
  | .if_ condition body none span, hp, s, s', b, hs, hin, h => by
    rw [Stmt.Regular] at hp
    rw [stmt] at h
    obtain ⟨b₁, s₁, b₂, s₂, b₃, toElse, toEnd, h₁, h₂, helse, h₃, hend, rfl⟩ := h.conditional
    have hcondition := computes_expr condition hs h₁
    have hin₁ := hcondition.grows.inside hin
    obtain ⟨hbody, hlength⟩ := sound_withBlock (sound_stmts body hp)
      (wf_over (wf_over hcondition.wf 3) 1) (fun loop hl => Nat.lt_succ_of_lt (hin₁ loop hl)) h₂
    obtain ⟨rfl, rfl⟩ := gives_pure.1 h₃
    have hlen₁ : s₂.current.locals.length = s.current.locals.length :=
      hlength.trans hcondition.locals
    exact ⟨executes_conditional hcondition hbody hlength (.nil (wf_over (wf_over hbody.wf 3) 1)) rfl
      helse hend, fun _ => hlen₁⟩
  | .if_ condition body (some orElse) span, hp, s, s', b, hs, hin, h => by
    rw [Stmt.Regular] at hp
    obtain ⟨hregular, hbranch, hregular'⟩ := hp
    rw [stmt] at h
    obtain ⟨b₁, s₁, b₂, s₂, b₃, toElse, toEnd, h₁, h₂, helse, h₃, hend, rfl⟩ := h.conditional
    have hcondition := computes_expr condition hs h₁
    have hin₁ := hcondition.grows.inside hin
    obtain ⟨hbody, hlength⟩ := sound_withBlock (sound_stmts body hregular)
      (wf_over (wf_over hcondition.wf 3) 1) (fun loop hl => Nat.lt_succ_of_lt (hin₁ loop hl)) h₂
    have hin₂ : s₂.Inside := hbody.grows.inside (fun loop hl => hin₁ loop hl)
    obtain ⟨hsecond, hlength'⟩ := executes_stmt orElse hregular' (wf_over (wf_over hbody.wf 3) 1)
      (fun loop hl => hin₂ loop hl) h₃
    have hlen₁ : s₂.current.locals.length = s.current.locals.length :=
      hlength.trans hcondition.locals
    exact ⟨executes_conditional hcondition hbody hlength hsecond (hlength' hbranch) helse hend,
      fun _ => (hlength' hbranch).trans hlen₁⟩
  | .while_ condition body span, hp, s, s', b, hs, _, h => by
    rw [Stmt.Regular] at hp
    rw [stmt] at h
    exact ⟨executes_while (sound_stmts body hp) hs h, nofun⟩
  | .for_ name iterable body span, hp, s, s', b, hs, hin, h => by
    rw [Stmt.Regular] at hp
    rw [stmt] at h
    exact ⟨executes_forLoop (sound_stmts body hp) hs hin h, nofun⟩
  | .function name params body span, hp, s, s', b, hs, hin, h => by
    rw [Stmt.Regular] at hp
    rcases h.stmt_function with ⟨_, b₁, s₁, w, s₂, h₁, hw, rfl, rfl⟩ | ⟨_, h₁⟩
    · exact ⟨(executes_global_function (finishes_function hs (sound_stmts body hp) h₁) hw).1, nofun⟩
    · exact ⟨executes_local_function hin
        (finishes_function (wf_declare hs name false) (sound_stmts body hp) h₁), nofun⟩
  | .return_ value span, _, s, s', b, hs, _, h => ⟨executes_return hs h, nofun⟩
  | .break_ span, _, s, s', b, hs, _, h => ⟨executes_break hs h, nofun⟩
  | .continue_ span, _, s, s', b, hs, _, h => ⟨executes_continue hs h, nofun⟩

theorem sound_stmts : (ps : List Stmt) → Stmt.AllRegular ps → Sound (stmts ps #[])
  | [], _, s, s', b, hs, _, h => by
    obtain ⟨rfl, rfl⟩ := gives_pure.1 (by simpa only [stmts] using h)
    exact .nil hs
  | p :: ps, hp, s, s', b, hs, hin, h => by
    rw [Stmt.AllRegular] at hp
    obtain ⟨b₁, s₁, b₂, h₁, h₂, rfl⟩ := h.stmts_cons
    have hfirst := (executes_stmt p hp.1 hs hin h₁).1
    exact hfirst.append (hfirst.grows.kept_eq hin)
      (sound_stmts ps hp.2 hfirst.wf (hfirst.grows.inside hin) h₂)

end

end DeployScript.Compile
