import DeployScript.Proofs.Code.Emission

/-!
# The code of expressions

The code of an expression leaves one value on the stack, wherever the expression stands:
`computes_expr`, by induction over the expression.
-/

namespace DeployScript.Compile

variable {s s' s₁ : State} {b b₁ b₂ : Block} {m n : Nat}

theorem number_ne_function (value : Float) (k : Nat) : Literal.number value ≠ .function k := nofun

theorem text_ne_function (value : String) (k : Nat) : Literal.text value ≠ .function k := nofun

theorem computes_emitConstant (hs : s.Wf) {literal : Literal}
    (hdata : ∀ k, literal ≠ .function k) {w : UInt16}
    (hw : wide? s.current.constants.size = some w) (line : Nat) :
    Computes s #[Item.instr ⟨.constant, w⟩ line] ((s.withConstant literal).over 3) 1 := by
  have h := computes_withConstant hs hdata
  have hlast : (s.withConstant literal).current.constants[w.toNat]? = some literal := by
    rw [toNat_of_wide? hw]
    simp [State.withConstant]
  exact h.alone (i := ⟨.constant, w⟩) line rfl rfl (fun _ => rfl) (fun _ => rfl)
    fun P t _ hP _ => hP.data _ ⟨literal, hlast, hdata⟩

/-- An instruction without an operand, behind the values that it takes. -/
theorem Computes.plain (h : Computes s b s₁ m) {i : Instr} (line : Nat) (htaken : i.taken ≤ m)
    (hn : m - i.taken + i.given = n) (htargets : ∀ behind, i.targets behind = [behind])
    (hshared : ∀ t, i.sharedAfter t = t.shared) (hop : ∀ P t behind, i.OperandFits P t behind) :
    Computes s (b ++ #[Item.instr i line]) (s₁.over i.size) n :=
  h.instr line htaken hn htargets hshared fun P t behind _ _ => hop P t behind

/-- An instruction without an operand that takes nothing. -/
theorem computes_emit (hs : s.Wf) {i : Instr} (line : Nat) (htaken : i.taken = 0)
    (hgiven : i.given = 1) (htargets : ∀ behind, i.targets behind = [behind])
    (hshared : ∀ t, i.sharedAfter t = t.shared) (hop : ∀ P t behind, i.OperandFits P t behind) :
    Computes s #[Item.instr i line] (s.over i.size) 1 :=
  (Computes.nil hs).alone line htaken hgiven htargets hshared fun P t behind _ _ => hop P t behind

theorem computes_nil (hs : s.Wf) (line : Nat) :
    Computes s #[Item.instr ⟨.nil, ()⟩ line] (s.over 1) 1 :=
  computes_emit hs line rfl rfl (fun _ => rfl) (fun _ => rfl) fun _ _ _ => trivial

/-- An operator behind its operands. -/
theorem computes_binaryInstr (h : Computes s b s₁ 2) (op : BinaryOp) (line : Nat) :
    Computes s (b ++ #[Item.instr (binaryInstr op) line]) (s₁.over (binaryInstr op).size) 1 := by
  cases op <;>
    exact h.plain line (Nat.le_refl 2) rfl (fun _ => rfl) (fun _ => rfl) fun _ _ _ => trivial

/-- The right operand of a logical operator takes the place of the left one, unless that decides. -/
theorem computes_logical (h₁ : Computes s b₁ s₁ 1) {op : LogicalOp} {distance : UInt16} {line : Nat}
    (h₂ : Computes ((s₁.over jumpSize).over 1) b₂ s' 1)
    (hd : wide? (Block.size (#[Item.instr ⟨.pop, ()⟩ line] ++ b₂)) = some distance) :
    Computes s (b₁ ++ (#[Item.instr (logicalJump op distance) line] ++
      (#[Item.instr ⟨.pop, ()⟩ line] ++ b₂))) s' 1 where
  wf := h₂.wf
  grows := h₁.grows.trans (((grows_over s₁ _).trans (grows_over _ _)).trans h₂.grows)
  locals := h₂.locals.trans h₁.locals
  size := by
    have hjump : (logicalJump op distance).size = 3 := by cases op <;> rfl
    rw [h₂.size, size_append, size_append, size_append, size_single, size_single, hjump]
    change s₁.current.offset + 3 + 1 + b₂.size = _
    rw [h₁.size]
    change _ = s.current.offset + (b₁.size + (3 + (1 + b₂.size)))
    omega
  typed P E height K hP hlow hK := by
    have hgrows := ((grows_over s₁ jumpSize).trans (grows_over _ 1)).trans h₂.grows
    have hfirst := h₁.typed P E height K (Pool.le_trans hgrows.pool_le hP) hlow hK
    have hsecond := h₂.typed P E height K hP (Nat.le_trans (Nat.le_of_eq h₁.locals) hlow)
      (by intro j hj; exact Nat.lt_of_lt_of_le (hK j hj) (Nat.le_of_eq h₁.locals.symm))
    have hunshared : ∀ j, K j → j < height := fun j hj => Nat.lt_of_lt_of_le (hK j hj) hlow
    have hpop : Typed P E (s₁.current.offset + 3) #[Item.instr ⟨.pop, ()⟩ line] ⟨height + 1, K⟩
        ⟨height, K⟩ := by
      refine .instr ⟨trivial, Nat.le_add_left _ _, Or.inr fun j hj _ hshare => ?_⟩ rfl
        (StackShape.le_refl _)
      exact absurd (hunshared j hshare) (Nat.not_lt.2 hj)
    have hskipped : Typed P E (s₁.current.offset + 3) (#[Item.instr ⟨.pop, ()⟩ line] ++ b₂)
        ⟨height + 1, K⟩ ⟨height + 1, K⟩ := hpop.append hsecond
    refine hfirst.append ?_
    rw [← h₁.size]
    refine .branch ?_ (toNat_of_wide? hd) (Nat.succ_pos _)
      (fun j hj => Nat.succ_lt_succ (hunshared j hj)) (StackShape.le_refl _) hskipped
    cases op
    · exact Or.inl rfl
    · exact Or.inr rfl

/-- A variable is read. -/
theorem computes_readVariable (hs : s.Wf) {name : String} {line : Nat}
    (h : Gives (readVariable name line) s b s') : Computes s b s' 1 := by
  obtain ⟨place, w, t, hloc, rfl, rfl⟩ := h.readVariable
  obtain ⟨hc, ⟨slot, m, rfl, hw⟩ | ⟨index, m, rfl, hw⟩ | ⟨rfl, hw⟩⟩ := computes_located hs hloc
  · exact hc.alone (i := ⟨.getLocal, w⟩) line rfl rfl (fun _ => rfl) (fun _ => rfl)
      fun _ _ _ _ hlow => Nat.lt_of_lt_of_le hw hlow
  · exact hc.alone (i := ⟨.getCapture, w⟩) line rfl rfl (fun _ => rfl) (fun _ => rfl)
      fun _ _ _ hP _ => Nat.lt_of_lt_of_le hw hP.captures
  · exact hc.alone (i := ⟨.getGlobal, w⟩) line rfl rfl (fun _ => rfl) (fun _ => rfl)
      fun _ _ _ hP _ => Nat.lt_of_lt_of_le hw hP.names

/-- A variable is written with the value on top of the stack, which stays there. -/
theorem computes_writeVariable {name : String} {span : Span} (h₁ : Computes s b₁ s₁ 1)
    (h : Gives (writeVariable name span) s₁ b₂ s') : Computes s (b₁ ++ b₂) s' 1 := by
  obtain ⟨place, w, t, hloc, rfl, rfl⟩ := h.writeVariable
  obtain ⟨hc, ⟨slot, m, rfl, hw⟩ | ⟨index, m, rfl, hw⟩ | ⟨rfl, hw⟩⟩ := computes_located h₁.wf hloc
  · exact (h₁.quietly hc).instr (i := ⟨.setLocal, w⟩) (n := 1) span.line (Nat.le_refl 1) rfl
      (fun _ => rfl) (fun _ => rfl) fun _ _ _ _ hlow => Nat.lt_of_lt_of_le hw hlow
  · exact (h₁.quietly hc).instr (i := ⟨.setCapture, w⟩) (n := 1) span.line (Nat.le_refl 1) rfl
      (fun _ => rfl) (fun _ => rfl) fun _ _ _ hP _ => Nat.lt_of_lt_of_le hw hP.captures
  · exact (h₁.quietly hc).instr (i := ⟨.setGlobal, w⟩) (n := 1) span.line (Nat.le_refl 1) rfl
      (fun _ => rfl) (fun _ => rfl) fun _ _ _ hP _ => Nat.lt_of_lt_of_le hw hP.names

/-- An instruction with a name, behind the values that it takes. -/
theorem Computes.named (h : Computes s b s₁ m) {name : String} {line : Nat} {w : UInt16} {t : State}
    (hw : Gives (addName name line) s₁ w t) {i : Instr} (htaken : i.taken ≤ m)
    (hn : m - i.taken + i.given = n) (htargets : ∀ behind, i.targets behind = [behind])
    (hshared : ∀ t, i.sharedAfter t = t.shared)
    (hop : ∀ (P : Pool) t behind, w.toNat < P.names → i.OperandFits P t behind) :
    Computes s (b ++ #[Item.instr i line]) (t.over i.size) n := by
  obtain ⟨hc, hlt⟩ := computes_addName h.wf hw
  exact (h.quietly hc).instr line htaken hn htargets hshared
    fun P u behind hP _ => hop P u behind (Nat.lt_of_lt_of_le hlt hP.names)

theorem toNat_count {args : List Expr} (h : args.length ≤ maxArgs) :
    (UInt8.ofNat args.length).toNat = args.length := by
  rw [UInt8.toNat_ofNat']
  exact Nat.mod_eq_of_lt (Nat.lt_succ_of_le h)

mutual

/-- **The code of an expression leaves one value.** -/
theorem computes_expr : (e : Expr) → {s s' : State} → {b : Block} → s.Wf →
    Gives (expr e) s b s' → Computes s b s' 1
  | .number value span, s, s', b, hs, h => by
    obtain ⟨w, hw, rfl, rfl⟩ := gives_emitConstant.1 (by simpa only [expr] using h)
    exact computes_emitConstant hs (number_ne_function value) hw _
  | .text value span, s, s', b, hs, h => by
    obtain ⟨w, hw, rfl, rfl⟩ := gives_emitConstant.1 (by simpa only [expr] using h)
    exact computes_emitConstant hs (text_ne_function value) hw _
  | .bool true span, s, s', b, hs, h => by
    obtain ⟨rfl, rfl⟩ := gives_emit.1 (by simpa only [expr] using h)
    exact computes_emit hs _ rfl rfl (fun _ => rfl) (fun _ => rfl) fun _ _ _ => trivial
  | .bool false span, s, s', b, hs, h => by
    obtain ⟨rfl, rfl⟩ := gives_emit.1 (by simpa only [expr] using h)
    exact computes_emit hs _ rfl rfl (fun _ => rfl) (fun _ => rfl) fun _ _ _ => trivial
  | .nil span, s, s', b, hs, h => by
    obtain ⟨rfl, rfl⟩ := gives_emit.1 (by simpa only [expr] using h)
    exact computes_nil hs _
  | .name name span, s, s', b, hs, h => computes_readVariable hs (by simpa only [expr] using h)
  | .array elements span, s, s', b, hs, h => by
    obtain ⟨b₁, s₁, count, h₁, hw, rfl, rfl⟩ := h.array
    have hcount := toNat_of_wide? hw
    exact (computes_exprs elements hs h₁).plain _ (Nat.le_of_eq hcount)
      (by change elements.length - count.toNat + 1 = 1; omega) (fun _ => rfl) (fun _ => rfl)
      fun _ _ _ => trivial
  | .record entries span, s, s', b, hs, h => by
    obtain ⟨b₁, s₁, count, h₁, hw, rfl, rfl⟩ := h.record
    have hcount := toNat_of_wide? hw
    exact (computes_fields entries hs h₁).plain _
      (by change 2 * count.toNat ≤ 2 * entries.length; omega)
      (by change 2 * entries.length - 2 * count.toNat + 1 = 1; omega) (fun _ => rfl) (fun _ => rfl)
      fun _ _ _ => trivial
  | .binary left op right span, s, s', b, hs, h => by
    obtain ⟨b₁, s₁, b₂, s₂, h₁, h₂, rfl, rfl⟩ := h.binary
    have hleft := computes_expr left hs h₁
    rw [← Array.append_assoc]
    exact computes_binaryInstr (hleft.append (computes_expr right hleft.wf h₂)) op _
  | .logical left op right span, s, s', b, hs, h => by
    obtain ⟨b₁, s₁, b₂, distance, h₁, h₂, hd, rfl⟩ := h.logical
    have hleft := computes_expr left hs h₁
    exact computes_logical hleft (computes_expr right (wf_over (wf_over hleft.wf _) _) h₂) hd
  | .unary op operand span, s, s', b, hs, h => by
    obtain ⟨b₁, s₁, i, h₁, rfl, rfl, rfl⟩ := h.unary
    have hoperand := computes_expr operand hs h₁
    cases op <;>
      exact hoperand.plain _ (Nat.le_refl 1) rfl (fun _ => rfl) (fun _ => rfl) fun _ _ _ => trivial
  | .call callee args span, s, s', b, hs, h => by
    obtain ⟨hargs, ⟨_, b₁, s₁, h₁, rfl, rfl⟩ | ⟨_, b₁, s₁, b₂, s₂, h₁, h₂, rfl, rfl⟩⟩ := h.call
    · have hcount := toNat_count hargs
      exact (computes_exprs args hs h₁).plain _ (Nat.le_of_eq hcount)
        (by change args.length - (UInt8.ofNat args.length).toNat + 1 = 1; omega) (fun _ => rfl)
        (fun _ => rfl) fun _ _ _ => trivial
    · have hcount := toNat_count hargs
      have hcallee := computes_expr callee hs h₁
      rw [← Array.append_assoc]
      exact (hcallee.append (computes_exprs args hcallee.wf h₂)).plain _
        (by change (UInt8.ofNat args.length).toNat + 1 ≤ 1 + args.length; omega)
        (by change 1 + args.length - ((UInt8.ofNat args.length).toNat + 1) + 1 = 1; omega)
        (fun _ => rfl) (fun _ => rfl) fun _ _ _ => trivial
  | .group inner span, s, s', b, hs, h => computes_expr inner hs (by simpa only [expr] using h)
  | .assign name value span, s, s', b, hs, h => by
    obtain ⟨b₁, s₁, b₂, h₁, h₂, rfl⟩ := h.assign
    exact computes_writeVariable (computes_expr value hs h₁) h₂
  | .get object name span, s, s', b, hs, h => by
    obtain ⟨b₁, s₁, w, s₂, h₁, hw, rfl, rfl⟩ := h.get
    exact (computes_expr object hs h₁).named hw (i := ⟨.getProperty, w⟩) (Nat.le_refl 1) rfl
      (fun _ => rfl) (fun _ => rfl) fun _ _ _ hlt => hlt
  | .set object name value span, s, s', b, hs, h => by
    obtain ⟨b₁, s₁, b₂, s₂, w, s₃, h₁, h₂, hw, rfl, rfl⟩ := h.set
    have hobject := computes_expr object hs h₁
    rw [← Array.append_assoc]
    exact (hobject.append (computes_expr value hobject.wf h₂)).named hw (i := ⟨.setProperty, w⟩)
      (Nat.le_refl 2) rfl (fun _ => rfl) (fun _ => rfl) fun _ _ _ hlt => hlt
  | .index object key span, s, s', b, hs, h => by
    obtain ⟨b₁, s₁, b₂, s₂, h₁, h₂, rfl, rfl⟩ := h.index
    have hobject := computes_expr object hs h₁
    rw [← Array.append_assoc]
    exact (hobject.append (computes_expr key hobject.wf h₂)).plain _ (Nat.le_refl 2) rfl
      (fun _ => rfl) (fun _ => rfl) fun _ _ _ => trivial
  | .setIndex object key value span, s, s', b, hs, h => by
    obtain ⟨b₁, s₁, b₂, s₂, b₃, s₃, h₁, h₂, h₃, rfl, rfl⟩ := h.setIndex
    have hobject := computes_expr object hs h₁
    have hkey := computes_expr key hobject.wf h₂
    rw [← Array.append_assoc, ← Array.append_assoc]
    exact ((hobject.append hkey).append (computes_expr value hkey.wf h₃)).plain _ (Nat.le_refl 3)
      rfl (fun _ => rfl) (fun _ => rfl) fun _ _ _ => trivial

theorem computes_exprs : (es : List Expr) → {s s' : State} → {b : Block} → s.Wf →
    Gives (exprs es #[]) s b s' → Computes s b s' es.length
  | [], s, s', b, hs, h => by
    obtain ⟨rfl, rfl⟩ := gives_pure.1 (by simpa only [exprs] using h)
    exact .nil hs
  | e :: es, s, s', b, hs, h => by
    obtain ⟨b₁, s₁, b₂, h₁, h₂, rfl⟩ := h.exprs_cons
    have hfirst := computes_expr e hs h₁
    rw [List.length_cons, Nat.add_comm]
    exact hfirst.append (computes_exprs es hfirst.wf h₂)

theorem computes_fields : (es : List (String × Expr)) → {s s' : State} → {b : Block} →
    {line : Nat} → s.Wf → Gives (fields es line #[]) s b s' → Computes s b s' (2 * es.length)
  | [], s, s', b, line, hs, h => by
    obtain ⟨rfl, rfl⟩ := gives_pure.1 (by simpa only [fields] using h)
    exact .nil hs
  | (key, e) :: es, s, s', b, line, hs, h => by
    obtain ⟨w, b₁, s₁, b₂, hw, h₁, h₂, rfl⟩ := h.fields_cons
    have hkey := computes_emitConstant hs (text_ne_function key) hw line
    have hvalue := computes_expr e hkey.wf h₁
    rw [List.length_cons, show 2 * (es.length + 1) = 1 + (1 + 2 * es.length) by omega]
    exact hkey.append (hvalue.append (computes_fields es hvalue.wf h₂))

end

end DeployScript.Compile
