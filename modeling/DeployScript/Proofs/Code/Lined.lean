import DeployScript.Proofs.Code.WellFormed
import DeployScript.Proofs.Program.Positions

/-!
# The lines of code

Code is compiled from nodes, nodes are read from tokens, and tokens stand on the lines of a source. So
every byte of compiled code has a line of the source it comes from, but for two kinds of instructions that
are written for no node: those that take the variables of a block off the stack, and those at the end of a
script. They have line 0, and nothing that has line 0 can fail.

* `LineOf` — the lines of a source; `Program.placed_ofSource` — the nodes of its program are on them.
* `Block.Lined` — items on lines that are as they should be, or on line 0 and tacit.
* `Compile.Yields` — what a step of the compilation gives; `yields_expr`, `yields_stmt` — the nodes.
* `Compiled.lined_ofSource` — the chunks of a source.
* `Chunk.Lined.lineAt?` — the line of a byte.
-/

namespace DeployScript

/-! ### Lines of a source -/

/-- **The lines of a source** count from 1, and each line feed ends one. -/
def LineOf (source : String) (line : Nat) : Prop := 1 ≤ line ∧ line ≤ 1 + source.toList.count '\n'

/-- The tokens of a text that is cut up, and its end, are on lines of the whole. -/
theorem Cut.lines {before cs : List Char} {tokens : List Token} {stop : Span}
    (h : Cut before cs tokens stop) :
    (∀ t ∈ tokens, 1 ≤ t.span.line ∧ t.span.line ≤ 1 + (before ++ cs).count '\n') ∧
      1 ≤ stop.line := by
  induction h with
  | stop => exact ⟨nofun, Nat.le_add_right _ _⟩
  | @token before gap rest t tokens stop hspan _ ih =>
    obtain ⟨htokens, hstop⟩ := ih
    have hline : t.span.line = 1 + (before ++ gap).count '\n' := congrArg Span.line hspan
    have hcounted : t.counted.count '\n' ≤ t.lexeme.toList.count '\n' := by
      rcases t.counted_eq_or_count_lt with he | hlt
      · rw [he]
      · exact Nat.le_of_lt hlt
    simp only [List.count_append] at hline htokens ⊢
    refine ⟨fun u hu => ?_, hstop⟩
    rcases List.mem_cons.1 hu with rfl | hu
    · omega
    · have hu' := htokens u hu
      omega

/-- **The nodes of a program** are on lines of its source. -/
theorem Program.placed_ofSource {source : String} {p : Program} (h : Program.ofSource source = .ok p) :
    Stmt.AllPlaced (LineOf source) p.statements := by
  refine (Program.spelled_of_lines h fun s hs => ?_).placed
  have hscan : scanFrom (.after []) source.toList #[] = .ok s := hs
  obtain ⟨tokens, htokens, hcut⟩ := scanFrom_cut hscan
  obtain rfl : s.tokens = tokens := htokens
  exact ⟨hcut.lines.1, hcut.lines.2, hcut.line_stop.1⟩

/-! ### Blocks -/

/-- The instructions that are written for no node. -/
def Opcode.isTacit : Opcode → Bool
  | nil | pop | closeCapture | return_ => true
  | _ => false

/-- An item is on a line that is as it should be, or on line 0 and tacit. -/
def Item.Lined (ok : Nat → Prop) (item : Item) : Prop :=
  ok item.line ∨ item.line = 0 ∧ item.toInstr.op.isTacit = true

/-- **Items on lines that are as they should be,** or on line 0 and tacit. -/
def Block.Lined (ok : Nat → Prop) (b : Block) : Prop := ∀ item ∈ b, item.Lined ok

/-- **A chunk with such lines.** -/
def Chunk.Lined {κ : Type} (ok : Nat → Prop) (c : Chunk κ) : Prop :=
  ∃ (b : Block) (constants : Array κ) (names : Array String), c = b.toChunk constants names ∧ b.Lined ok

variable {ok : Nat → Prop} {b b' : Block} {i : Instr} {line : Nat}

namespace Block

@[simp] theorem lined_empty : Lined ok #[] := nofun

@[simp] theorem lined_append : Lined ok (b ++ b') ↔ b.Lined ok ∧ b'.Lined ok := by
  simp only [Lined, Array.mem_append, or_imp, forall_and]

theorem lined_singleton {item : Item} (h : item.Lined ok) : Lined ok #[item] := by
  intro a ha
  obtain rfl : a = item := by simpa using ha
  exact h

theorem lined_instr (h : ok line) (i : Instr) : Lined ok #[.instr i line] :=
  lined_singleton (.inl h)

/-- Measuring the jumps out of a loop leaves all lines alone. -/
theorem Closes.lined {left : Nat} {items closed : List Item} (h : Closes left items closed)
    (hlined : ∀ item ∈ items, item.Lined ok) : ∀ item ∈ closed, item.Lined ok := by
  induction h with
  | nil => exact nofun
  | instr _ ih =>
    rw [List.forall_mem_cons] at hlined ⊢
    exact ⟨hlined.1, ih hlined.2⟩
  | exit _ _ ih =>
    rw [List.forall_mem_cons] at hlined ⊢
    refine ⟨hlined.1.imp id fun htacit => ?_, ih hlined.2⟩
    cases htacit.2

theorem Lined.closeLoop? (h : b.Lined ok) (hclose : b.closeLoop? = some b') : b'.Lined ok := by
  intro item hitem
  exact (closes_of_closeLoop? hclose).lined (fun item hi => h item (Array.mem_toList_iff.1 hi)) item
    (Array.mem_toList_iff.2 hitem)

end Block

open Block

/-! ### Steps -/

namespace Compile

/-- The functions that are finished have lines that are as they should be. -/
def State.Lined (ok : Nat → Prop) (s : State) : Prop := ∀ f ∈ s.functions, f.chunk.Lined ok

/-- **What a step yields** if it succeeds: an answer with a property, and functions whose lines are as they
should be. -/
def Yields (ok : Nat → Prop) {α : Type} (x : Step α) (P : α → Prop) : Prop :=
  ∀ s a s', s.Lined ok → Gives x s a s' → s'.Lined ok ∧ P a

section Steps

variable {α β : Type} {x : Step α} {P : α → Prop} {Q : β → Prop}

theorem yields_pure {a : α} (h : P a) : Yields ok (pure a) P := by
  intro s a' s' hs hx
  obtain ⟨rfl, rfl⟩ := gives_pure.1 hx
  exact ⟨hs, h⟩

theorem yields_bind {f : α → Step β} (hx : Yields ok x P) (hf : ∀ a, P a → Yields ok (f a) Q) :
    Yields ok (x >>= f) Q := by
  intro s b s' hs h
  obtain ⟨a, s₁, ha, hb⟩ := gives_bind.1 h
  obtain ⟨hs₁, hP⟩ := hx s a s₁ hs ha
  exact hf a hP s₁ b s' hs₁ hb

/-- One step behind another that does not look at its answer. -/
theorem yields_seq {y : Step β} (hx : Yields ok x P) (hy : Yields ok y Q) :
    Yields ok (x >>= fun _ => y) Q :=
  yields_bind hx fun _ _ => hy

theorem yields_throw {e : ScriptError} : Yields ok (throw e : Step α) P :=
  fun _ _ _ _ h => (gives_throw h).elim

/-- A step that leaves the functions alone. -/
theorem yields_of_functions (h : ∀ s a s', Gives x s a s' → s'.functions = s.functions) :
    Yields ok x fun _ => True :=
  fun s a s' hs hx => ⟨by rw [State.Lined, h s a s' hx]; exact hs, trivial⟩

theorem yields_get : Yields ok (get : Step State) (State.Lined ok) := by
  intro s a s' hs h
  obtain ⟨rfl, rfl⟩ := gives_get.1 h
  exact ⟨hs, hs⟩

theorem yields_set {t : State} (ht : t.Lined ok) : Yields ok (set t : Step Unit) fun _ => True := by
  intro s a s' _ h
  obtain rfl := gives_set.1 h
  exact ⟨ht, trivial⟩

theorem yields_modifyScope {f : Scope → Scope} : Yields ok (modifyScope f) fun _ => True :=
  yields_of_functions fun s a s' h => by
    obtain rfl := gives_modifyScope.1 h
    rfl

theorem yields_scope : Yields ok scope fun _ => True :=
  yields_of_functions fun s a s' h => by rw [(gives_scope.1 h).2]

theorem yields_exceed {limit : Limit} {line : Nat} : Yields ok (exceed limit line : Step α) P :=
  yields_throw

/-- A step behind a check for a limit. -/
theorem yields_within {c : Prop} [Decidable c] {limit : Limit} {f : PUnit → Step β}
    (h : Yields ok (f ⟨⟩) Q) : Yields ok (if c then exceed limit line >>= f else f ⟨⟩) Q := by
  split
  · exact yields_bind (P := fun _ => True) yields_exceed fun _ _ => h
  · exact h

theorem yields_wide {n : Nat} {limit : Limit} : Yields ok (wide n limit line) fun _ => True :=
  yields_of_functions fun s a s' h => by rw [(gives_wide.1 h).2]

theorem yields_reserve {size : Nat} : Yields ok (reserve size) fun _ => True := yields_modifyScope

/-- **An instruction** on a line that is as it should be. -/
theorem yields_emit (h : ok line) (i : Instr) : Yields ok (emit i line) (Block.Lined ok) :=
  yields_seq yields_reserve (yields_pure (lined_instr h i))

/-- A tacit instruction on line 0. -/
theorem yields_tacit (h : i.op.isTacit = true) : Yields ok (emit i 0) (Block.Lined ok) :=
  yields_seq yields_reserve (yields_pure (lined_singleton (.inr ⟨rfl, h⟩)))

theorem yields_addConstant {literal : Literal} : Yields ok (addConstant literal line) fun _ => True :=
  yields_of_functions fun s a s' h => by rw [← (gives_addConstant.1 h).2]; rfl

theorem yields_addName {name : String} : Yields ok (addName name line) fun _ => True :=
  yields_of_functions fun s a s' h => by
    obtain ⟨_, rfl, -, -⟩ := h.addName
    rfl

theorem yields_emitConstant (h : ok line) (literal : Literal) :
    Yields ok (emitConstant literal line) (Block.Lined ok) :=
  yields_bind yields_addConstant fun _ _ => yields_emit h _

/-- The instructions that take variables off the stack, on any line. -/
theorem yields_unwind {depth : Nat} (h : ok line ∨ line = 0) :
    Yields ok (unwind depth line) (Block.Lined ok) := by
  refine yields_bind yields_scope fun c _ => yields_seq yields_reserve (yields_pure fun item hitem => ?_)
  obtain ⟨i, hi, rfl⟩ := List.mem_map.1 (List.mem_toArray.1 hitem)
  obtain ⟨l, -, rfl⟩ := List.mem_map.1 hi
  refine h.imp id fun hzero => ⟨hzero, ?_⟩
  cases l.isCaptured <;> rfl

theorem yields_distance {block : Block} : Yields ok (distance block line) fun _ => True := yields_wide

theorem yields_emitLoop (h : ok line) (start : Nat) :
    Yields ok (emitLoop start line) (Block.Lined ok) :=
  yields_bind yields_scope fun _ _ => yields_bind yields_wide fun _ _ => yields_emit h _

/-! ### Variables -/

theorem yields_declareLocal {name : String} {isMutable : Bool} :
    Yields ok (declareLocal name isMutable) fun _ => True := yields_modifyScope

theorem yields_declareSlot {name : String} {isMutable : Bool} :
    Yields ok (declareSlot name isMutable) fun _ => True :=
  yields_bind yields_scope fun _ _ => yields_bind yields_declareLocal fun _ _ => yields_pure trivial

theorem yields_resolve {name : String} : Yields ok (resolve name line) fun _ => True :=
  yields_of_functions fun s a s' h => by cases h.resolved <;> rfl

theorem yields_readVariable (h : ok line) (name : String) :
    Yields ok (readVariable name line) (Block.Lined ok) := by
  refine yields_bind yields_resolve fun place _ => ?_
  split
  · exact yields_bind yields_wide fun _ _ => yields_emit h _
  · exact yields_bind yields_wide fun _ _ => yields_emit h _
  · exact yields_bind yields_addName fun _ _ => yields_emit h _

theorem yields_writeVariable {span : Span} (h : ok span.line) (name : String) :
    Yields ok (writeVariable name span) (Block.Lined ok) := by
  refine yields_bind yields_resolve fun place _ => ?_
  split
  · split
    · exact yields_bind yields_wide fun _ _ => yields_emit h _
    · exact yields_throw
  · split
    · exact yields_bind yields_wide fun _ _ => yields_emit h _
    · exact yields_throw
  · exact yields_bind yields_addName fun _ _ => yields_emit h _

theorem yields_declare (h : ok line) (name : String) (isMutable : Bool) :
    Yields ok (declare name isMutable line) (Block.Lined ok) := by
  refine yields_bind yields_scope fun c _ => ?_
  split
  · refine yields_bind yields_addName fun _ _ => ?_
    split
    · exact yields_emit h _
    · exact yields_emit h _
  · exact yields_seq yields_declareLocal (yields_pure lined_empty)

/-- Code with an instruction behind it. -/
theorem yields_snoc (hb : b.Lined ok) (h : ok line) (i : Instr) :
    Yields ok (do return b ++ (← emit i line)) (Block.Lined ok) :=
  yields_bind (yields_emit h i) fun _ hi => yields_pure (lined_append.2 ⟨hb, hi⟩)

end Steps

/-! ### Expressions -/

theorem yields_afterLeft {op : BinaryOp} {right : Step Block} (hright : Yields ok right (Block.Lined ok))
    (h : ok line) : Yields ok (afterLeft op right line) (Block.Lined ok) :=
  yields_bind hright fun _ hb => yields_snoc hb h _

theorem yields_afterDeciding {op : LogicalOp} {right : Step Block}
    (hright : Yields ok right (Block.Lined ok)) (h : ok line) :
    Yields ok (afterDeciding op right line) (Block.Lined ok) :=
  yields_seq yields_reserve (yields_bind (yields_emit h _) fun _ hpop => yields_bind hright fun _ hb =>
    yields_bind yields_distance fun _ _ => yields_pure
      (lined_append.2 ⟨lined_instr h _, lined_append.2 ⟨hpop, hb⟩⟩))

mutual

/-- **The code of an expression** is on the lines of its nodes. -/
theorem yields_expr : (e : Expr) → e.Placed ok → Yields ok (expr e) (Block.Lined ok)
  | .number _ _, h | .text _ _, h => by
    rw [expr]
    exact yields_emitConstant h _
  | .bool true _, h | .bool false _, h | .nil _, h => by
    rw [expr]
    exact yields_emit h _
  | .name _ _, h => by
    rw [expr]
    exact yields_readVariable h _
  | .array elements _, h => by
    rw [expr]
    exact yields_bind (yields_exprs elements h.2 lined_empty) fun _ hb =>
      yields_bind yields_wide fun _ _ => yields_snoc hb h.1 _
  | .record entries _, h => by
    rw [expr]
    exact yields_bind (yields_fields entries h.1 h.2 lined_empty) fun _ hb =>
      yields_bind yields_wide fun _ _ => yields_snoc hb h.1 _
  | .binary left op right _, h => by
    rw [expr]
    exact yields_bind (yields_expr left h.2.1) fun _ hl =>
      yields_bind (yields_afterLeft (yields_expr right h.2.2) h.1) fun _ hr =>
        yields_pure (lined_append.2 ⟨hl, hr⟩)
  | .logical left op right _, h => by
    rw [expr]
    exact yields_bind (yields_expr left h.2.1) fun _ hl =>
      yields_bind (yields_afterDeciding (yields_expr right h.2.2) h.1) fun _ hr =>
        yields_pure (lined_append.2 ⟨hl, hr⟩)
  | .unary .neg operand _, h | .unary .not operand _, h => by
    rw [expr]
    exact yields_bind (yields_expr operand h.2) fun _ ho => yields_snoc ho h.1 _
  | .call callee args _, h => by
    rw [expr]
    refine yields_within ?_
    split
    · exact yields_bind (yields_exprs args h.2.2 lined_empty) fun _ hb => yields_snoc hb h.1 _
    · exact yields_bind (yields_expr callee h.2.1) fun _ hf =>
        yields_bind (yields_exprs args h.2.2 hf) fun _ hb => yields_snoc hb h.1 _
  | .group inner _, h => by
    rw [expr]
    exact yields_expr inner h.2
  | .assign _ value _, h => by
    rw [expr]
    exact yields_bind (yields_expr value h.2) fun _ hv =>
      yields_bind (yields_writeVariable h.1 _) fun _ hw => yields_pure (lined_append.2 ⟨hv, hw⟩)
  | .get object _ _, h => by
    rw [expr]
    exact yields_bind (yields_expr object h.2) fun _ ho =>
      yields_bind yields_addName fun _ _ => yields_snoc ho h.1 _
  | .set object _ value _, h => by
    rw [expr]
    exact yields_bind (yields_expr object h.2.1) fun _ ho =>
      yields_bind (yields_expr value h.2.2) fun _ hv =>
        yields_bind yields_addName fun _ _ => yields_snoc (lined_append.2 ⟨ho, hv⟩) h.1 _
  | .index object key _, h => by
    rw [expr]
    exact yields_bind (yields_expr object h.2.1) fun _ ho =>
      yields_bind (yields_expr key h.2.2) fun _ hk =>
        yields_snoc (lined_append.2 ⟨ho, hk⟩) h.1 _
  | .setIndex object key value _, h => by
    rw [expr]
    exact yields_bind (yields_expr object h.2.1) fun _ ho =>
      yields_bind (yields_expr key h.2.2.1) fun _ hk =>
        yields_bind (yields_expr value h.2.2.2) fun _ hv =>
          yields_snoc (lined_append.2 ⟨lined_append.2 ⟨ho, hk⟩, hv⟩) h.1 _

theorem yields_exprs : (es : List Expr) → Expr.AllPlaced ok es → {before : Block} →
    before.Lined ok → Yields ok (exprs es before) (Block.Lined ok)
  | [], _, _, hb => by
    rw [exprs]
    exact yields_pure hb
  | e :: es, h, _, hb => by
    rw [exprs]
    exact yields_bind (yields_expr e h.1) fun _ he => yields_exprs es h.2 (lined_append.2 ⟨hb, he⟩)

theorem yields_fields : (es : List (String × Expr)) → {line : Nat} → ok line →
    Expr.FieldsPlaced ok es → {before : Block} → before.Lined ok →
    Yields ok (fields es line before) (Block.Lined ok)
  | [], _, _, _, _, hb => by
    rw [fields]
    exact yields_pure hb
  | (key, e) :: es, line, hline, h, _, hb => by
    rw [fields]
    exact yields_bind (yields_emitConstant hline _) fun _ hk => yields_bind (yields_expr e h.1)
      fun _ he => yields_fields es hline h.2 (lined_append.2 ⟨hb, lined_append.2 ⟨hk, he⟩⟩)

end

/-! ### Parts of statements -/

section Parts

variable {condition body orElse : Step Block}

/-- **A block** ends with instructions on line 0, which are tacit. -/
theorem yields_withBlock (hbody : Yields ok body (Block.Lined ok)) :
    Yields ok (withBlock body) (Block.Lined ok) := by
  refine yields_bind yields_modifyScope fun _ _ => yields_bind hbody fun code hcode => ?_
  refine yields_bind yields_modifyScope fun _ _ => yields_bind yields_scope fun c _ => ?_
  refine yields_bind (yields_unwind (.inr rfl)) fun off hoff => ?_
  exact yields_bind yields_modifyScope fun _ _ => yields_pure (lined_append.2 ⟨hcode, hoff⟩)

theorem yields_withLoop {body : Nat → Step Block} (hbody : ∀ start, Yields ok (body start) (Block.Lined ok)) :
    Yields ok (withLoop line body) (Block.Lined ok) := by
  refine yields_bind yields_scope fun c _ => yields_bind yields_modifyScope fun _ _ => ?_
  refine yields_bind (hbody _) fun code hcode => yields_bind yields_modifyScope fun _ _ => ?_
  split
  case h_1 closed hclosed => exact yields_pure (hcode.closeLoop? hclosed)
  case h_2 => exact yields_exceed

theorem yields_whileLoop (hcondition : Yields ok condition (Block.Lined ok))
    (hbody : Yields ok body (Block.Lined ok)) (h : ok line) :
    Yields ok (whileLoop condition body line) (Block.Lined ok) := by
  refine yields_withLoop fun start => yields_bind hcondition fun _ hc => ?_
  refine yields_bind yields_reserve fun _ _ => yields_bind (yields_emit h _) fun _ hpop => ?_
  refine yields_bind hbody fun _ hb => yields_bind (yields_emitLoop h _) fun _ hloop => ?_
  refine yields_bind yields_distance fun _ _ => yields_bind (yields_emit h _) fun _ hpop' => ?_
  refine yields_pure ?_
  simp only [lined_append]
  exact ⟨⟨⟨hc, lined_instr h _⟩, ⟨hpop, hb⟩, hloop⟩, hpop'⟩

theorem yields_readSlot (h : ok line) (slot : Nat) : Yields ok (readSlot slot line) (Block.Lined ok) :=
  yields_bind yields_wide fun _ _ => yields_emit h _

theorem yields_moveToSlot (h : ok line) (slot : Nat) :
    Yields ok (moveToSlot slot line) (Block.Lined ok) :=
  yields_bind yields_wide fun _ _ => yields_bind (yields_emit h _) fun _ hset => yields_snoc hset h _

theorem yields_nextIndex (h : ok line) (container index : Nat) :
    Yields ok (nextIndex container index line) (Block.Lined ok) := by
  refine yields_bind (yields_readSlot h _) fun _ h₁ => yields_bind (yields_emitConstant h _) fun _ h₂ => ?_
  refine yields_bind (yields_emit h _) fun _ h₃ => yields_bind (yields_moveToSlot h _) fun _ h₄ => ?_
  refine yields_bind (yields_readSlot h _) fun _ h₅ => yields_bind (yields_emit h _) fun _ h₆ => ?_
  refine yields_bind (yields_readSlot h _) fun _ h₇ => yields_snoc ?_ h _
  simp only [lined_append]
  exact ⟨⟨⟨⟨⟨h₁, h₂⟩, h₃⟩, h₄⟩, h₅, h₆⟩, h₇⟩

theorem yields_takeElement (h : ok line) (container index element : Nat) :
    Yields ok (takeElement container index element line) (Block.Lined ok) := by
  refine yields_bind (yields_readSlot h _) fun _ h₁ => yields_bind (yields_readSlot h _) fun _ h₂ => ?_
  refine yields_bind (yields_emit h _) fun _ h₃ => yields_bind (yields_moveToSlot h _) fun _ h₄ => ?_
  refine yields_pure ?_
  simp only [lined_append]
  exact ⟨⟨⟨h₁, h₂⟩, h₃⟩, h₄⟩

theorem yields_forLoop (hiterable : Yields ok condition (Block.Lined ok))
    (hbody : Yields ok body (Block.Lined ok)) (h : ok line) (name : String) :
    Yields ok (forLoop name condition body line) (Block.Lined ok) := by
  refine yields_withBlock (yields_bind hiterable fun _ hit => yields_bind yields_declareSlot fun _ _ => ?_)
  refine yields_bind (yields_emitConstant h _) fun _ hfirst => yields_bind yields_declareSlot fun _ _ => ?_
  refine yields_bind (yields_emit h _) fun _ hnothing => yields_bind yields_declareSlot fun _ _ => ?_
  refine yields_bind (yields_whileLoop (yields_nextIndex h _ _) ?_ h) fun _ hloop => yields_pure ?_
  · exact yields_bind (yields_takeElement h _ _ _) fun _ htake => yields_bind hbody fun _ hb =>
      yields_pure (lined_append.2 ⟨htake, hb⟩)
  · simp only [lined_append]
    exact ⟨⟨⟨hit, hfirst⟩, hnothing⟩, hloop⟩

theorem yields_conditional (hcondition : Yields ok condition (Block.Lined ok))
    (hbody : Yields ok body (Block.Lined ok)) (horElse : Yields ok orElse (Block.Lined ok))
    (h : ok line) : Yields ok (conditional condition body orElse line) (Block.Lined ok) := by
  refine yields_bind hcondition fun _ hc => yields_bind yields_reserve fun _ _ => ?_
  refine yields_bind (yields_emit h _) fun _ hpop => yields_bind hbody fun _ hb => ?_
  refine yields_bind yields_reserve fun _ _ => yields_bind yields_wide fun _ _ => ?_
  refine yields_bind (yields_emit h _) fun _ hpop' => yields_bind horElse fun _ he => ?_
  refine yields_bind yields_distance fun _ _ => yields_pure ?_
  simp only [lined_append]
  exact ⟨⟨⟨⟨hc, lined_instr h _⟩, hpop, hb⟩, lined_instr h _⟩, hpop', he⟩

/-- **A function** is one more, with the lines of its body. -/
theorem yields_function (hbody : Yields ok body (Block.Lined ok)) (h : ok line) (name : String)
    (params : List String) : Yields ok (function name params body line) (Block.Lined ok) := by
  unfold function
  refine yields_within ?_
  refine yields_bind (P := fun _ => True) (fun s a s' hs hx => ?_) fun _ _ => ?_
  · -- A scope of its own leaves the functions alone.
    obtain rfl := gives_modify.1 hx
    exact ⟨hs, trivial⟩
  refine yields_bind hbody fun _ hb => yields_bind (yields_emit h _) fun _ hnil => ?_
  refine yields_bind (yields_emit h _) fun _ hreturn => yields_bind yields_get fun s hs => ?_
  refine yields_bind (yields_set fun f hf => ?_) fun _ _ =>
    yields_bind yields_addConstant fun _ _ => yields_emit h _
  rcases Array.mem_push.1 hf with hf | rfl
  · exact hs f hf
  · refine ⟨_, _, _, rfl, ?_⟩
    simp only [lined_append]
    exact ⟨⟨hb, hnil⟩, hreturn⟩

end Parts

/-! ### Statements -/

/-- A declaration with its value. -/
theorem yields_binding {value : Step Block} (hvalue : Yields ok value (Block.Lined ok)) (h : ok line)
    (name : String) (isMutable : Bool) :
    Yields ok (do return (← value) ++ (← declare name isMutable line)) (Block.Lined ok) :=
  yields_bind hvalue fun _ hv => yields_bind (yields_declare h _ _) fun _ hd =>
    yields_pure (lined_append.2 ⟨hv, hd⟩)

mutual

/-- **The code of a statement** is on the lines of its nodes, or on line 0 and tacit. -/
theorem yields_stmt : (p : Stmt) → p.Placed ok → Yields ok (stmt p) (Block.Lined ok)
  | .expr value, h => by
    rw [stmt]
    exact yields_bind (yields_expr value h) fun _ hv => yields_snoc hv h.line _
  | .var _ none _, h => by
    rw [stmt]
    exact yields_binding (yields_emit h.1 _) h.1 _ _
  | .var _ (some value) _, h => by
    rw [stmt]
    exact yields_binding (yields_expr value (h.2 value rfl)) h.1 _ _
  | .let_ _ value _, h => by
    rw [stmt]
    exact yields_binding (yields_expr value h.2) h.1 _ _
  | .block body _, h => by
    rw [stmt]
    exact yields_withBlock (yields_stmts body h.2 lined_empty)
  | .if_ condition body none _, h => by
    rw [stmt]
    exact yields_conditional (yields_expr condition h.2.1)
      (yields_withBlock (yields_stmts body h.2.2 lined_empty)) (yields_pure lined_empty) h.1
  | .if_ condition body (some orElse) _, h => by
    rw [stmt]
    exact yields_conditional (yields_expr condition h.2.1)
      (yields_withBlock (yields_stmts body h.2.2.1 lined_empty)) (yields_stmt orElse h.2.2.2) h.1
  | .while_ condition body _, h => by
    rw [stmt]
    exact yields_whileLoop (yields_expr condition h.2.1)
      (yields_withBlock (yields_stmts body h.2.2 lined_empty)) h.1
  | .for_ name iterable body _, h => by
    rw [stmt]
    exact yields_forLoop (yields_expr iterable h.2.1)
      (yields_withBlock (yields_stmts body h.2.2 lined_empty)) h.1 name
  | .function name params body _, h => by
    rw [stmt]
    have hfunction := yields_function (yields_stmts body h.2 lined_empty) h.1 name params
    refine yields_bind yields_scope fun c _ => ?_
    split
    · exact yields_bind hfunction fun _ hf => yields_bind yields_addName fun _ _ =>
        yields_snoc hf h.1 _
    · exact yields_bind yields_declareLocal fun _ _ => hfunction
  | .return_ none _, h => by
    rw [stmt]
    exact yields_bind (yields_emit h.1 _) fun _ hv => yields_snoc hv h.1 _
  | .return_ (some value) _, h => by
    rw [stmt]
    exact yields_bind (yields_expr value (h.2 value rfl)) fun _ hv => yields_snoc hv h.1 _
  | .break_ _, h => by
    rw [stmt]
    refine yields_bind yields_scope fun c _ => ?_
    split
    · exact yields_throw
    · refine yields_bind (yields_unwind (.inl h)) fun off hoff => ?_
      refine yields_bind yields_reserve fun _ _ => yields_pure ?_
      rw [Array.push_eq_append]
      exact lined_append.2 ⟨hoff, lined_singleton (.inl h)⟩
  | .continue_ _, h => by
    rw [stmt]
    refine yields_bind yields_scope fun c _ => ?_
    split
    · exact yields_throw
    · exact yields_bind (yields_unwind (.inl h)) fun off hoff =>
        yields_bind (yields_emitLoop h _) fun _ hloop => yields_pure (lined_append.2 ⟨hoff, hloop⟩)

theorem yields_stmts : (ps : List Stmt) → Stmt.AllPlaced ok ps → {before : Block} →
    before.Lined ok → Yields ok (stmts ps before) (Block.Lined ok)
  | [], _, _, hb => by
    rw [stmts]
    exact yields_pure hb
  | p :: ps, h, _, hb => by
    rw [stmts]
    exact yields_bind (yields_stmt p h.1) fun _ hp => yields_stmts ps h.2 (lined_append.2 ⟨hb, hp⟩)

end

/-- The code of a script, which has no node for its last value if that is nil. -/
theorem yields_script (ps : List Stmt) (h : Stmt.AllPlaced ok ps) {before : Block}
    (hb : before.Lined ok) : Yields ok (script ps before) (Block.Lined ok) := by
  induction ps generalizing before with
  | nil =>
    exact yields_bind (yields_tacit rfl) fun _ hnil => yields_pure (lined_append.2 ⟨hb, hnil⟩)
  | cons p ps ih =>
    unfold script
    split
    case h_1 heq => cases heq
    case h_2 value heq =>
      cases heq
      exact yields_bind (yields_expr value h.1) fun _ hv => yields_pure (lined_append.2 ⟨hb, hv⟩)
    case h_3 q rest _ heq =>
      cases heq
      exact yields_bind (yields_stmt p h.1) fun _ hp => ih h.2 (lined_append.2 ⟨hb, hp⟩)

end Compile

/-! ### Chunks -/

/-- Each byte of items is in one of them. -/
theorem Block.item_at {items : List Item} {k : Nat} (hk : k < place items) : ∃ before item after,
    items = before ++ item :: after ∧ place before ≤ k ∧ k < place before + item.size := by
  induction items generalizing k with
  | nil => cases hk
  | cons item items ih =>
    by_cases hlt : k < item.size
    · exact ⟨[], item, items, rfl, Nat.zero_le k, by rwa [place_nil, Nat.zero_add]⟩
    · rw [place_cons] at hk
      obtain ⟨before, found, after, rfl, hle, hlt'⟩ := ih (k := k - item.size) (by omega)
      exact ⟨item :: before, found, after, rfl, by rw [place_cons]; omega, by rw [place_cons]; omega⟩

/-- **The line of a byte** is as it should be, or 0 at an instruction that is tacit. -/
theorem Chunk.Lined.lineAt? {κ : Type} {c : Chunk κ} (h : c.Lined ok) {k n : Nat}
    (hk : c.lineAt? k = some n) :
    ok n ∨ n = 0 ∧ ∃ i : Instr, i.op.isTacit = true ∧ Instr.decode c.code k = .instr i := by
  obtain ⟨b, constants, names, rfl, hb⟩ := h
  have hlt : k < place b.toList := by
    have hsize := (Array.getElem?_eq_some_iff.1 hk).1
    rwa [lines_toChunk, List.size_toArray, length_byteLines] at hsize
  obtain ⟨before, item, after, hitems, hle, hlt⟩ := item_at hlt
  have hline := lineAt?_toChunk constants names hitems (k := k - place before) (by omega)
  rw [Nat.add_sub_cancel' hle, hk] at hline
  obtain rfl := Option.some.inj hline
  refine (hb item (Array.mem_toList_iff.1 (hitems ▸ by simp))).imp_right fun ⟨hzero, htacit⟩ =>
    ⟨hzero, item.toInstr, htacit, ?_⟩
  cases item with
  | exit line => cases htacit
  | instr i line =>
    -- A tacit instruction has no operand, so that its first byte is all there is.
    have hsize : i.size = 1 ∧ i.Writable := by
      obtain ⟨op, operand⟩ := i
      cases op <;> first | exact ⟨rfl, trivial⟩ | cases htacit
    obtain rfl : k = place before := by
      have : (Item.instr i line).size = 1 := hsize.1
      omega
    exact decode_toChunk constants names hitems hsize.2

open Compile in
/-- **The chunks of a program** have the lines of its nodes. -/
theorem Compiled.lined_ofProgram {p : Program} {c : Compiled} (hp : Stmt.AllPlaced ok p.statements)
    (h : Compiled.ofProgram p = .ok c) : ∀ chunk ∈ c.chunks, chunk.Lined ok := by
  have hprogram : Yields ok (program p : Step Block) (Block.Lined ok) :=
    yields_bind (yields_script p.statements hp lined_empty) fun _ hb =>
      yields_bind (yields_tacit rfl) fun _ hreturn => yields_pure (lined_append.2 ⟨hb, hreturn⟩)
  unfold Compiled.ofProgram at h
  cases hrun : (program p : Step Block).run (.start #[]) with
  | error e =>
    rw [hrun] at h
    cases h
  | ok r =>
    rw [hrun] at h
    cases h
    obtain ⟨hs, hb⟩ := hprogram _ r.1 r.2 (fun f hf => (Array.not_mem_empty f hf).elim) hrun
    refine List.forall_mem_cons.2 ⟨⟨_, _, _, rfl, hb⟩, fun chunk hchunk => ?_⟩
    obtain ⟨f, hf, rfl⟩ := List.mem_map.1 hchunk
    exact hs f (Array.mem_toList_iff.1 hf)

/-- **The chunks of a source** have its lines. -/
theorem Compiled.lined_ofSource {source : String} {c : Compiled} (h : Compiled.ofSource source = .ok c) :
    ∀ chunk ∈ c.chunks, chunk.Lined (LineOf source) := by
  obtain ⟨p, hp, hc⟩ := Compiled.of_ofSource h
  exact lined_ofProgram (Program.placed_ofSource hp) hc

end DeployScript
