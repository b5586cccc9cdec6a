import DeployScript.Proofs.Code.Chains
import DeployScript.Proofs.Code.Counting
import DeployScript.Proofs.Code.Sequences
import DeployScript.Proofs.Code.Stores

/-!
# Code that is written at once is code that is put together

The code of a program that is written in one pass, with each jump filled in when its end is there, is that of
the blocks. For an expression this is an equation. A statement may be in a loop, and the jumps out of the loop
have no distance in its block: there the code so far has all of them with a distance to be filled in, and the
places of these are those of the open jumps in the block.

* `Compile.writeExpr_eq`, `Compile.writeChain_writeExpr` — expressions, and chains by the loop over their links.
* `Compile.sized_expr` — the block of an expression has no open jump, and its bytes are counted.
* `Compile.Puts` — a block is written, from any state in which the code so far is counted. `Compile.Awaits` is
  a block with a jump behind it that waits for its distance.
* `Compile.land_exits` — filling in the jumps out of a loop closes its block.
* `Compile.puts_stmt`, `Compiled.inOnePass_eq` — statements and programs.
-/

namespace DeployScript

namespace Compile

open Block

variable {σ α β : Type}

/-! ### Expressions -/

theorem write_nil : write (pure #[] : StepIn σ Block) = pure () := by
  funext ⟨s, c⟩
  rw [write_ok (rfl : (pure #[] : StepIn σ Block) s = .ok (#[], s))]
  rfl

theorem write_throw (e : ScriptError) (f : α → StepIn σ Block) :
    write ((throw e : StepIn σ α) >>= f) = throw e := rfl

/-- The key and the value of a field. -/
theorem write_field (line : Nat) (key : String) (e : Expr) :
    (write (field line (key, e)) : Writing σ Unit) = (do write (emitConstant (.text key) line); write (expr e)) :=
  write_append _ _

mutual

/-- **An expression** is written as its block is. -/
theorem writeExpr_eq : (e : Expr) → (writeExpr e : Writing σ Unit) = write (expr e)
  | .number .. | .text .. | .bool true _ | .bool false _ | .nil _ | .name .. => by rw [writeExpr, expr]
  | .array elements span => by
    rw [writeExpr, expr, writeExprs_eq elements, writeCount, ← write_append]
    simp only [bind_assoc]
  | .record entries span => by
    rw [writeExpr, expr, writeFields_eq entries span.line, writeCount, ← write_append]
    simp only [bind_assoc]
  | .binary left op right span => by
    rw [writeExpr, expr, writeExpr_eq left, writeExpr_eq right, write_append, afterLeft, write_append]
  | .logical left op right span => by
    rw [writeExpr, expr, writeExpr_eq left, writeExpr_eq right, write_append, write_afterDeciding]
  | .unary .neg operand span | .unary .not operand span => by
    rw [writeExpr, expr, writeExpr_eq operand, write_append]
    rfl
  | .call callee args span => by
    rw [writeExpr, expr, writeExpr_eq callee, writeExprs_eq args]
    split
    · rw [exceed, write_throw]
      rfl
    · dsimp only
      split
      · rw [← write_append]
      · rw [← bind_assoc, ← write_append, ← write_append, ← callee_args]
        simp only [bind_assoc]
  | .group inner span => by rw [writeExpr, expr, writeExpr_eq inner]
  | .assign name value span => by rw [writeExpr, expr, writeExpr_eq value, write_append]
  | .get object name span => by
    rw [writeExpr, expr, writeExpr_eq object, writeNamed, ← write_append]
    simp only [bind_assoc]
  | .set object name value span => by
    rw [writeExpr, expr, writeExpr_eq object, writeExpr_eq value, writeNamed, ← bind_assoc, ← write_append,
      ← write_append]
    simp only [bind_assoc, pure_bind]
  | .index object key span => by
    rw [writeExpr, expr, writeExpr_eq object, writeExpr_eq key, ← bind_assoc, ← write_append, ← write_append]
    simp only [bind_assoc, pure_bind]
  | .setIndex object key value span => by
    rw [writeExpr, expr, writeExpr_eq object, writeExpr_eq key, writeExpr_eq value, ← bind_assoc, ← bind_assoc,
      ← write_append, ← write_append, ← write_append]
    simp only [bind_assoc, pure_bind]

theorem writeExprs_eq : (es : List Expr) → (writeExprs es : Writing σ Unit) = write (exprs es #[])
  | [] => by rw [writeExprs, exprs, write_nil]
  | e :: es => by rw [writeExprs, writeExpr_eq e, writeExprs_eq es, exprs_cons, write_append]

theorem writeFields_eq : (es : List (String × Expr)) → (line : Nat) →
    (writeFields es line : Writing σ Unit) = write (fields es line #[])
  | [], line => by rw [writeFields, fields, write_nil]
  | (key, e) :: es, line => by
    rw [writeFields, writeExpr_eq e, writeFields_eq es line, fields_cons, write_append, write_field, bind_assoc]

end

/-- A chain of operators that is written by the loop over its links is written as its block is. -/
theorem writeChain_writeExpr (e : Expr) : writeChain writeExpr e = (write (expr e) : Writing σ Unit) := by
  have hoperand : (writeExpr : Expr → Writing σ Unit) = fun e => write (expr e) := funext writeExpr_eq
  rw [hoperand]
  exact (chain_eq_nested e).2.1

/-! ### Sizes of expressions -/

namespace Sized

theorem writeNamed (instr : UInt16 → Instr) (name : String) (line : Nat) :
    Sized (do Compile.emit (instr (← addName name line)) line : StepIn σ Block) :=
  .behind (.addName name line) fun index => .emit (instr index) line

theorem writeCount (instr : UInt16 → Instr) (count line : Nat) :
    Sized (do Compile.emit (instr (← wide count .literalSize line)) line : StepIn σ Block) :=
  .behind (.wide count _ line) fun count => .emit (instr count) line

/-- The room for a jump is counted before the code that it leads over. -/
theorem jumping {jump : UInt16 → Instr} (hj : Forward jump) {block : StepIn σ Block} (line : Nat)
    (h : Sized block) :
    Sized (do
      reserve jumpSize
      let skipped ← block
      return #[.instr (jump (← distance skipped line)) line] ++ skipped) := by
  intro s b s' hb
  obtain ⟨u, s₁, hreserve, hrest⟩ := bind_eq_ok hb
  obtain ⟨skipped, s₂, hblock, hmeasure⟩ := bind_eq_ok hrest
  obtain ⟨d, s₃, hdistance, hpure⟩ := bind_eq_ok hmeasure
  cases hreserve
  cases hpure
  obtain ⟨hm, hcounts⟩ := h _ _ _ hblock
  have hquiet := Quiet.wide _ _ _ _ _ _ hdistance
  refine ⟨?measured, ?counts⟩
  case measured =>
    rw [Array.toList_append]
    exact (Measured.single _ line).append hm
  case counts =>
    have hroom : Counts s jumpSize { s with current := { s.current with offset := s.current.offset + jumpSize } } :=
      ⟨rfl, rfl⟩
    have hsize : Block.size (#[.instr (jump d) line] ++ skipped) = jumpSize + skipped.size := by
      rw [size_append, size_eq_place #[_], place_cons, place_nil]
      exact congrArg (· + _) (hj.size d)
    rw [hsize]
    exact (hroom.trans hcounts).trans hquiet

theorem afterDeciding {right : StepIn σ Block} (op : LogicalOp) (line : Nat) (h : Sized right) :
    Sized (afterDeciding op right line) := by
  have hjump := jumping (forward_logicalJump op) line (Sized.append (.emit ⟨.pop, ()⟩ line) h)
  unfold Compile.afterDeciding
  simpa only [bind_assoc, pure_bind] using hjump

end Sized

mutual

theorem sized_expr : (e : Expr) → Sized (expr e : StepIn σ Block)
  | .number .. | .text .. => by rw [expr]; exact .emitConstant _ _
  | .bool true _ | .bool false _ | .nil _ => by rw [expr]; exact .emit _ _
  | .name .. => by rw [expr]; exact .readVariable _ _
  | .array elements span => by
    have h := (sized_exprs elements).append (.writeCount (⟨.array, ·⟩) elements.length span.line)
    rw [expr]
    simpa only [bind_assoc] using h
  | .record entries span => by
    have h := (sized_fields entries span.line).append (.writeCount (⟨.record, ·⟩) entries.length span.line)
    rw [expr]
    simpa only [bind_assoc] using h
  | .binary left op right span => by
    rw [expr]
    exact (sized_expr left).append ((sized_expr right).append (.emit _ _))
  | .logical left op right span => by
    rw [expr]
    exact (sized_expr left).append (.afterDeciding op _ (sized_expr right))
  | .unary .neg operand span | .unary .not operand span => by
    rw [expr]
    exact (sized_expr operand).append (.emit _ _)
  | .call callee args span => by
    rw [expr]
    split
    · exact .throw _
    · dsimp only
      split
      · exact (sized_exprs args).append (.emit _ _)
      · have h := ((sized_expr callee).append (sized_exprs args)).append
          (.emit ⟨.call, UInt8.ofNat args.length⟩ span.line)
        rw [← callee_args] at h
        simpa only [bind_assoc] using h
  | .group inner span => by rw [expr]; exact sized_expr inner
  | .assign name value span => by
    rw [expr]
    exact (sized_expr value).append (.writeVariable name span)
  | .get object name span => by
    have h := (sized_expr object).append (.writeNamed (⟨.getProperty, ·⟩) name span.line)
    rw [expr]
    simpa only [bind_assoc] using h
  | .set object name value span => by
    have h := ((sized_expr object).append (sized_expr value)).append
      (.writeNamed (⟨.setProperty, ·⟩) name span.line)
    rw [expr]
    simpa only [bind_assoc, pure_bind] using h
  | .index object key span => by
    have h := ((sized_expr object).append (sized_expr key)).append (.emit ⟨.index, ()⟩ span.line)
    rw [expr]
    simpa only [bind_assoc, pure_bind] using h
  | .setIndex object key value span => by
    have h := (((sized_expr object).append (sized_expr key)).append (sized_expr value)).append
      (.emit ⟨.setIndex, ()⟩ span.line)
    rw [expr]
    simpa only [bind_assoc, pure_bind] using h

theorem sized_exprs : (es : List Expr) → Sized (exprs es #[] : StepIn σ Block)
  | [] => by rw [exprs]; exact .nil
  | e :: es => by rw [exprs_cons]; exact (sized_expr e).append (sized_exprs es)

theorem sized_fields : (es : List (String × Expr)) → (line : Nat) →
    Sized (fields es line #[] : StepIn σ Block)
  | [], line => by rw [fields]; exact .nil
  | (key, e) :: es, line => by
    rw [fields_cons]
    exact (Sized.append (.emitConstant _ _) (sized_expr e)).append (sized_fields es line)

end

/-! ### Jumps out of a loop -/

/-- The places of the distances of the jumps out of a loop, in code that starts at a place. -/
def exits : (start : Nat) → List Item → List Nat
  | _, [] => []
  | start, .instr i _ :: rest => exits (start + i.size) rest
  | start, .exit _ :: rest => (start + 1) :: exits (start + jumpSize) rest

theorem exits_append (start : Nat) (items rest : List Item) :
    exits start (items ++ rest) = exits start items ++ exits (start + place items) rest := by
  induction items generalizing start with
  | nil => rfl
  | cons item items ih =>
    rw [place_cons, ← Nat.add_assoc]
    cases item with
    | instr i line => exact ih _
    | exit line => exact congrArg _ (ih _)

theorem exits_of_measured {items : List Item} (h : Measured items) (start : Nat) : exits start items = [] := by
  induction items generalizing start with
  | nil => rfl
  | cons item items ih =>
    obtain ⟨i, line, rfl⟩ := h item List.mem_cons_self
    exact ih (fun item hi => h item (List.mem_cons_of_mem _ hi)) _

/-- The jumps out of the innermost loop, with those of a block behind some code. -/
def keep (open_ : List (List Nat)) (c : Chunk Literal) (b : Block) : List (List Nat) :=
  open_.modifyHead (· ++ exits c.code.size b.toList)

theorem keep_of_measured {b : Block} (h : Measured b.toList) (open_ : List (List Nat)) (c : Chunk Literal) :
    keep open_ c b = open_ := by
  cases open_ with
  | nil => rfl
  | cons places rest => simp [keep, exits_of_measured h]

theorem keep_append (open_ : List (List Nat)) (c : Chunk Literal) (a b : Block) :
    keep (keep open_ c a) (c.extend a) b = keep open_ c (a ++ b) := by
  cases open_ with
  | nil => rfl
  | cons places rest => simp [keep, exits_append, size_extend, size_eq_place]

/-! ### Steps side by side -/

variable {γ δ : Type} {s : State σ} {c : Chunk Literal} {open_ : List (List Nat)}

/-- The code that is counted is there. -/
def Counted (s : State σ) (c : Chunk Literal) : Prop := s.current.offset = c.code.size

theorem Counted.extend {b : Block} {s' : State σ} (h : Counted s c) (hb : Counts s b.size s') :
    Counted s' (c.extend b) := by
  rw [Counted, size_extend, hb.current, h]

/-- Steps side by side, and what comes behind them. -/
theorem corresponds_bind {R : α × State σ → (γ × List (List Nat)) × State σ × Chunk Literal → Prop}
    {Q : β × State σ → (δ × List (List Nat)) × State σ × Chunk Literal → Prop} {x : StepIn σ α}
    {f : α → StepIn σ β} {w : Breaking σ γ} {g : γ → Breaking σ δ}
    (h : Corresponds R (x s) (w open_ (s, c)))
    (hf : ∀ r q, R r q → Corresponds Q (f r.1 r.2) (g q.1.1 q.1.2 q.2)) :
    Corresponds Q ((x >>= f) s) ((w >>= g) open_ (s, c)) :=
  h.bind hf

/-- A step that ends what is written. -/
theorem corresponds_last {R : α × State σ → δ → Prop} {Q : β × State σ → δ → Prop} {x : StepIn σ α}
    {f : α → StepIn σ β} {result : Except ScriptError δ} (h : Corresponds R (x s) result)
    (hf : ∀ r q, R r q → Corresponds Q (f r.1 r.2) (.ok q)) : Corresponds Q ((x >>= f) s) result := by
  have hall := h.bind hf
  cases result with
  | error e => exact hall
  | ok q => exact hall

theorem plainly_ok {w : Writing σ α} {a : α} {p : State σ × Chunk Literal} (h : w (s, c) = .ok (a, p)) :
    plainly w open_ (s, c) = .ok ((a, open_), p) := by
  change (w (s, c) >>= fun r => .ok ((r.1, open_), r.2)) = _
  rw [h]
  rfl

theorem plainly_error {w : Writing σ α} {e : ScriptError} (h : w (s, c) = .error e) :
    plainly w open_ (s, c) = .error e := by
  change (w (s, c) >>= fun r => .ok ((r.1, open_), r.2)) = _
  rw [h]
  rfl

theorem breaking_bind_ok {w : Breaking σ γ} {g : γ → Breaking σ δ} {a : γ} {open' : List (List Nat)}
    {p p' : State σ × Chunk Literal} (h : w open_ p = .ok ((a, open'), p')) :
    (w >>= g) open_ p = g a open' p' := by
  change (w open_ p >>= fun q => g q.1.1 q.1.2 q.2) = _
  rw [h]
  rfl

theorem breaking_bind_error {w : Breaking σ γ} {g : γ → Breaking σ δ} {e : ScriptError}
    {p : State σ × Chunk Literal} (h : w open_ p = .error e) : (w >>= g) open_ p = .error e := by
  change (w open_ p >>= fun q => g q.1.1 q.1.2 q.2) = _
  rw [h]
  rfl

/-- A step that writes nothing, beside itself. -/
theorem corresponds_silently {x : StepIn σ α} (hx : Quiet x) (open_ : List (List Nat)) (s : State σ)
    (c : Chunk Literal) :
    Corresponds (fun r q => Counts s 0 r.2 ∧ q = ((r.1, open_), r.2, c)) (x s) (silently x open_ (s, c)) := by
  change Corresponds _ (x s) ((x s).map (fun r => (r.1, (r.2, c))) >>= fun q => .ok ((q.1, open_), q.2))
  cases hr : x s with
  | error e => exact .error e
  | ok r => exact .ok ⟨hx s r.1 r.2 hr, rfl⟩

/-! ### Statements -/

/-- **A block is there:** its code is behind the other code, and the jumps out of the innermost loop are kept. -/
inductive Left (open_ : List (List Nat)) (s : State σ) (c : Chunk Literal) :
    Block × State σ → (Unit × List (List Nat)) × State σ × Chunk Literal → Prop
  | of {b : Block} {s' : State σ} (hs : Counts s b.size s') :
    Left open_ s c (b, s') (((), keep open_ c b), s', c.extend b)

/-- **A block is written:** from any state in which the code is counted, with the same result. -/
def Puts (w : Breaking σ Unit) (block : StepIn σ Block) : Prop :=
  ∀ open_ s c, Counted s c → Corresponds (Left open_ s c) (block s) (w open_ (s, c))

namespace Puts

variable {v w : Breaking σ Unit} {first second block : StepIn σ Block}

theorem put (h : Sized block) : Puts (put block) block := by
  intro open_ s c hc
  cases hb : block s with
  | error e =>
    rw [Compile.put, plainly_error (write_error hb)]
    exact .error e
  | ok r =>
    obtain ⟨hm, hs⟩ := h s r.1 r.2 hb
    have hleft : Left open_ s c (r.1, r.2) _ := .of hs
    rw [keep_of_measured hm] at hleft
    rw [Compile.put, plainly_ok (write_ok hb)]
    exact .ok hleft

theorem nil : Puts (pure ()) (pure #[] : StepIn σ Block) := by
  intro open_ s c hc
  have hleft : Left open_ s c (#[], s) _ := .of (.refl s)
  rw [keep_of_measured .nil] at hleft
  exact .ok hleft

theorem throw (e : ScriptError) : Puts (MonadExcept.throw e) (MonadExcept.throw e : StepIn σ Block) :=
  fun _ _ _ _ => .error e

/-- Blocks behind each other. -/
theorem seq (hv : Puts v first) (hw : Puts w second) :
    Puts (do v; w) (do return (← first) ++ (← second)) := by
  intro open_ s c hc
  refine corresponds_bind (hv open_ s c hc) ?_
  rintro _ _ ⟨hs⟩
  refine corresponds_last (hw _ _ _ (hc.extend hs)) ?_
  rintro _ _ ⟨hs'⟩
  rw [keep_append, ← extend_append]
  refine .ok (.of ?_)
  rw [size_append]
  exact hs.trans hs'

/-- A step without code in front. -/
theorem silently {x : StepIn σ α} {f : α → StepIn σ Block} {g : α → Breaking σ Unit} (hx : Quiet x)
    (h : ∀ a, Puts (g a) (f a)) : Puts (silently x >>= g) (x >>= f) := by
  intro open_ s c hc
  refine corresponds_bind (corresponds_silently hx open_ s c) ?_
  rintro ⟨a, s₁⟩ _ ⟨hs, rfl⟩
  refine (h a open_ s₁ c (hs.current.trans hc)).imp ?_
  rintro _ _ ⟨hs'⟩
  refine .of ?_
  have hall := hs.trans hs'
  rwa [Nat.zero_add] at hall

/-- A step without code behind. -/
theorem silentlyBehind {x : StepIn σ Unit} (hw : Puts w block) (hx : Quiet x) :
    Puts (do w; Compile.silently x) (do let b ← block; x; return b) := by
  intro open_ s c hc
  refine corresponds_bind (hw open_ s c hc) ?_
  rintro _ _ ⟨hs⟩
  refine corresponds_last (corresponds_silently hx _ _ _) ?_
  rintro ⟨u, s₂⟩ _ ⟨hs', rfl⟩
  exact .ok (.of (hs.trans hs'))

end Puts

/-! ### Jumps that wait -/

/-- A block is there, and behind it a jump that has no distance yet. -/
inductive Waiting (open_ : List (List Nat)) (s : State σ) (c : Chunk Literal) (jump : UInt16 → Instr)
    (line : Nat) : Block × State σ → (Nat × List (List Nat)) × State σ × Chunk Literal → Prop
  | of {b : Block} {s' : State σ} (hs : Counts s (b.size + jumpSize) s') :
    Waiting open_ s c jump line (b, s')
      (((c.extend b).code.size + 1, keep open_ c b), s', (c.extend b).extend #[.instr (jump 0xFFFF) line])

/-- **A block with a jump behind it that waits:** what is written gives the place of its distance. -/
def Awaits (v : Breaking σ Nat) (before : StepIn σ Block) (jump : UInt16 → Instr) (line : Nat) : Prop :=
  ∀ open_ s c, Counted s c → Corresponds (Waiting open_ s c jump line) (before s) (v open_ (s, c))

theorem Forward.size_single {jump : UInt16 → Instr} (hj : Forward jump) (d : UInt16) (line : Nat) :
    Block.size #[.instr (jump d) line] = jumpSize := by
  rw [size_eq_place, place_cons, place_nil]
  exact hj.size d

theorem Forward.counted_extend {jump : UInt16 → Instr} (hj : Forward jump) {a : Block} {s₁ : State σ}
    {line : Nat} {d : UInt16} (hc : Counted s c) (hs : Counts s (a.size + jumpSize) s₁) :
    Counted s₁ ((c.extend a).extend #[.instr (jump d) line]) := by
  rw [Counted, size_extend, size_extend, hj.size_single, hs.current, hc, Nat.add_assoc]

theorem Forward.jumpOver_eq {jump : UInt16 → Instr} (hj : Forward jump) (line : Nat) (s : State σ)
    (c : Chunk Literal) (open_ : List (List Nat)) :
    ∃ s', reserve jumpSize s = .ok ((), s') ∧ jumpOver jump line open_ (s, c) =
      .ok ((c.code.size + 1, open_), s', c.extend #[.instr (jump 0xFFFF) line]) := by
  obtain ⟨s', hreserve, hjump⟩ := hj.writeJump_eq line s c
  exact ⟨s', hreserve, plainly_ok hjump⟩

section Land

variable {jump : UInt16 → Instr} {b : Block} {line : Nat}

theorem Forward.land_eq (hj : Forward jump) (open_ : List (List Nat)) (s : State σ) (c : Chunk Literal)
    (line : Nat) (b : Block) (line' : Nat) :
    land (c.code.size + 1) line' open_ (s, (c.extend #[.instr (jump 0xFFFF) line]).extend b) =
      (wide? b.size).elim (.error (.ofLimit .jumpDistance line')) fun d =>
        .ok (((), open_), s, (c.extend #[.instr (jump d) line]).extend b) := by
  have hpatch := hj.patchJump?_extend c line b
  cases hd : wide? b.size with
  | none =>
    rw [hd] at hpatch
    refine plainly_error ?_
    rw [patch, hpatch]
  | some d =>
    rw [hd] at hpatch
    refine plainly_ok ?_
    rw [patch, hpatch]

/-- The distance of a jump does not matter to the jumps out of a loop behind it. -/
theorem Forward.keep_extend (hj : Forward jump) (a b : Block) (d : UInt16) :
    keep (keep open_ c a) ((c.extend a).extend #[.instr (jump 0xFFFF) line]) b =
      keep open_ c (a ++ #[.instr (jump d) line] ++ b) := by
  have hsize : ((c.extend a).extend #[.instr (jump 0xFFFF) line]).code.size =
      (c.extend (a ++ #[.instr (jump d) line])).code.size := by
    rw [extend_append]
    simp only [size_extend, hj.size_single]
  rw [← keep_append, ← keep_append, keep_of_measured (.single (jump d) line)]
  unfold keep
  rw [hsize]

end Land

namespace Awaits

variable {v : Breaking σ Nat} {w : Breaking σ Unit} {before block : StepIn σ Block}
  {jump jump' : UInt16 → Instr} {line : Nat}

/-- A jump is written behind a block. -/
theorem start (hw : Puts w block) (hj : Forward jump) (line : Nat) :
    Awaits (do w; jumpOver jump line) (do let b ← block; reserve jumpSize; return b) jump line := by
  intro open_ s c hc
  refine corresponds_bind (hw open_ s c hc) ?_
  rintro ⟨b, s₁⟩ _ ⟨hs⟩
  obtain ⟨s₂, hreserve, hjump⟩ := hj.jumpOver_eq line s₁ (c.extend b) (keep open_ c b)
  dsimp only
  rw [run_bind_ok hreserve, hjump]
  exact .ok (.of (hs.trans (counts_reserve hreserve)))

/-- **The jump leads behind a second block.** -/
theorem land (hv : Awaits v before jump line) (hj : Forward jump) (hw : Puts w block) :
    Puts (do let place ← v; w; land place line) (do
      let a ← before
      let b ← block
      return a ++ #[.instr (jump (← distance b line)) line] ++ b) := by
  intro open_ s c hc
  refine corresponds_bind (hv open_ s c hc) ?_
  rintro _ _ ⟨hs⟩
  rename_i a s₁
  refine corresponds_bind (hw _ s₁ _ (hj.counted_extend hc hs)) ?_
  rintro _ _ ⟨hs'⟩
  rename_i b s₂
  change Corresponds _ ((wide b.size .jumpDistance line >>= _) s₂) (Compile.land _ line _ _)
  rw [hj.land_eq, wide]
  cases wide? b.size with
  | none => exact .error _
  | some d =>
    dsimp only [Option.elim]
    rw [hj.keep_extend a b d, ← extend_append c a, ← extend_append c]
    refine .ok (.of ?_)
    rw [size_append, size_append, hj.size_single]
    exact hs.trans hs'

/-- **The jump leads behind a second block and another jump,** which waits. -/
theorem landBehind (hv : Awaits v before jump line) (hj : Forward jump) (hw : Puts w block)
    (hj' : Forward jump') :
    Awaits (do let place ← v; w; let next ← jumpOver jump' line; Compile.land place line; return next) (do
      let a ← before
      let b ← block
      reserve jumpSize
      let d ← wide (b.size + jumpSize) .jumpDistance line
      return a ++ #[.instr (jump d) line] ++ b) jump' line := by
  intro open_ s c hc
  refine corresponds_bind (hv open_ s c hc) ?_
  rintro _ _ ⟨hs⟩
  rename_i a s₁
  refine corresponds_bind (hw _ s₁ _ (hj.counted_extend hc hs)) ?_
  rintro _ _ ⟨hs'⟩
  rename_i b s₂
  obtain ⟨s₃, hreserve, hjump⟩ := hj'.jumpOver_eq line s₂
    (((c.extend a).extend #[.instr (jump 0xFFFF) line]).extend b)
    (keep (keep open_ c a) ((c.extend a).extend #[.instr (jump 0xFFFF) line]) b)
  -- The first jump leads over the second one, too.
  have hover : Block.size (b ++ #[.instr (jump' 0xFFFF) line]) = b.size + jumpSize := by
    rw [size_append, hj'.size_single]
  dsimp only
  rw [breaking_bind_ok hjump, run_bind_ok hreserve, ← extend_append _ b, ← hover]
  cases hd : wide? (Block.size (b ++ #[.instr (jump' 0xFFFF) line])) with
  | none =>
    rw [wide, hd, breaking_bind_error (by rw [hj.land_eq, hd]; rfl)]
    exact .error _
  | some d =>
    rw [wide, hd, breaking_bind_ok (by rw [hj.land_eq, hd]; rfl), hj.keep_extend a b d]
    have hcounts : Counts s (Block.size (a ++ #[.instr (jump d) line] ++ b) + jumpSize) s₃ := by
      rw [size_append, size_append, hj.size_single]
      exact (hs.trans hs').trans (counts_reserve hreserve)
    have hplace : (((c.extend a).extend #[.instr (jump 0xFFFF) line]).extend b).code.size =
        (c.extend (a ++ #[.instr (jump d) line] ++ b)).code.size := by
      simp only [size_extend, size_append, hj.size_single, Nat.add_assoc]
    have hchunk : ((c.extend a).extend #[.instr (jump d) line]).extend (b ++ #[.instr (jump' 0xFFFF) line]) =
        (c.extend (a ++ #[.instr (jump d) line] ++ b)).extend #[.instr (jump' 0xFFFF) line] := by
      simp only [extend_append]
    rw [hplace, hchunk]
    exact .ok (.of hcounts)

end Awaits

/-! ### Loops -/

/-- The items with the jumps out of a loop measured. -/
def closeItems : List Item → Option (List Item)
  | [] => some []
  | .instr i line :: rest => (closeItems rest).map (.instr i line :: ·)
  | .exit line :: rest => do
    let d ← wide? (place rest)
    let closed ← closeItems rest
    return .instr ⟨.jump, d⟩ line :: closed

theorem closeLoop?_eq_closeItems (b : Block) : b.closeLoop? = (closeItems b.toList).map List.toArray := by
  -- The fold carries what is left of the code, which is the place behind the items that are still to come.
  have hfold : ∀ (items : List Item) (before : Block),
      (items.foldlM closeItem (before, place items)).map (·.1) =
        (closeItems items).map fun closed => before ++ closed.toArray := by
    intro items
    induction items with
    | nil => intro before; simp [closeItems]
    | cons item items ih =>
      intro before
      rw [List.foldlM_cons, place_cons]
      cases item with
      | instr i line =>
        have hrest := ih (before.push (.instr i line))
        simp only [closeItem, Item.size, Nat.add_sub_cancel_left, Option.bind_eq_bind, Option.bind_some]
        rw [hrest, closeItems, Option.map_map]
        refine congrArg (Option.map · _) (funext fun closed => ?_)
        simp
      | exit line =>
        simp only [closeItem, Item.size, Nat.add_sub_cancel_left]
        rw [closeItems]
        cases wide? (place items) with
        | none => rfl
        | some d =>
          have hrest := ih (before.push (.instr ⟨.jump, d⟩ line))
          simp only [Option.map_some, Option.bind_eq_bind, Option.bind_some]
          rw [hrest]
          cases closeItems items with
          | none => rfl
          | some closed => simp
  have hall := hfold b.toList #[]
  rw [closeLoop?_eq, ← Array.foldlM_toList, size_eq_place, hall]
  simp

/-- Code behind an item of a block is behind the block of the item. -/
theorem extend_cons (c : Chunk Literal) (item : Item) (items : List Item) :
    c.extend (item :: items).toArray = (c.extend #[item]).extend items.toArray := by
  rw [← extend_append]
  simp

/-- **The jumps out of a loop get their distances** when its end is there. -/
theorem land_exits (items : List Item) (line : Nat) (s : State σ) (c : Chunk Literal)
    (open_ : List (List Nat)) :
    (forM (exits c.code.size items) fun place => (land place line : Breaking σ Unit)) open_
        (s, c.extend items.toArray) =
      (closeItems items).elim (.error (.ofLimit .jumpDistance line)) fun closed =>
        .ok (((), open_), s, c.extend closed.toArray) := by
  induction items generalizing c with
  | nil => rfl
  | cons item items ih =>
    rw [extend_cons c item items]
    cases item with
    | instr i iline =>
      have hsize : (c.extend #[.instr i iline]).code.size = c.code.size + i.size := by
        rw [size_extend, size_eq_place, place_cons, place_nil]
        rfl
      have hrest := ih (c.extend #[.instr i iline])
      rw [hsize] at hrest
      -- An instruction has nothing to be filled in: the places behind it are those of the rest.
      rw [exits, hrest, closeItems]
      cases closeItems items with
      | none => rfl
      | some closed =>
        rw [Option.map_some, Option.elim_some, Option.elim_some, extend_cons c _ closed]
    | exit eline =>
      have hland := forward_jump.land_eq open_ s c eline items.toArray line
      rw [size_eq_place, List.toList_toArray] at hland
      rw [exits, List.forM_cons, closeItems]
      -- The first jump is filled in, and those behind it in the code that has it.
      cases hd : wide? (place items) with
      | none =>
        rw [hd] at hland
        exact breaking_bind_error hland
      | some d =>
        rw [hd] at hland
        have hsize : (c.extend #[.instr ⟨.jump, d⟩ eline]).code.size = c.code.size + jumpSize := by
          rw [size_extend, forward_jump.size_single]
        have hrest := ih (c.extend #[.instr ⟨.jump, d⟩ eline])
        rw [hsize] at hrest
        refine (breaking_bind_ok hland).trans (hrest.trans ?_)
        cases closeItems items with
        | none => rfl
        | some closed => exact congrArg (fun c => Except.ok (((), open_), s, c)) (extend_cons c _ closed).symm

theorem measured_closeItems {items closed : List Item} (h : closeItems items = some closed) :
    Measured closed ∧ place closed = place items := by
  have hclosed : Block.closeLoop? items.toArray = some closed.toArray := by
    rw [closeLoop?_eq_closeItems, List.toList_toArray, h]
    rfl
  have hcloses := closes_of_closeLoop? hclosed
  exact ⟨hcloses.measured, hcloses.place_eq⟩

/-- The state at the start of a loop. -/
def State.insideLoop (start : Nat) (s : State σ) : State σ :=
  { s with current := { s.current with loops := { start, depth := s.current.depth } :: s.current.loops } }

/-- The state behind the innermost loop. -/
def State.behindLoop (s : State σ) : State σ :=
  { s with current := { s.current with loops := s.current.loops.tail } }

/-- Measures the jumps out of a loop. -/
def closing (line : Nat) (code : Block) : StepIn σ Block :=
  match code.closeLoop? with
  | some closed => return closed
  | none => exceed .jumpDistance line

theorem closing_eq (line : Nat) (code : Block) (s : State σ) :
    closing line code s = (closeItems code.toList).elim (.error (.ofLimit .jumpDistance line)) fun closed =>
      .ok (closed.toArray, s) := by
  rw [closing, closeLoop?_eq_closeItems]
  cases closeItems code.toList with
  | none => rfl
  | some closed => rfl

theorem withLoop_eq (line : Nat) (round : Nat → StepIn σ Block) (s : State σ) :
    withLoop line round s = (do
      let code ← round s.current.offset
      modify State.behindLoop
      closing line code) (s.insideLoop s.current.offset) :=
  rfl

theorem writeInLoop_eq (line : Nat) (round : Nat → Breaking σ Unit) (open_ : List (List Nat)) (s : State σ)
    (c : Chunk Literal) :
    writeInLoop line round open_ (s, c) = (do
      round c.code.size
      silently (modify State.behindLoop)
      let exits ← get
      set exits.tail
      forM (exits.headD []) fun place => land place line) ([] :: open_) (s.insideLoop c.code.size, c) :=
  rfl

namespace Puts

variable {v w : Breaking σ Unit} {block : StepIn σ Block} {line : Nat}

/-- **A loop** is closed when it is there. -/
theorem inLoop {round : Nat → StepIn σ Block} {writeRound : Nat → Breaking σ Unit}
    (h : ∀ start, Puts (writeRound start) (round start)) :
    Puts (writeInLoop line writeRound) (withLoop line round) := by
  intro open_ s c hc
  -- The loop starts where the count is, and this is where the code is: `hc`.
  rw [withLoop_eq, writeInLoop_eq, show s.current.offset = c.code.size from hc]
  refine corresponds_bind (h c.code.size ([] :: open_) (s.insideLoop c.code.size) c hc) ?_
  rintro _ _ ⟨hs⟩
  rename_i code s₁
  -- The round has kept the places of its jumps out, and no others: the list was empty at its start.
  have hland := land_exits code.toList line s₁.behindLoop c open_
  rw [Array.toArray_toList] at hland
  change Corresponds _ (closing line code s₁.behindLoop)
    ((forM (exits c.code.size code.toList) fun place => (Compile.land place line : Breaking σ Unit)) open_
      (s₁.behindLoop, c.extend code))
  rw [hland, closing_eq]
  cases hclosed : closeItems code.toList with
  | none => exact .error _
  | some closed =>
    obtain ⟨hm, hsize⟩ := measured_closeItems hclosed
    have hcounts : Counts s (Block.size closed.toArray) s₁.behindLoop := by
      rw [size_eq_place, List.toList_toArray, hsize, ← size_eq_place]
      exact ⟨hs.current, hs.enclosing⟩
    have hleft : Left open_ s c (closed.toArray, s₁.behindLoop) _ := .of hcounts
    rw [keep_of_measured hm] at hleft
    exact .ok hleft

/-- A jump back is counted from the code that is there. -/
theorem jumpBack (start line : Nat) : Puts (jumpBack start line) (emitLoop start line : StepIn σ Block) := by
  intro open_ s c hc
  have hback : emitLoop start line s =
      (do emit ⟨.loop, ← wide (c.code.size + 1 + 2 - start) .loopBody line⟩ line : StepIn σ Block) s := by
    rw [← show s.current.offset = c.code.size from hc]
    rfl
  rw [hback]
  exact put (.behind (.wide _ _ line) fun _ => .emit _ line) open_ s c hc

/-- A jump out of the innermost loop is kept. -/
theorem jumpOut (line : Nat) :
    Puts (jumpOut line) (do reserve jumpSize; return #[.exit line] : StepIn σ Block) := by
  intro open_ s c hc
  obtain ⟨s₁, hreserve, hjump⟩ := forward_jump.jumpOver_eq line s c open_
  have hleft : Left open_ s c (#[.exit line], s₁) _ := .of (counts_reserve hreserve)
  rw [run_bind_ok hreserve, Compile.jumpOut, breaking_bind_ok hjump]
  exact .ok hleft

theorem inBlock (h : Puts w block) : Puts (writeInBlock w) (withBlock block) := by
  have hend : Puts (do
      Compile.silently (modifyScope fun s => { s with depth := s.depth - 1 })
      let depth := (← Compile.silently scope).depth
      Compile.put (unwind depth 0)
      Compile.silently (modifyScope (·.dropDeeper depth))) (do
      modifyScope fun s => { s with depth := s.depth - 1 }
      let depth := (← scope).depth
      let unwinding ← unwind depth 0
      modifyScope (·.dropDeeper depth)
      return unwinding : StepIn σ Block) :=
    silently (.modifyScope fun _ => rfl) fun _ => silently .scope fun s =>
      silentlyBehind (put (.unwind s.depth 0)) (.modifyScope fun _ => rfl)
  have hall := silently (x := modifyScope fun s => { s with depth := s.depth + 1 }) (.modifyScope fun _ => rfl)
    fun _ => h.seq hend
  simpa only [writeInBlock, withBlock, bind_assoc, pure_bind] using hall

theorem pop (line : Nat) : Puts (Compile.put (emit ⟨.pop, ()⟩ line)) (emit ⟨.pop, ()⟩ line : StepIn σ Block) :=
  put (.emit _ line)

theorem whileLoop {condition body : StepIn σ Block} {writeCondition writeBody : Breaking σ Unit}
    (hcondition : Puts writeCondition condition) (hbody : Puts writeBody body) (line : Nat) :
    Puts (writeWhile writeCondition writeBody line) (whileLoop condition body line) := by
  refine inLoop fun start => ?_
  have hskipped := ((pop line).seq hbody).seq (jumpBack start line)
  have hexit := (Awaits.start hcondition forward_jumpIfFalse line).land forward_jumpIfFalse hskipped
  have hround := hexit.seq (pop line)
  simpa only [bind_assoc, pure_bind] using hround

theorem nextIndex (container index line : Nat) :
    Puts (writeNextIndex container index line) (nextIndex container index line : StepIn σ Block) := by
  have hread (slot : Nat) : Puts (Compile.put (readSlot slot line)) (readSlot slot line : StepIn σ Block) :=
    put (.readSlot slot line)
  have hcount := (((hread index).seq (put (.emitConstant (.number 1) line))).seq
    (put (.emit ⟨.add, ()⟩ line))).seq (put (.moveToSlot index line))
  have hlength := (hread container).seq (put (.emit ⟨.len, ()⟩ line))
  have hall := ((hcount.seq hlength).seq (hread index)).seq (put (.emit ⟨.gt, ()⟩ line))
  simpa only [writeNextIndex, Compile.nextIndex, bind_assoc, pure_bind] using hall

theorem element (container index element line : Nat) :
    Puts (writeElement container index element line)
      (takeElement container index element line : StepIn σ Block) := by
  have hoperands := (put (σ := σ) (.readSlot container line)).seq (put (.readSlot index line))
  have hall := (hoperands.seq (put (.emit ⟨.index, ()⟩ line))).seq (put (.moveToSlot element line))
  simpa only [writeElement, takeElement, bind_assoc, pure_bind] using hall

theorem forLoop {iterable body : StepIn σ Block} {writeIterable writeBody : Breaking σ Unit} (name : String)
    (hiterable : Puts writeIterable iterable) (hbody : Puts writeBody body) :
    Puts (writeFor name writeIterable writeBody line) (forLoop name iterable body line) := by
  have hloop (container index element : Nat) :=
    (nextIndex container index line).whileLoop ((Puts.element container index element line).seq hbody) line
  have hslots := hiterable.seq (silently (.declareSlot "__iter__" false) fun container =>
    (put (.emitConstant (.number (-1)) line)).seq (silently (.declareSlot "__idx__" true) fun index =>
      (put (.emit ⟨.nil, ()⟩ line)).seq (silently (.declareSlot name true) fun element =>
        hloop container index element)))
  have hall := inBlock hslots
  unfold writeFor Compile.forLoop
  simpa only [bind_assoc, pure_bind, Array.append_assoc] using hall

theorem conditional {condition body orElse : StepIn σ Block} {writeCondition writeBody writeElse : Breaking σ Unit}
    (hcondition : Puts writeCondition condition) (hbody : Puts writeBody body) (helse : Puts writeElse orElse) :
    Puts (writeConditional writeCondition writeBody writeElse line) (conditional condition body orElse line) := by
  have hfirst := (Awaits.start hcondition forward_jumpIfFalse line).landBehind forward_jumpIfFalse
    ((pop line).seq hbody) forward_jump
  have hall := hfirst.land forward_jump ((pop line).seq helse)
  unfold writeConditional Compile.conditional
  simpa only [bind_assoc, pure_bind] using hall

end Puts

/-! ### Functions -/

/-- The state in which the body of a function is compiled. -/
def entering (params : List String) (s : State σ) : State σ :=
  { s with
    current := params.foldl (fun f p => f.declare p true) { Scope.start with depth := 1 }
    enclosing := s.current :: s.enclosing }

/-- The function whose code is there. -/
def finished (name : String) (params : List String) (c : Chunk Literal) (s : State σ) : Prototype Literal :=
  { name, params, captures := s.current.captures.size
    chunk := { c with constants := s.current.constants, names := s.current.names } }

/-- The state behind a function. -/
def outside [Store σ] (p : Prototype Literal) (s : State σ) : State σ :=
  { s with
    current := s.enclosing.headD s.current
    enclosing := s.enclosing.tail
    functions := (Store.add p s.functions).2 }

/-- The code that leaves a function with a number on the stack. -/
def closure (number : Nat) (captures : Array Capture) (line : Nat) : StepIn σ Block := do
  let index ← addConstant (.function number) line
  emit ⟨.closure, (index, (captures.map (·.source)).toList)⟩ line

/-- The code of a function, which returns nil at its end. -/
def returning (body : StepIn σ Block) (line : Nat) : StepIn σ Block := do
  return (← body) ++ (← emit ⟨.nil, ()⟩ line) ++ (← emit ⟨.return_, ()⟩ line)

/-- Writes the code of a function. -/
def writeReturning (body : Breaking σ Unit) (line : Nat) : Breaking σ Unit := do
  body
  put (emit ⟨.nil, ()⟩ line)
  put (emit ⟨.return_, ()⟩ line)

theorem Puts.returning {body : StepIn σ Block} {writeBody : Breaking σ Unit} (h : Puts writeBody body)
    (line : Nat) : Puts (writeReturning writeBody line) (returning body line) := by
  have hall := (h.seq (put (.emit ⟨.nil, ()⟩ line))).seq (put (.emit ⟨.return_, ()⟩ line))
  unfold writeReturning Compile.returning
  simpa only [bind_assoc, pure_bind] using hall

theorem toChunk_eq_extend (b : Block) (constants : Array Literal) (names : Array String) :
    b.toChunk constants names = { (Chunk.empty : Chunk Literal).extend b with constants, names } := by
  rw [toChunk_eq, extend_eq]
  simp [Chunk.empty]

theorem function_eq [Store σ] (name : String) {params : List String} (h : params.length ≤ maxParams)
    (body : StepIn σ Block) (line : Nat) (s : State σ) :
    function name params body line s = (do
      let code ← returning body line
      let s ← get
      let p := finished name params (Chunk.empty.extend code) s
      set (outside p s)
      closure (Store.add p s.functions).1 s.current.captures line) (entering params s) := by
  unfold function returning finished
  rw [if_neg (Nat.not_lt.2 h)]
  simp only [toChunk_eq_extend, bind_assoc, pure_bind]
  rfl

theorem writeFunction_eq [Store σ] (name : String) {params : List String} (h : params.length ≤ maxParams)
    (body : Breaking σ Unit) (line : Nat) (open_ : List (List Nat)) (s : State σ) (c : Chunk Literal) :
    writeFunction name params body line open_ (s, c) = (do
      writeReturning body line
      let written ← exchange c
      set open_
      let s ← silently get
      let p := finished name params written s
      silently (set (outside p s))
      put (closure (Store.add p s.functions).1 s.current.captures line)) [] (entering params s, .empty) := by
  unfold writeFunction writeReturning
  rw [if_neg (Nat.not_lt.2 h)]
  simp only [bind_assoc]
  rfl

theorem offset_entering (params : List String) (s : State σ) : (entering params s).current.offset = 0 := by
  have hfold : ∀ (params : List String) (f : Scope),
      (params.foldl (fun f p => f.declare p true) f).offset = f.offset := by
    intro params
    induction params with
    | nil => intro f; rfl
    | cons p params ih => intro f; exact ih _
  exact hfold params _

/-- Behind a function, the count is that of the code around it. -/
theorem counts_outside [Store σ] {params : List String} {size : Nat} {s s₁ : State σ}
    (h : Counts (entering params s) size s₁) (p : Prototype Literal) : Counts s 0 (outside p s₁) := by
  have henclosing : s₁.enclosing.map Scope.offset = s.current.offset :: s.enclosing.map Scope.offset :=
    h.enclosing
  obtain ⟨parent, outer, he, hparent, houter⟩ := List.map_eq_cons_iff.1 henclosing
  refine ⟨?_, ?_⟩
  · rw [outside, he]
    exact hparent
  · rw [outside, he]
    exact houter

/-- **A function** is written in a chunk of its own, and the code around it goes on where it was. -/
theorem Puts.function [Store σ] {body : StepIn σ Block} {writeBody : Breaking σ Unit} (name : String)
    (params : List String) (line : Nat) (h : Puts writeBody body) :
    Puts (writeFunction name params writeBody line) (function name params body line) := by
  intro open_ s c hc
  by_cases hfew : params.length ≤ maxParams
  · -- The body starts in an empty chunk with no loop open, so what is kept of its jumps is nothing.
    rw [function_eq name hfew, writeFunction_eq name hfew]
    refine corresponds_bind (h.returning line [] (entering params s) .empty (offset_entering params s)) ?_
    rintro _ _ ⟨hs⟩
    rename_i code s₁
    -- Behind the body both have the code around it again, as it was.
    let p := finished name params (Chunk.empty.extend code) s₁
    have hsame := counts_outside hs p
    have hclosure : Puts (Compile.put (closure (Store.add p s₁.functions).1 s₁.current.captures line))
        (closure (Store.add p s₁.functions).1 s₁.current.captures line : StepIn σ Block) :=
      .put (.behind (.addConstant _ _) fun _ => .emit _ line)
    refine (hclosure open_ (outside p s₁) c (hsame.current.trans hc)).imp ?_
    rintro _ _ ⟨hs'⟩
    refine .of ?_
    have hall := hsame.trans hs'
    rwa [Nat.zero_add] at hall
  · unfold Compile.function writeFunction
    rw [if_pos (Nat.lt_of_not_le hfew), if_pos (Nat.lt_of_not_le hfew)]
    exact .error _

/-! ### Programs -/

theorem Puts.expr (e : Expr) : Puts (plainly (writeExpr e)) (expr e : StepIn σ Block) := by
  rw [writeExpr_eq]
  exact .put (sized_expr e)

theorem Puts.named (instr : UInt16 → Instr) (name : String) (line : Nat) :
    Puts (plainly (writeNamed instr name line)) (do emit (instr (← addName name line)) line : StepIn σ Block) :=
  put (.writeNamed instr name line)

mutual

/-- **A statement** is written as its block is. -/
theorem puts_stmt [Store σ] : (p : Stmt) → Puts (writeStmt p) (stmt p : StepIn σ Block)
  | .expr value => by
    rw [writeStmt, stmt]
    exact (Puts.expr value).seq (.pop _)
  | .var name (some value) span => by
    rw [writeStmt, stmt]
    exact (Puts.expr value).seq (.put (.declare name true span.line))
  | .var name none span => by
    rw [writeStmt, stmt]
    exact (Puts.put (.emit ⟨.nil, ()⟩ span.line)).seq (.put (.declare name true span.line))
  | .let_ name value span => by
    rw [writeStmt, stmt]
    exact (Puts.expr value).seq (.put (.declare name false span.line))
  | .block body _ => by
    rw [writeStmt, stmt]
    exact (puts_stmts body).inBlock
  | .if_ condition body none span => by
    rw [writeStmt, stmt]
    exact (Puts.expr condition).conditional (puts_stmts body).inBlock .nil
  | .if_ condition body (some orElse) span => by
    rw [writeStmt, stmt]
    exact (Puts.expr condition).conditional (puts_stmts body).inBlock (puts_stmt orElse)
  | .while_ condition body span => by
    rw [writeStmt, stmt]
    exact (Puts.expr condition).whileLoop (puts_stmts body).inBlock span.line
  | .for_ name iterable body span => by
    rw [writeStmt, stmt]
    exact (Puts.expr iterable).forLoop name (puts_stmts body).inBlock
  | .function name params body span => by
    rw [writeStmt, stmt]
    refine .silently .scope fun c => ?_
    split
    · have h := ((puts_stmts body).function name params span.line).seq
        (.named (⟨.defineLet, ·⟩) name span.line)
      simpa only [bind_assoc] using h
    · exact .silently (.declareLocal name false) fun _ => (puts_stmts body).function name params span.line
  | .return_ (some value) span => by
    rw [writeStmt, stmt]
    exact (Puts.expr value).seq (.put (.emit _ span.line))
  | .return_ none span => by
    rw [writeStmt, stmt]
    exact (Puts.put (.emit ⟨.nil, ()⟩ span.line)).seq (.put (.emit _ span.line))
  | .break_ span => by
    rw [writeStmt, stmt]
    refine .silently .scope fun c => ?_
    cases c.loops with
    | nil => exact .throw _
    | cons loop rest =>
      have h := (Puts.put (.unwind loop.depth span.line)).seq (.jumpOut (σ := σ) span.line)
      simpa only [bind_assoc, pure_bind, Array.append_singleton] using h
  | .continue_ span => by
    rw [writeStmt, stmt]
    refine .silently .scope fun c => ?_
    cases c.loops with
    | nil => exact .throw _
    | cons loop rest => exact (Puts.put (.unwind loop.depth span.line)).seq (.jumpBack loop.start span.line)

theorem puts_stmts [Store σ] : (ps : List Stmt) → Puts (writeStmts ps) (stmts ps #[] : StepIn σ Block)
  | [] => by
    rw [writeStmts, stmts]
    exact .nil
  | p :: ps => by
    rw [writeStmts, stmts_cons]
    exact (puts_stmt p).seq (puts_stmts ps)

end

theorem puts_script [Store σ] (ps : List Stmt) : Puts (writeScript ps) (script ps #[] : StepIn σ Block) := by
  induction ps using writeScript.induct with
  | case1 =>
    simp only [script, Array.empty_append, bind_pure]
    exact .put (.emit _ 0)
  | case2 value =>
    simp only [script, Array.empty_append, bind_pure]
    exact .expr value
  | case3 p ps hlast ih =>
    rw [writeScript, script_cons hlast]
    · exact (puts_stmt p).seq ih
    · exact hlast

/-- **A program** is written as its block is. -/
theorem puts_program [Store σ] (p : Program) : Puts (writeProgram p) (program p : StepIn σ Block) :=
  (puts_script p.statements).seq (.put (.emit _ 0))

end Compile

/-- **A program that is written at once** is the program that is put together from blocks: with its jumps filled
in as their ends are there, it has the same bytes and lines, constants, names and functions, and it is refused
for the same reason. -/
theorem Compiled.inOnePass_eq (p : Program) : inOnePass p = ofProgram p := by
  let start : Compile.State := .start #[]
  have h := Compile.puts_program p [] start .empty rfl
  change (Compile.writeProgram p [] (start, .empty) >>= _) = (Compile.program p start >>= _)
  generalize Compile.program p start = block, Compile.writeProgram p [] (start, .empty) = code at h ⊢
  cases h with
  | error e => rfl
  | ok h =>
    cases h with
    | of hs => exact congrArg (fun main => Except.ok (Compiled.mk main _)) (Compile.toChunk_eq_extend _ _ _).symm

end DeployScript
