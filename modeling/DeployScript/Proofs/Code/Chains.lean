import DeployScript.Code.Writer
import DeployScript.Proofs.Code.Bytes

/-!
# Chains of operators

Operators nest in their left operands. A chain of them can be compiled by a loop over its links, so that a long chain
takes no deep recursion. The loop does what the recursion does: in the same order, with the same state, and up to the
same failure. That is said twice, since the jump of a logical operator can come into the code in two ways.

* `writeChain_eq` — the loop is the recursion, for operands that are written in any way.
* `Forward.patchJump?_extend` — a jump that is filled in has the size of the block behind it as its distance.
* `write_afterDeciding` — a jump that is filled in is the jump of a block that is measured.
* `chain_eq_nested` — with blocks, and with code that is written at once, the loop is the recursion.
-/

namespace DeployScript

namespace Compile

variable {σ : Type}

/-! ### The loop and the recursion -/

/-- The links of a chain are written behind its first operand, and those in `links` behind them. -/
theorem writeSpine_eq (operand : Expr → Writing σ Unit) (e : Expr) (links : List Link) :
    (do
      operand (spine e links).1
      forM (spine e links).2 (Link.write operand))
      = (do
          writeNested operand e
          forM links (Link.write operand)) := by
  induction e, links using spine.induct with
  | case1 left op right span links ih | case2 left op right span links ih =>
    rw [spine, ih, writeNested, bind_assoc, List.forM_cons]
  | case3 e links hbinary hlogical => rw [spine, writeNested] <;> assumption

/-- **A chain that is written by the loop** is written as by recursion, however its operands are. -/
theorem writeChain_eq (operand : Expr → Writing σ Unit) (e : Expr) :
    writeChain operand e = writeNested operand e := by
  have h := writeSpine_eq operand e []
  rw [List.forM_nil, bind_pure_unit] at h
  exact h

/-- The blocks of the links of a chain come behind that of its first operand, and those of `links` behind them. -/
theorem spine_eq (e : Expr) (links : List Link) :
    (do
      let first ← (expr (spine e links).1 : StepIn σ Block)
      (spine e links).2.foldlM (fun before (link : Link) => do return before ++ (← link.code)) first)
      = (do
          let first ← expr e
          links.foldlM (fun before (link : Link) => do return before ++ (← link.code)) first) := by
  induction e, links using spine.induct with
  | case1 left op right span links ih | case2 left op right span links ih =>
    rw [spine, ih, expr]
    simp only [List.foldlM_cons, bind_assoc, pure_bind, Link.code]
  | case3 e links hbinary hlogical => rw [spine] <;> assumption

/-- **A chain by the loop** has the block that it has by recursion. -/
theorem chain_eq (e : Expr) : (chain e : StepIn σ Block) = expr e := by
  have h := spine_eq (σ := σ) e []
  simp only [List.foldlM_nil, bind_pure] at h
  exact h

/-! ### Jumps that are filled in -/

/-- Two bytes of a code are replaced. -/
theorem set_bytes (before after : List UInt8) (x y u v : UInt8) :
    ((before ++ ([x, y] ++ after)).toArray.setIfInBounds before.length u).setIfInBounds (before.length + 1) v
      = (before ++ ([u, v] ++ after)).toArray := by
  simp

/-- **A jump forward:** its distance is behind its first byte, whatever it is. -/
def Forward (jump : UInt16 → Instr) : Prop :=
  ∃ op : UInt8, ∀ distance, (jump distance).bytes = op :: wideBytes distance

theorem forward_jump : Forward (⟨.jump, ·⟩) := ⟨Opcode.jump.toByte, fun _ => rfl⟩

theorem forward_jumpIfFalse : Forward (⟨.jumpIfFalse, ·⟩) := ⟨Opcode.jumpIfFalse.toByte, fun _ => rfl⟩

theorem forward_logicalJump (op : LogicalOp) : Forward (logicalJump op) := by
  cases op with
  | and => exact forward_jumpIfFalse
  | or => exact ⟨Opcode.jumpIfTrue.toByte, fun _ => rfl⟩

section Forward

variable {jump : UInt16 → Instr}

theorem Forward.size (hj : Forward jump) (distance : UInt16) : (jump distance).size = jumpSize := by
  obtain ⟨op, hop⟩ := hj
  rw [← Instr.length_bytes, hop]
  rfl

/-- The lines are those of the jump and the block, whatever the distance. -/
theorem Forward.extend_eq (hj : Forward jump) (c : Chunk Literal) (distance distance' : UInt16) (line : Nat)
    (b : Block) :
    (c.extend #[.instr (jump distance) line]).extend b
      = { (c.extend #[.instr (jump distance') line]).extend b with
          code := ((c.extend #[.instr (jump distance) line]).extend b).code } := by
  simp [Block.extend_eq, Block.byteLines, Item.size, hj.size, Item.line]

/-- **A jump that is filled in** behind a block has the size of the block as its distance, if that fits. -/
theorem Forward.patchJump?_extend (hj : Forward jump) (c : Chunk Literal) (line : Nat) (b : Block) :
    ((c.extend #[.instr (jump 0xFFFF) line]).extend b).patchJump? (c.code.size + 1)
      = some (match wide? b.size with
        | some distance => (true, (c.extend #[.instr (jump distance) line]).extend b)
        | none => (false, (c.extend #[.instr (jump 0xFFFF) line]).extend b)) := by
  obtain ⟨op, hop⟩ := id hj
  have hcode : ∀ distance, ((c.extend #[.instr (jump distance) line]).extend b).code
      = ((c.code.toList ++ [op]) ++ (wideBytes distance ++ Block.bytes b.toList)).toArray := by
    intro distance
    rw [Block.extend_eq, Block.extend_eq, ← Array.toList_inj]
    simp [Block.bytes, Item.toInstr, hop]
  have hsize : ((c.extend #[.instr (jump 0xFFFF) line]).extend b).code.size
      = c.code.size + 1 + 2 + b.size := by
    rw [hcode, Block.size_eq_place, ← Block.length_bytes]
    simp [wideBytes]
    omega
  have hbefore : (c.code.toList ++ [op]).length = c.code.size + 1 := by simp
  rw [Chunk.patchJump?, if_neg (by omega), hsize, Nat.add_sub_cancel_left]
  cases wide? b.size with
  | none => rfl
  | some distance =>
    have hset := set_bytes (c.code.toList ++ [op]) (Block.bytes b.toList)
      0xFF 0xFF (distance >>> 8).toUInt8 distance.toUInt8
    rw [hbefore] at hset
    dsimp only
    rw [hj.extend_eq c distance 0xFFFF, hcode distance, hcode 0xFFFF]
    exact congrArg (fun code => some (true, { (c.extend #[.instr (jump 0xFFFF) line]).extend b with code }))
      hset

end Forward

/-! ### Writing blocks -/

section Run

variable {ς ε α β : Type} {x : StateT ς (Except ε) α} {f : α → StateT ς (Except ε) β} {s s' : ς} {a : α} {e : ε}

theorem run_bind_ok (h : x s = .ok (a, s')) : (x >>= f) s = f a s' := by
  change (x s >>= fun r => f r.1 r.2) = _
  rw [h]
  rfl

theorem run_bind_error (h : x s = .error e) : (x >>= f) s = .error e := by
  change (x s >>= fun r => f r.1 r.2) = _
  rw [h]
  rfl

end Run

theorem write_ok {block : StepIn σ Block} {s s' : State σ} {c : Chunk Literal} {b : Block}
    (h : block s = .ok (b, s')) : write block (s, c) = .ok ((), (s', c.extend b)) := by
  rw [write, h]
  rfl

theorem write_error {block : StepIn σ Block} {s : State σ} {c : Chunk Literal} {e : ScriptError}
    (h : block s = .error e) : write block (s, c) = .error e := by
  rw [write, h]
  rfl

theorem extend_append (c : Chunk Literal) (a b : Block) : c.extend (a ++ b) = (c.extend a).extend b :=
  Array.foldl_append

/-- **Blocks behind each other** are written one after the other. -/
theorem write_append (first second : StepIn σ Block) :
    write (do return (← first) ++ (← second)) = (do write first; write second) := by
  funext ⟨s, c⟩
  cases hfirst : first s with
  | error e => rw [run_bind_error (write_error hfirst), write_error (run_bind_error hfirst)]
  | ok r =>
    obtain ⟨a, s₁⟩ := r
    rw [run_bind_ok (write_ok hfirst)]
    cases hsecond : second s₁ with
    | error e => rw [write_error hsecond, write_error ((run_bind_ok hfirst).trans (run_bind_error hsecond))]
    | ok r =>
      obtain ⟨b, s₂⟩ := r
      rw [write_ok hsecond, write_ok ((run_bind_ok hfirst).trans (run_bind_ok hsecond)), extend_append]

/-- The place of a jump's distance is behind its first byte. -/
theorem Forward.writeJump_eq {jump : UInt16 → Instr} (hj : Forward jump) (line : Nat) (s : State σ)
    (c : Chunk Literal) :
    ∃ s', reserve jumpSize s = .ok ((), s') ∧ writeJump jump line (s, c)
      = .ok (c.code.size + 1, (s', c.extend #[.instr (jump 0xFFFF) line])) := by
  have hreserve : ∃ s', reserve jumpSize s = .ok ((), s') := ⟨_, rfl⟩
  obtain ⟨s', hs'⟩ := hreserve
  have hemit : emit (jump 0xFFFF) line s = .ok (#[.instr (jump 0xFFFF) line], s') := by
    rw [emit, hj.size, run_bind_ok hs']
    rfl
  have hsize : (c.extend #[.instr (jump 0xFFFF) line]).code.size - 2 = c.code.size + 1 := by
    obtain ⟨op, hop⟩ := hj
    simp [Block.extend_eq, Block.bytes, Item.toInstr, hop, wideBytes]
  refine ⟨s', hs', ?_⟩
  rw [writeJump, run_bind_ok (write_ok hemit)]
  exact congrArg (fun n => Except.ok (n, _)) hsize

/-- **A jump that is filled in is a jump that was measured:** what follows the left operand of a logical operator is
written with the jump in front, and its distance put in at the end. -/
theorem write_afterDeciding (op : LogicalOp) (right : StepIn σ Block) (line : Nat) :
    write (afterDeciding op right line) = (do
      let place ← writeJump (logicalJump op) line
      write (emit ⟨.pop, ()⟩ line)
      write right
      patch place line) := by
  funext ⟨s, c⟩
  obtain ⟨s₁, hreserve, hjump⟩ := (forward_logicalJump op).writeJump_eq line s c
  rw [run_bind_ok hjump, ← bind_assoc, ← write_append]
  let skipped : StepIn σ Block := do return (← emit ⟨.pop, ()⟩ line) ++ (← right)
  let deciding (b : Block) : StepIn σ Block := do
    return #[.instr (logicalJump op (← distance b line)) line] ++ b
  have hparts : afterDeciding op right line s = (skipped >>= deciding) s₁ := by
    rw [afterDeciding, run_bind_ok hreserve]
    simp only [skipped, deciding, bind_assoc, pure_bind]
  change _ = (write skipped >>= fun _ => patch (c.code.size + 1) line) _
  cases hskipped : skipped s₁ with
  | error e => rw [run_bind_error (write_error hskipped), write_error (hparts.trans (run_bind_error hskipped))]
  | ok r =>
    obtain ⟨b, s₂⟩ := r
    rw [run_bind_ok (write_ok hskipped), patch, (forward_logicalJump op).patchJump?_extend]
    have hmeasured : afterDeciding op right line s = deciding b s₂ := hparts.trans (run_bind_ok hskipped)
    cases hwide : wide? b.size with
    | none =>
      have hdistance : distance b line s₂ = .error (.ofLimit .jumpDistance line) := by
        rw [distance, wide, hwide]
        rfl
      rw [write_error (hmeasured.trans (run_bind_error hdistance))]
    | some d =>
      have hdistance : distance b line s₂ = .ok (d, s₂) := by
        rw [distance, wide, hwide]
        rfl
      rw [write_ok (hmeasured.trans (run_bind_ok hdistance)), extend_append]

/-- A link is written as its block is. -/
theorem Link.write_eq (link : Link) :
    link.write (fun e => Compile.write (expr e)) = (Compile.write link.code : Writing σ Unit) := by
  cases link with
  | binary op right span => exact (write_append (expr right) _).symm
  | logical op right span => exact (write_afterDeciding op (expr right) span.line).symm

/-- A chain whose operands are written as their blocks is written as its block. -/
theorem writeNested_eq (e : Expr) :
    writeNested (fun e => write (expr e)) e = (write (expr e) : Writing σ Unit) := by
  induction e, ([] : List Link) using spine.induct with
  | case1 left op right span links ih =>
    rw [writeNested, ih, Link.write_eq, expr, write_append]
    rfl
  | case2 left op right span links ih =>
    rw [writeNested, ih, Link.write_eq, expr, write_append]
    rfl
  | case3 e links hbinary hlogical => rw [writeNested] <;> assumption

/-- **The loop over a chain of operators equals plain recursion:** for operands that are compiled in any way, with
jumps that are filled in; for operands that are written as their blocks, where both write the block of the chain; and
for blocks. As these are equations of functions of the state, both start from any scopes, constants, names, captures,
code and store of functions, and both end with the same ones, or fail with the same error. -/
theorem chain_eq_nested (e : Expr) :
    (∀ operand : Expr → Writing σ Unit, writeChain operand e = writeNested operand e) ∧
      writeChain (fun e => write (expr e)) e = (write (expr e) : Writing σ Unit) ∧
      (chain e : StepIn σ Block) = expr e :=
  ⟨fun operand => writeChain_eq operand e, (writeChain_eq _ e).trans (writeNested_eq e), chain_eq e⟩

end Compile

end DeployScript
