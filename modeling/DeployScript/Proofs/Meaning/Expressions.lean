import Mathlib
import DeployScript.Proofs.Machine.Lockstep
import DeployScript.Proofs.Meaning.Scopes

/-!
# Expressions are followed

The code of an expression leaves its value on top of the stack, and what evaluation changes on the way
is changed. The proof is by induction on the expression. Each part runs on what the parts before it have
left (`Leaves.andThen`), and the instruction of the node takes it all (`Leaves.binary` and the like).

* `Site.Computes` — code that leaves what an evaluation gives, wherever it is started.
* `Site.Calls` — the one thing that an expression does which is not known yet: calls.
* `Expr.computes` — the main statement.
-/

namespace DeployScript

open Compile

variable {ω ι : Type} {S : Site} {β γ : Link} {φ : Roles} {place place' bound line : Nat}
  {m m' : Machine ω} {μ : Memory ω} {values : List Value} {a b v : Value} {rest : Written}

/-! ### Code that leaves values -/

/-- **Code that leaves what an evaluation gives.** -/
def Site.Computes (S : Site) (φ : Roles) (bound place place' : Nat) (given : ι → List Value)
    (x : Eval ω ι) : Prop :=
  ∀ β m μ, m.Running → Here S β φ place m μ → φ.Under m.stack.size →
    Follows bound m (fun r => Leaves S φ β m place' (given r)) (x μ)

/-- **Code behind code:** more values are left. -/
theorem Leaves.andThen {x : Eval ω ι} {given : ι → List Value} (h : Leaves S φ β m place values μ m')
    (hr : m'.Running) (hx : S.Computes φ bound place place' given x) :
    Follows bound m' (fun r => Leaves S φ β m place' (values ++ given r)) (x μ) :=
  h.more fun γ hhere hunder => hx γ m' μ hr hhere hunder

/-- An instruction that leaves a value. -/
theorem Here.push (h : Here S β φ place m μ) (hφ : φ.Under m.stack.size) {w : Value}
    (hstep : m.step = .next { m with stack := m.stack.push w, frames := S.at_ place' })
    (hv : w.Similar β v) : Follows bound m (fun r => Leaves S φ β m place' [r]) (.ok v μ) := by
  have hl : Left S φ β m place [] μ m β m.stack [] :=
    ⟨hφ, .refl β m, h, .refl φ _, by simp, .nil⟩
  exact hl.push hstep hv

/-- A constant is left. -/
theorem Here.pushConstant (h : Here S β φ place m μ) (hφ : φ.Under m.stack.size) {w : UInt16}
    {l : Literal} (hw : S.tables.constants[w.toNat]? = some l)
    (hc : S.Has place ((⟨.constant, w⟩, line) :: rest))
    (hv : (Heap.literalValue S.handles l).Similar β v) :
    Follows bound m (fun r => Leaves S φ β m (place + 3) [r]) (.ok v μ) := by
  refine h.push hφ ((h.step hc 3 rfl).trans ?_) hv
  simp only [Machine.exec, (h.moved _).constant? hw]
  rfl

/-! ### Instructions -/

@[simp] theorem size_binaryInstr (op : BinaryOp) : (binaryInstr op).size = 1 := by cases op <;> rfl

@[simp] theorem size_unaryInstr (op : UnaryOp) : (unaryInstr op).size = 1 := by cases op <;> rfl

@[simp] theorem size_logicalJump (op : LogicalOp) (w : UInt16) : (logicalJump op w).size = 3 := by
  cases op <;> rfl

namespace Machine

variable {kept : Array Value} {m : Machine ω}

theorem pop_of (hs : m.stack = kept.push v) : m.pop = (v, { m with stack := kept }) := by
  simp [pop, hs]

theorem exec_binary (hs : m.stack = kept ++ #[a, b]) (start : Nat) (op : BinaryOp) :
    m.exec start (binaryInstr op)
      = ({ m with stack := kept } : Machine ω).give (m.heap.binary op a b) := by
  have hright : m.pop = (b, { m with stack := kept.push a }) := pop_of hs
  have hleft : ({ m with stack := kept.push a } : Machine ω).pop = (a, { m with stack := kept }) :=
    pop_of rfl
  cases op <;> simp only [binaryInstr, exec, binary, hright, hleft]

theorem exec_unary (hs : m.stack = kept ++ #[a]) (start : Nat) (op : UnaryOp) :
    m.exec start (unaryInstr op) = ({ m with stack := kept } : Machine ω).give (Heap.unary op a) := by
  have hpop : m.pop = (a, { m with stack := kept }) := pop_of hs
  cases op <;> simp only [unaryInstr, exec, unary, hpop]

theorem exec_index (hs : m.stack = kept ++ #[a, b]) (start : Nat) :
    m.exec start ⟨.index, ()⟩ = ({ m with stack := kept } : Machine ω).give (m.heap.index a b) := by
  have hright : m.pop = (b, { m with stack := kept.push a }) := pop_of hs
  have hleft : ({ m with stack := kept.push a } : Machine ω).pop = (a, { m with stack := kept }) :=
    pop_of rfl
  simp only [exec, hright, hleft]

theorem exec_setIndex (hs : m.stack = kept ++ #[a, b, v]) (start : Nat) :
    m.exec start ⟨.setIndex, ()⟩
      = ({ m with stack := kept } : Machine ω).write (m.heap.target a b) v := by
  have hvalue : m.pop = (v, { m with stack := (kept.push a).push b }) := pop_of hs
  have hkey : ({ m with stack := (kept.push a).push b } : Machine ω).pop
      = (b, { m with stack := kept.push a }) := pop_of rfl
  have hcontainer : ({ m with stack := kept.push a } : Machine ω).pop
      = (a, { m with stack := kept }) := pop_of rfl
  simp only [exec, hvalue, hkey, hcontainer]

theorem exec_getProperty {w : UInt16} {key : String} (hs : m.stack = kept ++ #[a])
    (hkey : ∀ f, m.withName w f = f key) (start : Nat) :
    m.exec start ⟨.getProperty, w⟩
      = ({ m with stack := kept } : Machine ω).give (m.heap.property key a) := by
  have hpop : m.pop = (a, { m with stack := kept }) := pop_of hs
  simp only [exec, hkey, hpop]

theorem exec_setProperty {w : UInt16} {key : String} (hs : m.stack = kept ++ #[a, v])
    (hkey : ∀ f, m.withName w f = f key) (start : Nat) :
    m.exec start ⟨.setProperty, w⟩
      = ({ m with stack := kept } : Machine ω).write (Heap.propertyTarget key a) v := by
  have hvalue : m.pop = (v, { m with stack := kept.push a }) := pop_of hs
  have hcontainer : ({ m with stack := kept.push a } : Machine ω).pop
      = (a, { m with stack := kept }) := pop_of rfl
  simp only [exec, hkey, hvalue, hcontainer]

theorem take?_of {vs : List Value} (hs : m.stack = kept ++ vs.toArray) {count : Nat}
    (hcount : count = vs.length) : m.take? count = some (vs.toArray, { m with stack := kept }) := by
  subst hcount
  unfold take?
  simp [hs]

theorem exec_array {vs : List Value} {w : UInt16} (hs : m.stack = kept ++ vs.toArray)
    (hw : w.toNat = vs.length) (start : Nat) :
    m.exec start ⟨.array, w⟩ = .next { m with
      stack := kept.push (m.heap.newArray vs.toArray).1, heap := (m.heap.newArray vs.toArray).2 } := by
  unfold exec
  simp only [take?_of hs hw]
  rfl

theorem exec_record {vs : List Value} {w : UInt16} (hs : m.stack = kept ++ vs.toArray)
    (hw : 2 * w.toNat = vs.length) (start : Nat) :
    m.exec start ⟨.record, w⟩ = .next { m with
      stack := kept.push (m.heap.newRecord (fieldsOf vs {})).1
      heap := (m.heap.newRecord (fieldsOf vs {})).2 } := by
  unfold exec
  simp only [take?_of hs hw]
  rfl

theorem exec_print {vs : List Value} {n : UInt8} (hs : m.stack = kept ++ vs.toArray)
    (hn : n.toNat = vs.length) (start : Nat) :
    m.exec start ⟨.print, n⟩ = .next { m with
      stack := kept.push .nil
      output := m.output ++ " ".intercalate (vs.map m.heap.display) ++ "\n" } := by
  unfold exec
  simp only [take?_of hs hn]
  rfl

end Machine

/-- **An operator** takes its operands. -/
theorem Leaves.binary {op : BinaryOp} (h : Leaves S φ β m place [a, b] μ m')
    (hc : S.Has place ((binaryInstr op, line) :: rest)) :
    Follows bound m' (fun r => Leaves S φ β m (place + 1) [r]) (Eval.given (·.binary op a b) μ) := by
  refine h.given fun γ kept vs hl => ?_
  obtain ⟨x, y, rfl⟩ := List.length_eq_two.1 hl.similar.length_eq
  obtain ⟨hx, hy⟩ := (List.forall₂_cons.1 hl.similar)
  have hstep := hl.here.step hc 1 (size_binaryInstr op)
  exact ⟨_, hstep.trans (Machine.exec_binary (by exact hl.stack) place op),
    hl.here.models.twin.binary op hx (List.forall₂_cons.1 hy).1⟩

theorem Leaves.unary {op : UnaryOp} (h : Leaves S φ β m place [a] μ m')
    (hc : S.Has place ((unaryInstr op, line) :: rest)) :
    Follows bound m' (fun r => Leaves S φ β m (place + 1) [r])
      (Eval.given (fun _ => Heap.unary op a) μ) := by
  refine h.given fun γ kept vs hl => ?_
  obtain ⟨x, rfl⟩ := List.length_eq_one_iff.1 hl.similar.length_eq
  have hstep := hl.here.step hc 1 (size_unaryInstr op)
  exact ⟨_, hstep.trans (Machine.exec_unary (by exact hl.stack) place op),
    Heap.Twin.unary op (List.forall₂_cons.1 hl.similar).1⟩

theorem Leaves.index (h : Leaves S φ β m place [a, b] μ m')
    (hc : S.Has place ((⟨.index, ()⟩, line) :: rest)) :
    Follows bound m' (fun r => Leaves S φ β m (place + 1) [r]) (Eval.given (·.index a b) μ) := by
  refine h.given fun γ kept vs hl => ?_
  obtain ⟨x, y, rfl⟩ := List.length_eq_two.1 hl.similar.length_eq
  obtain ⟨hx, hy⟩ := List.forall₂_cons.1 hl.similar
  exact ⟨_, (hl.here.step hc 1 rfl).trans (Machine.exec_index (by exact hl.stack) place),
    hl.here.models.twin.index hx (List.forall₂_cons.1 hy).1⟩

theorem Leaves.property {key : String} {w : UInt16} (h : Leaves S φ β m place [a] μ m')
    (hc : S.Has place ((⟨.getProperty, w⟩, line) :: rest))
    (hkey : S.tables.names[w.toNat]? = some key) :
    Follows bound m' (fun r => Leaves S φ β m (place + 3) [r])
      (Eval.given (·.property key a) μ) := by
  refine h.given fun γ kept vs hl => ?_
  obtain ⟨x, rfl⟩ := List.length_eq_one_iff.1 hl.similar.length_eq
  exact ⟨_, (hl.here.step hc 3 rfl).trans (Machine.exec_getProperty (by exact hl.stack)
    ((hl.here.moved _).withName hkey) place),
    hl.here.models.twin.property key (List.forall₂_cons.1 hl.similar).1⟩

/-- **A write to an element** takes the container, the key and the value. -/
theorem Leaves.setIndex (h : Leaves S φ β m place [a, b, v] μ m')
    (hc : S.Has place ((⟨.setIndex, ()⟩, line) :: rest)) :
    Follows bound m' (fun r => Leaves S φ β m (place + 1) [r]) (Eval.write (·.target a b) v μ) := by
  refine h.write fun γ kept vs hl => ?_
  obtain ⟨x, y, z, rfl⟩ := List.length_eq_three.1 hl.similar.length_eq
  obtain ⟨hx, hyz⟩ := List.forall₂_cons.1 hl.similar
  obtain ⟨hy, hz⟩ := List.forall₂_cons.1 hyz
  exact ⟨_, _, (hl.here.step hc 1 rfl).trans (Machine.exec_setIndex (by exact hl.stack) place),
    hl.here.models.twin.target hx hy, (List.forall₂_cons.1 hz).1⟩

theorem Leaves.setProperty {key : String} {w : UInt16} (h : Leaves S φ β m place [a, v] μ m')
    (hc : S.Has place ((⟨.setProperty, w⟩, line) :: rest))
    (hkey : S.tables.names[w.toNat]? = some key) :
    Follows bound m' (fun r => Leaves S φ β m (place + 3) [r])
      (Eval.write (fun _ => Heap.propertyTarget key a) v μ) := by
  refine h.write fun γ kept vs hl => ?_
  obtain ⟨x, z, rfl⟩ := List.length_eq_two.1 hl.similar.length_eq
  obtain ⟨hx, hz⟩ := List.forall₂_cons.1 hl.similar
  exact ⟨_, _, (hl.here.step hc 3 rfl).trans (Machine.exec_setProperty (by exact hl.stack)
    ((hl.here.moved _).withName hkey) place),
    Heap.Twin.propertyTarget key hx, (List.forall₂_cons.1 hz).1⟩

/-- **A new array** takes its elements. -/
theorem Leaves.array {w : UInt16} (h : Leaves S φ β m place values μ m')
    (hc : S.Has place ((⟨.array, w⟩, line) :: rest)) (hw : w.toNat = values.length) :
    Follows bound m' (fun r => Leaves S φ β m (place + 3) [r])
      (Eval.change (·.newArray values.toArray) μ) := by
  refine h.change fun γ kept vs hl => ?_
  obtain ⟨δ, hx, hv⟩ := @Heap.Twin.newArray _ _ _ hl.here.models.twin vs.toArray values.toArray
    hl.similar
  exact ⟨δ, _, _, (hl.here.step hc 3 rfl).trans (Machine.exec_array (by exact hl.stack)
    (hw.trans hl.similar.length_eq.symm) place), hx, hv⟩

/-- Keys and values in turns, as the code of a record leaves them. -/
def keyed (entries : List (String × Value)) : List Value :=
  entries.flatMap fun e => [.text e.1, e.2]

theorem length_keyed (entries : List (String × Value)) :
    (keyed entries).length = 2 * entries.length := by
  induction entries with
  | nil => rfl
  | cons e entries ih =>
    change (keyed entries).length + 2 = 2 * (entries.length + 1)
    omega

theorem fieldsOf_keyed (entries : List (String × Value)) (fields : Fields) :
    Machine.fieldsOf (keyed entries) fields
      = entries.foldl (fun fields e => fields.insert e.1 e.2) fields := by
  induction entries generalizing fields with
  | nil => rfl
  | cons e entries ih => exact ih (fields.insert e.1 e.2)

/-- **A new record** takes its keys and values. -/
theorem Leaves.record {w : UInt16} {entries : List (String × Value)}
    (h : Leaves S φ β m place (keyed entries) μ m')
    (hc : S.Has place ((⟨.record, w⟩, line) :: rest)) (hw : w.toNat = entries.length) :
    Follows bound m' (fun r => Leaves S φ β m (place + 3) [r])
      (Eval.change (·.newRecord (entries.foldl (fun fields e => fields.insert e.1 e.2) {})) μ) := by
  refine h.change fun γ kept vs hl => ?_
  have hfields := Machine.Isomorphic.fieldsOf hl.similar matching_empty
  rw [fieldsOf_keyed] at hfields
  obtain ⟨δ, hx, hv⟩ := hl.here.models.twin.newRecord hfields
  have hlength : 2 * w.toNat = vs.length := by
    rw [hl.similar.length_eq, length_keyed, hw]
  exact ⟨δ, _, _, (hl.here.step hc 3 rfl).trans (Machine.exec_record (by exact hl.stack) hlength place),
    hx, hv⟩

/-- **A call that prints** takes its arguments. -/
theorem Leaves.print {n : UInt8} (h : Leaves S φ β m place values μ m')
    (hc : S.Has place ((⟨.print, n⟩, line) :: rest)) (hn : n.toNat = values.length) :
    Follows bound m' (fun r => Leaves S φ β m (place + 2) [r]) (Eval.print values μ) := by
  obtain ⟨γ, kept, vs, hl⟩ := h
  have htexts : vs.map m'.heap.display = values.map μ.heap.display := by
    rw [← List.forall₂_eq_eq_eq, List.forall₂_map_left_iff, List.forall₂_map_right_iff]
    exact hl.similar.imp fun _ _ hv => hl.here.models.twin.display hv
  have hstep := (hl.here.step hc 2 rfl).trans
    (Machine.exec_print (by exact hl.stack) (hn.trans hl.similar.length_eq.symm) place)
  have hm := (hl.withStack [.nil] (S.at_ (place + 2))).withOutput
    (μ.output ++ " ".intercalate (values.map μ.heap.display) ++ "\n")
  dsimp only at hstep
  rw [htexts, hl.here.models.output] at hstep
  rw [← Array.push_eq_append] at hm
  exact .ok (.one hstep) (hl.next (.of_heap rfl) hm rfl Array.push_eq_append (.cons .nil .nil))

/-- **A conditional jump** looks at the value on top of the stack. -/
theorem Leaves.jumpIf {op : LogicalOp} {w : UInt16} (h : Leaves S φ β m place [a] μ m')
    (hc : S.Has place ((logicalJump op w, line) :: rest)) :
    m'.step = .next { m' with
      frames := S.at_ (if op.decides a then place + 3 + w.toNat else place + 3) } := by
  have hlast : Leaves S φ β m place ([] ++ [a]) μ m' := h
  obtain ⟨γ, hhere, hpeek⟩ := hlast.peek
  have hstep := hhere.step hc 3 (size_logicalJump op w)
  have hbehind := hhere.moved (place + 3)
  have hdecides : op.decides (m'.peek 0) = op.decides a := by
    cases op <;> simp only [LogicalOp.decides, hpeek.isTruthy]
  have hexec : ∀ n : Machine ω, n.exec place (logicalJump op w) = n.jumpIf op.decides w := by
    intro n
    cases op <;> rfl
  rw [hstep, hexec]
  unfold Machine.jumpIf
  rw [hbehind.ip, hbehind.moveTo]
  change (if op.decides (m'.peek 0) = true then _ else _) = _
  rw [hdecides]
  split <;> rfl

/-- The value on top of the stack is dropped. -/
theorem Leaves.drop (h : Leaves S φ β m place (values ++ [v]) μ m')
    (hc : S.Has place ((⟨.pop, ()⟩, line) :: rest)) :
    ∃ m'', m'.step = .next m'' ∧ Leaves S φ β m (place + 1) values μ m'' := by
  obtain ⟨γ, hhere⟩ := h.here
  exact ⟨_, hhere.step hc 1 rfl, h.pop (place + 1)⟩

/-! ### Lists of values -/

section Lists

variable {call : Calling ω} {env : Env} {μ' : Memory ω}

/-- What has a result has one at each step. -/
theorem Eval.bind_ok {α : Type} {x : Eval ω α} {f : α → Eval ω ι} {r : ι}
    (h : (x >>= f) μ = .ok r μ') : ∃ a ν, x μ = .ok a ν ∧ f a ν = .ok r μ' := by
  change Eval.andThen x f μ = _ at h
  unfold Eval.andThen at h
  split at h
  case h_1 a ν hx => exact ⟨a, ν, hx, h⟩
  case h_2 => cases h
  case h_3 => cases h

theorem Expr.length_evalAll {es : List Expr} {vs : List Value}
    (h : Expr.evalAll call es env μ = .ok vs μ') : vs.length = es.length := by
  induction es generalizing μ vs with
  | nil =>
    cases h
    rfl
  | cons e es ih =>
    obtain ⟨v, ν, -, h⟩ := Eval.bind_ok h
    obtain ⟨vs, ν', hvs, h⟩ := Eval.bind_ok h
    cases h
    rw [List.length_cons, List.length_cons, ih hvs]

theorem Expr.length_evalFields {es : List (String × Expr)} {entries : List (String × Value)}
    (h : Expr.evalFields call es env μ = .ok entries μ') : entries.length = es.length := by
  induction es generalizing μ entries with
  | nil =>
    cases h
    rfl
  | cons e es ih =>
    obtain ⟨v, ν, -, h⟩ := Eval.bind_ok h
    obtain ⟨entries, ν', hentries, h⟩ := Eval.bind_ok h
    cases h
    rw [List.length_cons, List.length_cons, ih hentries]

end Lists

/-! ### The main statement -/

/-- A machine that runs has another one behind an instruction. -/
theorem Machine.Running.next {m m' : Machine ω} (hr : m.Running) (hs : m.step = .next m') :
    m'.Running :=
  (Machine.Runs.one hs).running hr

/-- **What calls do** that are made at a site: the code and evaluation agree on it. -/
def Site.Calls (S : Site) (bound : Nat) (call : Calling ω) : Prop :=
  ∀ {φ : Roles} {β : Link} {m m' : Machine ω} {μ : Memory ω} {place line : Nat} {n : UInt8}
    {rest : Written} {callee : Value} {args : List Value}, m'.Running →
    Leaves S φ β m place (callee :: args) μ m' → S.Has place ((⟨.call, n⟩, line) :: rest) →
    n.toNat = args.length →
    Follows bound m' (fun r => Leaves S φ β m (place + 2) [r]) (call callee args μ)

section Main

variable {call : Calling ω} {locals : List String} {env : Env}

mutual

/-- **The code of an expression** leaves its value. -/
theorem Expr.computes (hcall : S.Calls bound call) (hs : S.InScope φ locals env) :
    (e : Expr) → e.Names (· ≠ "") → {code : Written} → e.Coded S.tables locals code → {place : Nat} →
    S.Has place code →
    S.Computes φ bound place (place + Written.size code) (fun r => [r]) (e.eval call env)
  | .number value span, _, _, ⟨w, hw, rfl⟩, place, hc => by
    exact fun β m μ hr hh hφ => hh.pushConstant hφ hw hc (.number value)
  | .text value span, _, _, ⟨w, hw, rfl⟩, place, hc => by
    exact fun β m μ hr hh hφ => hh.pushConstant hφ hw hc (.text value)
  | .bool true span, _, _, rfl, place, hc => fun β m μ hr hh hφ =>
    hh.push hφ (hh.step hc 1 rfl) (.bool true)
  | .bool false span, _, _, rfl, place, hc => fun β m μ hr hh hφ =>
    hh.push hφ (hh.step hc 1 rfl) (.bool false)
  | .nil span, _, _, rfl, place, hc => fun β m μ hr hh hφ => hh.push hφ (hh.step hc 1 rfl) .nil
  | .name x span, hn, _, ⟨found, w, hf, rfl⟩, place, hc => by
    intro β m μ hr hh hφ
    rw [Written.size_cons, size_readInstr]
    exact (hh.leaves hφ).read hs hn hf hc
  | .array elements span, hn, _, ⟨values, w, hvalues, hw, rfl⟩, place, hc => by
    intro β m μ hr hh hφ
    rw [Written.size_append, ← Nat.add_assoc]
    have helements := Expr.computesAll hcall hs elements hn hvalues hc.left β m μ hr hh hφ
    refine .bind hr (helements.known fun _ _ => Expr.length_evalAll) ?_
    intro vs μ' m' hr ⟨hlength, hall⟩
    exact Leaves.array hall hc.right (hw.trans hlength.symm)
  | .record entries span, hn, _, ⟨values, w, hvalues, hw, rfl⟩, place, hc => by
    intro β m μ hr hh hφ
    rw [Written.size_append, ← Nat.add_assoc]
    have hfields := Expr.computesFields hcall hs entries hn hvalues hc.left β m μ hr hh hφ
    refine .bind hr (hfields.known fun _ _ => Expr.length_evalFields) ?_
    intro fields μ' m' hr ⟨hlength, hall⟩
    exact hall.record hc.right (hw.trans hlength.symm)
  | .binary left op right span, hn, _, ⟨l, r, hl, hright, rfl⟩, place, hc => by
    intro β m μ hr hh hφ
    simp only [Written.size_append, Written.size_cons, size_binaryInstr, ← Nat.add_assoc]
    refine .bind hr (Expr.computes hcall hs left hn.1 hl hc.left β m μ hr hh hφ) ?_
    intro a μ' m' hr hleft
    refine .bind hr (hleft.andThen hr (Expr.computes hcall hs right hn.2 hright hc.right.left)) ?_
    intro b μ'' m'' hr hboth
    exact hboth.binary hc.right.right
  | .logical left op right span, hn, _, ⟨l, r, w, hl, hright, hw, rfl⟩, place, hc => by
    intro β m μ hr hh hφ
    simp only [Written.size_append, Written.size_cons, size_logicalJump, ← Nat.add_assoc]
    refine .bind hr (Expr.computes hcall hs left hn.1 hl hc.left β m μ hr hh hφ) ?_
    intro a μ' m' hr hleft
    have hjump := hleft.jumpIf hc.right
    split
    case isTrue hdecides =>
      -- The left operand stays, and the code of the right one is jumped over.
      rw [if_pos hdecides, hw, ← Nat.add_assoc] at hjump
      exact .step hjump (.refl (hleft.jump _))
    case isFalse hdecides =>
      rw [if_neg hdecides] at hjump
      have hthere : Leaves S φ β m (place + Written.size l + 3) ([] ++ [a]) μ' _ := hleft.jump _
      have hskipped := hc.right.tail
      rw [size_logicalJump] at hskipped
      obtain ⟨m'', hdrop, hdropped⟩ := hthere.drop hskipped
      refine .step hjump (.step hdrop ?_)
      exact hdropped.andThen ((hr.next hjump).next hdrop)
        (Expr.computes hcall hs right hn.2 hright hskipped.tail)
  | .unary op operand span, hn, _, ⟨o, ho, rfl⟩, place, hc => by
    intro β m μ hr hh hφ
    simp only [Written.size_append, Written.size_cons, size_unaryInstr, ← Nat.add_assoc]
    refine .bind hr (Expr.computes hcall hs operand hn ho hc.left β m μ hr hh hφ) ?_
    intro a μ' m' hr hleft
    exact hleft.unary hc.right
  | .call callee args span, hn, _, ⟨f, values, n, hvalues, hn', hcode⟩, place, hc => by
    intro β m μ hr hh hφ
    obtain ⟨hprint, rfl⟩ | ⟨hprint, hf, rfl⟩ := hcode
    · rw [Expr.eval, if_pos hprint, Written.size_append, ← Nat.add_assoc]
      have hargs := Expr.computesAll hcall hs args hn.2 hvalues hc.left β m μ hr hh hφ
      refine .bind hr (hargs.known fun _ _ => Expr.length_evalAll) ?_
      intro vs μ' m' hr ⟨hlength, hall⟩
      exact Leaves.print hall hc.right (hn'.trans hlength.symm)
    · rw [Expr.eval, if_neg (by rw [hprint]; exact Bool.false_ne_true)]
      simp only [Written.size_append, Written.size_cons, ← Nat.add_assoc]
      have hcallee := hn.1.resolve_left (by rw [hprint]; exact Bool.false_ne_true)
      refine .bind hr (Expr.computes hcall hs callee hcallee hf hc.left β m μ hr hh hφ) ?_
      intro g μ' m' hr hleft
      have hargs := hleft.andThen hr (Expr.computesAll hcall hs args hn.2 hvalues hc.right.left)
      refine .bind hr (hargs.known fun _ _ => Expr.length_evalAll) ?_
      intro vs μ'' m'' hr ⟨hlength, hall⟩
      exact hcall hr hall hc.right.right (hn'.trans hlength.symm)
  | .group inner _, hn, _, hi, place, hc => Expr.computes hcall hs inner hn hi hc
  | .assign x value span, hn, _, ⟨v, found, w, hv, hf, rfl⟩, place, hc => by
    intro β m μ hr hh hφ
    simp only [Written.size_append, Written.size_cons, size_writeInstr, ← Nat.add_assoc]
    refine .bind hr (Expr.computes hcall hs value hn.2 hv hc.left β m μ hr hh hφ) ?_
    intro a μ' m' hr hvalue
    refine .bind hr (hvalue.assign hs hn.1 hf hc.right) ?_
    intro _ μ'' m'' hr hassigned
    exact .refl hassigned
  | .get object key span, hn, _, ⟨o, w, ho, hw, rfl⟩, place, hc => by
    intro β m μ hr hh hφ
    simp only [Written.size_append, Written.size_cons, ← Nat.add_assoc]
    refine .bind hr (Expr.computes hcall hs object hn ho hc.left β m μ hr hh hφ) ?_
    intro a μ' m' hr hobject
    exact hobject.property hc.right hw
  | .set object key value span, hn, _, ⟨o, v, w, ho, hv, hw, rfl⟩, place, hc => by
    intro β m μ hr hh hφ
    simp only [Written.size_append, Written.size_cons, ← Nat.add_assoc]
    refine .bind hr (Expr.computes hcall hs object hn.1 ho hc.left β m μ hr hh hφ) ?_
    intro a μ' m' hr hobject
    refine .bind hr (hobject.andThen hr (Expr.computes hcall hs value hn.2 hv hc.right.left)) ?_
    intro b μ'' m'' hr hboth
    exact hboth.setProperty hc.right.right hw
  | .index object key span, hn, _, ⟨o, k, ho, hk, rfl⟩, place, hc => by
    intro β m μ hr hh hφ
    simp only [Written.size_append, Written.size_cons, ← Nat.add_assoc]
    refine .bind hr (Expr.computes hcall hs object hn.1 ho hc.left β m μ hr hh hφ) ?_
    intro a μ' m' hr hobject
    refine .bind hr (hobject.andThen hr (Expr.computes hcall hs key hn.2 hk hc.right.left)) ?_
    intro b μ'' m'' hr hboth
    exact hboth.index hc.right.right
  | .setIndex object key value span, hn, _, ⟨o, k, v, ho, hk, hv, rfl⟩, place, hc => by
    intro β m μ hr hh hφ
    simp only [Written.size_append, Written.size_cons, ← Nat.add_assoc]
    refine .bind hr (Expr.computes hcall hs object hn.1 ho hc.left β m μ hr hh hφ) ?_
    intro a μ₁ m₁ hr hobject
    refine .bind hr (hobject.andThen hr (Expr.computes hcall hs key hn.2.1 hk hc.right.left)) ?_
    intro b μ₂ m₂ hr hboth
    refine .bind hr (hboth.andThen hr
      (Expr.computes hcall hs value hn.2.2 hv hc.right.right.left)) ?_
    intro c μ₃ m₃ hr hall
    exact hall.setIndex hc.right.right.right

/-- The code of expressions leaves their values. -/
theorem Expr.computesAll (hcall : S.Calls bound call) (hs : S.InScope φ locals env) :
    (es : List Expr) → Expr.AllNames (· ≠ "") es → {code : Written} →
    Expr.CodedAll es S.tables locals code → {place : Nat} → S.Has place code →
    S.Computes φ bound place (place + Written.size code) id (Expr.evalAll call es env)
  | [], _, _, rfl, place, _ => fun β m μ hr hh hφ => .refl (hh.leaves hφ)
  | e :: es, hn, _, ⟨first, others, hfirst, hothers, rfl⟩, place, hc => by
    intro β m μ hr hh hφ
    rw [Written.size_append, ← Nat.add_assoc]
    refine .bind hr (Expr.computes hcall hs e hn.1 hfirst hc.left β m μ hr hh hφ) ?_
    intro v μ' m' hr hvalue
    refine .bind hr (hvalue.andThen hr (Expr.computesAll hcall hs es hn.2 hothers hc.right)) ?_
    intro vs μ'' m'' hr hvalues
    exact .refl hvalues

/-- The code of the entries of a record leaves their keys and values. -/
theorem Expr.computesFields (hcall : S.Calls bound call) (hs : S.InScope φ locals env) :
    (es : List (String × Expr)) → Expr.FieldNames (· ≠ "") es → {code : Written} → {line : Nat} →
    Expr.CodedFields es S.tables locals line code → {place : Nat} → S.Has place code →
    S.Computes φ bound place (place + Written.size code) keyed (Expr.evalFields call es env)
  | [], _, _, _, rfl, place, _ => fun β m μ hr hh hφ => .refl (hh.leaves hφ)
  | (key, e) :: es, hn, _, line, ⟨w, value, others, hw, hvalue, hothers, rfl⟩, place, hc => by
    intro β m μ hr hh hφ
    simp only [Written.size_append, Written.size_cons, ← Nat.add_assoc]
    refine .first hr (hh.pushConstant hφ hw hc (.text key)) fun m₁ hr hkey => ?_
    refine .bind hr (hkey.andThen hr (Expr.computes hcall hs e hn.1 hvalue hc.tail.left)) ?_
    intro v μ₂ m₂ hr hboth
    refine .bind hr (hboth.andThen hr (Expr.computesFields hcall hs es hn.2 hothers hc.tail.right)) ?_
    intro entries μ₃ m₃ hr hall
    exact .refl hall

end

end Main

end DeployScript
