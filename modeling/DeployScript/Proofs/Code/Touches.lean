import DeployScript.Proofs.Code.WellFormed
import DeployScript.Proofs.Program.Mentions

/-!
# Compiled code touches what its program mentions

Code reads and assigns globals by instructions that name them. Such an instruction comes from a name
that stands in the program as a variable, and so the program mentions it, whatever the rules by which
a name is found to be no local variable. What other instructions name, such as the property of a record
or a global that is declared, need not be mentioned.

* `Instr.global?` — the instructions that read or assign a global.
* `Expr.touchesOnly`, `Stmt.touchesOnly` — the instructions of an expression and of a statement.
* `Compile.adds_stmt` — the functions that come with the code of a statement.
* `Compiled.chunks_touchesOnly` — all code of a compiled program.
-/

namespace DeployScript

open Compile

variable {T : Tables} {A : String → Prop} {names : Array String} {locals : List String} {x : Spot}
  {code code' : Written} {i : Instr} {line : Nat}

/-- The index of the global that an instruction reads or assigns. -/
def Instr.global? : Instr → Option UInt16
  | ⟨.getGlobal, index⟩ | ⟨.setGlobal, index⟩ => some index
  | _ => none

/-- **An instruction that touches no global** but those of `A`. -/
def Instr.TouchesOnly (names : Array String) (A : String → Prop) (i : Instr) : Prop :=
  ∀ index ∈ i.global?, ∃ name, names[index.toNat]? = some name ∧ A name

/-- **Instructions that touch no global** but those of `A`. -/
def Written.TouchesOnly (names : Array String) (A : String → Prop) (code : Written) : Prop :=
  ∀ e ∈ code, e.1.TouchesOnly names A

/-- **A chunk that touches no global** but those of `A`, as it is read. -/
def Chunk.TouchesOnly {κ : Type} (c : Chunk κ) (A : String → Prop) : Prop :=
  ∃ code, c.Reads 0 code ∧ code.TouchesOnly c.names A

theorem Instr.touchesOnly_of_none (h : i.global? = none) : i.TouchesOnly names A := by
  intro index hindex
  rw [h] at hindex
  cases hindex

namespace Written

@[simp] theorem touchesOnly_nil : TouchesOnly names A [] := nofun

@[simp] theorem touchesOnly_cons : TouchesOnly names A ((i, line) :: code) ↔
    i.TouchesOnly names A ∧ code.TouchesOnly names A := List.forall_mem_cons

@[simp] theorem touchesOnly_append : (code ++ code').TouchesOnly names A ↔
    code.TouchesOnly names A ∧ code'.TouchesOnly names A := List.forall_mem_append

theorem touchesOnly_of_none (h : ∀ e ∈ code, e.1.global? = none) : code.TouchesOnly names A :=
  fun e he => Instr.touchesOnly_of_none (h e he)

/-- Instructions of one line, none of which names a global. -/
theorem touchesOnly_of {instrs : List Instr} (h : ∀ i ∈ instrs, i.global? = none) :
    (Written.of instrs line).TouchesOnly names A := by
  refine touchesOnly_of_none fun e he => ?_
  obtain ⟨i, hi, rfl⟩ := List.mem_map.1 he
  exact h i hi

/-- One more instruction behind others, which names no global. -/
theorem TouchesOnly.snoc (h : code.TouchesOnly names A) (hi : i.global? = none) :
    (code ++ [(i, line)]).TouchesOnly names A :=
  touchesOnly_append.2 ⟨h, touchesOnly_cons.2 ⟨Instr.touchesOnly_of_none hi, touchesOnly_nil⟩⟩

end Written

open Written

/-! ### Expressions -/

/-- **A variable that is a global** is touched by its name. -/
theorem Tables.Finds.touchesOnly {n : String} {place : Place} {w : UInt16}
    (h : T.Finds locals n place w) (hn : A n) :
    (readInstr place w).TouchesOnly T.names A ∧ (writeInstr place w).TouchesOnly T.names A := by
  cases h with
  | slot | capture => exact ⟨Instr.touchesOnly_of_none rfl, Instr.touchesOnly_of_none rfl⟩
  | global _ _ hname =>
    constructor <;>
    · rintro _ ⟨⟩
      exact ⟨n, hname, hn⟩

mutual

/-- **The instructions of an expression** touch the names that the expression mentions. -/
theorem Expr.touchesOnly : (e : Expr) → {code : Written} → e.Coded T locals code →
    (∀ n, e.Mentions n → A n) → code.TouchesOnly T.names A
  | .number _ _, code, h, _ | .text _ _, code, h, _ => by
    obtain ⟨w, -, rfl⟩ := h
    exact touchesOnly_nil.snoc rfl
  | .bool true _, code, h, _ | .bool false _, code, h, _ | .nil _, code, h, _ => by
    rw [Expr.Coded] at h
    subst h
    exact touchesOnly_nil.snoc rfl
  | .name n _, code, h, hA => by
    obtain ⟨place, w, hfinds, rfl⟩ := h
    exact touchesOnly_cons.2 ⟨(hfinds.touchesOnly (hA n rfl)).1, touchesOnly_nil⟩
  | .array elements _, code, h, hA => by
    obtain ⟨values, w, hvalues, -, rfl⟩ := h
    exact (Expr.allTouchOnly elements hvalues hA).snoc rfl
  | .record fields _, code, h, hA => by
    obtain ⟨values, w, hvalues, -, rfl⟩ := h
    exact (Expr.fieldsTouchOnly fields hvalues hA).snoc rfl
  | .binary left op right _, code, h, hA => by
    obtain ⟨l, r, hl, hr, rfl⟩ := h
    have hright := right.touchesOnly hr fun n hn => hA n (.inr hn)
    exact touchesOnly_append.2 ⟨left.touchesOnly hl fun n hn => hA n (.inl hn),
      hright.snoc (by cases op <;> rfl)⟩
  | .logical left op right _, code, h, hA => by
    obtain ⟨l, r, w, hl, hr, -, rfl⟩ := h
    have hright := right.touchesOnly hr fun n hn => hA n (.inr hn)
    refine touchesOnly_append.2 ⟨left.touchesOnly hl fun n hn => hA n (.inl hn), touchesOnly_cons.2
      ⟨Instr.touchesOnly_of_none ?_, touchesOnly_cons.2 ⟨Instr.touchesOnly_of_none rfl, hright⟩⟩⟩
    cases op <;> rfl
  | .unary op operand _, code, h, hA => by
    obtain ⟨o, ho, rfl⟩ := h
    exact (operand.touchesOnly ho hA).snoc (by cases op <;> rfl)
  | .call callee args _, code, h, hA => by
    obtain ⟨f, values, n, hvalues, -, ⟨-, rfl⟩ | ⟨-, hf, rfl⟩⟩ := h
    · exact (Expr.allTouchOnly args hvalues fun n hn => hA n (.inr hn)).snoc rfl
    · have hargs := Expr.allTouchOnly args hvalues fun n hn => hA n (.inr hn)
      exact touchesOnly_append.2 ⟨callee.touchesOnly hf fun n hn => hA n (.inl hn), hargs.snoc rfl⟩
  | .group inner _, code, h, hA => by
    rw [Expr.Coded] at h
    exact inner.touchesOnly h hA
  | .assign n value _, code, h, hA => by
    obtain ⟨v, place, w, hv, hfinds, rfl⟩ := h
    exact touchesOnly_append.2 ⟨value.touchesOnly hv fun n hn => hA n (.inr hn),
      touchesOnly_cons.2 ⟨(hfinds.touchesOnly (hA n (.inl rfl))).2, touchesOnly_nil⟩⟩
  | .get object _ _, code, h, hA => by
    obtain ⟨o, w, ho, -, rfl⟩ := h
    exact (object.touchesOnly ho hA).snoc rfl
  | .set object _ value _, code, h, hA => by
    obtain ⟨o, v, w, ho, hv, -, rfl⟩ := h
    have hvalue := value.touchesOnly hv fun n hn => hA n (.inr hn)
    exact touchesOnly_append.2 ⟨object.touchesOnly ho fun n hn => hA n (.inl hn), hvalue.snoc rfl⟩
  | .index object key _, code, h, hA => by
    obtain ⟨o, k, ho, hk, rfl⟩ := h
    have hkey := key.touchesOnly hk fun n hn => hA n (.inr hn)
    exact touchesOnly_append.2 ⟨object.touchesOnly ho fun n hn => hA n (.inl hn), hkey.snoc rfl⟩
  | .setIndex object key value _, code, h, hA => by
    obtain ⟨o, k, v, ho, hk, hv, rfl⟩ := h
    have hkey := key.touchesOnly hk fun n hn => hA n (.inr (.inl hn))
    have hvalue := value.touchesOnly hv fun n hn => hA n (.inr (.inr hn))
    exact touchesOnly_append.2 ⟨object.touchesOnly ho fun n hn => hA n (.inl hn),
      touchesOnly_append.2 ⟨hkey, hvalue.snoc rfl⟩⟩

theorem Expr.allTouchOnly : (es : List Expr) → {code : Written} → Expr.CodedAll es T locals code →
    (∀ n, Expr.AnyMentions es n → A n) → code.TouchesOnly T.names A
  | [], code, h, _ => by
    rw [Expr.CodedAll] at h
    subst h
    exact touchesOnly_nil
  | e :: es, code, h, hA => by
    obtain ⟨first, rest, hfirst, hrest, rfl⟩ := h
    exact touchesOnly_append.2 ⟨e.touchesOnly hfirst fun n hn => hA n (.inl hn),
      Expr.allTouchOnly es hrest fun n hn => hA n (.inr hn)⟩

theorem Expr.fieldsTouchOnly : (es : List (String × Expr)) → {code : Written} → {line : Nat} →
    Expr.CodedFields es T locals line code → (∀ n, Expr.AnyFieldMentions es n → A n) →
    code.TouchesOnly T.names A
  | [], code, line, h, _ => by
    rw [Expr.CodedFields] at h
    subst h
    exact touchesOnly_nil
  | (key, e) :: es, code, line, h, hA => by
    obtain ⟨w, value, rest, -, hvalue, hrest, rfl⟩ := h
    exact touchesOnly_cons.2 ⟨Instr.touchesOnly_of_none rfl, touchesOnly_append.2
      ⟨e.touchesOnly hvalue fun n hn => hA n (.inl hn),
        Expr.fieldsTouchOnly es hrest fun n hn => hA n (.inr hn)⟩⟩

end

/-! ### Parts of statements -/

theorem touchesOnly_valueOrNil {value : Option Expr} (h : CodedOrNil T locals line value code)
    (hA : ∀ n, (∃ e ∈ value, e.Mentions n) → A n) : code.TouchesOnly T.names A := by
  cases value with
  | some value => exact value.touchesOnly h fun n hn => hA n ⟨value, rfl, hn⟩
  | none =>
    obtain rfl : code = _ := h
    exact touchesOnly_nil.snoc rfl

/-- What is declared is not touched. -/
theorem touchesOnly_binds {n : String} {isMutable : Bool} (h : Binds T n isMutable line x code) :
    code.TouchesOnly names A := by
  obtain ⟨-, rfl⟩ | ⟨-, w, -, rfl⟩ := h
  · exact touchesOnly_nil
  · refine touchesOnly_nil.snoc ?_
    cases isMutable <;> rfl

/-- Instructions at any spot touch no global but those of `A`. -/
def Coding.TouchesOnly (names : Array String) (A : String → Prop) (coding : Coding) : Prop :=
  ∀ x code, coding x code → code.TouchesOnly names A

theorem touchesOnly_unwinds {count : Nat} (h : Unwinds count line code) : code.TouchesOnly names A := by
  refine touchesOnly_of_none fun e he => ?_
  obtain rfl | rfl := h.2 e he <;> rfl

section Parts

variable {condition body orElse : Coding}

theorem touchesOnly_inBlock (hbody : Coding.TouchesOnly names A body) (count : Nat) :
    Coding.TouchesOnly names A (InBlock body count) := by
  rintro x _ ⟨inner, off, hinner, hoff, rfl⟩
  exact touchesOnly_append.2 ⟨hbody _ inner hinner, touchesOnly_unwinds hoff⟩

theorem touchesOnly_conditional (hcondition : Coding.TouchesOnly names A condition)
    (hbody : Coding.TouchesOnly names A body) (horElse : Coding.TouchesOnly names A orElse) (line : Nat) :
    Coding.TouchesOnly names A (Conditional condition body orElse line) := by
  rintro x _ ⟨c, b, e, toElse, toEnd, hc, hb, -, he, -, rfl⟩
  simp only [touchesOnly_append, touchesOnly_cons]
  exact ⟨hcondition _ c hc, Instr.touchesOnly_of_none rfl, Instr.touchesOnly_of_none rfl, hbody _ b hb,
    Instr.touchesOnly_of_none rfl, Instr.touchesOnly_of_none rfl, horElse _ e he⟩

theorem touchesOnly_looping (hcondition : Coding.TouchesOnly names A condition)
    (hbody : Coding.TouchesOnly names A body) (line : Nat) :
    Coding.TouchesOnly names A (Looping condition body line) := by
  rintro x _ ⟨c, b, exit, back, hc, hb, -, -, rfl⟩
  simp only [touchesOnly_append, touchesOnly_cons, Written.of, List.map_cons, List.map_nil]
  exact ⟨hcondition _ c hc, Instr.touchesOnly_of_none rfl, Instr.touchesOnly_of_none rfl, hbody _ b hb,
    Instr.touchesOnly_of_none rfl, Instr.touchesOnly_of_none rfl, touchesOnly_nil⟩

theorem touchesOnly_iterating {name : String} (hiterable : Coding.TouchesOnly names A condition)
    (hbody : Coding.TouchesOnly names A body) (line : Nat) :
    Coding.TouchesOnly names A (Iterating T name condition body line) := by
  refine touchesOnly_inBlock ?_ 3
  rintro x _ ⟨it, first, loop, hit, -, hloop, rfl⟩
  refine touchesOnly_append.2 ⟨hiterable _ it hit, touchesOnly_cons.2 ⟨Instr.touchesOnly_of_none rfl,
    touchesOnly_cons.2 ⟨Instr.touchesOnly_of_none rfl, ?_⟩⟩⟩
  refine touchesOnly_looping ?_ ?_ line _ loop hloop
  · rintro y _ ⟨c, i, one, -, -, -, rfl⟩
    exact touchesOnly_of (by simp [Instr.global?])
  · rintro y _ ⟨c, i, v, b, -, -, -, hb, rfl⟩
    exact touchesOnly_append.2 ⟨touchesOnly_of (by simp [Instr.global?]), hbody _ b hb⟩

end Parts

/-! ### Statements -/

mutual

/-- **The instructions of a statement** touch the names that the statement mentions. Those of a
function that it declares are in a chunk of their own. -/
theorem Stmt.touchesOnly : (p : Stmt) → (∀ n, p.Mentions n → A n) → Coding.TouchesOnly T.names A (p.Coded T)
  | .expr value, hA, x, code, h => by
    obtain ⟨v, hv, rfl⟩ := h
    exact (value.touchesOnly hv hA).snoc rfl
  | .var _ value _, hA, x, code, h => by
    obtain ⟨v, d, hv, hd, rfl⟩ := h
    exact touchesOnly_append.2 ⟨touchesOnly_valueOrNil hv hA, touchesOnly_binds hd⟩
  | .let_ _ value _, hA, x, code, h => by
    obtain ⟨v, d, hv, hd, rfl⟩ := h
    exact touchesOnly_append.2 ⟨value.touchesOnly hv hA, touchesOnly_binds hd⟩
  | .block body _, hA, x, code, h =>
    touchesOnly_inBlock (Stmt.allTouchOnly body hA) _ x code h
  | .if_ condition body none span, hA, x, code, h =>
    touchesOnly_conditional (fun _ _ hc => condition.touchesOnly hc fun n hn => hA n (.inl hn))
      (touchesOnly_inBlock (Stmt.allTouchOnly body fun n hn => hA n (.inr hn)) _)
      (fun _ _ he => by subst he; exact touchesOnly_nil) span.line x code h
  | .if_ condition body (some orElse) span, hA, x, code, h =>
    touchesOnly_conditional (fun _ _ hc => condition.touchesOnly hc fun n hn => hA n (.inl hn))
      (touchesOnly_inBlock (Stmt.allTouchOnly body fun n hn => hA n (.inr (.inl hn))) _)
      (orElse.touchesOnly fun n hn => hA n (.inr (.inr hn))) span.line x code h
  | .while_ condition body span, hA, x, code, h =>
    touchesOnly_looping (fun _ _ hc => condition.touchesOnly hc fun n hn => hA n (.inl hn))
      (touchesOnly_inBlock (Stmt.allTouchOnly body fun n hn => hA n (.inr hn)) _) span.line x code h
  | .for_ _ iterable body span, hA, x, code, h =>
    touchesOnly_iterating (fun _ _ hc => iterable.touchesOnly hc fun n hn => hA n (.inl hn))
      (touchesOnly_inBlock (Stmt.allTouchOnly body fun n hn => hA n (.inr hn)) _) span.line x code h
  | .function _ _ _ _, _, x, code, h => by
    obtain ⟨f, d, ⟨w, k, q, sources, inner, rfl, -⟩, hd, rfl⟩ := h
    exact touchesOnly_append.2 ⟨touchesOnly_nil.snoc rfl, touchesOnly_binds hd⟩
  | .return_ value _, hA, x, code, h => by
    obtain ⟨v, hv, rfl⟩ := h
    exact (touchesOnly_valueOrNil hv hA).snoc rfl
  | .break_ _, _, x, code, h | .continue_ _, _, x, code, h => by
    obtain ⟨loop, off, w, -, hoff, -, rfl⟩ := h
    exact (touchesOnly_unwinds hoff).snoc rfl

theorem Stmt.allTouchOnly : (ps : List Stmt) → (∀ n, Stmt.AnyMentions ps n → A n) →
    Coding.TouchesOnly T.names A (Stmt.CodedAll ps T)
  | [], _, x, code, h => by
    rw [Stmt.CodedAll] at h
    subst h
    exact touchesOnly_nil
  | p :: ps, hA, x, code, h => by
    obtain ⟨first, rest, hfirst, hrest, rfl⟩ := h
    exact touchesOnly_append.2 ⟨p.touchesOnly (fun n hn => hA n (.inl hn)) x first hfirst,
      Stmt.allTouchOnly ps (fun n hn => hA n (.inr hn)) _ rest hrest⟩

end

/-! ### Functions -/

/-- **The code of a function** is that of its body, and an end that names no global. -/
theorem touchesOnly_body {body : List Stmt} (h : Stmt.CodedAll body T x code)
    (hA : ∀ n, Stmt.AnyMentions body n → A n) (line : Nat) :
    (code ++ Written.of [⟨.nil, ()⟩, ⟨.return_, ()⟩] line).TouchesOnly T.names A :=
  touchesOnly_append.2 ⟨Stmt.allTouchOnly body hA x code h, touchesOnly_of (by simp [Instr.global?])⟩

/-- **A function that is made** touches the names that its body mentions. -/
theorem touchesOnly_made {name : String} {params : List String} {body : List Stmt}
    (h : MakesClosure T name params (Stmt.CodedAll body) line x code)
    (hA : ∀ n, Stmt.AnyMentions body n → A n) :
    ∃ (w : UInt16) (k : Nat) (f : Prototype Literal) (sources : List CaptureSource),
      code = [(⟨.closure, (w, sources)⟩, line)] ∧ T.constants[w.toNat]? = some (.function k) ∧
      T.functions[k]? = some f ∧ f.chunk.TouchesOnly A := by
  obtain ⟨w, k, f, sources, inner, hcode, hconstant, hfunction, -, -, -, -, -, hinner, hreads⟩ := h
  exact ⟨w, k, f, sources, hcode, hconstant, hfunction, _, hreads, touchesOnly_body hinner hA line⟩

namespace Compile

open State

variable {s s' s₁ s₂ : State} {b : Block}

/-- **The state behind a node** has functions that were there before, and others that touch no global but
those of `A`. -/
def State.Adds (A : String → Prop) (s s' : State) : Prop :=
  ∀ f ∈ s'.functions, f ∈ s.functions ∨ f.chunk.TouchesOnly A

theorem State.Adds.of_eq (h : s'.functions = s.functions) : s.Adds A s' :=
  fun _ hf => .inl (h ▸ hf)

theorem State.Adds.trans (h : s.Adds A s₁) (h' : s₁.Adds A s') : s.Adds A s' :=
  fun f hf => (h' f hf).elim (h f) .inr

section Unchanged

variable {n : String} {w : UInt16}

@[simp] theorem functions_over (s : State) (size : Nat) : (s.over size).functions = s.functions := rfl

@[simp] theorem functions_withConstant (s : State) (l : Literal) :
    (s.withConstant l).functions = s.functions := rfl

@[simp] theorem functions_withScope (s : State) (f : Scope → Scope) :
    (s.withScope f).functions = s.functions := rfl

theorem functions_addName (h : Gives (addName n line) s w s') : s'.functions = s.functions := by
  obtain ⟨_, rfl, -, -⟩ := h.addName
  rfl

theorem functions_located {place : Place} (h : Located n line s place w s') :
    s'.functions = s.functions := by
  cases h with
  | slot => rfl
  | capture h =>
    cases h
    rfl
  | global _ hw => exact functions_addName hw

theorem functions_declare {isMutable : Bool} (h : Gives (declare n isMutable line) s b s') :
    s'.functions = s.functions := by
  rcases h.declare with ⟨-, w, t, hw, -, rfl⟩ | ⟨-, -, rfl⟩
  · rw [functions_over, functions_addName hw]
  · rfl

end Unchanged

mutual

/-- **An expression has no function in it,** and its code comes with none. -/
theorem functions_expr : (e : Expr) → {s s' : State} → {b : Block} → Gives (expr e) s b s' →
    s'.functions = s.functions
  | .number .., s, s', b, h | .text .., s, s', b, h => by
    obtain ⟨w, -, -, rfl⟩ := gives_emitConstant.1 (by simpa only [expr] using h)
    rfl
  | .bool true _, s, s', b, h | .bool false _, s, s', b, h | .nil _, s, s', b, h => by
    obtain ⟨-, rfl⟩ := gives_emit.1 (by simpa only [expr] using h)
    rfl
  | .name .., s, s', b, h => by
    rw [expr] at h
    obtain ⟨place, w, t, hlocated, -, rfl⟩ := h.readVariable
    rw [functions_over, functions_located hlocated]
  | .array elements _, s, s', b, h => by
    obtain ⟨b₁, s₁, count, h₁, -, -, rfl⟩ := h.array
    rw [functions_over, functions_exprs elements h₁]
  | .record entries _, s, s', b, h => by
    obtain ⟨b₁, s₁, count, h₁, -, -, rfl⟩ := h.record
    rw [functions_over, functions_fields entries h₁]
  | .binary left _ right _, s, s', b, h => by
    obtain ⟨b₁, s₁, b₂, s₂, h₁, h₂, -, rfl⟩ := h.binary
    rw [functions_over, functions_expr right h₂, functions_expr left h₁]
  | .logical left _ right _, s, s', b, h => by
    obtain ⟨b₁, s₁, b₂, distance, h₁, h₂, -, -⟩ := h.logical
    rw [functions_expr right h₂, functions_over, functions_over, functions_expr left h₁]
  | .unary _ operand _, s, s', b, h => by
    obtain ⟨b₁, s₁, i, h₁, -, -, rfl⟩ := h.unary
    rw [functions_over, functions_expr operand h₁]
  | .call callee args _, s, s', b, h => by
    obtain ⟨-, ⟨-, b₁, s₁, h₁, -, rfl⟩ | ⟨-, b₁, s₁, b₂, s₂, h₁, h₂, -, rfl⟩⟩ := h.call
    · rw [functions_over, functions_exprs args h₁]
    · rw [functions_over, functions_exprs args h₂, functions_expr callee h₁]
  | .group inner _, s, s', b, h => functions_expr inner (by simpa only [expr] using h)
  | .assign _ value _, s, s', b, h => by
    obtain ⟨b₁, s₁, b₂, h₁, h₂, -⟩ := h.assign
    obtain ⟨place, w, t, hlocated, -, rfl⟩ := h₂.writeVariable
    rw [functions_over, functions_located hlocated, functions_expr value h₁]
  | .get object _ _, s, s', b, h => by
    obtain ⟨b₁, s₁, w, s₂, h₁, hw, -, rfl⟩ := h.get
    rw [functions_over, functions_addName hw, functions_expr object h₁]
  | .set object _ value _, s, s', b, h => by
    obtain ⟨b₁, s₁, b₂, s₂, w, s₃, h₁, h₂, hw, -, rfl⟩ := h.set
    rw [functions_over, functions_addName hw, functions_expr value h₂, functions_expr object h₁]
  | .index object key _, s, s', b, h => by
    obtain ⟨b₁, s₁, b₂, s₂, h₁, h₂, -, rfl⟩ := h.index
    rw [functions_over, functions_expr key h₂, functions_expr object h₁]
  | .setIndex object key value _, s, s', b, h => by
    obtain ⟨b₁, s₁, b₂, s₂, b₃, s₃, h₁, h₂, h₃, -, rfl⟩ := h.setIndex
    rw [functions_over, functions_expr value h₃, functions_expr key h₂, functions_expr object h₁]

theorem functions_exprs : (es : List Expr) → {s s' : State} → {b : Block} →
    Gives (exprs es #[]) s b s' → s'.functions = s.functions
  | [], s, s', b, h => by
    obtain ⟨-, rfl⟩ := gives_pure.1 (by simpa only [exprs] using h)
    rfl
  | e :: es, s, s', b, h => by
    obtain ⟨b₁, s₁, b₂, h₁, h₂, -⟩ := h.exprs_cons
    rw [functions_exprs es h₂, functions_expr e h₁]

theorem functions_fields : (es : List (String × Expr)) → {s s' : State} → {b : Block} → {line : Nat} →
    Gives (fields es line #[]) s b s' → s'.functions = s.functions
  | [], s, s', b, line, h => by
    obtain ⟨-, rfl⟩ := gives_pure.1 (by simpa only [fields] using h)
    rfl
  | (key, e) :: es, s, s', b, line, h => by
    obtain ⟨w, b₁, s₁, b₂, -, h₁, h₂, -⟩ := h.fields_cons
    rw [functions_fields es h₂, functions_expr e h₁, functions_over, functions_withConstant]

end

theorem functions_valueOrNil {value : Option Expr} (h : Gives (valueOrNil value line) s b s') :
    s'.functions = s.functions := by
  cases value with
  | some value => exact functions_expr value h
  | none =>
    obtain ⟨-, rfl⟩ := gives_emit.1 h
    rfl

/-- Every state is covered by tables. -/
theorem exists_covers (s : State) : ∃ T, Covers T s := by
  refine ⟨{ constants := s.current.constants, names := s.current.names, functions := s.functions
            captures := sources s.current
            enclosing := s.enclosing.map fun c => ⟨c.locals.map (·.name), sources c⟩ },
    List.prefix_rfl, List.prefix_rfl, List.prefix_rfl, List.prefix_rfl, ?_⟩
  refine List.forall₂_map_right_iff.2 (List.forall₂_same.2 fun c _ => ⟨rfl, List.prefix_rfl⟩)

/-- What holds of the body of a function, a block or a loop: the functions that come with it. -/
def Adding (body : Step Block) (A : String → Prop) : Prop :=
  ∀ {s s' : State} {b : Block}, s.Wf → s.Inside → Gives body s b s' → s.Adds A s'

/-- **A function** comes with those in its body, and is one more itself. -/
theorem adds_function {name : String} {params : List String} {body : List Stmt}
    (hp : Stmt.AllRegular body) (hA : ∀ n, Stmt.AnyMentions body n → A n)
    (hbody : Adding (stmts body #[]) A) (hs : s.Wf)
    (h : Gives (function name params (stmts body #[]) line) s b s') : s.Adds A s' := by
  obtain ⟨T, hT⟩ := exists_covers s'
  have hmade := makesClosure_function (sound_stmts body hp)
    (fun hs hin _ h => says_stmts body hp hs hin h) hs h
    (x := { inBlock := true, loop := none, locals := s.inScope, offset := 0 }) hT rfl
  obtain ⟨w, k, f, captured, hcode, hconstant, hfunction, htouches⟩ := touchesOnly_made hmade hA
  obtain ⟨-, b₁, s₁, s₂, w', h₁, rfl, hw, rfl, rfl⟩ := h.function
  obtain ⟨hwf, hloops, -, -⟩ := wf_nested hs params
  have hin : (s.nested params).Inside := fun loop hl => by rw [hloops] at hl; cases hl
  -- The closure refers to the function that was added last.
  obtain rfl : w' = w := congrArg Prod.fst (eq_of_heq (Instr.mk.inj (Prod.mk.inj
    (List.head_eq_of_cons_eq hcode)).1).2)
  have hk : T.constants[w'.toNat]? = some (.function s₁.functions.size) :=
    Covers.constant (hT.of_grows (grows_over _ _)) hw
  obtain rfl := Literal.function.inj (Option.some.inj (hconstant.symm.trans hk))
  have hlast := getElem?_of_extends hT.functions Array.getElem?_push_size
  obtain rfl := Option.some.inj (hfunction.symm.trans hlast)
  intro f hf
  rcases Array.mem_push.1 hf with hf | rfl
  · exact hbody hwf hin h₁ f hf
  · exact .inr htouches

/-! ### Functions in statements -/

theorem adds_withBlock {body : Step Block} (hbody : Adding body A) (hs : s.Wf)
    (hin : s.entered.Inside) (h : Gives (withBlock body) s b s') : s.Adds A s' := by
  obtain ⟨b₁, s₁, h₁, -, rfl⟩ := h.withBlock
  have hadds := hbody (wf_entered hs) hin h₁
  exact hadds

theorem adding_iteration (name : String) {iterable : Expr} {body : Step Block} (hsound : Sound body)
    (hbody : Adding body A) : Adding (iteration name (expr iterable) (withBlock body) line) A := by
  intro s s' b hs hin h
  obtain ⟨b₁, s₁, w, b₂, h₁, hw, h₂, -⟩ := h.iteration
  have hslots := executes_forSlots name line hs hin h₁ hw
  obtain ⟨c₁, t₁, c₂, t₂, c₃, t₃, back, exit, g₁, -, g₂, htake, g₃, hin₃, -, -, -, -, -, rfl⟩ :=
    rounds_parts hsound hslots.wf rfl h₂
  have hfront : t₂.functions = s.functions := by
    obtain ⟨_, _, _, -, -, -, -, rfl⟩ := g₁.nextIndex
    obtain ⟨_, _, _, -, -, -, -, rfl⟩ := g₂.takeElement
    have hiterable := functions_expr iterable h₁
    exact hiterable
  have hadds := adds_withBlock hbody htake.wf hin₃ g₃
  exact (Adds.of_eq hfront).trans hadds

mutual

/-- **The functions that come with a statement** touch the names that the statement mentions. -/
theorem adds_stmt : (p : Stmt) → p.Regular → (∀ n, p.Mentions n → A n) → Adding (stmt p) A
  | .expr value, _, _, s, s', b, _, _, h => by
    obtain ⟨b₁, s₁, h₁, -, rfl⟩ := h.stmt_expr
    exact .of_eq ((functions_over _ _).trans (functions_expr value h₁))
  | .var _ value _, _, _, s, s', b, _, _, h => by
    obtain ⟨b₁, s₁, b₂, h₁, h₂, -⟩ := h.stmt_var
    exact .of_eq ((functions_declare h₂).trans (functions_valueOrNil h₁))
  | .let_ _ value _, _, _, s, s', b, _, _, h => by
    obtain ⟨b₁, s₁, b₂, h₁, h₂, -⟩ := h.stmt_let
    exact .of_eq ((functions_declare h₂).trans (functions_expr value h₁))
  | .block body _, hp, hA, s, s', b, hs, hin, h => by
    rw [Stmt.Regular] at hp
    rw [stmt] at h
    exact adds_withBlock (adds_stmts body hp hA) hs (fun loop hl => Nat.lt_succ_of_lt (hin loop hl)) h
  | .if_ condition body none _, hp, hA, s, s', b, hs, hin, h => by
    rw [Stmt.Regular] at hp
    rw [stmt] at h
    obtain ⟨b₁, s₁, b₂, s₂, b₃, toElse, toEnd, h₁, h₂, -, h₃, -, -⟩ := h.conditional
    have hcondition := computes_expr condition hs h₁
    obtain ⟨-, rfl⟩ := gives_pure.1 h₃
    have hblock := adds_withBlock (adds_stmts body hp fun n hn => hA n (.inr hn))
      (wf_over (wf_over hcondition.wf 3) 1)
      (fun loop hl => Nat.lt_succ_of_lt (hcondition.grows.inside hin loop hl)) h₂
    exact (Adds.of_eq (functions_expr condition h₁)).trans hblock
  | .if_ condition body (some orElse) _, hp, hA, s, s', b, hs, hin, h => by
    rw [Stmt.Regular] at hp
    obtain ⟨hregular, -, hregular'⟩ := hp
    rw [stmt] at h
    obtain ⟨b₁, s₁, b₂, s₂, b₃, toElse, toEnd, h₁, h₂, -, h₃, -, -⟩ := h.conditional
    have hcondition := computes_expr condition hs h₁
    have hwf₁ := wf_over (wf_over hcondition.wf 3) 1
    have hin₁ := hcondition.grows.inside hin
    have hin₁' : ((s₁.over 3).over 1).entered.Inside := fun loop hl => Nat.lt_succ_of_lt (hin₁ loop hl)
    have hfirst := adds_withBlock (adds_stmts body hregular fun n hn => hA n (.inr (.inl hn))) hwf₁ hin₁' h₂
    have hbody := (sound_withBlock (sound_stmts body hregular) hwf₁ hin₁' h₂).1
    have hin₂ : s₂.Inside := hbody.grows.inside (fun loop hl => hin₁ loop hl)
    have hsecond := adds_stmt orElse hregular' (fun n hn => hA n (.inr (.inr hn)))
      (wf_over (wf_over hbody.wf 3) 1) (fun loop hl => hin₂ loop hl) h₃
    exact (Adds.of_eq (functions_expr condition h₁)).trans (hfirst.trans hsecond)
  | .while_ condition body _, hp, hA, s, s', b, hs, hin, h => by
    rw [Stmt.Regular] at hp
    rw [stmt] at h
    obtain ⟨b₁, s₁, b₂, s₂, back, exit, h₁, h₂, -, -, -, rfl⟩ := h.whileLoop
    have hcondition := computes_expr condition (wf_looping hs) h₁
    have hcondition' := functions_expr condition h₁
    have hblock := adds_withBlock (adds_stmts body hp fun n hn => hA n (.inr hn))
      (wf_over (wf_over hcondition.wf 3) 1)
      (inside_entered_looping s hcondition.grows.depth hcondition.grows.loops) h₂
    exact (Adds.of_eq hcondition').trans hblock
  | .for_ name iterable body _, hp, hA, s, s', b, hs, hin, h => by
    rw [Stmt.Regular] at hp
    rw [stmt, forLoop_eq] at h
    exact adds_withBlock (adding_iteration name (sound_stmts body hp)
      (adds_stmts body hp fun n hn => hA n (.inr hn))) hs (fun loop hl => Nat.lt_succ_of_lt (hin loop hl)) h
  | .function name params body _, hp, hA, s, s', b, hs, _, h => by
    rw [Stmt.Regular] at hp
    rcases h.stmt_function with ⟨-, b₁, s₁, w, s₂, h₁, hw, -, rfl⟩ | ⟨-, h₁⟩
    · have hadds := adds_function hp hA (adds_stmts body hp hA) hs h₁
      exact hadds.trans (.of_eq ((functions_over _ _).trans (functions_addName hw)))
    · have hadds := adds_function hp hA (adds_stmts body hp hA) (wf_declare hs name false) h₁
      exact hadds
  | .return_ value _, _, _, s, s', b, _, _, h => by
    obtain ⟨b₁, s₁, h₁, -, rfl⟩ := h.stmt_return
    exact .of_eq ((functions_over _ _).trans (functions_valueOrNil h₁))
  | .break_ _, _, _, s, s', b, _, _, h => by
    obtain ⟨loop, outer, -, -, rfl⟩ := h.stmt_break
    exact .of_eq rfl
  | .continue_ _, _, _, s, s', b, _, _, h => by
    obtain ⟨loop, outer, w, -, -, -, rfl⟩ := h.stmt_continue
    exact .of_eq rfl

theorem adds_stmts : (ps : List Stmt) → Stmt.AllRegular ps → (∀ n, Stmt.AnyMentions ps n → A n) →
    Adding (stmts ps #[]) A
  | [], _, _, s, s', b, _, _, h => by
    obtain ⟨-, rfl⟩ := gives_pure.1 (by simpa only [stmts] using h)
    exact .of_eq rfl
  | p :: ps, hp, hA, s, s', b, hs, hin, h => by
    rw [Stmt.AllRegular] at hp
    obtain ⟨b₁, s₁, b₂, h₁, h₂, -⟩ := h.stmts_cons
    have hexec := (executes_stmt p hp.1 hs hin h₁).1
    exact (adds_stmt p hp.1 (fun n hn => hA n (.inl hn)) hs hin h₁).trans
      (adds_stmts ps hp.2 (fun n hn => hA n (.inr hn)) hexec.wf (hexec.grows.inside hin) h₂)

end

end Compile

/-! ### Programs -/

/-- The statements of a script and the expression at its end mention what the script mentions. -/
theorem anyMentions_splitLast {ps : List Stmt} {n : String} : Stmt.AnyMentions ps n ↔
    Stmt.AnyMentions (splitLast ps).1 n ∨ ∃ e ∈ (splitLast ps).2, e.Mentions n := by
  induction ps using splitLast.induct with
  | case1 => simp [splitLast, Stmt.AnyMentions]
  | case2 value => simp [splitLast, Stmt.AnyMentions, Stmt.Mentions]
  | case3 p ps hlast ih =>
    rw [splitLast, Stmt.AnyMentions, ih, Stmt.AnyMentions, or_assoc]
    exact hlast

/-- **All code of a compiled program** touches the names that the program mentions. -/
theorem Compiled.chunks_touchesOnly {p : Program} {c : Compiled} (hp : Stmt.AllRegular p.statements)
    (h : Compiled.ofProgram p = .ok c) : ∀ chunk ∈ c.chunks, chunk.TouchesOnly (· ∈ p.mentions) := by
  have hbody : ∀ n, Stmt.AnyMentions (splitLast p.statements).1 n → n ∈ p.mentions := fun n hn =>
    Program.mem_mentions.2 (anyMentions_splitLast.2 (.inl hn))
  refine List.forall_mem_cons.2 ⟨?_, fun chunk hchunk => ?_⟩
  · obtain ⟨body, value, hcoded, hvalue, hreads⟩ := translates_ofProgram hp h
    refine ⟨_, hreads, touchesOnly_append.2 ⟨Stmt.allTouchOnly _ hbody _ body hcoded, ?_⟩⟩
    exact (touchesOnly_valueOrNil hvalue fun n hn =>
      Program.mem_mentions.2 (anyMentions_splitLast.2 (.inr hn))).snoc rfl
  · obtain ⟨f, hf, rfl⟩ := List.mem_map.1 hchunk
    obtain ⟨b₁, s₁, b₂, s₂, h₁, h₂, rfl⟩ := Compiled.ofProgram_eq h
    have hadds := adds_stmts _ (splitLast_regular hp) hbody wf_initial (fun loop hl => by cases hl) h₁
    have hf' : f ∈ s₁.functions := functions_valueOrNil h₂ ▸ Array.mem_toList_iff.1 hf
    exact (hadds f hf').resolve_left (Array.not_mem_empty f)

end DeployScript
