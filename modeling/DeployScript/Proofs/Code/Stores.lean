import Mathlib
import DeployScript.Heap.Compile
import DeployScript.Proofs.Code.Bytes
import DeployScript.Proofs.Code.Congruence

/-!
# Where functions are stored

A program is compiled twice before it runs: once as a check, with its functions one after another, and
once with its functions on the heap of the machine, wherever there is room. The two go alike, step by
step: they give the same instructions, they fail for the same reason, and their constants differ in
the numbers of functions only. Nothing that is emitted, and no limit, depends on these numbers.

* `Compile.Pairing` — two stores in which functions that correspond get numbers that correspond.
* `Compile.Pairing.Agrees` — a step of the compilation goes alike with both stores.
* `agrees_stmt`, `agrees_program` — by induction over the nodes of a program, every step does.
* `Heap.compile_eq` — so the compilation into a heap is the check, with its functions installed.
-/

namespace DeployScript

/-! ### Results that correspond -/

/-- The same failure, or answers that correspond. -/
inductive Corresponds {ε α β : Type} (R : α → β → Prop) : Except ε α → Except ε β → Prop
  | error (e : ε) : Corresponds R (.error e) (.error e)
  | ok {a : α} {b : β} (h : R a b) : Corresponds R (.ok a) (.ok b)

theorem Corresponds.bind {ε α β γ δ : Type} {R : α → β → Prop} {Q : γ → δ → Prop}
    {x : Except ε α} {y : Except ε β} {f : α → Except ε γ} {g : β → Except ε δ}
    (h : Corresponds R x y) (hf : ∀ a b, R a b → Corresponds Q (f a) (g b)) :
    Corresponds Q (x >>= f) (y >>= g) := by
  cases h with
  | error e => exact .error e
  | ok h => exact hf _ _ h

theorem Corresponds.imp {ε α β : Type} {R Q : α → β → Prop} {x : Except ε α} {y : Except ε β}
    (h : Corresponds R x y) (hrq : ∀ a b, R a b → Q a b) : Corresponds Q x y := by
  cases h with
  | error e => exact .error e
  | ok h => exact .ok (hrq _ _ h)

/-- Constants that differ in the numbers of functions only. -/
inductive Literal.Alike (number : Nat → Nat → Prop) : Literal → Literal → Prop
  | number (value : Float) : Alike number (.number value) (.number value)
  | text (value : String) : Alike number (.text value) (.text value)
  | function {i j : Nat} (h : number i j) : Alike number (.function i) (.function j)

/-- Constants one after another that differ in the numbers of functions only. -/
abbrev Literal.AllAlike (number : Nat → Nat → Prop) (ks ks' : Array Literal) : Prop :=
  List.Forall₂ (Literal.Alike number) ks.toList ks'.toList

theorem Literal.AllAlike.push {number : Nat → Nat → Prop} {ks ks' : Array Literal} {l l' : Literal}
    (h : Literal.AllAlike number ks ks') (hl : l.Alike number l') :
    Literal.AllAlike number (ks.push l) (ks'.push l') := by
  unfold Literal.AllAlike
  rw [Array.toList_push, Array.toList_push]
  exact List.rel_append h (.cons hl .nil)

theorem Literal.AllAlike.size_eq {number : Nat → Nat → Prop} {ks ks' : Array Literal}
    (h : Literal.AllAlike number ks ks') : ks'.size = ks.size := by
  have hlength := List.Forall₂.length_eq h
  rw [Array.length_toList, Array.length_toList] at hlength
  exact hlength.symm

/-- Scopes that differ in the numbers of functions only. -/
inductive Scope.Alike (number : Nat → Nat → Prop) (c : Scope) : Scope → Prop
  | of {ks : Array Literal} (h : Literal.AllAlike number c.constants ks) :
    Alike number c { c with constants := ks }

theorem Scope.Alike.lookup? {number : Nat → Nat → Prop} {c c' : Scope} (h : c.Alike number c')
    (name : String) : c'.lookup? name = c.lookup? name := by
  cases h with
  | of => rfl

theorem Scope.Alike.captures {number : Nat → Nat → Prop} {c c' : Scope} (h : c.Alike number c') :
    c'.captures = c.captures := by
  cases h with
  | of => rfl

theorem Scope.Alike.markCaptured {number : Nat → Nat → Prop} {c c' : Scope} (h : c.Alike number c')
    (name : String) : (c.markCaptured name).Alike number (c'.markCaptured name) := by
  cases h with
  | of h => exact .of h

theorem Literal.Alike.mono {number number' : Nat → Nat → Prop}
    (hle : ∀ i j, number i j → number' i j) {l l' : Literal} (h : l.Alike number l') :
    l.Alike number' l' := by
  cases h with
  | number value => exact .number value
  | text value => exact .text value
  | function h => exact .function (hle _ _ h)

theorem Scope.Alike.mono {number number' : Nat → Nat → Prop}
    (hle : ∀ i j, number i j → number' i j) {c c' : Scope} (h : c.Alike number c') :
    c.Alike number' c' := by
  cases h with
  | of h => exact .of (h.imp fun _ _ hl => hl.mono hle)

theorem Scope.Alike.of_empty {number : Nat → Nat → Prop} {c : Scope} (h : c.constants = #[]) :
    c.Alike number c :=
  @Scope.Alike.of number c c.constants (by rw [h]; exact .nil)

/-- What changes no constants keeps scopes alike. -/
theorem Scope.Alike.map {number : Nat → Nat → Prop} {c c' : Scope} (h : c.Alike number c')
    {f : Scope → Scope} (hf : ∀ c ks, f { c with constants := ks } = { f c with constants := ks }) :
    (f c).Alike number (f c') := by
  cases h with
  | @of ks h =>
    have hsame : f c = { f c with constants := c.constants } := hf c c.constants
    have hconstants : (f c).constants = c.constants := by rw [hsame]
    rw [hf c ks]
    exact .of (hconstants.symm ▸ h)

namespace Compile

/-- **Two stores side by side:** which states of them belong together, and which numbers stand for the
same function there. A function that is added to both gets numbers that correspond, and numbers that
corresponded before still do. -/
structure Pairing (σ τ : Type) [Store σ] [Store τ] where
  Paired : σ → τ → Prop
  Number : σ → τ → Nat → Nat → Prop
  add : ∀ {f : σ} {g : τ} {p : Prototype Literal} {ks : Array Literal}, Paired f g →
    Literal.AllAlike (Number f g) p.chunk.constants ks →
    let p' := { p with chunk := { p.chunk with constants := ks } }
    Paired (Store.add p f).2 (Store.add p' g).2 ∧
      Number (Store.add p f).2 (Store.add p' g).2 (Store.add p f).1 (Store.add p' g).1 ∧
      ∀ i j, Number f g i j → Number (Store.add p f).2 (Store.add p' g).2 i j

namespace Pairing

variable {σ τ : Type} [Store σ] [Store τ] (P : Pairing σ τ)

/-- States that differ in the numbers of functions only. -/
structure Alike (s : State σ) (t : State τ) : Prop where
  paired : P.Paired s.functions t.functions
  current : s.current.Alike (P.Number s.functions t.functions) t.current
  enclosing : List.Forall₂ (Scope.Alike (P.Number s.functions t.functions)) s.enclosing t.enclosing

/-- The same failure, or the same answer in states that are alike. -/
abbrev Ends {α : Type} : Except ScriptError (α × State σ) → Except ScriptError (α × State τ) → Prop :=
  Corresponds fun r r' => r.1 = r'.1 ∧ P.Alike r.2 r'.2

/-- **A step goes alike** with both stores. -/
def Agrees {α : Type} (x : StepIn σ α) (y : StepIn τ α) : Prop :=
  ∀ s t, P.Alike s t → P.Ends (x s) (y t)

variable {P} {α β : Type}

theorem Ends.bind {x : StepIn σ α} {y : StepIn τ α} {f : α → StepIn σ β} {g : α → StepIn τ β}
    {s : State σ} {t : State τ} (h : P.Ends (x s) (y t)) (hf : ∀ a, P.Agrees (f a) (g a)) :
    P.Ends ((x >>= f) s) ((y >>= g) t) := by
  refine Corresponds.bind h ?_
  rintro ⟨a, s'⟩ ⟨_, t'⟩ ⟨rfl, halike⟩
  exact hf a s' t' halike

theorem agrees_pure (a : α) : P.Agrees (pure a) (pure a) := fun _ _ h => .ok ⟨rfl, h⟩

theorem Agrees.bind {x : StepIn σ α} {y : StepIn τ α} {f : α → StepIn σ β} {g : α → StepIn τ β}
    (h : P.Agrees x y) (hf : ∀ a, P.Agrees (f a) (g a)) : P.Agrees (x >>= f) (y >>= g) :=
  fun s t halike => (h s t halike).bind hf

theorem agrees_throw (e : ScriptError) :
    P.Agrees (throw e : StepIn σ α) (throw e : StepIn τ α) := fun _ _ _ => .error e

/-- What follows may look at the whole state. -/
theorem agrees_get {f : State σ → StepIn σ β} {g : State τ → StepIn τ β}
    (h : ∀ s t, P.Alike s t → P.Ends (f s s) (g t t)) : P.Agrees (get >>= f) (get >>= g) := h

/-- What follows may look at the scope, but not at its constants. -/
theorem agrees_scope {f : Scope → StepIn σ β} {g : Scope → StepIn τ β}
    (h : ∀ c ks, ks.size = c.constants.size → P.Agrees (f c) (g { c with constants := ks })) :
    P.Agrees (scope >>= f) (scope >>= g) := by
  intro s t halike
  obtain ⟨current, enclosing, functions⟩ := t
  have hcurrent := halike.current
  dsimp only at hcurrent
  cases hcurrent with
  | of hks => exact h _ _ (Literal.AllAlike.size_eq hks) _ _ halike

theorem agrees_modifyScope {f : Scope → Scope}
    (hf : ∀ c ks, f { c with constants := ks } = { f c with constants := ks }) :
    P.Agrees (modifyScope f) (modifyScope f) :=
  fun _ _ h => .ok ⟨rfl, h.paired, h.current.map hf, h.enclosing⟩

/-! ### Constants -/

/-- A constant gets the same place in both. -/
theorem ends_addConstant {s : State σ} {t : State τ} (h : P.Alike s t) {l l' : Literal}
    (hl : l.Alike (P.Number s.functions t.functions) l') (line : Nat) :
    P.Ends (addConstant l line s) (addConstant l' line t) := by
  obtain ⟨current, enclosing, functions⟩ := t
  have hcurrent := h.current
  dsimp only at hcurrent
  cases hcurrent with
  | @of ks hks =>
    have hsize : ks.size = s.current.constants.size := Literal.AllAlike.size_eq hks
    change P.Ends
      ((wide s.current.constants.size .constantPool line >>= fun index => do
        modifyScope fun c => { c with constants := c.constants.push l }
        return index) s)
      ((wide ks.size .constantPool line >>= fun index => do
        modifyScope fun c => { c with constants := c.constants.push l' }
        return index) ⟨{ s.current with constants := ks }, enclosing, functions⟩)
    rw [hsize]
    unfold wide
    split
    · exact .ok ⟨rfl, h.paired, .of (hks.push hl), h.enclosing⟩
    · exact .error _

theorem agrees_addConstant {l : Literal} (line : Nat) (hl : l.Plain) :
    P.Agrees (addConstant l line) (addConstant l line) := by
  intro s t h
  refine ends_addConstant h ?_ line
  cases hl with
  | number value => exact .number value
  | text value => exact .text value

/-! ### Variables -/

section Captures

variable {number : Nat → Nat → Prop}

/-- A capture that is found: the same place in scopes that are alike. -/
abbrev AlikeCaptures (number : Nat → Nat → Prop) :
    Option (Nat × Scope × List Scope) → Option (Nat × Scope × List Scope) → Prop :=
  Option.Rel fun r r' => r.1 = r'.1 ∧ r.2.1.Alike number r'.2.1 ∧
    List.Forall₂ (Scope.Alike number) r.2.2 r'.2.2

theorem alike_addCapture {c c' : Scope} (h : c.Alike number c') (capture : Capture) (line : Nat) :
    Corresponds (fun r r' => r.1 = r'.1 ∧ r.2.Alike number r'.2) (c.addCapture capture line)
      (c'.addCapture capture line) := by
  cases h with
  | of hks =>
    unfold Scope.addCapture
    dsimp only
    split
    · exact .ok ⟨rfl, .of hks⟩
    · split
      · exact .ok ⟨rfl, .of hks⟩
      · exact .error _

/-- **Variables further out** are found alike. -/
theorem alike_resolveCapture (name : String) (line : Nat) {enclosing enclosing' : List Scope}
    (he : List.Forall₂ (Scope.Alike number) enclosing enclosing') :
    ∀ {c c' : Scope}, c.Alike number c' →
      Corresponds (AlikeCaptures number) (Scope.resolveCapture name line c enclosing)
        (Scope.resolveCapture name line c' enclosing') := by
  induction he with
  | nil => exact fun _ => .ok .none
  | @cons parent parent' outer outer' hparent houter ih =>
    intro c c' hc
    rw [Scope.resolveCapture, Scope.resolveCapture, hparent.lookup?]
    split
    case h_1 slot l _ =>
      split
      case isTrue =>
        refine (alike_addCapture hc _ line).bind ?_
        rintro ⟨index, c₁⟩ ⟨_, c₁'⟩ ⟨rfl, hc₁⟩
        exact .ok (.some ⟨rfl, hc₁, .cons (hparent.markCaptured name) houter⟩)
      case isFalse => exact .error _
    case h_2 =>
      refine (ih hparent).bind fun found found' hfound => ?_
      cases hfound with
      | none => exact .ok .none
      | @some r r' hr =>
        obtain ⟨inner, p, o⟩ := r
        obtain ⟨inner', p', o'⟩ := r'
        obtain ⟨rfl, hp, ho⟩ := hr
        dsimp only at hp ho ⊢
        rw [hp.captures]
        refine (alike_addCapture hc _ line).bind ?_
        rintro ⟨index, c₁⟩ ⟨_, c₁'⟩ ⟨rfl, hc₁⟩
        exact .ok (.some ⟨rfl, hc₁, .cons hp ho⟩)

end Captures

theorem ends_lift {γ δ : Type} {R : γ → δ → Prop} {x : Except ScriptError γ}
    {y : Except ScriptError δ} {f : γ → StepIn σ α} {g : δ → StepIn τ α} {s : State σ} {t : State τ}
    (h : Corresponds R x y) (hf : ∀ c d, R c d → P.Ends (f c s) (g d t)) :
    P.Ends ((liftM x >>= f) s) ((liftM y >>= g) t) := by
  cases h with
  | error e => exact .error e
  | ok h => exact hf _ _ h

theorem agrees_resolve (name : String) (line : Nat) :
    P.Agrees (resolve name line) (resolve name line) := by
  refine agrees_get fun s t h => ?_
  rw [h.current.lookup?]
  cases s.current.lookup? name with
  | some found => exact .ok ⟨rfl, h⟩
  | none =>
    refine ends_lift (alike_resolveCapture name line h.enclosing h.current) fun found found' hf => ?_
    cases hf with
    | none => exact .ok ⟨rfl, h⟩
    | @some r r' hr =>
      obtain ⟨index, current, enclosing⟩ := r
      obtain ⟨index', current', enclosing'⟩ := r'
      obtain ⟨rfl, hcurrent, henclosing⟩ := hr
      dsimp only at hcurrent henclosing ⊢
      rw [hcurrent.captures]
      exact .ok ⟨rfl, h.paired, hcurrent, henclosing⟩

/-! ### Functions -/

theorem agrees_modify {f : State σ → State σ} {g : State τ → State τ}
    (h : ∀ s t, P.Alike s t → P.Alike (f s) (g t)) : P.Agrees (modify f) (modify g) :=
  fun s t halike => .ok ⟨rfl, h s t halike⟩

theorem agrees_emit (i : Instr) (line : Nat) : P.Agrees (emit i line) (emit i line) :=
  (agrees_modifyScope fun _ _ => rfl).bind fun _ => agrees_pure _

/-- The scope around a function, behind it. -/
theorem alike_headD {number : Nat → Nat → Prop} {c c' : Scope} {enclosing enclosing' : List Scope}
    (hc : c.Alike number c') (he : List.Forall₂ (Scope.Alike number) enclosing enclosing') :
    (enclosing.headD c).Alike number (enclosing'.headD c') := by
  cases he with
  | nil => exact hc
  | cons h _ => exact h

theorem forall₂_tail {number : Nat → Nat → Prop} {enclosing enclosing' : List Scope}
    (he : List.Forall₂ (Scope.Alike number) enclosing enclosing') :
    List.Forall₂ (Scope.Alike number) enclosing.tail enclosing'.tail := by
  cases he with
  | nil => exact .nil
  | cons _ h => exact h

/-- **A function is added** to both stores, and its number is a constant of the function around it. -/
theorem agrees_function (name : String) (params : List String) {body : StepIn σ Block}
    {body' : StepIn τ Block} (line : Nat) (hfew : params.length ≤ maxParams)
    (hbody : P.Agrees body body') :
    P.Agrees (function name params body line) (function name params body' line) := by
  unfold function
  rw [if_neg (Nat.not_lt.2 hfew), if_neg (Nat.not_lt.2 hfew)]
  refine (agrees_modify ?_).bind fun _ => hbody.bind fun code => (agrees_emit _ _).bind fun _ =>
    (agrees_emit _ _).bind fun _ => agrees_get fun s t h => ?_
  · intro s t h
    have hfresh : ∀ c : Scope, (params.foldl (fun f p => f.declare p true) c).constants
        = c.constants := by
      induction params with
      | nil => exact fun _ => rfl
      | cons p params ih => exact fun c => ih (Nat.le_of_succ_le hfew) (c.declare p true)
    exact ⟨h.paired, .of_empty (hfresh _), .cons h.current h.enclosing⟩
  · obtain ⟨current, enclosing, functions⟩ := t
    have hcurrent := h.current
    dsimp only at hcurrent ⊢
    cases hcurrent with
    | @of ks hks =>
      rename_i b₁ b₂
      let p : Prototype Literal :=
        { name, params, captures := s.current.captures.size
          chunk := (code ++ b₁ ++ b₂).toChunk s.current.constants s.current.names }
      have hconstants : p.chunk.constants = s.current.constants := by
        simp only [p, Block.toChunk_eq]
      have hchunk : (code ++ b₁ ++ b₂).toChunk ks s.current.names
          = { p.chunk with constants := ks } := by
        simp only [p, Block.toChunk_eq]
      obtain ⟨hpaired, hnumber, hmono⟩ := P.add (p := p) h.paired (hconstants ▸ hks)
      rw [hchunk]
      have halike : P.Alike
          { s with
            current := s.enclosing.headD s.current
            enclosing := s.enclosing.tail
            functions := (Store.add p s.functions).2 }
          { current := enclosing.headD { s.current with constants := ks }
            enclosing := enclosing.tail
            functions := (Store.add { p with chunk := { p.chunk with constants := ks } } functions).2 } :=
        ⟨hpaired, (alike_headD (.of hks) h.enclosing).mono hmono,
          (forall₂_tail h.enclosing).imp fun _ _ hc => hc.mono hmono⟩
      let closure {σ : Type} (index : UInt16) : StepIn σ Block :=
        emit ⟨.closure, (index, (s.current.captures.map (·.source)).toList)⟩ line
      exact Ends.bind (f := closure) (g := closure)
        (ends_addConstant halike (.function hnumber) line) fun _ => agrees_emit _ _

variable (P) in
/-- **Going alike** is closed under what steps are put together from. -/
def congruence : Congruence σ τ where
  Holds := P.Agrees
  pure := agrees_pure
  bind hx hf := hx.bind hf
  refuse _ := agrees_throw _
  scope := agrees_scope
  modifyScope := agrees_modifyScope
  addConstant := agrees_addConstant
  resolve := agrees_resolve
  functionWithin name params _ _ line hfew hbody := agrees_function name params line hfew hbody

/-- **The code of a program** is the same in both, and its constants differ in the numbers of functions
only. -/
theorem agrees_program (p : Program) : P.Agrees (program p) (program p) := P.congruence.program p

end Pairing

end Compile

/-! ### The heap as a store -/

namespace Heap

/-- Stores functions one after another, each with the handles of those in front of it. -/
def storeAll (heap : Heap) (functions : Array (Prototype Literal)) : Array Handle × Heap :=
  functions.foldl
    (fun (handles, heap) p =>
      let (h, heap) := heap.insert
        (.function { p with chunk := p.chunk.mapConstants (literalValue handles) })
      (handles.push h, heap))
    (#[], heap)

theorem storeAll_push (heap : Heap) (functions : Array (Prototype Literal))
    (p : Prototype Literal) :
    heap.storeAll (functions.push p) =
      let stored := (heap.storeAll functions).2.insert (.function
        { p with chunk := p.chunk.mapConstants (literalValue (heap.storeAll functions).1) })
      ((heap.storeAll functions).1.push stored.1, stored.2) := by
  unfold storeAll
  rw [Array.foldl_push]

theorem size_storeAll (heap : Heap) (functions : Array (Prototype Literal)) :
    (heap.storeAll functions).1.size = functions.size := by
  refine Array.foldl_induction (fun n (stored : Array Handle × Heap) => stored.1.size = n) rfl ?_
  rintro i ⟨handles, heap⟩ hsize
  exact (Array.size_push _).trans (congrArg (· + 1) hsize)

/-- Functions are the same values, by their handles or by their slots. -/
theorem map_constantValue {handles : Array Handle} {ks ks' : Array Literal}
    (h : Literal.AllAlike (fun i j => handles[i]? = some ⟨j⟩) ks ks') :
    ks'.map constantValue = ks.map (literalValue handles) := by
  apply Array.ext'
  rw [Array.toList_map, Array.toList_map]
  unfold Literal.AllAlike at h
  generalize ks.toList = literals, ks'.toList = literals' at h
  induction h with
  | nil => rfl
  | cons hl _ ih =>
    rw [List.map_cons, List.map_cons, ih]
    cases hl with
    | number value => rfl
    | text value => rfl
    | function hk => simp [literalValue, constantValue, hk]

/-- **Functions one after another, and the same functions on a heap.** -/
def pairing (heap : Heap) : Compile.Pairing (Array (Prototype Literal)) Heap where
  Paired functions next := (heap.storeAll functions).2 = next
  Number functions _ i j := (heap.storeAll functions).1[i]? = some ⟨j⟩
  add := by
    rintro functions _ p ks rfl hks
    have hvalues := map_constantValue hks
    have hadded : (heap.storeAll (functions.push p)).1
          = (heap.storeAll functions).1.push ⟨(Compile.Store.add
              { p with chunk := { p.chunk with constants := ks } } (heap.storeAll functions).2).1⟩ ∧
        (heap.storeAll (functions.push p)).2 = (Compile.Store.add
            { p with chunk := { p.chunk with constants := ks } } (heap.storeAll functions).2).2 := by
      rw [storeAll_push]
      simp only [Compile.Store.add, Chunk.mapConstants, hvalues, and_self]
    refine ⟨hadded.2, ?_, fun i j hij => ?_⟩
    · change (heap.storeAll (functions.push p)).1[functions.size]? = _
      rw [hadded.1, ← size_storeAll heap functions, Array.getElem?_push_size]
    · change (heap.storeAll (functions.push p)).1[i]? = _
      rw [hadded.1, Array.getElem?_push]
      have hlt := (Array.getElem?_eq_some_iff.1 hij).1
      rw [if_neg (Nat.ne_of_lt hlt), hij]

/-- **The compilation into a heap** is the check, with its functions installed. -/
theorem compile_eq (heap : Heap) (p : Program) :
    heap.compile p = (Compiled.ofProgram p).map heap.install := by
  have hstart : (pairing heap).Alike (.start (#[] : Array (Prototype Literal))) (.start heap) :=
    ⟨rfl, .of_empty rfl, .nil⟩
  have hends := Compile.Pairing.agrees_program p _ _ hstart
  unfold compile Compiled.ofProgram StateT.run
  generalize Compile.program p (.start (#[] : Array (Prototype Literal))) = checked at hends ⊢
  generalize Compile.program p (.start heap) = stored at hends ⊢
  cases hends with
  | error e => rfl
  | @ok r r' h =>
    obtain ⟨code, s⟩ := r
    obtain ⟨code', current, enclosing, next⟩ := r'
    obtain ⟨rfl, hpaired, hcurrent, -⟩ := h
    dsimp only at hpaired hcurrent
    cases hcurrent with
    | of hks =>
      have hvalues := map_constantValue hks
      have hinstall : ∀ c : Compiled, heap.install c
          = (c.main.mapConstants (literalValue (heap.storeAll c.functions).1),
            (heap.storeAll c.functions).2) := fun _ => rfl
      subst hpaired
      simp only [bind, pure, Except.bind, Except.pure, Except.map, hinstall, Block.toChunk_eq,
        Chunk.mapConstants, hvalues]

end Heap

end DeployScript
