import DeployScript.Proofs.Heap.Spared
import DeployScript.Proofs.Meaning.Evaluate

/-!
# Variables that nobody assigns

A variable in a block is a cell, and a cell is reached by the names that are bound to it: in the scopes under
way, and in the scopes of the functions that there are. Where all code that reaches a cell does so by names which
it assigns nowhere, the cell keeps its value, whatever is called and whoever calls it. With no cell to keep, the
same says that every variable in scope, wherever there is one, has its cell.

* `Expr.assignsOnly`, `Stmt.assignsOnly` — code that assigns to certain names only.
* `Heap.Ages` — a heap later on; the cells of a set have kept their values.
* `Env.Shelters`, `Memory.Shelters` — all code reaches the cells of a set by names that it does not assign.
* `Result.Shelters` — it is so behind an evaluation too; `Result.Shelters.bind` puts two of them together.
* `Expr.shelters_eval`, `Stmt.shelters_eval`, `Eval.shelters_apply` — expressions, statements and calls.
* `Memory.Scoped`, `Program.scoped_eval` — scripts.
-/

namespace DeployScript

/-! ### Names that are assigned -/

mutual

/-- Whether an expression assigns to variables of certain names only. -/
def Expr.assignsOnly (ok : String → Bool) : Expr → Bool
  | .number _ _ | .text _ _ | .bool _ _ | .nil _ | .name _ _ => true
  | .array elements _ => Expr.allAssignOnly ok elements
  | .record fields _ => Expr.fieldsAssignOnly ok fields
  | .binary left _ right _ | .logical left _ right _ => left.assignsOnly ok && right.assignsOnly ok
  | .unary _ operand _ => operand.assignsOnly ok
  | .call callee args _ => callee.assignsOnly ok && Expr.allAssignOnly ok args
  | .group inner _ => inner.assignsOnly ok
  | .assign n value _ => ok n && value.assignsOnly ok
  | .get object _ _ => object.assignsOnly ok
  | .set object _ value _ => object.assignsOnly ok && value.assignsOnly ok
  | .index object key _ => object.assignsOnly ok && key.assignsOnly ok
  | .setIndex object key value _ =>
    object.assignsOnly ok && (key.assignsOnly ok && value.assignsOnly ok)

@[inherit_doc Expr.assignsOnly]
def Expr.allAssignOnly (ok : String → Bool) : List Expr → Bool
  | [] => true
  | e :: es => e.assignsOnly ok && Expr.allAssignOnly ok es

@[inherit_doc Expr.assignsOnly]
def Expr.fieldsAssignOnly (ok : String → Bool) : List (String × Expr) → Bool
  | [] => true
  | (_, e) :: es => e.assignsOnly ok && Expr.fieldsAssignOnly ok es

end

/-- Whether an expression, if there is one, assigns to variables of certain names only. -/
def Expr.assignsOnlyOrNil (ok : String → Bool) : Option Expr → Bool
  | some e => e.assignsOnly ok
  | none => true

mutual

/-- Whether a statement assigns to variables of certain names only, in the functions that it declares too. -/
def Stmt.assignsOnly (ok : String → Bool) : Stmt → Bool
  | .expr value => value.assignsOnly ok
  | .var _ value _ | .return_ value _ => Expr.assignsOnlyOrNil ok value
  | .let_ _ value _ => value.assignsOnly ok
  | .block body _ | .function _ _ body _ => Stmt.allAssignOnly ok body
  | .if_ condition body none _ | .while_ condition body _ | .for_ _ condition body _ =>
    condition.assignsOnly ok && Stmt.allAssignOnly ok body
  | .if_ condition body (some orElse) _ =>
    condition.assignsOnly ok && (Stmt.allAssignOnly ok body && orElse.assignsOnly ok)
  | .break_ _ | .continue_ _ => true

@[inherit_doc Stmt.assignsOnly]
def Stmt.allAssignOnly (ok : String → Bool) : List Stmt → Bool
  | [] => true
  | p :: ps => p.assignsOnly ok && Stmt.allAssignOnly ok ps

end

mutual

/-- Every expression assigns to names of some kind. -/
theorem Expr.assignsOnly_true : (e : Expr) → e.assignsOnly (fun _ => true) = true
  | .number _ _ | .text _ _ | .bool _ _ | .nil _ | .name _ _ => rfl
  | .array elements _ => Expr.allAssignOnly_true elements
  | .record fields _ => Expr.fieldsAssignOnly_true fields
  | .binary left _ right _ | .logical left _ right _ =>
    Bool.and_eq_true_iff.2 ⟨left.assignsOnly_true, right.assignsOnly_true⟩
  | .unary _ operand _ => operand.assignsOnly_true
  | .call callee args _ => Bool.and_eq_true_iff.2 ⟨callee.assignsOnly_true, Expr.allAssignOnly_true args⟩
  | .group inner _ => inner.assignsOnly_true
  | .assign _ value _ => value.assignsOnly_true
  | .get object _ _ => object.assignsOnly_true
  | .set object _ value _ => Bool.and_eq_true_iff.2 ⟨object.assignsOnly_true, value.assignsOnly_true⟩
  | .index object key _ => Bool.and_eq_true_iff.2 ⟨object.assignsOnly_true, key.assignsOnly_true⟩
  | .setIndex object key value _ => Bool.and_eq_true_iff.2
    ⟨object.assignsOnly_true, Bool.and_eq_true_iff.2 ⟨key.assignsOnly_true, value.assignsOnly_true⟩⟩

@[inherit_doc Expr.assignsOnly_true]
theorem Expr.allAssignOnly_true : (es : List Expr) → Expr.allAssignOnly (fun _ => true) es = true
  | [] => rfl
  | e :: es => Bool.and_eq_true_iff.2 ⟨e.assignsOnly_true, Expr.allAssignOnly_true es⟩

@[inherit_doc Expr.assignsOnly_true]
theorem Expr.fieldsAssignOnly_true :
    (es : List (String × Expr)) → Expr.fieldsAssignOnly (fun _ => true) es = true
  | [] => rfl
  | (_, e) :: es => Bool.and_eq_true_iff.2 ⟨e.assignsOnly_true, Expr.fieldsAssignOnly_true es⟩

end

theorem Expr.assignsOnlyOrNil_true (value : Option Expr) :
    Expr.assignsOnlyOrNil (fun _ => true) value = true := by
  cases value with
  | none => rfl
  | some e => exact e.assignsOnly_true

mutual

/-- Every statement assigns to names of some kind. -/
theorem Stmt.assignsOnly_true : (p : Stmt) → p.assignsOnly (fun _ => true) = true
  | .expr value => value.assignsOnly_true
  | .var _ value _ | .return_ value _ => Expr.assignsOnlyOrNil_true value
  | .let_ _ value _ => value.assignsOnly_true
  | .block body _ | .function _ _ body _ => Stmt.allAssignOnly_true body
  | .if_ condition body none _ | .while_ condition body _ | .for_ _ condition body _ =>
    Bool.and_eq_true_iff.2 ⟨condition.assignsOnly_true, Stmt.allAssignOnly_true body⟩
  | .if_ condition body (some orElse) _ => Bool.and_eq_true_iff.2
    ⟨condition.assignsOnly_true,
      Bool.and_eq_true_iff.2 ⟨Stmt.allAssignOnly_true body, orElse.assignsOnly_true⟩⟩
  | .break_ _ | .continue_ _ => rfl

@[inherit_doc Stmt.assignsOnly_true]
theorem Stmt.allAssignOnly_true : (ps : List Stmt) → Stmt.allAssignOnly (fun _ => true) ps = true
  | [] => rfl
  | p :: ps => Bool.and_eq_true_iff.2 ⟨p.assignsOnly_true, Stmt.allAssignOnly_true ps⟩

end

/-! ### Heaps -/

theorem Assignment.latest_of_notMem {as : List Assignment} {h : Handle} (v : Value) (hn : ∀ a ∈ as, a.1 ≠ h) :
    latest as h v = v := by
  induction as with
  | nil => rfl
  | cons a as ih =>
    rw [List.forall_mem_cons] at hn
    have hskip : latest (a :: as) h v = latest as h v := by
      unfold latest
      rw [List.foldl_cons, if_neg hn.1]
    rw [hskip, ih hn.2]

namespace Heap

/-- **A heap later on:** closed cells are closed cells, those of a set with the values that they had, and arrays
are arrays. -/
structure Ages (kept : Set Handle) (heap heap' : Heap) : Prop where
  wf : heap'.Wf
  closed : ∀ h v, heap.cell? h = some (.closed v) →
    ∃ v', heap'.cell? h = some (.closed v') ∧ (h ∈ kept → v' = v)
  array : ∀ g, (heap.array? g).isSome → (heap'.array? g).isSome

/-- A closed cell that is not one of a set. -/
def Unkept (kept : Set Handle) (heap : Heap) (h : Handle) : Prop :=
  (∃ v, heap.cell? h = some (.closed v)) ∧ h ∉ kept

variable {own kept other : Set Handle} {as : List Assignment} {heap heap' heap'' : Heap} {h : Handle}

theorem Ages.refl (hw : heap.Wf) : heap.Ages kept heap :=
  ⟨hw, fun _ v hv => ⟨v, hv, fun _ => rfl⟩, fun _ hi => hi⟩

theorem Ages.trans (ha : heap.Ages kept heap') (ha' : heap'.Ages kept heap'') : heap.Ages kept heap'' where
  wf := ha'.wf
  closed h v hv := by
    obtain ⟨v', hv', hsame⟩ := ha.closed h v hv
    obtain ⟨v'', hv'', hsame'⟩ := ha'.closed h v' hv'
    exact ⟨v'', hv'', fun hh => (hsame' hh).trans (hsame hh)⟩
  array g hi := ha'.array g (ha.array g hi)

/-- What spares closed cells but for assignments to others keeps their values. -/
theorem Spares.ages (hs : heap.Spares own as heap') (has : ∀ a ∈ as, a.1 ∉ kept) : heap.Ages kept heap' where
  wf := hs.wf
  closed h v hv := by
    refine ⟨_, hs.closed h v hv, fun hh => Assignment.latest_of_notMem v ?_⟩
    rintro a ha rfl
    exact has a ha hh
  array := hs.array

theorem Spares.ages_nil (hs : heap.Spares ∅ [] heap') : heap.Ages kept heap' := hs.ages nofun

/-- A closed cell stays one. -/
theorem Ages.live (ha : heap.Ages kept heap') (hh : ∃ v, heap.cell? h = some (.closed v)) :
    ∃ v, heap'.cell? h = some (.closed v) := by
  obtain ⟨v, hv⟩ := hh
  obtain ⟨v', hv', -⟩ := ha.closed h v hv
  exact ⟨v', hv'⟩

theorem Unkept.ages (hu : heap.Unkept kept h) (ha : heap.Ages kept heap') : heap'.Unkept kept h :=
  ⟨ha.live hu.1, hu.2⟩

theorem ages_setCell (hw : heap.Wf) (hu : heap.Unkept kept h) (v : Value) :
    heap.Ages kept (heap.setCell h (.closed v)) := by
  obtain ⟨⟨old, hold⟩, hnot⟩ := hu
  have hspares : heap.Spares Set.univ [(h, v)] (heap.setCell h (.closed v)) := .assign hw hold v
  exact hspares.ages fun a ha => by rwa [List.mem_singleton.1 ha]

end Heap

/-! ### Scopes and functions -/

section

variable {ω : Type} {kept other : Set Handle} {ok : String → Bool} {heap heap' : Heap} {env : Env}
  {μ μ' : Memory ω}

/-- **The variables in scope have their cells,** and no name that is assigned leads to a cell of the set. -/
def Env.Shelters (kept : Set Handle) (ok : String → Bool) (heap : Heap) (env : Env) : Prop :=
  ∀ x h, (x, h) ∈ env → (∃ v, heap.cell? h = some (.closed v)) ∧ (h ∈ kept → ok x = false)

/-- The variables in scope at a function are such for what its body assigns. -/
def Lambda.Shelters (kept : Set Handle) (heap : Heap) (f : Lambda) : Prop :=
  ∃ ok, Stmt.allAssignOnly ok f.body = true ∧ f.env.Shelters kept ok heap

/-- **The cells of the set are there,** and no function assigns to one of them. -/
structure Memory.Shelters (kept : Set Handle) (μ : Memory ω) : Prop where
  wf : μ.heap.Wf
  live : ∀ h ∈ kept, ∃ v, μ.heap.cell? h = some (.closed v)
  lambdas : ∀ g f, μ.lambdas g = some f → f.Shelters kept μ.heap

theorem Env.shelters_nil : Env.Shelters kept ok heap [] := nofun

theorem Env.Shelters.cons (h : env.Shelters kept ok heap) {x : String} {g : Handle}
    (hg : heap.Unkept kept g) : Env.Shelters kept ok heap ((x, g) :: env) := by
  intro y k hk
  obtain heq | hk := List.mem_cons.1 hk
  · obtain ⟨rfl, rfl⟩ := Prod.mk.inj heq
    exact ⟨hg.1, fun hmem => absurd hmem hg.2⟩
  · exact h y k hk

theorem Env.Shelters.ages (h : env.Shelters kept ok heap) (ha : heap.Ages other heap') :
    env.Shelters kept ok heap' := fun x g hg => ⟨ha.live (h x g hg).1, (h x g hg).2⟩

/-- A name that may be assigned leads to a cell outside the set. -/
theorem Env.Shelters.unkept (h : env.Shelters kept ok heap) {x : String} {g : Handle}
    (hg : env.lookup x = some g) (hx : ok x = true) : heap.Unkept kept g := by
  have hmem : (x, g) ∈ env := by
    obtain ⟨l₁, l₂, rfl, -⟩ := List.lookup_eq_some_iff.1 hg
    exact List.mem_append_right l₁ List.mem_cons_self
  obtain ⟨hlive, hassigned⟩ := h x g hmem
  refine ⟨hlive, fun hmem => ?_⟩
  rw [hassigned hmem] at hx
  cases hx

theorem Lambda.Shelters.ages {f : Lambda} (h : f.Shelters kept heap) (ha : heap.Ages other heap') :
    f.Shelters kept heap' := by
  obtain ⟨ok, hbody, henv⟩ := h
  exact ⟨ok, hbody, henv.ages ha⟩

/-- A memory with the same functions and a later heap. -/
theorem Memory.Shelters.ages (h : μ.Shelters kept) (ha : μ.heap.Ages other μ'.heap)
    (hl : μ'.lambdas = μ.lambdas) : μ'.Shelters kept where
  wf := ha.wf
  live g hg := ha.live (h.live g hg)
  lambdas g f hf := (h.lambdas g f (hl ▸ hf)).ages ha

end

/-! ### Evaluations -/

variable {ω α β : Type} {kept : Set Handle} {ok : String → Bool} {env : Env} {μ μ' : Memory ω} {heap : Heap}
  {post mid : α → Heap → Prop}

/-- **A result behind which the cells of the set are as they were,** and out of reach of all assignments as
before. -/
def Result.Shelters (kept : Set Handle) (post : α → Heap → Prop) (heap : Heap) : Result ω α → Prop
  | .ok a μ => heap.Ages kept μ.heap ∧ μ.Shelters kept ∧ post a μ.heap
  | .error _ μ => heap.Ages kept μ.heap ∧ μ.Shelters kept
  | .unfinished => True

/-- No more is asked of a result. -/
abbrev Anything : α → Heap → Prop := fun _ _ => True

/-- Behind a statement the variables in scope have their cells. -/
def Flow.Shelters (kept : Set Handle) (ok : String → Bool) : Flow → Heap → Prop
  | .next env, heap => env.Shelters kept ok heap
  | _, _ => True

theorem Flow.Shelters.leave {flow : Flow} (h : env.Shelters kept ok heap) :
    Flow.Shelters kept ok (flow.leave env) heap := by
  cases flow with
  | next => exact h
  | _ => trivial

namespace Result

theorem Shelters.mono {r : Result ω α} {post' : α → Heap → Prop} (h : r.Shelters kept post heap)
    (hpost : ∀ a heap, post a heap → post' a heap) : r.Shelters kept post' heap := by
  cases r with
  | ok a μ => exact ⟨h.1, h.2.1, hpost a _ h.2.2⟩
  | error cause μ => exact h
  | unfinished => trivial

/-- **One evaluation and what follows it.** -/
theorem Shelters.bind {x : Eval ω α} {f : α → Eval ω β} {post : β → Heap → Prop}
    (hx : (x μ).Shelters kept mid μ.heap)
    (hf : ∀ a μ', μ.heap.Ages kept μ'.heap → μ'.Shelters kept → mid a μ'.heap →
      (f a μ').Shelters kept post μ'.heap) : ((x >>= f) μ).Shelters kept post μ.heap := by
  change (Eval.andThen x f μ).Shelters kept post μ.heap
  unfold Eval.andThen
  cases hr : x μ with
  | unfinished => trivial
  | error cause μ₁ =>
    rw [hr] at hx
    exact hx
  | ok a μ₁ =>
    rw [hr] at hx
    obtain ⟨ha, hμ₁, hmid⟩ := hx
    have hrest := hf a μ₁ ha hμ₁ hmid
    dsimp only
    cases hlast : f a μ₁ with
    | unfinished => trivial
    | error cause μ₂ =>
      rw [hlast] at hrest
      exact ⟨ha.trans hrest.1, hrest.2⟩
    | ok b μ₂ =>
      rw [hlast] at hrest
      exact ⟨ha.trans hrest.1, hrest.2⟩

end Result

namespace Memory.Shelters

/-- A result in a memory with the same functions and a later heap. -/
theorem result (h : μ.Shelters kept) {a : α} (ha : μ.heap.Ages kept μ'.heap) (hl : μ'.lambdas = μ.lambdas)
    (hpost : post a μ'.heap) : (Result.ok a μ').Shelters kept post μ.heap := ⟨ha, h.ages ha hl, hpost⟩

/-- A result in the same memory. -/
theorem pure (h : μ.Shelters kept) {a : α} (hpost : post a μ.heap) :
    ((Pure.pure a : Eval ω α) μ).Shelters kept post μ.heap := h.result (.refl h.wf) rfl hpost

/-- A failure in the same memory. -/
theorem fail (h : μ.Shelters kept) (cause : Cause) :
    (Result.error cause μ : Result ω α).Shelters kept post μ.heap := ⟨.refl h.wf, h⟩

end Memory.Shelters

namespace Eval

variable (hμ : μ.Shelters kept)

include hμ

theorem shelters_given (result : Heap → Except Cause α) :
    (given result μ).Shelters kept Anything μ.heap := by
  unfold given
  cases result μ.heap with
  | ok a => exact hμ.pure trivial
  | error cause => exact hμ.fail cause

theorem shelters_change {f : Heap → α × Heap} (ha : μ.heap.Ages kept (f μ.heap).2)
    (hpost : post (f μ.heap).1 (f μ.heap).2) : (change f μ).Shelters kept post μ.heap :=
  hμ.result ha rfl hpost

/-- **A new cell** is none of the set. -/
theorem shelters_newCell (v : Value) :
    (newCell v μ).Shelters kept (fun h heap => heap.Unkept kept h) μ.heap := by
  refine shelters_change hμ (Heap.Spares.insert_plain hμ.wf (.cell (.closed v)) nofun).ages_nil ?_
  obtain ⟨hnone, -, hget⟩ :=
    hμ.wf.tidy.get?_insert (Prod.mk.eta (p := μ.heap.insert (.cell (.closed v)))).symm
  refine ⟨⟨v, ?_⟩, fun hmem => ?_⟩
  · rw [Heap.cell?_eq, hget, if_pos rfl]
  · -- The cells of the set are there before, and at the place of the new one there was nothing.
    obtain ⟨w, hw⟩ := hμ.live _ hmem
    rw [Heap.cell?_eq, hnone] at hw
    cases hw

theorem shelters_readCell (h : Handle) : (readCell h μ).Shelters kept Anything μ.heap := by
  unfold readCell
  split
  · exact hμ.pure trivial
  · exact hμ.pure trivial

theorem shelters_setCell {h : Handle} (hu : μ.heap.Unkept kept h) (v : Value) :
    (setCell h v μ).Shelters kept Anything μ.heap := shelters_change hμ (Heap.ages_setCell hμ.wf hu v) trivial

theorem shelters_read (env : Env) (name : String) : (read env name μ).Shelters kept Anything μ.heap := by
  unfold read
  cases env.lookup name with
  | some h => exact shelters_readCell hμ h
  | none =>
    dsimp only
    split
    · exact hμ.pure trivial
    · exact hμ.fail _

theorem shelters_bindGlobal (name : String) (v : Value) (isMutable : Bool) :
    (bindGlobal name v isMutable μ).Shelters kept Anything μ.heap :=
  hμ.result (.refl hμ.wf) rfl trivial

/-- **An assignment** to a name that may be assigned. -/
theorem shelters_assign (henv : env.Shelters kept ok μ.heap) {name : String} (hname : ok name = true)
    (v : Value) : (assign env name v μ).Shelters kept Anything μ.heap := by
  unfold assign
  cases hlookup : env.lookup name with
  | some h => exact shelters_setCell hμ (henv.unkept hlookup hname) v
  | none =>
    dsimp only
    split
    · split
      · exact shelters_bindGlobal hμ _ _ _
      · exact hμ.fail _
    · exact hμ.fail _

theorem shelters_define (name : String) (v : Value) (isMutable : Bool) :
    (define name v isMutable μ).Shelters kept Anything μ.heap := by
  unfold define
  split
  · split
    · exact hμ.fail _
    · exact shelters_bindGlobal hμ _ _ _
  · exact shelters_bindGlobal hμ _ _ _

theorem shelters_declare (henv : env.Shelters kept ok μ.heap) (inBlock : Bool) (name : String) (v : Value)
    (isMutable : Bool) : (declare inBlock env name v isMutable μ).Shelters kept
      (fun env heap => env.Shelters kept ok heap) μ.heap := by
  unfold declare
  cases inBlock with
  | true =>
    exact (shelters_newCell hμ v).bind fun h μ' ha hμ' hh => hμ'.pure ((henv.ages ha).cons hh)
  | false =>
    exact (shelters_define hμ name v isMutable).bind fun _ μ' ha hμ' _ => hμ'.pure (henv.ages ha)

omit hμ in
theorem shelters_declareAll (hμ : μ.Shelters kept) (henv : env.Shelters kept ok μ.heap) (params : List String)
    (args : List Value) : (declareAll params args env μ).Shelters kept
      (fun env heap => env.Shelters kept ok heap) μ.heap := by
  induction params generalizing args env μ with
  | nil => exact hμ.pure henv
  | cons p params ih =>
    cases args with
    | nil => exact hμ.pure henv
    | cons v args =>
      exact (shelters_newCell hμ v).bind fun h μ' ha hμ' hh => ih hμ' ((henv.ages ha).cons hh) args

/-- **A new function** whose body assigns to no cell of the set. -/
theorem shelters_closure (name : String) {f : Lambda} (hf : f.Shelters kept μ.heap) :
    (closure name f μ).Shelters kept Anything μ.heap := by
  let function := μ.heap.insert (named name)
  let closure := function.2.insert (.closure { function := function.1, cells := #[] })
  have hfunction : μ.heap.Spares ∅ [] function.2 := .insert_plain hμ.wf (named name) nofun
  have hclosure : function.2.Spares ∅ [] closure.2 :=
    .insert_plain hfunction.wf _ fun d hd => by cases hd; rfl
  have hages : μ.heap.Ages kept closure.2 := (hfunction.trans hclosure).ages_nil
  refine ⟨hages, ⟨hages.wf, fun g hg => hages.live (hμ.live g hg), fun g f' hf' => ?_⟩, trivial⟩
  -- One function is new, and the others are in a heap that has only grown.
  change (if g = closure.1 then some f else μ.lambdas g) = some f' at hf'
  by_cases hg : g = closure.1
  · rw [if_pos hg] at hf'
    cases hf'
    exact hf.ages hages
  · rw [if_neg hg] at hf'
    exact (hμ.lambdas g f' hf').ages hages

theorem shelters_write (target : Heap → Except Cause Heap.Target) (v : Value) :
    (write target v μ).Shelters kept Anything μ.heap :=
  (shelters_given hμ target).bind fun target _ _ hμ' _ =>
    shelters_change hμ' (Heap.spares_store hμ'.wf target v).ages_nil trivial

theorem shelters_print (values : List Value) : (print values μ).Shelters kept Anything μ.heap :=
  hμ.result (.refl hμ.wf) rfl trivial

theorem shelters_intrinsic (f : Intrinsic) (args : List Value) :
    (intrinsic f args μ).Shelters kept Anything μ.heap := by
  have hrest : ∀ μ' : Memory ω, μ'.Shelters kept → ((do
      let effect ← given fun heap => (f.effect? heap args).mapError Cause.failure
      change (·.perform effect) : Eval ω Value) μ').Shelters kept Anything μ'.heap := fun μ' hμ' =>
    (shelters_given hμ' _).bind fun effect μ'' _ hμ'' _ =>
      shelters_change hμ'' (Heap.spares_perform hμ''.wf effect).ages_nil trivial
  unfold intrinsic
  cases f.arity? with
  | none => exact hrest μ hμ
  | some arity =>
    dsimp only
    split
    · have hfail : ((fail (.wrongArity arity args.length) : Eval ω Unit) μ).Shelters kept Anything μ.heap :=
        hμ.fail _
      exact hfail.bind fun _ μ' _ hμ' _ => hrest μ' hμ'
    · exact hrest μ hμ

theorem shelters_builtin (caller name : String) (args : List Value) :
    (builtin caller name args μ).Shelters kept Anything μ.heap := by
  unfold builtin
  cases μ.library.get? name with
  | none => exact hμ.fail _
  | some b =>
    dsimp only
    cases μ.heap.unpack b.name b.params args with
    | error cause => exact hμ.fail _
    | ok given =>
      dsimp only
      obtain ⟨result, world⟩ := b.run { caller, assets := μ.assets } given μ.world
      -- The world is another one, and the heap and the functions are the same.
      have hheap : μ.heap.Ages kept μ.heap := .refl hμ.wf
      have hworld : ({ μ with world } : Memory ω).Shelters kept := hμ.ages hheap rfl
      cases result with
      | error cause => exact ⟨hheap, hworld⟩
      | ok result =>
        exact shelters_change hworld (Heap.spares_ofHost hμ.wf result).ages_nil trivial

end Eval

open Eval

/-- A way to call that leaves the cells of the set alone. -/
def CallsShelter (kept : Set Handle) (call : Calling ω) : Prop :=
  ∀ f args μ, μ.Shelters kept → (call f args μ).Shelters kept Anything μ.heap

/-! ### Expressions -/

section Calling

variable {call : Calling ω}

mutual

/-- **The value of an expression** that assigns to other names. -/
theorem Expr.shelters_eval (hcall : CallsShelter kept call) {μ : Memory ω} : (e : Expr) →
    e.assignsOnly ok = true → env.Shelters kept ok μ.heap → μ.Shelters kept →
    (e.eval call env μ).Shelters kept Anything μ.heap
  | .number _ _, _, _, hμ | .text _ _, _, _, hμ | .bool _ _, _, _, hμ | .nil _, _, _, hμ => hμ.pure trivial
  | .name x _, _, _, hμ => shelters_read hμ env x
  | .array elements _, hok, henv, hμ =>
    (Expr.shelters_evalAll hcall elements hok henv hμ).bind fun _ _ _ hμ' _ =>
      shelters_change hμ' (Heap.spares_newArray hμ'.wf _).ages_nil trivial
  | .record fields _, hok, henv, hμ =>
    (Expr.shelters_evalFields hcall fields hok henv hμ).bind fun _ _ _ hμ' _ =>
      shelters_change hμ' (Heap.spares_newRecord hμ'.wf _).ages_nil trivial
  | .binary left _ right _, hok, henv, hμ =>
    have ⟨hleft, hright⟩ := Bool.and_eq_true_iff.1 hok
    (Expr.shelters_eval hcall left hleft henv hμ).bind fun _ _ ha hμ' _ =>
      (Expr.shelters_eval hcall right hright (henv.ages ha) hμ').bind fun _ _ _ hμ'' _ =>
        shelters_given hμ'' _
  | .logical left op right _, hok, henv, hμ =>
    have ⟨hleft, hright⟩ := Bool.and_eq_true_iff.1 hok
    (Expr.shelters_eval hcall left hleft henv hμ).bind fun a μ' ha hμ' _ => by
      cases op.decides a with
      | true => exact hμ'.pure trivial
      | false => exact Expr.shelters_eval hcall right hright (henv.ages ha) hμ'
  | .unary _ operand _, hok, henv, hμ =>
    (Expr.shelters_eval hcall operand hok henv hμ).bind fun _ _ _ hμ' _ => shelters_given hμ' _
  | .call callee args _, hok, henv, hμ => by
    have ⟨hcallee, hargs⟩ := Bool.and_eq_true_iff.1 hok
    unfold Expr.eval
    split
    · exact (Expr.shelters_evalAll hcall args hargs henv hμ).bind fun _ _ _ hμ' _ => shelters_print hμ' _
    · exact (Expr.shelters_eval hcall callee hcallee henv hμ).bind fun f _ ha hμ' _ =>
        (Expr.shelters_evalAll hcall args hargs (henv.ages ha) hμ').bind fun values _ _ hμ'' _ =>
          hcall f values _ hμ''
  | .group inner _, hok, henv, hμ => Expr.shelters_eval hcall inner hok henv hμ
  | .assign _ value _, hok, henv, hμ =>
    have ⟨hname, hvalue⟩ := Bool.and_eq_true_iff.1 hok
    (Expr.shelters_eval hcall value hvalue henv hμ).bind fun v _ ha hμ' _ =>
      (shelters_assign hμ' (henv.ages ha) hname v).bind fun _ _ _ hμ'' _ => hμ''.pure trivial
  | .get object _ _, hok, henv, hμ =>
    (Expr.shelters_eval hcall object hok henv hμ).bind fun _ _ _ hμ' _ => shelters_given hμ' _
  | .set object _ value _, hok, henv, hμ =>
    have ⟨hobject, hvalue⟩ := Bool.and_eq_true_iff.1 hok
    (Expr.shelters_eval hcall object hobject henv hμ).bind fun _ _ ha hμ' _ =>
      (Expr.shelters_eval hcall value hvalue (henv.ages ha) hμ').bind fun v _ _ hμ'' _ =>
        shelters_write hμ'' _ v
  | .index object key _, hok, henv, hμ =>
    have ⟨hobject, hkey⟩ := Bool.and_eq_true_iff.1 hok
    (Expr.shelters_eval hcall object hobject henv hμ).bind fun _ _ ha hμ' _ =>
      (Expr.shelters_eval hcall key hkey (henv.ages ha) hμ').bind fun _ _ _ hμ'' _ => shelters_given hμ'' _
  | .setIndex object key value _, hok, henv, hμ =>
    have ⟨hobject, hrest⟩ := Bool.and_eq_true_iff.1 hok
    have ⟨hkey, hvalue⟩ := Bool.and_eq_true_iff.1 hrest
    (Expr.shelters_eval hcall object hobject henv hμ).bind fun _ _ ha hμ' _ =>
      (Expr.shelters_eval hcall key hkey (henv.ages ha) hμ').bind fun _ _ ha' hμ'' _ =>
        (Expr.shelters_eval hcall value hvalue ((henv.ages ha).ages ha') hμ'').bind fun v _ _ hμ''' _ =>
          shelters_write hμ''' _ v

@[inherit_doc Expr.shelters_eval]
theorem Expr.shelters_evalAll (hcall : CallsShelter kept call) {μ : Memory ω} : (es : List Expr) →
    Expr.allAssignOnly ok es = true → env.Shelters kept ok μ.heap → μ.Shelters kept →
    (Expr.evalAll call es env μ).Shelters kept Anything μ.heap
  | [], _, _, hμ => hμ.pure trivial
  | e :: es, hok, henv, hμ =>
    have ⟨he, hes⟩ := Bool.and_eq_true_iff.1 hok
    (Expr.shelters_eval hcall e he henv hμ).bind fun _ _ ha hμ' _ =>
      (Expr.shelters_evalAll hcall es hes (henv.ages ha) hμ').bind fun _ _ _ hμ'' _ => hμ''.pure trivial

@[inherit_doc Expr.shelters_eval]
theorem Expr.shelters_evalFields (hcall : CallsShelter kept call) {μ : Memory ω} :
    (fields : List (String × Expr)) → Expr.fieldsAssignOnly ok fields = true →
    env.Shelters kept ok μ.heap → μ.Shelters kept →
    (Expr.evalFields call fields env μ).Shelters kept Anything μ.heap
  | [], _, _, hμ => hμ.pure trivial
  | (_, e) :: fields, hok, henv, hμ =>
    have ⟨he, hfields⟩ := Bool.and_eq_true_iff.1 hok
    (Expr.shelters_eval hcall e he henv hμ).bind fun _ _ ha hμ' _ =>
      (Expr.shelters_evalFields hcall fields hfields (henv.ages ha) hμ').bind fun _ _ _ hμ'' _ =>
        hμ''.pure trivial

end

theorem Expr.shelters_evalOrNil (hcall : CallsShelter kept call) (value : Option Expr)
    (hok : Expr.assignsOnlyOrNil ok value = true) (henv : env.Shelters kept ok μ.heap)
    (hμ : μ.Shelters kept) : (Expr.evalOrNil call value env μ).Shelters kept Anything μ.heap := by
  cases value with
  | none => exact hμ.pure trivial
  | some e => exact Expr.shelters_eval hcall e hok henv hμ

end Calling

/-! ### Statements -/

/-- **A loop** whose rounds leave the cells of the set alone. -/
theorem Eval.shelters_repeating {test : Eval ω Value} {body : Eval ω Flow} (hμ : μ.Shelters kept)
    (henv : env.Shelters kept ok μ.heap)
    (htest : ∀ μ', μ.heap.Ages kept μ'.heap → μ'.Shelters kept → (test μ').Shelters kept Anything μ'.heap)
    (hbody : ∀ μ', μ.heap.Ages kept μ'.heap → μ'.Shelters kept → (body μ').Shelters kept Anything μ'.heap)
    (rounds : Nat) : (repeating env test body rounds μ).Shelters kept (Flow.Shelters kept ok) μ.heap := by
  -- Test and body are met in later and later heaps, so they are asked for at every heap from the first on.
  induction rounds generalizing μ with
  | zero => trivial
  | succ rounds ih =>
    rw [repeating]
    refine (htest μ (.refl hμ.wf) hμ).bind fun v μ₁ ha₁ hμ₁ _ => ?_
    split
    case isFalse => exact hμ₁.pure (henv.ages ha₁)
    case isTrue =>
      refine (hbody μ₁ ha₁ hμ₁).bind fun flow μ₂ ha₂ hμ₂ _ => ?_
      have ha := ha₁.trans ha₂
      cases flow with
      | break_ => exact hμ₂.pure (henv.ages ha)
      | return_ v => exact hμ₂.pure trivial
      | next | continue_ =>
        exact ih hμ₂ (henv.ages ha) (fun μ' ha' => htest μ' (ha.trans ha'))
          fun μ' ha' => hbody μ' (ha.trans ha')

/-- The cells of a loop over a container are none of the set. -/
structure Eval.Cursor.Unkept (kept : Set Handle) (c : Cursor) (heap : Heap) : Prop where
  container : heap.Unkept kept c.container
  index : heap.Unkept kept c.index
  element : heap.Unkept kept c.element

namespace Eval

variable {c : Cursor}

theorem Cursor.Unkept.ages {heap' : Heap} (h : c.Unkept kept heap) (ha : heap.Ages kept heap') :
    c.Unkept kept heap' := ⟨h.container.ages ha, h.index.ages ha, h.element.ages ha⟩

theorem Cursor.Unkept.scope (h : c.Unkept kept heap) (henv : env.Shelters kept ok heap) (name : String) :
    (c.scope name env).Shelters kept ok heap := ((henv.cons h.container).cons h.index).cons h.element

theorem shelters_iterate (hμ : μ.Shelters kept) (container : Value) :
    (iterate container μ).Shelters kept (fun c heap => c.Unkept kept heap) μ.heap :=
  (shelters_newCell hμ _).bind fun _ _ _ hμ₁ h₁ => (shelters_newCell hμ₁ _).bind fun _ _ ha₂ hμ₂ h₂ =>
    (shelters_newCell hμ₂ _).bind fun _ _ ha₃ hμ₃ h₃ =>
      hμ₃.pure ⟨(h₁.ages ha₂).ages ha₃, h₂.ages ha₃, h₃⟩

theorem shelters_nextIndex (hμ : μ.Shelters kept) (hc : c.Unkept kept μ.heap) :
    (nextIndex c μ).Shelters kept Anything μ.heap :=
  (shelters_readCell hμ _).bind fun _ _ ha₁ hμ₁ _ => (shelters_given hμ₁ _).bind fun _ _ ha₂ hμ₂ _ =>
    (shelters_setCell hμ₂ ((hc.index.ages ha₁).ages ha₂) _).bind fun _ _ _ hμ₃ _ =>
      (shelters_readCell hμ₃ _).bind fun _ _ _ hμ₄ _ => (shelters_given hμ₄ _).bind fun _ _ _ hμ₅ _ =>
        (shelters_readCell hμ₅ _).bind fun _ _ _ hμ₆ _ => shelters_given hμ₆ _

theorem shelters_take (hμ : μ.Shelters kept) (hc : c.Unkept kept μ.heap) :
    (take c μ).Shelters kept Anything μ.heap :=
  (shelters_readCell hμ _).bind fun _ _ ha₁ hμ₁ _ => (shelters_readCell hμ₁ _).bind fun _ _ ha₂ hμ₂ _ =>
    (shelters_given hμ₂ _).bind fun _ _ ha₃ hμ₃ _ =>
      shelters_setCell hμ₃ (((hc.element.ages ha₁).ages ha₂).ages ha₃) _

end Eval

section Calling

variable {call : Calling ω}

mutual

/-- **What a statement does** that assigns to other names. -/
theorem Stmt.shelters_eval (hcall : CallsShelter kept call) (rounds : Nat) {env : Env} {μ : Memory ω} :
    (p : Stmt) → p.assignsOnly ok = true → (inBlock : Bool) → env.Shelters kept ok μ.heap → μ.Shelters kept →
    (p.eval call rounds inBlock env μ).Shelters kept (Flow.Shelters kept ok) μ.heap
  | .expr value, hok, _, henv, hμ =>
    (Expr.shelters_eval hcall value hok henv hμ).bind fun _ _ ha hμ' _ => hμ'.pure (henv.ages ha)
  | .var name value _, hok, inBlock, henv, hμ =>
    (Expr.shelters_evalOrNil hcall value hok henv hμ).bind fun v _ ha hμ' _ =>
      (shelters_declare hμ' (henv.ages ha) inBlock name v true).bind fun _ _ _ hμ'' h => hμ''.pure h
  | .let_ name value _, hok, inBlock, henv, hμ =>
    (Expr.shelters_eval hcall value hok henv hμ).bind fun v _ ha hμ' _ =>
      (shelters_declare hμ' (henv.ages ha) inBlock name v false).bind fun _ _ _ hμ'' h => hμ''.pure h
  | .block body _, hok, _, henv, hμ =>
    (Stmt.shelters_evalAll hcall rounds body hok true henv hμ).bind fun _ _ ha hμ' _ =>
      hμ'.pure (.leave (henv.ages ha))
  | .if_ condition body none _, hok, _, henv, hμ =>
    have ⟨hcondition, hbody⟩ := Bool.and_eq_true_iff.1 hok
    (Expr.shelters_eval hcall condition hcondition henv hμ).bind fun c _ ha hμ' _ => by
      cases c.isTruthy with
      | true =>
        exact (Stmt.shelters_evalAll hcall rounds body hbody true (henv.ages ha) hμ').bind
          fun _ _ ha' hμ'' _ => hμ''.pure (.leave ((henv.ages ha).ages ha'))
      | false => exact hμ'.pure (henv.ages ha)
  | .if_ condition body (some orElse) _, hok, inBlock, henv, hμ =>
    have ⟨hcondition, hbranches⟩ := Bool.and_eq_true_iff.1 hok
    have ⟨hbody, hOrElse⟩ := Bool.and_eq_true_iff.1 hbranches
    (Expr.shelters_eval hcall condition hcondition henv hμ).bind fun c _ ha hμ' _ => by
      cases c.isTruthy with
      | true =>
        exact (Stmt.shelters_evalAll hcall rounds body hbody true (henv.ages ha) hμ').bind
          fun _ _ ha' hμ'' _ => hμ''.pure (.leave ((henv.ages ha).ages ha'))
      | false =>
        exact (Stmt.shelters_eval hcall rounds orElse hOrElse inBlock (henv.ages ha) hμ').bind
          fun _ _ ha' hμ'' _ => hμ''.pure (.leave ((henv.ages ha).ages ha'))
  | .while_ condition body _, hok, _, henv, hμ =>
    have ⟨hcondition, hbody⟩ := Bool.and_eq_true_iff.1 hok
    shelters_repeating hμ henv
      (fun _ ha hμ' => Expr.shelters_eval hcall condition hcondition (henv.ages ha) hμ')
      (fun _ ha hμ' => (Stmt.shelters_evalAll hcall rounds body hbody true (henv.ages ha) hμ').mono
        fun _ _ _ => trivial) rounds
  | .for_ name iterable body _, hok, _, henv, hμ =>
    have ⟨hiterable, hbody⟩ := Bool.and_eq_true_iff.1 hok
    (Expr.shelters_eval hcall iterable hiterable henv hμ).bind fun container μ₁ ha₁ hμ₁ _ =>
      (shelters_iterate hμ₁ container).bind fun c μ₂ ha₂ hμ₂ hc =>
        have henv₂ := (henv.ages ha₁).ages ha₂
        shelters_repeating hμ₂ henv₂ (fun _ ha hμ' => shelters_nextIndex hμ' (hc.ages ha))
          (fun _ ha hμ' => (shelters_take hμ' (hc.ages ha)).bind fun _ _ ha' hμ'' _ =>
            (Stmt.shelters_evalAll hcall rounds body hbody true
              (((hc.scope henv₂ name).ages ha).ages ha') hμ'').mono fun _ _ _ => trivial) rounds
  | .function name params body _, hok, inBlock, henv, hμ => by
    cases inBlock with
    | true =>
      -- A local function sees its own cell, which is new and therefore none of the set.
      exact (shelters_newCell hμ .nil).bind fun h _ ha hμ' hh =>
        have henv' := (henv.ages ha).cons hh
        have hf : Lambda.Shelters kept _ { params, body, env := (name, h) :: env } := ⟨ok, hok, henv'⟩
        (shelters_closure hμ' name hf).bind fun f _ ha' hμ'' _ =>
          (shelters_setCell hμ'' (hh.ages ha') f).bind fun _ _ ha'' hμ''' _ =>
            hμ'''.pure ((henv'.ages ha').ages ha'')
    | false =>
      have hf : Lambda.Shelters kept μ.heap { params, body, env } := ⟨ok, hok, henv⟩
      exact (shelters_closure hμ name hf).bind fun f _ ha hμ' _ =>
        (shelters_define hμ' name f false).bind fun _ _ ha' hμ'' _ => hμ''.pure ((henv.ages ha).ages ha')
  | .return_ value _, hok, _, henv, hμ =>
    (Expr.shelters_evalOrNil hcall value hok henv hμ).bind fun _ _ _ hμ' _ => hμ'.pure trivial
  | .break_ _, _, _, _, hμ | .continue_ _, _, _, _, hμ => hμ.pure trivial

@[inherit_doc Stmt.shelters_eval]
theorem Stmt.shelters_evalAll (hcall : CallsShelter kept call) (rounds : Nat) {env : Env} {μ : Memory ω} :
    (ps : List Stmt) → Stmt.allAssignOnly ok ps = true → (inBlock : Bool) → env.Shelters kept ok μ.heap →
    μ.Shelters kept →
    (Stmt.evalAll call rounds ps inBlock env μ).Shelters kept (Flow.Shelters kept ok) μ.heap
  | [], _, _, henv, hμ => hμ.pure henv
  | p :: ps, hok, inBlock, henv, hμ =>
    have ⟨hp, hps⟩ := Bool.and_eq_true_iff.1 hok
    (Stmt.shelters_eval hcall rounds p hp inBlock henv hμ).bind fun flow _ _ hμ' hflow => by
      cases flow with
      | next env => exact Stmt.shelters_evalAll hcall rounds ps hps inBlock hflow hμ'
      | break_ | continue_ | return_ => exact hμ'.pure trivial

end

end Calling

/-! ### Calls and scripts -/

/-- **Calls** leave the cells of the set alone: no function assigns to one. -/
theorem Eval.shelters_apply (fuel depth : Nat) (caller : String) :
    CallsShelter kept (apply fuel depth caller : Calling ω) := by
  -- The body of a function makes calls of its own, with less fuel.
  induction fuel generalizing depth caller with
  | zero => exact fun _ _ _ _ => trivial
  | succ fuel ih =>
    intro callee args μ hμ
    unfold apply
    cases callee with
    | intrinsic f => exact shelters_intrinsic hμ f args
    | builtin name => exact shelters_builtin hμ caller name args
    | closure h =>
      dsimp only
      cases hf : μ.lambdas h with
      | none => exact hμ.fail _
      | some f =>
        dsimp only
        split
        · exact hμ.fail _
        split
        · exact hμ.fail _
        · obtain ⟨ok, hbody, henv⟩ := hμ.lambdas h f hf
          exact (shelters_declareAll hμ henv f.params args).bind fun env _ _ hμ' henv' =>
            (Stmt.shelters_evalAll (ih _ _) fuel f.body hbody true henv' hμ').bind fun _ _ _ hμ'' _ =>
              hμ''.pure trivial
    | _ => exact hμ.fail _

/-- **A memory in which every variable in scope has its cell,** in all functions that there are. -/
def Memory.Scoped (μ : Memory ω) : Prop := μ.Shelters ∅

/-- The memory that a result leaves is such. -/
def Result.Scoped : Result ω α → Prop
  | .ok _ μ | .error _ μ => μ.Scoped
  | .unfinished => True

theorem Result.Shelters.scoped {r : Result ω α} (h : r.Shelters ∅ post heap) : r.Scoped := by
  cases r with
  | ok a μ => exact h.2.1
  | error cause μ => exact h.2
  | unfinished => trivial

/-- **What a script does** leaves every variable in scope with its cell. -/
theorem Program.scoped_eval (p : Program) (fuel : Nat) (hμ : μ.Scoped) : (p.eval fuel μ).Scoped := by
  have hcall : CallsShelter ∅ (apply fuel 1 scriptName : Calling ω) := shelters_apply fuel 1 scriptName
  have hall := Stmt.shelters_evalAll hcall fuel (Compile.splitLast p.statements).1
    (Stmt.allAssignOnly_true _) false Env.shelters_nil hμ
  suffices hshelters : (p.eval fuel μ).Shelters ∅ Anything μ.heap from hshelters.scoped
  refine hall.bind fun flow μ' _ hμ' _ => ?_
  cases flow with
  | return_ v => exact hμ'.pure trivial
  | next | break_ | continue_ =>
    exact Expr.shelters_evalOrNil hcall _ (Expr.assignsOnlyOrNil_true _) Env.shelters_nil hμ'

end DeployScript
