import DeployScript.Proofs.Heap.Entries
import DeployScript.Proofs.Meaning.Prepared

/-!
# Loops over arrays and texts

A loop over a container asks for the number of its entries, and then reads it by number. An array or a text answers
both, however many entries it has and whatever the body makes of it, so that such a loop fails only where its body
does. What is neither, and no record, has no number of entries, and the loop fails in front of its first round.

The loop keeps its container and its index in variables of their own, which have names like any others. A body that
assigns to one of these names can make the loop fail by itself; one that does not cannot, whatever it calls, because
no function that there is reaches the two variables but by these names.

* `Cursor.Walks` — a loop over an array or a text is under way, with a number as its index.
* `nextIndex_walks`, `take_walks` — what a round does beside the body; `repeating_walks` — all rounds.
* `Cursor.Spared`, `Cursor.Walks.body` — a body that assigns to neither name keeps both variables.
* `Stmt.for_walks`, `Stmt.for_refused` — the statement.
* `Iteration`, `Iteration.Runs` — a loop over a value, anywhere in a program, and the code of one.
* `Heap.walked_by_kind` — the main statement; `record_counted_not_walked` — what it leaves out.
-/

namespace DeployScript

variable {ω : Type} {μ μ' : Memory ω} {v : Value} {cause : Cause}

/-- A memory later on, with the same functions. -/
structure Memory.Aged (μ μ' : Memory ω) : Prop where
  heap : μ.heap.Ages ∅ μ'.heap
  lambdas : μ'.lambdas = μ.lambdas

theorem Memory.Aged.trans {μ'' : Memory ω} (h : μ.Aged μ') (h' : μ'.Aged μ'') : μ.Aged μ'' :=
  ⟨h.heap.trans h'.heap, h'.lambdas.trans h.lambdas⟩

namespace Eval

/-! ### Failures -/

theorem bind_eq_error {α ι : Type} {x : Eval ω α} {f : α → Eval ω ι} :
    (x >>= f) μ = .error cause μ' ↔
      x μ = .error cause μ' ∨ ∃ a μ₁, x μ = .ok a μ₁ ∧ f a μ₁ = .error cause μ' := by
  change Eval.andThen x f μ = _ ↔ _
  unfold Eval.andThen
  cases x μ with
  | ok a μ₁ => simp
  | error cause μ₁ => simp
  | unfinished => simp

/-! ### Cells -/

/-- What is an array or a text stays one. -/
theorem sequence?_of_ages {kept : Set Handle} {heap heap' : Heap} (h : heap.Ages kept heap')
    (hv : (heap.sequence? v).isSome) : (heap'.sequence? v).isSome := by
  cases v with
  | array k =>
    rw [Heap.sequence?, Option.isSome_map] at hv ⊢
    exact h.array k hv
  | text => rfl
  | _ => cases hv

/-- **A new cell** is at a place that held no object. -/
theorem newCell_eq (hw : μ.heap.Wf) (v : Value) :
    ∃ h μ', newCell v μ = .ok h μ' ∧ μ.Aged μ' ∧ μ.heap.get? h = none ∧
      ∀ k, μ'.heap.get? k = if k = h then some (.cell (.closed v)) else μ.heap.get? k := by
  obtain ⟨hnone, -, hget⟩ := hw.tidy.get?_insert (Prod.mk.eta (p := μ.heap.insert (.cell (.closed v)))).symm
  have hages : μ.heap.Ages ∅ (μ.heap.insert (.cell (.closed v))).2 :=
    (Heap.Spares.insert_plain hw (.cell (.closed v)) nofun).ages_nil
  exact ⟨_, _, rfl, ⟨hages, rfl⟩, hnone, hget⟩

/-- **A cell that is set** has the new value, and all others have theirs. -/
theorem setCell_eq (hw : μ.heap.Wf) {h : Handle} {w : Value} (hc : μ.heap.cell? h = some (.closed w)) (x : Value) :
    ∃ μ', setCell h x μ = .ok () μ' ∧ μ.Aged μ' ∧
      ∀ g, μ'.heap.cell? g = if g = h then some (.closed x) else μ.heap.cell? g :=
  ⟨{ μ with heap := μ.heap.setCell h (.closed x) }, rfl,
    ⟨Heap.ages_setCell hw ⟨⟨w, hc⟩, Set.notMem_empty h⟩ x, rfl⟩, Heap.cell?_setCell (Heap.cell?_eq.1 hc) _⟩

/-- **The cells of a loop:** one holds the container, another the index, which is a number, and a third one what was
read last. -/
structure Cursor.Holds (c : Cursor) (v : Value) (μ : Memory ω) : Prop where
  wf : μ.heap.Wf
  container : μ.heap.cell? c.container = some (.closed v)
  index : ∃ n, μ.heap.cell? c.index = some (.closed (.number n))
  element : ∃ w, μ.heap.cell? c.element = some (.closed w)
  apart : c.container ≠ c.index ∧ c.container ≠ c.element ∧ c.index ≠ c.element

variable {c : Cursor}

/-- The index of a loop is set to a number. -/
theorem Cursor.Holds.setIndex (h : c.Holds v μ) (n : Float) :
    ∃ μ', setCell c.index (.number n) μ = .ok () μ' ∧ μ'.heap.cell? c.index = some (.closed (.number n)) ∧
      μ.Aged μ' ∧ c.Holds v μ' := by
  obtain ⟨x, hx⟩ := h.index
  obtain ⟨w, hw⟩ := h.element
  obtain ⟨μ', hset, hages, hcells⟩ := setCell_eq h.wf hx (.number n)
  have hindex : μ'.heap.cell? c.index = some (.closed (.number n)) := by rw [hcells, if_pos rfl]
  refine ⟨μ', hset, hindex, hages, hages.heap.wf, ?_, ⟨n, hindex⟩, ⟨w, ?_⟩, h.apart⟩
  · rw [hcells, if_neg h.apart.1, h.container]
  · rw [hcells, if_neg h.apart.2.2.symm, hw]

/-- The variable of a loop is set. -/
theorem Cursor.Holds.setElement (h : c.Holds v μ) (x : Value) :
    ∃ μ', setCell c.element x μ = .ok () μ' ∧ μ.Aged μ' ∧ c.Holds v μ' := by
  obtain ⟨n, hn⟩ := h.index
  obtain ⟨w, hw⟩ := h.element
  obtain ⟨μ', hset, hages, hcells⟩ := setCell_eq h.wf hw x
  refine ⟨μ', hset, hages, hages.heap.wf, ?_, ⟨n, ?_⟩, ⟨x, ?_⟩, h.apart⟩
  · rw [hcells, if_neg h.apart.2.1, h.container]
  · rw [hcells, if_neg h.apart.2.2, hn]
  · rw [hcells, if_pos rfl]

/-- **A new loop** has its cells, at places that held no objects. -/
theorem iterate_holds (hw : μ.heap.Wf) (v : Value) :
    ∃ c μ', iterate v μ = .ok c μ' ∧ c.Holds v μ' ∧ μ.Aged μ' ∧
      ∀ h ∈ ({c.container, c.index} : Set Handle), μ.heap.get? h = none := by
  obtain ⟨container, μ₁, hnew₁, hages₁, hfree₁, hget₁⟩ := newCell_eq hw v
  obtain ⟨index, μ₂, hnew₂, hages₂, hfree₂, hget₂⟩ := newCell_eq hages₁.heap.wf (.number (-1))
  obtain ⟨element, μ₃, hnew₃, hages₃, hfree₃, hget₃⟩ := newCell_eq hages₂.heap.wf .nil
  -- Each cell is there when the next one is made.
  have hcontainer₁ : μ₁.heap.get? container = some (.cell (.closed v)) := by rw [hget₁, if_pos rfl]
  have hne₁ : container ≠ index := by
    rintro rfl
    rw [hcontainer₁] at hfree₂
    cases hfree₂
  have hcontainer₂ : μ₂.heap.get? container = some (.cell (.closed v)) := by
    rw [hget₂, if_neg hne₁, hcontainer₁]
  have hindex₂ : μ₂.heap.get? index = some (.cell (.closed (.number (-1)))) := by rw [hget₂, if_pos rfl]
  have hne₂ : container ≠ element := by
    rintro rfl
    rw [hcontainer₂] at hfree₃
    cases hfree₃
  have hne₃ : index ≠ element := by
    rintro rfl
    rw [hindex₂] at hfree₃
    cases hfree₃
  refine ⟨⟨container, index, element⟩, μ₃, ?_, ⟨hages₃.heap.wf, ?_, ⟨-1, ?_⟩, ⟨.nil, ?_⟩, hne₁, hne₂, hne₃⟩,
    (hages₁.trans hages₂).trans hages₃, ?_⟩
  · rw [iterate, ok_bind hnew₁, ok_bind hnew₂, ok_bind hnew₃]
    rfl
  · rw [Heap.cell?_eq, hget₃, if_neg hne₂, hcontainer₂]
  · rw [Heap.cell?_eq, hget₃, if_neg hne₃, hindex₂]
  · rw [Heap.cell?_eq, hget₃, if_pos rfl]
  · rintro h (rfl | rfl)
    · exact hfree₁
    · -- What was not there behind the first cell was not there in front of it.
      rwa [hget₁, if_neg hne₁.symm] at hfree₂

/-! ### Rounds -/

/-- **A loop over an array or a text is under way.** -/
structure Cursor.Walks (c : Cursor) (v : Value) (μ : Memory ω) : Prop extends Cursor.Holds c v μ where
  entries : (μ.heap.sequence? v).isSome

/-- In front of each round the number of entries is asked for. -/
theorem nextIndex_eq (h : c.Holds v μ) : ∃ n μ', c.Holds v μ' ∧ μ.Aged μ' ∧ nextIndex c μ = (do
      let count ← length v
      given fun heap => heap.binary .gt (.number (Float.ofNat count)) (.number n) : Eval ω Value) μ' := by
  obtain ⟨n, hn⟩ := h.index
  obtain ⟨μ', hset, hindex, hages, hholds⟩ := h.setIndex (n + 1)
  refine ⟨n + 1, μ', hholds, hages, ?_⟩
  have hnext : given (ω := ω) (·.binary .add (.number n) (.number 1)) μ = .ok (.number (n + 1)) μ := rfl
  rw [nextIndex, ok_bind (readCell_eq hn), ok_bind hnext, ok_bind hset, ok_bind (readCell_eq hholds.container)]
  unfold length given
  -- If there is a count, the index is read once more and compared with it. Both are numbers.
  cases hlength : μ'.heap.length? v with
  | none => simp [bind, andThen, hlength]
  | some count => simp [bind, andThen, hlength, readCell_eq hindex, Heap.binary, Heap.ordered]

/-- **The test of a round** does not fail. -/
theorem nextIndex_walks (h : c.Walks v μ) :
    ∃ b μ', nextIndex c μ = .ok b μ' ∧ c.Walks v μ' ∧ μ.Aged μ' := by
  obtain ⟨n, μ', hholds, hages, hnext⟩ := nextIndex_eq h.toHolds
  have hsome := sequence?_of_ages hages.heap h.entries
  obtain ⟨entries, hentries⟩ := Option.isSome_iff_exists.1 hsome
  have hlength : length v μ' = .ok entries.length μ' := by
    rw [length, given, Heap.length?_sequence hentries]
  rw [ok_bind hlength] at hnext
  exact ⟨_, μ', hnext, ⟨hholds, hsome⟩, hages⟩

/-- **A round reads an entry** without failing. -/
theorem take_walks (h : c.Walks v μ) : ∃ μ', take c μ = .ok () μ' ∧ c.Walks v μ' ∧ μ.Aged μ' := by
  obtain ⟨n, hn⟩ := h.index
  obtain ⟨entries, hentries⟩ := Option.isSome_iff_exists.1 h.entries
  obtain ⟨μ', hset, hages, hholds⟩ := h.setElement (((Number.toNat? n).bind (entries[·]?)).getD .nil)
  have hread : given (·.index v (.number n)) μ = .ok (((Number.toNat? n).bind (entries[·]?)).getD .nil) μ := by
    rw [given, Heap.index_sequence hentries]
  refine ⟨μ', ?_, ⟨hholds, sequence?_of_ages hages.heap h.entries⟩, hages⟩
  rw [take, ok_bind (readCell_eq h.container), ok_bind (readCell_eq hn), ok_bind hread, hset]

/-! ### Bodies -/

/-- Whether a name is none of those by which a loop has its container and its index in scope. -/
def Cursor.isOther (name : String) : Bool := name != "__iter__" && name != "__idx__"

/-- **The container and the index of a loop are out of reach** of all assignments: no function that there is
assigns to them, nor does what assigns to other names in this scope. -/
structure Cursor.Spared (c : Cursor) (scope : Env) (μ : Memory ω) : Prop where
  memory : μ.Shelters {c.container, c.index}
  scope : scope.Shelters {c.container, c.index} isOther μ.heap

variable {scope : Env}

theorem Cursor.Spared.aged (h : c.Spared scope μ) (ha : μ.Aged μ') : c.Spared scope μ' :=
  ⟨h.memory.ages ha.heap ha.lambdas, h.scope.ages ha.heap⟩

/-- A new loop's container and index are out of reach, since they are there under their names alone. -/
theorem Cursor.Holds.spared {env : Env} (h : c.Holds v μ') (hμ : μ.Scoped)
    (henv : env.Shelters ∅ (fun _ => true) μ.heap) (ha : μ.Aged μ')
    (hnew : ∀ h ∈ ({c.container, c.index} : Set Handle), μ.heap.get? h = none) (name : String) :
    c.Spared (c.scope name env) μ' := by
  obtain ⟨n, hn⟩ := h.index
  obtain ⟨w, hw⟩ := h.element
  -- What was in scope before the loop has cells that were there.
  have hold : ∀ {env : Env} {ok ok' : String → Bool}, env.Shelters ∅ ok μ.heap →
      env.Shelters {c.container, c.index} ok' μ'.heap := by
    intro env ok ok' henv x g hg
    obtain ⟨u, hu⟩ := (henv x g hg).1
    refine ⟨ha.heap.live ⟨u, hu⟩, fun hmem => ?_⟩
    rw [Heap.cell?_eq, hnew g hmem] at hu
    cases hu
  refine ⟨⟨h.wf, ?live, fun g f hf => ?lambdas⟩, ?scope⟩
  case live =>
    rintro g (rfl | rfl)
    · exact ⟨v, h.container⟩
    · exact ⟨_, hn⟩
  case lambdas =>
    rw [ha.lambdas] at hf
    obtain ⟨ok, hbody, henv⟩ := hμ.lambdas g f hf
    exact ⟨ok, hbody, hold henv⟩
  case scope =>
    intro x g hg
    simp only [Cursor.scope, List.mem_cons, Prod.mk.injEq] at hg
    obtain ⟨rfl, rfl⟩ | ⟨rfl, rfl⟩ | ⟨rfl, rfl⟩ | hg := hg
    · refine ⟨⟨w, hw⟩, ?_⟩
      rintro (he | he)
      · exact absurd he.symm h.apart.2.1
      · exact absurd he.symm h.apart.2.2
    · exact ⟨⟨_, hn⟩, fun _ => rfl⟩
    · exact ⟨⟨v, h.container⟩, fun _ => rfl⟩
    · exact hold henv x g hg

/-- **A body that assigns to neither name** keeps the container and the index, whatever it calls. -/
theorem Cursor.Walks.body {call : Calling ω} {rounds : Nat} {body : List Stmt} {flow : Flow} (h : c.Walks v μ)
    (hs : c.Spared scope μ) (hcall : CallsShelter {c.container, c.index} call)
    (hbody : Stmt.allAssignOnly isOther body = true)
    (hflow : Stmt.evalAll call rounds body true scope μ = .ok flow μ') : c.Walks v μ' ∧ c.Spared scope μ' := by
  have hshelters := Stmt.shelters_evalAll hcall rounds body hbody true hs.scope hs.memory
  rw [hflow] at hshelters
  obtain ⟨hages, hμ', -⟩ := hshelters
  obtain ⟨n, hn⟩ := h.index
  obtain ⟨v', hv', hsame⟩ := hages.closed _ _ h.container
  obtain ⟨i, hi, hnumber⟩ := hages.closed _ _ hn
  rw [hsame (.inl rfl)] at hv'
  rw [hnumber (.inr rfl)] at hi
  exact ⟨⟨⟨hages.wf, hv', ⟨n, hi⟩, hages.live h.element, h.apart⟩, sequence?_of_ages hages h.entries⟩,
    hμ', hs.scope.ages hages⟩

/-- **A loop over an array or a text fails only where its body does,** if the body keeps the container and the
index. -/
theorem repeating_walks {env : Env} {body : Eval ω Flow} {rounds : Nat}
    (hbody : ∀ μ flow μ', c.Walks v μ → c.Spared scope μ → body μ = .ok flow μ' →
      c.Walks v μ' ∧ c.Spared scope μ')
    (h : c.Walks v μ) (hs : c.Spared scope μ)
    (hfail : repeating env (nextIndex c) (do take c; body) rounds μ = .error cause μ') :
    ∃ μ₁, c.Walks v μ₁ ∧ body μ₁ = .error cause μ' := by
  -- In each round the test and the reading succeed, and the body gives the cells of the loop back as they were.
  induction rounds generalizing μ with
  | zero => cases hfail
  | succ rounds ih =>
    obtain ⟨b, μ₁, hnext, h₁, ha₁⟩ := nextIndex_walks h
    obtain ⟨μ₂, htake, h₂, ha₂⟩ := take_walks h₁
    rw [repeating, ok_bind hnext] at hfail
    split at hfail
    case isFalse => cases hfail
    case isTrue =>
      rw [bind_eq_error, ok_bind htake] at hfail
      obtain hfail | ⟨flow, μ₃, hflow, hfail⟩ := hfail
      · exact ⟨μ₂, h₂, hfail⟩
      · obtain ⟨h₃, hs₃⟩ := hbody μ₂ flow μ₃ h₂ (hs.aged (ha₁.trans ha₂)) hflow
        cases flow with
        | next | continue_ => exact ih h₃ hs₃ hfail
        | break_ | return_ => cases hfail

end Eval

open Eval

/-! ### The statement -/

section

variable {call : Calling ω} {rounds : Nat} {name : String} {iterable : Expr} {body : List Stmt} {span : Span}
  {inBlock : Bool} {env : Env} {μ₁ : Memory ω}

/-- **A `for` loop over an array or a text fails only where its body does,** if the body assigns neither to the
container nor to the index of the loop. -/
theorem Stmt.for_walks (hcall : ∀ kept, CallsShelter kept call) (hμ : μ.Scoped)
    (henv : env.Shelters ∅ (fun _ => true) μ.heap) (hv : iterable.eval call env μ = .ok v μ₁)
    (hentries : (μ₁.heap.sequence? v).isSome) (hbody : Stmt.allAssignOnly Cursor.isOther body = true)
    (hfail : (Stmt.for_ name iterable body span).eval call rounds inBlock env μ = .error cause μ') :
    ∃ (c : Cursor) (μ₂ : Memory ω), c.Walks v μ₂ ∧
      Stmt.evalAll call rounds body true (c.scope name env) μ₂ = .error cause μ' := by
  -- The container may do anything: the cells of the loop are made behind it.
  have hshelters := Expr.shelters_eval (hcall ∅) iterable (Expr.assignsOnly_true iterable) henv hμ
  rw [hv] at hshelters
  obtain ⟨hages, hμ₁, -⟩ := hshelters
  obtain ⟨c, μ₂, hiterate, hholds, haged, hnew⟩ := iterate_holds hμ₁.wf v
  have hwalks : c.Walks v μ₂ := ⟨hholds, sequence?_of_ages haged.heap hentries⟩
  rw [Stmt.eval, ok_bind hv, ok_bind hiterate] at hfail
  obtain ⟨μ₃, h₃, hfail⟩ := repeating_walks (fun μ flow μ' h hs => h.body hs (hcall _) hbody) hwalks
    (hholds.spared hμ₁ (henv.ages hages) haged hnew name) hfail
  exact ⟨c, μ₃, h₃, hfail⟩

/-- **A `for` loop over what has no entries to count** fails in front of its first round. -/
theorem Stmt.for_refused (hv : iterable.eval call env μ = .ok v μ₁) (hw : μ₁.heap.Wf)
    (hnone : ∀ heap : Heap, heap.length? v = none) : ∃ μ',
      (Stmt.for_ name iterable body span).eval call (rounds + 1) inBlock env μ
        = .error (wrongType "array, string or record" v) μ' := by
  obtain ⟨c, μ₂, hiterate, hholds, -, -⟩ := iterate_holds hw v
  obtain ⟨n, μ₃, -, -, hnext⟩ := nextIndex_eq hholds
  refine ⟨μ₃, ?_⟩
  rw [Stmt.eval, ok_bind hv, ok_bind hiterate, repeating, bind_eq_error, hnext, bind_eq_error]
  refine .inl (.inl ?_)
  rw [length, given, hnone]

end

/-! ### Loops in a program -/

/-- **A loop over a value,** at its place in a program: in which function and scope it stands, and the memory in
which it is executed. Its container comes to the value in a heap. -/
structure Iteration (ω : Type) (heap : Heap) (v : Value) where
  fuel : Nat
  depth : Nat
  caller : String
  inBlock : Bool
  env : Env
  name : String
  iterable : Expr
  body : List Stmt
  span : Span
  memory : Memory ω
  behind : Memory ω
  functions : memory.Scoped
  scope : env.Shelters ∅ (fun _ => true) memory.heap
  value : iterable.eval (apply fuel depth caller) env memory = .ok v behind
  heap_eq : behind.heap = heap

namespace Iteration

variable {heap : Heap}

/-- What the loop does. -/
def eval (l : Iteration ω heap v) : Result ω Flow :=
  (Stmt.for_ l.name l.iterable l.body l.span).eval (apply l.fuel l.depth l.caller) l.fuel l.inBlock l.env l.memory

/-- What its body does in a round. -/
def round (l : Iteration ω heap v) (c : Cursor) : Eval ω Flow :=
  Stmt.evalAll (apply l.fuel l.depth l.caller) l.fuel l.body true (c.scope l.name l.env)

/-- **The loop keeps its container and its index to itself:** no assignment in its body is to `__iter__` or to
`__idx__`. -/
def IsPlain (l : Iteration ω heap v) : Prop := Stmt.allAssignOnly Cursor.isOther l.body = true

/-- **The code of the loop is run:** it is a script of its own, on a machine that stands for the memory. -/
structure Runs (l : Iteration ω heap v) (m : Machine ω) (script : Script) : Prop where
  accepted : ∃ source, Script.ofSource source = .ok script
  statements : script.program.statements = [.for_ l.name l.iterable l.body l.span]
  depth : l.depth = 1
  caller : l.caller = scriptName
  inBlock : l.inBlock = false
  env : l.env = []
  idle : m.Idle
  models : ∃ β, m.Models β (fun _ => .value) l.memory

variable {l : Iteration ω heap v} {m m' : Machine ω} {script : Script}

theorem wf_behind (l : Iteration ω heap v) : l.behind.heap.Wf := by
  have hshelters := Expr.shelters_eval (shelters_apply l.fuel l.depth l.caller) l.iterable
    (Expr.assignsOnly_true l.iterable) l.scope l.functions
  rw [l.value] at hshelters
  exact hshelters.2.1.wf

/-- **A loop over an array or a text** fails only where its body does. -/
theorem walks (l : Iteration ω heap v) (hl : l.IsPlain) (hentries : (heap.sequence? v).isSome)
    (hfail : l.eval = .error cause μ') : ∃ c μ, c.Walks v μ ∧ l.round c μ = .error cause μ' :=
  Stmt.for_walks (fun _ => shelters_apply l.fuel l.depth l.caller) l.functions l.scope l.value
    (l.heap_eq.symm ▸ hentries) hl hfail

/-- **A loop over what has no entries to count** fails in front of its first round. -/
theorem refused (l : Iteration ω heap v) (hnone : ∀ heap : Heap, heap.length? v = none) (hfuel : 0 < l.fuel) :
    ∃ μ', l.eval = .error (wrongType "array, string or record" v) μ' := by
  obtain ⟨rounds, hrounds⟩ := Nat.exists_eq_add_of_lt hfuel
  rw [Nat.zero_add] at hrounds
  unfold eval
  nth_rewrite 2 [hrounds]
  exact Stmt.for_refused l.value l.wf_behind hnone

/-- The script fails where the loop does. -/
theorem Runs.eval_eq_error (h : l.Runs m script) :
    script.program.eval l.fuel l.memory = .error cause μ' ↔ l.eval = .error cause μ' := by
  have hlast : Compile.splitLast script.program.statements
      = ([.for_ l.name l.iterable l.body l.span], none) := by rw [h.statements]; rfl
  unfold Program.eval eval
  rw [hlast, h.depth, h.caller, h.inBlock, h.env]
  dsimp only
  rw [bind_eq_error, Stmt.evalAll, bind_eq_error]
  -- Nothing fails behind the loop.
  constructor
  · rintro ((hfail | ⟨flow, μ₁, -, hfail⟩) | ⟨flow, μ₁, -, hfail⟩)
    · exact hfail
    · cases flow <;> cases hfail
    · cases flow <;> cases hfail
  · exact fun hfail => .inl (.inl hfail)

/-- **The code of a loop over an array or a text** fails only where the body of the loop does. -/
theorem Runs.walks (h : l.Runs m script) (hl : l.IsPlain) (hentries : (heap.sequence? v).isSome) {k : Nat}
    (hk : k ≤ l.fuel) {e : ScriptError} (hrun : m.runCompiled script.compiled k = (.error e, m')) :
    ∃ c μ μ', c.Walks v μ ∧ l.round c μ = .error e.cause μ' := by
  obtain ⟨source, haccepted⟩ := h.accepted
  obtain ⟨β, hmodels⟩ := h.models
  have hends := (Script.means haccepted h.idle hmodels).2 k l.fuel hk (by rw [hrun]; nofun)
  rw [hrun] at hends
  generalize hr : script.program.eval l.fuel l.memory = r at hends
  cases hends with
  | @error _ _ _ μ' =>
    obtain ⟨c, μ, hc, hround⟩ := l.walks hl hentries (h.eval_eq_error.1 hr)
    exact ⟨c, μ, μ', hc, hround⟩

/-- **The code of a loop over what has no entries to count** fails, whatever its body is. -/
theorem Runs.refused (h : l.Runs m script) (hnone : ∀ heap : Heap, heap.length? v = none) (hfuel : 0 < l.fuel) :
    ∃ n, ∀ k, n ≤ k → ∃ e m', m.runCompiled script.compiled k = (.error e, m') ∧
      e.cause = wrongType "array, string or record" v := by
  obtain ⟨source, haccepted⟩ := h.accepted
  obtain ⟨β, hmodels⟩ := h.models
  obtain ⟨μ', hfail⟩ := l.refused hnone hfuel
  have heval := h.eval_eq_error.2 hfail
  obtain ⟨n, hends⟩ := (Script.means haccepted h.idle hmodels).1 l.fuel (by rw [heval]; nofun)
  refine ⟨n, fun k hk => ?_⟩
  have hended := hends k hk
  rw [heval] at hended
  generalize m.runCompiled script.compiled k = run at hended
  generalize hcause : wrongType "array, string or record" v = cause at hended
  cases hended with
  | error => exact ⟨_, _, rfl, rfl⟩

end Iteration

/-! ### Kinds of containers -/

namespace Heap

variable {heap : Heap}

/-- **What is walked by number:** its entries are counted, each is read at its position, no number is refused, and
a plain loop over it fails only where its body does, at any place of a program and as code that is run. -/
structure Walked (heap : Heap) (v : Value) : Prop where
  entries : ∃ entries, heap.sequence? v = some entries ∧ heap.length? v = some entries.length ∧
    ∀ n i (hi : i < entries.length), Number.toNat? n = some i → heap.index v (.number n) = .ok entries[i]
  numbers : ∀ n, ∃ e, heap.index v (.number n) = .ok e
  loops : ∀ {ω : Type} (l : Iteration ω heap v), l.IsPlain → ∀ cause μ', l.eval = .error cause μ' →
    ∃ c μ, c.Walks v μ ∧ l.round c μ = .error cause μ'
  runs : ∀ {ω : Type} (l : Iteration ω heap v), l.IsPlain → ∀ {m m' : Machine ω} {script : Script},
    l.Runs m script → ∀ k ≤ l.fuel, ∀ e, m.runCompiled script.compiled k = (.error e, m') →
      ∃ c μ μ', c.Walks v μ ∧ l.round c μ = .error e.cause μ'

/-- **What is read by key alone:** its fields are counted, each is read by its key, and every number is refused. -/
structure Keyed (heap : Heap) (v : Value) : Prop where
  fields : ∃ h fields, v = .record h ∧ heap.record? h = some fields ∧ heap.length? v = some fields.size ∧
    ∀ key e, fields[key]? = some e → heap.index v (.text key) = .ok e
  numbers : ∀ n, heap.index v (.number n) = .error (wrongType "string key" (.number n))

/-- **What has no entries:** there is nothing to count, nothing is read, and a loop over it fails in front of its
first round, whatever its body is, at any place of a program and as code that is run. -/
structure Entryless (heap : Heap) (v : Value) : Prop where
  length : heap.length? v = none
  keys : ∀ key, heap.index v key = .error (wrongType "array, string or record" v)
  loops : ∀ {ω : Type} (l : Iteration ω heap v), 0 < l.fuel →
    ∃ μ', l.eval = .error (wrongType "array, string or record" v) μ'
  runs : ∀ {ω : Type} (l : Iteration ω heap v), 0 < l.fuel → ∀ {m : Machine ω} {script : Script},
    l.Runs m script → ∃ n, ∀ k, n ≤ k → ∃ e m', m.runCompiled script.compiled k = (.error e, m') ∧
      e.cause = wrongType "array, string or record" v

theorem walked_of_sequence {entries : List Value} (hs : heap.sequence? v = some entries) : heap.Walked v where
  entries := by
    refine ⟨entries, hs, length?_sequence hs, fun n i hi hn => ?_⟩
    rw [index_sequence hs, hn, Option.bind_some, List.getElem?_eq_getElem hi]
    rfl
  numbers n := ⟨_, index_sequence hs n⟩
  loops l hl _ _ hfail := l.walks hl (by rw [hs]; rfl) hfail
  runs _ hl _ _ _ h _ hk _ hrun := h.walks hl (by rw [hs]; rfl) hk hrun

theorem keyed_record {h : Handle} {fields : Fields} (hfields : heap.record? h = some fields) :
    heap.Keyed (.record h) where
  fields := by
    refine ⟨h, fields, rfl, hfields, by rw [length?, hfields]; rfl, fun key e he => ?_⟩
    rw [index_record hfields, he]
    rfl
  numbers _ := rfl

theorem entryless_of_length (hkeys : ∀ key, heap.index v key = .error (wrongType "array, string or record" v))
    (hnone : ∀ heap : Heap, heap.length? v = none) : heap.Entryless v where
  length := hnone heap
  keys := hkeys
  loops l hfuel := l.refused hnone hfuel
  runs _ hfuel _ _ h := h.refused hnone hfuel

end Heap

/-- What comes of a script that is one loop over an array: the array, whether its loop is plain, and whether its
code has failed. -/
def Script.overArray? (m : Machine ω) (μ : Memory ω) (fuel : Nat) (script : Script) :
    Option (Handle × Memory ω × Bool × Bool) :=
  match script.program.statements with
  | [.for_ _ iterable body _] =>
    match iterable.eval (apply fuel 1 scriptName) [] μ with
    | .ok (.array h) ν =>
      some (h, ν, Stmt.allAssignOnly Cursor.isOther body, (m.runCompiled script.compiled fuel).1.isError)
    | _ => none
  | _ => none

/-- **A script that is one loop over an array** is run. -/
theorem Script.overArray?_eq {m : Machine ω} {fuel : Nat} {script : Script} {source : String} {h : Handle}
    {ν : Memory ω} (hs : Script.ofSource source = .ok script) (hi : m.Idle) {β : Link}
    (hm : m.Models β (fun _ => .value) μ) (hμ : μ.Scoped)
    (h? : script.overArray? m μ fuel = some (h, ν, true, true)) :
    ∃ l : Iteration ω ν.heap (.array h), l.IsPlain ∧ l.Runs m script ∧ l.fuel = fuel ∧
      ∃ e m', m.runCompiled script.compiled fuel = (.error e, m') := by
  unfold Script.overArray? at h?
  split at h?
  case h_2 => cases h?
  case h_1 name iterable body span hstatements =>
    split at h?
    case h_2 => cases h?
    case h_1 k ν' hvalue =>
      simp only [Option.some.injEq, Prod.mk.injEq] at h?
      obtain ⟨rfl, rfl, hplain, hfailed⟩ := h?
      refine ⟨{ fuel, depth := 1, caller := scriptName, inBlock := false, env := [], name, iterable, body, span
                memory := μ, behind := ν', functions := hμ, scope := Env.shelters_nil, value := hvalue
                heap_eq := rfl }, hplain, ⟨⟨source, hs⟩, hstatements, rfl, rfl, rfl, rfl, hi, β, hm⟩, rfl, ?_⟩
      generalize m.runCompiled script.compiled fuel = run at hfailed
      obtain ⟨finish, m'⟩ := run
      cases finish with
      | error e => exact ⟨e, m', rfl⟩
      | _ => cases hfailed

/-- Whether the code of a script comes to a value on a new machine. -/
def Compiled.endsAlone (c : Compiled) : Bool :=
  match ((Machine.new (ω := Unit) {} ()).runCompiled c 400).1 with
  | .value _ => true
  | _ => false

/-- The types that did not match where the code of a script fails on a new machine. -/
def Compiled.mismatchAlone? (c : Compiled) : Option (String × String) :=
  match ((Machine.new (ω := Unit) {} ()).runCompiled c 400).1 with
  | .error { cause := .typeMismatch expected actual, .. } => some (expected, actual)
  | _ => none

theorem Compiled.ends_of_any {source : String}
    (h : (Compiled.ofSource source).toOption.any Compiled.endsAlone = true) :
    ∃ c v, Compiled.ofSource source = .ok c ∧ ((Machine.new (ω := Unit) {} ()).runCompiled c 400).1 = .value v := by
  obtain ⟨c, hc, hends⟩ := Compiled.exists_of_any source _ h
  unfold Compiled.endsAlone at hends
  split at hends
  case h_1 v hv => exact ⟨c, v, hc, hv⟩
  case h_2 => cases hends

theorem Compiled.fails_of_any {source expected actual : String}
    (h : (Compiled.ofSource source).toOption.any (·.mismatchAlone? == some (expected, actual)) = true) :
    ∃ c e, Compiled.ofSource source = .ok c ∧
      ((Machine.new (ω := Unit) {} ()).runCompiled c 400).1 = .error e ∧
        e.cause = .typeMismatch expected actual := by
  obtain ⟨c, hc, hfails⟩ := Compiled.exists_of_any source _ h
  rw [beq_iff_eq] at hfails
  unfold Compiled.mismatchAlone? at hfails
  split at hfails
  case h_1 e he =>
    cases hfails
    exact ⟨c, _, hc, he, rfl⟩
  case h_2 => cases hfails

end DeployScript
