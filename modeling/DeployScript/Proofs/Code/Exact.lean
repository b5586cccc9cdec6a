import DeployScript.Proofs.Code.Scripts
import DeployScript.Proofs.Code.Translation

/-!
# Compiled code says what its program says

Whatever compiles becomes code that says what the program says: each number in the code is the one
that is meant. The induction is that over the nodes of a program, and a node is coded for whatever the
tables of its function hold in the end.

* `Covers` — tables that hold at least what a state of the compilation holds.
* `coded_expr` — expressions.
* `Says` — a statement, with the jumps out of the loop around it measured.
* `Compiled.translates_ofSource` — whole scripts.
-/

namespace DeployScript.Compile

open State Block

variable {s s' s₁ s₂ : State} {b b₁ b₂ : Block}

/-! ### Tables -/

/-- The names of the variables that are in scope. -/
def State.inScope (s : State) : List String := s.current.locals.map (·.name)

/-- A function around the current one, under the names that it has in the end. -/
structure Surrounds (c : Scope) (f : NameScope) : Prop where
  locals : f.locals = c.locals.map (·.name)
  captures : sources c <+: f.captures

/-- **Tables that hold what a state holds,** and maybe more behind it. -/
structure Covers (T : Tables) (s : State) : Prop where
  constants : s.current.constants.toList <+: T.constants.toList
  names : s.current.names.toList <+: T.names.toList
  functions : s.functions.toList <+: T.functions.toList
  captures : sources s.current <+: T.captures
  enclosing : List.Forall₂ Surrounds s.enclosing T.enclosing

theorem names_of_noted {ls ls' : List Local} (h : List.Forall₂ Local.Noted ls ls') :
    ls'.map (·.name) = ls.map (·.name) := by
  induction h with
  | nil => rfl
  | cons ha _ ih => rw [List.map_cons, List.map_cons, ih, ha.name]

theorem sources_extend {c c' : Scope} (h : c.captures.toList <+: c'.captures.toList) :
    sources c <+: sources c' := by
  simp only [sources, Array.toList_map]
  exact h.map _

theorem Surrounds.of_noted {c c' : Scope} {f : NameScope} (hc : c.Noted c') (h : Surrounds c' f) :
    Surrounds c f :=
  ⟨h.locals.trans (names_of_noted hc.locals), (sources_extend hc.captures).trans h.captures⟩

theorem surrounds_of_noted {cs cs' : List Scope} {fs : List NameScope}
    (hc : List.Forall₂ Scope.Noted cs cs') (h : List.Forall₂ Surrounds cs' fs) :
    List.Forall₂ Surrounds cs fs := by
  induction hc generalizing fs with
  | nil => exact h
  | cons hc _ ih =>
    cases h with
    | cons h hs => exact .cons (h.of_noted hc) (ih hs)

variable {T : Tables}

theorem Covers.of_grows (hg : s.Grows s') (h : Covers T s') : Covers T s where
  constants := hg.constants.trans h.constants
  names := hg.names.trans h.names
  functions := hg.functions.trans h.functions
  captures := (sources_extend hg.captures).trans h.captures
  enclosing := surrounds_of_noted hg.enclosing h.enclosing

/-- A constant that was added is found by its index. -/
theorem Covers.constant {literal : Literal} {w : UInt16} (hT : Covers T (s.withConstant literal))
    (hw : wide? s.current.constants.size = some w) : T.constants[w.toNat]? = some literal := by
  refine getElem?_of_extends hT.constants ?_
  rw [toNat_of_wide? hw]
  simp [State.withConstant]

/-- A name that was added is found by its index. -/
theorem Covers.name {name : String} {line : Nat} {w : UInt16}
    (h : Gives (addName name line) s w s') (hT : Covers T s') : T.names[w.toNat]? = some name := by
  obtain ⟨names, rfl, -, hname⟩ := h.addName
  exact getElem?_of_extends hT.names hname

/-! ### Variables -/

theorem slot?_of_find? {name : String} {ls : List Local} {slot : Nat} {l : Local}
    (h : Scope.find? name ls = some (slot, l)) : slot? name (ls.map (·.name)) = some slot := by
  induction ls with
  | nil => cases h
  | cons a ls ih =>
    rw [Scope.find?] at h
    rw [List.map_cons, slot?]
    split at h
    case isTrue hname =>
      cases h
      rw [if_pos hname, List.length_map]
    case isFalse hname => rw [if_neg hname, ih h]

theorem slot?_of_find?_none {name : String} {ls : List Local} (h : Scope.find? name ls = none) :
    slot? name (ls.map (·.name)) = none := by
  induction ls with
  | nil => rfl
  | cons a ls ih =>
    rw [Scope.find?] at h
    rw [List.map_cons, slot?]
    split at h
    case isTrue => cases h
    case isFalse hname => rw [if_neg hname, ih h]

theorem getElem?_of_isPrefix {α : Type} {as bs : List α} (h : as <+: bs) {i : Nat} {a : α}
    (ha : as[i]? = some a) : bs[i]? = some a := by
  obtain ⟨rest, rfl⟩ := h
  rw [List.getElem?_append_left (List.getElem?_eq_some_iff.1 ha).1, ha]

/-- What a capture stands for is what it means in the end. -/
theorem captured_of_capturedAs {name : String} {captures : Array Capture} {enclosing : List Scope}
    {index : Nat} (h : CapturedAs name captures enclosing index) {fs : List NameScope}
    {cs : List CaptureSource} (hcs : (captures.map (·.source)).toList <+: cs)
    (hfs : List.Forall₂ Surrounds enclosing fs) : Captured name cs fs index := by
  have hsource : ∀ {captures : Array Capture} {index : Nat} {k : Capture} {cs : List CaptureSource},
      captures[index]? = some k → (captures.map (·.source)).toList <+: cs →
      cs[index]? = some k.source := fun hk hcs => by
    refine getElem?_of_isPrefix hcs ?_
    rw [Array.getElem?_toList, Array.getElem?_map, hk]
    rfl
  induction h generalizing fs cs with
  | @slot captures parent outer index k l hk hlocal hl hcap =>
    obtain ⟨⟨isLocal, i⟩, isMutable⟩ := k
    obtain rfl : isLocal = true := hlocal
    cases hfs with
    | cons hf hfs =>
      refine .slot (hsource hk hcs) ?_
      rw [hf.locals]
      exact slot?_of_find? hl
  | @outer captures parent outer index k hk hlocal hl h ih =>
    obtain ⟨⟨isLocal, i⟩, isMutable⟩ := k
    obtain rfl : isLocal = false := hlocal
    cases hfs with
    | cons hf hfs =>
      refine .outer (hsource hk hcs) ?_ (ih hf.captures hfs)
      rw [hf.locals]
      exact slot?_of_find?_none hl

/-- **A variable is found by the number that was located.** -/
theorem finds_of_located (hs : s.Wf) {name : String} {line : Nat} {place : Place} {w : UInt16}
    (h : Located name line s place w s') (hT : Covers T s') :
    ∃ place', readInstr place' w = readInstr place w ∧ writeInstr place' w = writeInstr place w ∧
      T.Finds s.inScope name place' w := by
  cases h with
  | @slot slot l _ hl hw =>
    refine ⟨.slot w.toNat false, rfl, rfl, .slot ?_⟩
    rw [toNat_of_wide? hw]
    exact slot?_of_find? hl
  | @capture index isMutable _ _ hr hw =>
    refine ⟨.capture w.toNat false, rfl, rfl, ?_⟩
    generalize hplace : Place.capture index isMutable = place at hr
    cases hr with
    | slot | global => cases hplace
    | @capture index' current enclosing hl hr =>
      cases hplace
      obtain ⟨-, -, -, -, hfound⟩ := Scope.resolveCapture_spec hs.linked hr
      refine .capture (slot?_of_find?_none hl) ?_
      rw [toNat_of_wide? hw]
      exact captured_of_capturedAs hfound hT.captures hT.enclosing
  | global hr hw =>
    cases hr with
    | global hl hr =>
      refine ⟨.global, rfl, rfl, .global (slot?_of_find?_none hl) (fun f hf => ?_)
        (Covers.name hw hT)⟩
      obtain ⟨i, hi, rfl⟩ := List.mem_iff_getElem.1 hf
      obtain ⟨names, rfl, -, -⟩ := hw.addName
      have hi' : i < s.enclosing.length := hT.enclosing.length_eq ▸ hi
      have hsurrounds := hT.enclosing.get hi' hi
      simp only [List.get_eq_getElem] at hsurrounds
      rw [hsurrounds.locals]
      exact slot?_of_find?_none (Scope.resolveCapture_none hr _ (List.getElem_mem hi'))

theorem coded_readVariable (hs : s.Wf) {name : String} {line : Nat}
    (h : Gives (readVariable name line) s b s') (hT : Covers T s') :
    ∃ place w, T.Finds s.inScope name place w ∧ written b.toList = [(readInstr place w, line)] := by
  obtain ⟨place, w, t, hloc, rfl, rfl⟩ := h.readVariable
  obtain ⟨place', hread, -, hfinds⟩ := finds_of_located hs hloc (T := T) (hT.of_grows (grows_over t 3))
  exact ⟨place', w, hfinds, by rw [hread]; rfl⟩

theorem coded_writeVariable (hs : s.Wf) {name : String} {span : Span}
    (h : Gives (writeVariable name span) s b s') (hT : Covers T s') :
    ∃ place w, T.Finds s.inScope name place w ∧
      written b.toList = [(writeInstr place w, span.line)] := by
  obtain ⟨place, w, t, hloc, rfl, rfl⟩ := h.writeVariable
  obtain ⟨place', -, hwrite, hfinds⟩ := finds_of_located hs hloc (T := T) (hT.of_grows (grows_over t 3))
  exact ⟨place', w, hfinds, by rw [hwrite]; rfl⟩

/-! ### Expressions -/

theorem inScope_of_noted (h : List.Forall₂ Local.Noted s.current.locals s'.current.locals) :
    s'.inScope = s.inScope := names_of_noted h

/-- Values that are computed leave the variables as they are. -/
theorem Computes.inScope {n : Nat} (h : Computes s b s' n) : s'.inScope = s.inScope :=
  inScope_of_noted (h.grows.kept_of_length h.locals).2

theorem grows_withConstant (s : State) (literal : Literal) : s.Grows (s.withConstant literal) :=
  { State.Grows.refl s with constants := by simp [State.withConstant] }

theorem grows_of_addName {name : String} {line : Nat} {w : UInt16}
    (h : Gives (addName name line) s w s') : s.Grows s' := by
  obtain ⟨names, rfl, hnames, -⟩ := h.addName
  exact { State.Grows.refl s with names := hnames }

theorem grows_of_writeVariable (hs : s.Wf) {name : String} {span : Span}
    (h : Gives (writeVariable name span) s b s') : s.Grows s' := by
  obtain ⟨place, w, t, hloc, rfl, rfl⟩ := h.writeVariable
  exact (computes_located hs hloc).1.grows.trans (grows_over t 3)

mutual

/-- **The code of an expression says what the expression says.** -/
theorem coded_expr : (e : Expr) → {s s' : State} → {b : Block} → s.Wf → Gives (expr e) s b s' →
    {T : Tables} → Covers T s' → e.Coded T s.inScope (written b.toList)
  | .number value span, s, s', b, hs, h, T, hT => by
    obtain ⟨w, hw, rfl, rfl⟩ := gives_emitConstant.1 (by simpa only [expr] using h)
    exact ⟨w, Covers.constant (hT.of_grows (grows_over _ 3)) hw, rfl⟩
  | .text value span, s, s', b, hs, h, T, hT => by
    obtain ⟨w, hw, rfl, rfl⟩ := gives_emitConstant.1 (by simpa only [expr] using h)
    exact ⟨w, Covers.constant (hT.of_grows (grows_over _ 3)) hw, rfl⟩
  | .bool true span, s, s', b, hs, h, T, hT => by
    obtain ⟨rfl, rfl⟩ := gives_emit.1 (by simpa only [expr] using h)
    rfl
  | .bool false span, s, s', b, hs, h, T, hT => by
    obtain ⟨rfl, rfl⟩ := gives_emit.1 (by simpa only [expr] using h)
    rfl
  | .nil span, s, s', b, hs, h, T, hT => by
    obtain ⟨rfl, rfl⟩ := gives_emit.1 (by simpa only [expr] using h)
    rfl
  | .name name span, s, s', b, hs, h, T, hT =>
    coded_readVariable hs (by simpa only [expr] using h) hT
  | .array elements span, s, s', b, hs, h, T, hT => by
    obtain ⟨b₁, s₁, count, h₁, hw, rfl, rfl⟩ := h.array
    exact ⟨_, count, coded_exprs elements hs h₁ (hT.of_grows (grows_over s₁ 3)), toNat_of_wide? hw,
      by simp [Item.toInstr, Item.line]⟩
  | .record entries span, s, s', b, hs, h, T, hT => by
    obtain ⟨b₁, s₁, count, h₁, hw, rfl, rfl⟩ := h.record
    exact ⟨_, count, coded_fields entries hs h₁ (hT.of_grows (grows_over s₁ 3)), toNat_of_wide? hw,
      by simp [Item.toInstr, Item.line]⟩
  | .binary left op right span, s, s', b, hs, h, T, hT => by
    obtain ⟨b₁, s₁, b₂, s₂, h₁, h₂, rfl, rfl⟩ := h.binary
    have hleft := computes_expr left hs h₁
    have hright := computes_expr right hleft.wf h₂
    -- Tables that cover the last state cover every state before it.
    have hT₂ := hT.of_grows (grows_over s₂ _)
    have hr := coded_expr right hleft.wf h₂ hT₂
    rw [hleft.inScope] at hr
    exact ⟨_, _, coded_expr left hs h₁ (hT₂.of_grows hright.grows), hr,
      by simp [Item.toInstr, Item.line]⟩
  | .logical left op right span, s, s', b, hs, h, T, hT => by
    obtain ⟨b₁, s₁, b₂, distance, h₁, h₂, hd, rfl⟩ := h.logical
    have hleft := computes_expr left hs h₁
    have hwf := wf_over (wf_over hleft.wf jumpSize) 1
    have hright := computes_expr right hwf h₂
    have hr := coded_expr right hwf h₂ hT
    change right.Coded T s₁.inScope _ at hr
    rw [hleft.inScope] at hr
    refine ⟨_, _, distance, coded_expr left hs h₁ (hT.of_grows
      (((grows_over s₁ _).trans (grows_over _ _)).trans hright.grows)), hr, ?_,
      by simp [Item.toInstr, Item.line]⟩
    rw [toNat_of_wide? hd, size_append, size_single, size_written, size_eq_place]
    rfl
  | .unary op operand span, s, s', b, hs, h, T, hT => by
    obtain ⟨b₁, s₁, i, h₁, rfl, rfl, rfl⟩ := h.unary
    refine ⟨_, coded_expr operand hs h₁ (hT.of_grows (grows_over s₁ 1)), ?_⟩
    cases op <;> simp [Item.toInstr, Item.line, unaryInstr]
  | .call callee args span, s, s', b, hs, h, T, hT => by
    obtain ⟨hargs, ⟨hp, b₁, s₁, h₁, rfl, rfl⟩ | ⟨hp, b₁, s₁, b₂, s₂, h₁, h₂, rfl, rfl⟩⟩ := h.call
    · exact ⟨[], _, _, coded_exprs args hs h₁ (hT.of_grows (grows_over s₁ 2)), toNat_count hargs,
        Or.inl ⟨hp, by simp [Item.toInstr, Item.line]⟩⟩
    · have hcallee := computes_expr callee hs h₁
      have hvalues := computes_exprs args hcallee.wf h₂
      have hT₂ := hT.of_grows (grows_over s₂ 2)
      have hall := coded_exprs args hcallee.wf h₂ hT₂
      rw [hcallee.inScope] at hall
      exact ⟨_, _, _, hall, toNat_count hargs, Or.inr ⟨hp,
        coded_expr callee hs h₁ (hT₂.of_grows hvalues.grows), by simp [Item.toInstr, Item.line]⟩⟩
  | .group inner span, s, s', b, hs, h, T, hT =>
    coded_expr inner hs (by simpa only [expr] using h) hT
  | .assign name value span, s, s', b, hs, h, T, hT => by
    obtain ⟨b₁, s₁, b₂, h₁, h₂, rfl⟩ := h.assign
    have hvalue := computes_expr value hs h₁
    obtain ⟨place, w, hfinds, hcode⟩ := coded_writeVariable hvalue.wf h₂ hT
    rw [hvalue.inScope] at hfinds
    have hgrows := grows_of_writeVariable hvalue.wf h₂
    exact ⟨_, place, w, coded_expr value hs h₁ (hT.of_grows hgrows), hfinds, by simp [hcode]⟩
  | .get object name span, s, s', b, hs, h, T, hT => by
    obtain ⟨b₁, s₁, w, s₂, h₁, hw, rfl, rfl⟩ := h.get
    have hT₂ := hT.of_grows (grows_over s₂ 3)
    exact ⟨_, w, coded_expr object hs h₁ (hT₂.of_grows (grows_of_addName hw)), Covers.name hw hT₂,
      by simp [Item.toInstr, Item.line]⟩
  | .set object name value span, s, s', b, hs, h, T, hT => by
    obtain ⟨b₁, s₁, b₂, s₂, w, s₃, h₁, h₂, hw, rfl, rfl⟩ := h.set
    have hobject := computes_expr object hs h₁
    have hvalue := computes_expr value hobject.wf h₂
    have hT₃ := hT.of_grows (grows_over s₃ 3)
    have hT₂ := hT₃.of_grows (grows_of_addName hw)
    have hv := coded_expr value hobject.wf h₂ hT₂
    rw [hobject.inScope] at hv
    exact ⟨_, _, w, coded_expr object hs h₁ (hT₂.of_grows hvalue.grows), hv, Covers.name hw hT₃,
      by simp [Item.toInstr, Item.line]⟩
  | .index object key span, s, s', b, hs, h, T, hT => by
    obtain ⟨b₁, s₁, b₂, s₂, h₁, h₂, rfl, rfl⟩ := h.index
    have hobject := computes_expr object hs h₁
    have hkey := computes_expr key hobject.wf h₂
    have hT₂ := hT.of_grows (grows_over s₂ 1)
    have hk := coded_expr key hobject.wf h₂ hT₂
    rw [hobject.inScope] at hk
    exact ⟨_, _, coded_expr object hs h₁ (hT₂.of_grows hkey.grows), hk,
      by simp [Item.toInstr, Item.line]⟩
  | .setIndex object key value span, s, s', b, hs, h, T, hT => by
    obtain ⟨b₁, s₁, b₂, s₂, b₃, s₃, h₁, h₂, h₃, rfl, rfl⟩ := h.setIndex
    have hobject := computes_expr object hs h₁
    have hkey := computes_expr key hobject.wf h₂
    have hvalue := computes_expr value hkey.wf h₃
    have hT₃ := hT.of_grows (grows_over s₃ 1)
    have hT₂ := hT₃.of_grows hvalue.grows
    have hk := coded_expr key hobject.wf h₂ hT₂
    have hv := coded_expr value hkey.wf h₃ hT₃
    rw [hkey.inScope, hobject.inScope] at hv
    rw [hobject.inScope] at hk
    exact ⟨_, _, _, coded_expr object hs h₁ (hT₂.of_grows hkey.grows), hk, hv,
      by simp [Item.toInstr, Item.line]⟩

theorem coded_exprs : (es : List Expr) → {s s' : State} → {b : Block} → s.Wf →
    Gives (exprs es #[]) s b s' → {T : Tables} → Covers T s' →
    Expr.CodedAll es T s.inScope (written b.toList)
  | [], s, s', b, hs, h, T, hT => by
    obtain ⟨rfl, rfl⟩ := gives_pure.1 (by simpa only [exprs] using h)
    rfl
  | e :: es, s, s', b, hs, h, T, hT => by
    obtain ⟨b₁, s₁, b₂, h₁, h₂, rfl⟩ := h.exprs_cons
    have hfirst := computes_expr e hs h₁
    have hrest := computes_exprs es hfirst.wf h₂
    have hcoded := coded_exprs es hfirst.wf h₂ hT
    rw [hfirst.inScope] at hcoded
    exact ⟨_, _, coded_expr e hs h₁ (hT.of_grows hrest.grows), hcoded, by simp⟩

theorem coded_fields : (es : List (String × Expr)) → {s s' : State} → {b : Block} → {line : Nat} →
    s.Wf → Gives (fields es line #[]) s b s' → {T : Tables} → Covers T s' →
    Expr.CodedFields es T s.inScope line (written b.toList)
  | [], s, s', b, line, hs, h, T, hT => by
    obtain ⟨rfl, rfl⟩ := gives_pure.1 (by simpa only [fields] using h)
    rfl
  | (key, e) :: es, s, s', b, line, hs, h, T, hT => by
    obtain ⟨w, b₁, s₁, b₂, hw, h₁, h₂, rfl⟩ := h.fields_cons
    have hkey := computes_emitConstant hs (text_ne_function key) hw line
    have hvalue := computes_expr e hkey.wf h₁
    have hrest := computes_fields es hvalue.wf h₂
    have hT₁ := hT.of_grows hrest.grows
    have hcoded := coded_fields es hvalue.wf h₂ hT
    rw [hvalue.inScope] at hcoded
    exact ⟨w, _, _, Covers.constant ((hT₁.of_grows hvalue.grows).of_grows (grows_over _ 3)) hw,
      coded_expr e hkey.wf h₁ hT₁, hcoded, by simp [Item.toInstr, Item.line]⟩

end

/-! ### Statements -/

/-- **A spot is where a state is.** Up to the end of the innermost loop there are `left` bytes. -/
structure At (x : Spot) (s : State) (left : Nat) : Prop where
  inBlock : x.inBlock = decide (s.current.depth ≠ 0)
  locals : x.locals = s.inScope
  offset : x.offset = s.current.offset
  loop : ∀ loop ∈ s.current.loops.head?, ∃ l, x.loop = some l ∧ l.start = loop.start ∧
    l.stop = s.current.offset + left ∧ l.kept = s.kept

/-- Behind code that stays in its loop there is less left of the loop. -/
theorem At.behind {x : Spot} {left size : Nat} (h : At x s left) (hg : s.Grows s')
    (hkept : s'.kept = s.kept) (hsize : s'.current.offset = s.current.offset + size)
    (hle : size ≤ left) : At { x.past size with locals := s'.inScope } s' (left - size) where
  inBlock := by rw [hg.depth]; exact h.inBlock
  locals := rfl
  offset := by rw [hsize, ← h.offset]; rfl
  loop loop hl := by
    rw [hg.loops] at hl
    obtain ⟨l, hx, hstart, hstop, hl⟩ := h.loop loop hl
    exact ⟨l, hx, hstart, by omega, hl.trans hkept.symm⟩

/-- The same behind code that declares nothing. -/
theorem At.past {x : Spot} {left size : Nat} (h : At x s left) (hg : s.Grows s')
    (hlength : s'.current.locals.length = s.current.locals.length)
    (hsize : s'.current.offset = s.current.offset + size) (hle : size ≤ left) :
    At (x.past size) s' (left - size) := by
  obtain ⟨hkept, hnoted⟩ := hg.kept_of_length hlength
  have hbehind := h.behind hg hkept hsize hle
  rw [inScope_of_noted hnoted, ← h.locals] at hbehind
  exact hbehind

/-- **The code of a step says what a coding says,** with the jumps out of the innermost loop measured,
and behind it the names are in scope that it declares. -/
structure Says (s : State) (b : Block) (s' : State) (coding : Tables → Coding)
    (names : List String) : Prop where
  coded : ∀ {T : Tables} {x : Spot} {left : Nat} {items : List Item}, Covers T s' → At x s left →
    b.size ≤ left → Closes left b.toList items → coding T x (written items)
  inScope : s'.inScope = if s.current.depth = 0 then s.inScope else names.reverse ++ s.inScope

/-- Code that declares nothing leaves the variables as they are. -/
theorem Says.inScope_eq {coding : Tables → Coding} (h : Says s b s' coding []) :
    s'.inScope = s.inScope := by
  rw [h.inScope]
  split <;> rfl

theorem length_of_inScope (h : s'.inScope = s.inScope) :
    s'.current.locals.length = s.current.locals.length := by
  simpa [State.inScope] using congrArg List.length h

theorem ite_inScope {c : Prop} [Decidable c] (h : s'.inScope = s.inScope) :
    s'.inScope = if c then s.inScope else [].reverse ++ s.inScope := by
  rw [h]
  split <;> rfl

theorem size_written_toList (b : Block) : Written.size (written b.toList) = b.size := by
  rw [size_written, size_eq_place]

theorem measured_of_typed {P : Pool} {start : Nat} {t u : StackShape}
    (h : Typed P (fun _ _ => False) start b t u) : Measured b.toList := by
  obtain ⟨l, hl, -, hcheck⟩ := h
  intro item hitem
  rw [← hl] at hitem
  obtain ⟨⟨item', t⟩, hmem, rfl⟩ := List.mem_map.1 hitem
  obtain ⟨before, after, rfl⟩ := List.append_of_mem hmem
  obtain ⟨-, hlabels⟩ := hcheck.item rfl
  cases item' with
  | instr i line => exact ⟨i, line, rfl⟩
  | exit line =>
    rcases hlabels .exit (List.mem_singleton.2 rfl) with hE | ⟨place, hplace, -⟩
    · exact hE.elim
    · cases hplace

theorem Computes.measured {n : Nat} (h : Computes s b s' n) : Measured b.toList :=
  measured_of_typed (h.typed s'.pool (fun _ _ => False) _ (fun _ => False) s'.pool.le_refl
    (Nat.le_refl _) fun _ hj => hj.elim)

/-- Outside all loops every jump is measured. -/
theorem Executes.measured (h : Executes s b s') (hloops : s.current.loops = []) :
    Measured b.toList :=
  measured_of_typed (h.typed s'.pool (fun _ _ => False) (fun _ => True) s'.pool.le_refl
    (fun _ _ _ => trivial) fun loop hl => by rw [hloops] at hl; cases hl)

/-- The instructions that take variables off the stack. -/
theorem unwinds_straight (c : Scope) (depth line : Nat) :
    Unwinds (c.deeper depth).length line (written (straight (c.unwinding depth) line).toList) := by
  constructor
  · simp [written, straight, Scope.unwinding]
  · intro e he
    simp only [written, straight, Scope.unwinding, List.map_map, List.mem_map,
      Function.comp_apply] at he
    obtain ⟨l, -, rfl⟩ := he
    cases l.isCaptured
    · exact Or.inl rfl
    · exact Or.inr rfl

theorem measured_straight (instrs : List Instr) (line : Nat) :
    Measured (straight instrs line).toList := by
  intro item hitem
  obtain ⟨i, -, rfl⟩ := List.mem_map.1 hitem
  exact ⟨i, line, rfl⟩

theorem length_deeper (c : Scope) (depth : Nat) : (c.deeper depth).length
    = c.locals.length - (c.locals.dropWhile fun l => depth < l.depth).length := by
  have hsplit := congrArg List.length
    (List.takeWhile_append_dropWhile (p := fun l : Local => decide (depth < l.depth)) (l := c.locals))
  rw [List.length_append] at hsplit
  change (c.locals.takeWhile _).length = _
  omega

/-- What a body says that can stand in a block. -/
def Spells (body : Step Block) (coding : Tables → Coding) (names : List String) : Prop :=
  ∀ {s s' : State} {b : Block}, s.Wf → s.Inside → s.current.depth ≠ 0 → Gives body s b s' →
    Says s b s' coding names

/-- **A block says what its body says** and takes its variables off the stack. -/
theorem says_withBlock {body : Step Block} {coding : Tables → Coding} {names : List String}
    (hsound : Sound body) (hbody : Spells body coding names) (hs : s.Wf) (hin : s.entered.Inside)
    (h : Gives (withBlock body) s b s') :
    Says s b s' (fun T => InBlock (coding T) names.length) [] := by
  obtain ⟨b₁, s₁, h₁, rfl, rfl⟩ := h.withBlock
  have hexec := hsound (wf_entered hs) hin h₁
  have hmeans := hbody (wf_entered hs) hin (Nat.succ_ne_zero _) h₁
  obtain ⟨hdepth, hnoted⟩ := closed_locals hs hexec.grows
  have hnames : s₁.inScope = names.reverse ++ s.inScope := hmeans.inScope
  refine ⟨fun {T x left items} hT hx hle hcloses => ?_, ?_⟩
  · rw [Array.toList_append] at hcloses
    rw [size_append] at hle
    obtain ⟨inner, off, rfl, hinner, hoff⟩ := hcloses.of_append
    have hT₁ : Covers T s₁ := ⟨hT.constants, hT.names, hT.functions, hT.captures, hT.enclosing⟩
    have hx₁ : At { x with inBlock := true } s.entered left := ⟨rfl, hx.locals, hx.offset, hx.loop⟩
    obtain rfl := hoff.eq_of_measured (measured_straight _ 0)
    have hcount : (s₁.left.current.deeper s₁.left.current.depth).length = names.length := by
      have hlength := congrArg List.length hnames
      simp only [State.inScope, List.length_map, List.length_append, List.length_reverse] at hlength
      rw [length_deeper, hdepth]
      change s₁.current.locals.length - (s₁.current.locals.dropWhile _).length = _
      rw [← hnoted.length_eq]
      omega
    refine ⟨_, _, hmeans.coded hT₁ hx₁ (by omega) hinner, ?_, written_append _ _⟩
    rw [← hcount]
    exact unwinds_straight _ _ 0
  · have hclosed : s₁.closed.inScope = s.inScope := by
      change (s₁.current.locals.dropWhile fun l => s₁.left.current.depth < l.depth).map _ = _
      rw [hdepth]
      exact names_of_noted hnoted
    exact ite_inScope hclosed

theorem closes_cons {left line : Nat} {i : Instr} {rest items : List Item}
    (h : Closes left (.instr i line :: rest) items) :
    ∃ items', items = .instr i line :: items' ∧ Closes (left - i.size) rest items' := by
  cases h with
  | instr h => exact ⟨_, rfl, h⟩

/-- **A conditional.** -/
theorem says_conditional {b₃ : Block} {line : Nat} {toElse toEnd : UInt16} {condition : Expr}
    {body orElse : Tables → Coding} (hs : s.Wf) (hcondition : Gives (expr condition) s b₁ s₁)
    (hbody : Executes ((s₁.over 3).over 1) b₂ s₂) (hmeans : Says ((s₁.over 3).over 1) b₂ s₂ body [])
    (hsecond : Executes ((s₂.over 3).over 1) b₃ s')
    (hmeans' : Says ((s₂.over 3).over 1) b₃ s' orElse [])
    (helse : wide? (Block.size (#[Item.instr ⟨.pop, ()⟩ line] ++ b₂) + jumpSize) = some toElse)
    (hend : wide? (Block.size (#[Item.instr ⟨.pop, ()⟩ line] ++ b₃)) = some toEnd) :
    Says s (b₁ ++ (#[Item.instr ⟨.jumpIfFalse, toElse⟩ line] ++ ((#[Item.instr ⟨.pop, ()⟩ line] ++ b₂) ++
      (#[Item.instr ⟨.jump, toEnd⟩ line] ++ (#[Item.instr ⟨.pop, ()⟩ line] ++ b₃))))) s'
      (fun T => Conditional (fun x => condition.Coded T x.locals) (body T) (orElse T) line) [] := by
  have hcomputes := computes_expr condition hs hcondition
  have hscope₁ : s₁.inScope = s.inScope := hcomputes.inScope
  have hscope₂ : s₂.inScope = s₁.inScope := hmeans.inScope_eq
  have hscope₃ : s'.inScope = s₂.inScope := hmeans'.inScope_eq
  have hgrows₁ : s₁.Grows s₂ := ((grows_over s₁ 3).trans (grows_over _ 1)).trans hbody.grows
  have hgrows₂ : s₂.Grows s' := ((grows_over s₂ 3).trans (grows_over _ 1)).trans hsecond.grows
  have hsize₁ := hcomputes.size
  have hsize₂ : s₂.current.offset = s₁.current.offset + 3 + 1 + b₂.size := hbody.size
  refine ⟨fun {T x left items} hT hx hle hcloses => ?_,
    ite_inScope (hscope₃.trans (hscope₂.trans hscope₁))⟩
  simp only [Array.toList_append, List.cons_append, List.nil_append] at hcloses
  simp only [size_append, size_single, Instr.size, Layout.size] at hle
  -- The items are taken apart from the front, in the order in which they were emitted.
  obtain ⟨c, _, rfl, hc, hjump⟩ := hcloses.of_append
  obtain rfl := hc.eq_of_measured hcomputes.measured
  obtain ⟨_, rfl, hpop⟩ := closes_cons hjump
  obtain ⟨_, rfl, hrest⟩ := closes_cons hpop
  obtain ⟨inner, _, rfl, hinner, hjump'⟩ := hrest.of_append
  obtain ⟨_, rfl, hpop'⟩ := closes_cons hjump'
  obtain ⟨other, rfl, hother⟩ := closes_cons hpop'
  -- `Closes` counts down item by item; `At` goes by the sizes of the blocks.
  have hplace₂ : left - place b₁.toList - 3 - 1 = left - (b₁.size + 4) := by
    rw [← size_eq_place]
    omega
  have hplace₃ : left - (b₁.size + 4) - place b₂.toList - 3 - 1
      = left - (b₁.size + 4 + b₂.size + 4) := by
    rw [← size_eq_place]
    omega
  change Closes (left - place b₁.toList - 3 - 1) _ _ at hinner
  change Closes (left - place b₁.toList - 3 - 1 - place b₂.toList - 3 - 1) _ _ at hother
  rw [hplace₂] at hinner
  rw [hplace₂, hplace₃] at hother
  have hx₂ : At (x.past (b₁.size + 4)) ((s₁.over 3).over 1) (left - (b₁.size + 4)) := hx.past
    (hcomputes.grows.trans ((grows_over s₁ 3).trans (grows_over _ 1))) hcomputes.locals
    (by change s₁.current.offset + 3 + 1 = _; omega) (by omega)
  have hx₃ : At (x.past (b₁.size + 4 + b₂.size + 4)) ((s₂.over 3).over 1)
      (left - (b₁.size + 4 + b₂.size + 4)) := hx.past
    ((hcomputes.grows.trans hgrows₁).trans ((grows_over s₂ 3).trans (grows_over _ 1)))
    (length_of_inScope (hscope₂.trans hscope₁))
    (by change s₂.current.offset + 3 + 1 = _; omega) (by omega)
  have hT₂ := hT.of_grows hgrows₂
  have hsize : Written.size (written inner) = b₂.size := by
    rw [size_written, hinner.place_eq, size_eq_place]
  have hsize' : Written.size (written other) = b₃.size := by
    rw [size_written, hother.place_eq, size_eq_place]
  refine ⟨written b₁.toList, written inner, written other, toElse, toEnd, ?_, ?_, ?_, ?_, ?_, ?_⟩
  · change condition.Coded T x.locals _
    rw [hx.locals]
    exact coded_expr condition hs hcondition (hT₂.of_grows hgrows₁)
  · rw [size_written_toList]
    exact hmeans.coded hT₂ hx₂ (by omega) hinner
  · rw [toNat_of_wide? helse, hsize, size_append, size_single]
    rfl
  · rw [size_written_toList, hsize]
    exact hmeans'.coded hT hx₃ (by omega) hother
  · rw [toNat_of_wide? hend, hsize', size_append, size_single]
    rfl
  · simp [Item.toInstr, Item.line]

/-- **A loop.** -/
theorem says_whileLoop (condition : Tables → Coding) (hs : s.Wf) {line : Nat} {back exit : UInt16}
    {body : Tables → Coding} (hcomputes : Computes s.looping b₁ s₁ 1)
    (hcondition : ∀ {T : Tables} {x : Spot}, Covers T s₁ → x.locals = s.inScope →
      condition T x (written b₁.toList))
    (hbody : Executes ((s₁.over 3).over 1) b₂ s₂) (hmeans : Says ((s₁.over 3).over 1) b₂ s₂ body [])
    (hback : wide? (s₂.current.offset + jumpSize - s.current.offset) = some back)
    (hexit : wide? (roundCode b₂ back line).size = some exit)
    (hclose : Block.closeLoop? (b₁ ++ (#[Item.instr ⟨.jumpIfFalse, exit⟩ line] ++
      (roundCode b₂ back line ++ #[Item.instr ⟨.pop, ()⟩ line]))) = some b) :
    Says s b ((s₂.over 3).over 1).looped
      (fun T => Looping (condition T) (body T) line) [] := by
  have hscope₁ : s₁.inScope = s.inScope := hcomputes.inScope
  have hscope₂ : s₂.inScope = s₁.inScope := hmeans.inScope_eq
  have hsize₁ : s₁.current.offset = s.current.offset + b₁.size := hcomputes.size
  have hsize₂ : s₂.current.offset = s₁.current.offset + 3 + 1 + b₂.size := hbody.size
  have hclosed := closes_of_closeLoop? hclose
  refine ⟨fun {T x left items} hT hx hle hcloses => ?_, ite_inScope (hscope₂.trans hscope₁)⟩
  obtain rfl := hcloses.eq_of_measured hclosed.measured
  have htotal : place b.toList = b₁.size + 4 + b₂.size + 4 := by
    rw [hclosed.place_eq, ← size_eq_place]
    simp only [roundCode, size_append, size_single, Instr.size, Layout.size]
    omega
  rw [← hclosed.place_eq] at hclosed
  simp only [roundCode, Array.toList_append, List.cons_append, List.nil_append,
    List.append_assoc] at hclosed
  obtain ⟨c, _, hb, hc, hjump⟩ := hclosed.of_append
  obtain rfl := hc.eq_of_measured hcomputes.measured
  obtain ⟨_, rfl, hpop⟩ := closes_cons hjump
  obtain ⟨_, rfl, hrest⟩ := closes_cons hpop
  obtain ⟨inner, _, rfl, hinner, hloop⟩ := hrest.of_append
  obtain ⟨_, rfl, hpop'⟩ := closes_cons hloop
  obtain ⟨_, rfl, hnil⟩ := closes_cons hpop'
  cases hnil
  have hplace : place b.toList - place b₁.toList - 3 - 1 = place b.toList - (b₁.size + 4) := by
    rw [← size_eq_place b₁]
    omega
  change Closes (place b.toList - place b₁.toList - 3 - 1) _ _ at hinner
  rw [hplace] at hinner
  have hT₂ : Covers T s₂ := ⟨hT.constants, hT.names, hT.functions, hT.captures, hT.enclosing⟩
  have hT₁ : Covers T s₁ :=
    hT₂.of_grows (((grows_over s₁ 3).trans (grows_over _ 1)).trans hbody.grows)
  have hsize : Written.size (written inner) = b₂.size := by
    rw [size_written, hinner.place_eq, size_eq_place]
  -- In the body the loop is the one that is about to be closed.
  have hx₁ : At { x.past (b₁.size + 4) with
      loop := some { start := x.offset, stop := x.offset + place b.toList
                     kept := x.locals.length } }
      ((s₁.over 3).over 1) (place b.toList - (b₁.size + 4)) := by
    refine ⟨?_, hx.locals.trans hscope₁.symm, ?_, fun loop hl => ?_⟩
    · rw [show ((s₁.over 3).over 1).current.depth = s.current.depth from hcomputes.grows.depth]
      exact hx.inBlock
    · change x.offset + (b₁.size + 4) = s₁.current.offset + 3 + 1
      rw [hx.offset, hsize₁]
      omega
    · rw [show ((s₁.over 3).over 1).current.loops = s.looping.current.loops from
        hcomputes.grows.loops] at hl
      obtain rfl : _ = loop := Option.some.inj hl
      refine ⟨_, rfl, hx.offset, ?_, ?_⟩
      · change x.offset + place b.toList
          = s₁.current.offset + 3 + 1 + (place b.toList - (b₁.size + 4))
        rw [hx.offset, hsize₁]
        omega
      · change x.locals.length = s₁.kept
        rw [(hcomputes.grows.kept_of_length hcomputes.locals).1, kept_looping hs, hx.locals]
        exact List.length_map _
  refine ⟨written b₁.toList, written inner, exit, back, hcondition hT₁ hx.locals, ?_, ?_, ?_, ?_⟩
  · rw [size_written_toList, size_written]
    exact hmeans.coded hT₂ hx₁ (by omega) hinner
  · rw [toNat_of_wide? hexit, hsize]
    simp only [roundCode, size_append, size_single, Instr.size, Layout.size]
    omega
  · rw [toNat_of_wide? hback, size_written_toList, hsize]
    change s₂.current.offset + 3 - s.current.offset = _
    omega
  · rw [hb]
    simp [Item.toInstr, Item.line, Written.of]

/-- The round of a loop over a container: the element is taken, and then the body runs. -/
theorem says_round {container line : Nat} {body : Tables → Coding}
    (htake : Gives (takeElement container (container + 1) (container + 2) line) s b₁ s₁)
    (hcomputes : Computes s b₁ s₁ 0) (hmeans : Says s₁ b₂ s' body []) :
    Says s (b₁ ++ b₂) s' (fun T => Round (body T) container line) [] := by
  obtain ⟨c, i, v, hc, hi, hv, hb, -⟩ := htake.takeElement
  have hsize : b₁.size = 11 := by
    rw [← hb]
    simp [size_eq_place, straight, Item.size, Instr.size, Layout.size]
  refine ⟨fun {T x left items} hT hx hle hcloses => ?_,
    ite_inScope (hmeans.inScope_eq.trans hcomputes.inScope)⟩
  rw [Array.toList_append] at hcloses
  rw [size_append] at hle
  obtain ⟨_, inner, rfl, htaken, hinner⟩ := hcloses.of_append
  obtain rfl := htaken.eq_of_measured hcomputes.measured
  rw [← size_eq_place, hsize] at hinner
  have hx₁ : At (x.past 11) s₁ (left - 11) :=
    hx.past hcomputes.grows hcomputes.locals (by rw [hcomputes.size, hsize]) (by omega)
  refine ⟨c, i, v, written inner, toNat_of_wide? hc, toNat_of_wide? hi, toNat_of_wide? hv,
    hmeans.coded hT hx₁ (by omega) hinner, ?_⟩
  rw [← hb]
  simp [straight, Item.toInstr, Item.line, Written.of]

/-- **What stands in the block of a loop over a container.** -/
theorem spells_iteration {name : String} {iterable : Expr} {body : Step Block} {line : Nat}
    {coding : Tables → Coding} {names : List String} (hsound : Sound body)
    (hbody : Spells body coding names) :
    Spells (iteration name (expr iterable) (withBlock body) line)
      (fun T x code => ∃ it first loop, iterable.Coded T x.locals it ∧
        T.constants[first.toNat]? = some (.number (-1)) ∧
        Looping (NextRound T x.locals.length line)
          (Round (InBlock (coding T) names.length) x.locals.length line) line
          { x.past (Written.size it + 4) with locals := name :: "__idx__" :: "__iter__" :: x.locals }
          loop ∧
        code = it ++ ((⟨.constant, first⟩, line) :: (⟨.nil, ()⟩, line) :: loop))
      ["__iter__", "__idx__", name] := by
  intro s s' b hs hin hdepth h
  obtain ⟨b₁, s₁, w, b₂, h₁, hw, h₂, rfl⟩ := h.iteration
  have hiterable := computes_expr iterable hs h₁
  have hslots := executes_forSlots name line hs hin h₁ hw
  obtain ⟨c₁, t₁, c₂, t₂, c₃, t₃, back, exit, g₁, hnext, g₂, htake, g₃, hin₃, hblock, hlength, hback,
    hexit, hclose, rfl⟩ := rounds_parts hsound hslots.wf rfl h₂
  have hround := (Executes.of_computes htake).append (htake.grows.kept_of_length htake.locals).1
    hblock
  have hrounds := says_whileLoop (fun T => NextRound T _ line) hslots.wf hnext
    (fun {T x} hT _ => by
      obtain ⟨c, i, one, hc, hi, hone, rfl, rfl⟩ := g₁.nextIndex
      exact ⟨c, i, one, toNat_of_wide? hc, toNat_of_wide? hi,
        Covers.constant (hT.of_grows (grows_over _ 19)) hone,
        by simp [straight, Item.toInstr, Item.line, Written.of]⟩)
    hround (says_round g₂ htake (says_withBlock hsound hbody htake.wf hin₃ g₃)) hback hexit hclose
  have hwhile := (executes_whileLoop hslots.wf hnext hround hlength hback hexit hclose).1
  have hscope : (s₁.forSlots name).inScope = name :: "__idx__" :: "__iter__" :: s.inScope := by
    rw [← hiterable.inScope]
    rfl
  refine ⟨fun {T x left items} hT hx hle hcloses => ?_, ?_⟩
  · simp only [Array.toList_append, List.cons_append, List.nil_append] at hcloses
    simp only [size_append, size_single, Instr.size, Layout.size] at hle
    obtain ⟨it, _, rfl, hit, hconstant⟩ := hcloses.of_append
    obtain rfl := hit.eq_of_measured hiterable.measured
    obtain ⟨_, rfl, hnil⟩ := closes_cons hconstant
    obtain ⟨loop, rfl, hloop⟩ := closes_cons hnil
    have hplace : left - place b₁.toList - 3 - 1 = left - (b₁.size + 4) := by
      rw [← size_eq_place]
      omega
    change Closes (left - place b₁.toList - 3 - 1) _ _ at hloop
    rw [hplace] at hloop
    have hx₁ : At { x.past (b₁.size + 4) with locals := (s₁.forSlots name).inScope }
        (s₁.forSlots name) (left - (b₁.size + 4)) :=
      hx.behind hslots.grows (hslots.grows.kept_eq hin) (by rw [hslots.size, size_append]; rfl)
        (by omega)
    rw [hscope, ← hx.locals] at hx₁
    have hcontainer : x.locals.length = s₁.current.locals.length := by
      rw [hx.locals, hiterable.locals]
      exact List.length_map _
    have hT₁ : Covers T (s₁.withConstant (.number (-1))) := by
      have hslotted := hT.of_grows hwhile.grows
      exact ⟨hslotted.constants, hslotted.names, hslotted.functions, hslotted.captures,
        hslotted.enclosing⟩
    refine ⟨written b₁.toList, w, written loop, ?_, hT₁.constant hw, ?_,
      by simp [Item.toInstr, Item.line]⟩
    · rw [hx.locals]
      exact coded_expr iterable hs h₁ (hT₁.of_grows (grows_withConstant s₁ _))
    · rw [size_written_toList, hcontainer]
      exact hrounds.coded hT hx₁ (by omega) hloop
  · rw [if_neg hdepth, hrounds.inScope_eq, hscope]
    rfl

/-! ### Functions -/

theorem inScope_nested (s : State) (params : List String) :
    (s.nested params).inScope = params.reverse ++ [""] := by
  have hfold : ∀ (params : List String) (c : Scope),
      (params.foldl (fun f p => f.declare p true) c).locals.map (·.name)
        = params.reverse ++ c.locals.map (·.name) := by
    intro params
    induction params with
    | nil => intro c; rfl
    | cons p params ih =>
      intro c
      rw [List.foldl_cons, ih, List.reverse_cons, List.append_assoc]
      rfl
  exact hfold params _

/-- **A closure is made of a function whose code says what its body says.** -/
theorem makesClosure_function {name : String} {params : List String} {body : Step Block} {line : Nat}
    {coding : Tables → Coding} {names : List String} (hsound : Sound body)
    (hbody : Spells body coding names) (hs : s.Wf) (h : Gives (function name params body line) s b s')
    {x : Spot} (hT : Covers T s') (hx : x.locals = s.inScope) :
    MakesClosure T name params coding line x (written b.toList) := by
  obtain ⟨hparams, b₁, s₁, s₂, w, h₁, rfl, hw, rfl, rfl⟩ := h.function
  obtain ⟨hwf, hloops, hoffset, hentry⟩ := wf_nested hs params
  obtain ⟨-, ls, hls, -⟩ := length_foldl_declare params { Scope.start with depth := 1 }
  have hdepth : (s.nested params).current.depth = 1 := congrArg Scope.depth hls
  have hin : (s.nested params).Inside := fun loop hl => by rw [hloops] at hl; cases hl
  have hcode := hsound hwf hin h₁
  have hmeans := hbody hwf hin (by rw [hdepth]; exact one_ne_zero) h₁
  have hreads := (sealed_body hcode hloops hoffset hentry line).reads s₁.current.constants
    s₁.current.names
  -- The functions around got notes only.
  have henclosing := hcode.grows.enclosing
  change List.Forall₂ Scope.Noted (s.current :: s.enclosing) s₁.enclosing at henclosing
  have hlinked := hcode.wf.linked
  obtain ⟨current, enclosing, functions⟩ := s₁
  obtain ⟨parent, outer, hparent, -, rfl⟩ := List.forall₂_cons_left_iff.1 henclosing
  have hconstant : T.constants[w.toNat]? = some (.function functions.size) := by
    refine getElem?_of_extends hT.constants ?_
    rw [toNat_of_wide? hw]
    exact Array.getElem?_push_size
  have hfunction : T.functions[functions.size]? = some
      { name, params, captures := current.captures.size
        chunk := (bodyCode b₁ line).toChunk current.constants current.names } :=
    getElem?_of_extends hT.functions Array.getElem?_push_size
  have hcount : current.captures.size = (sources current).length := by simp [sources]
  have hsurrounds : Surrounds parent ⟨x.locals, T.captures⟩ :=
    ⟨by rw [hx]; exact (names_of_noted hparent.locals).symm, hT.captures⟩
  refine ⟨w, functions.size, _, sources current, written b₁.toList, rfl, hconstant, hfunction, rfl,
    rfl, hcount, hparams, ?_, ?_, ?_⟩
  · rw [← hcount]
    exact hlinked.1
  · -- The spot at the start of a function is where its body is compiled.
    have hentered : At (Spot.entry params) (s.nested params) b₁.size := by
      refine ⟨?_, (inScope_nested s params).symm, hoffset.symm, fun loop hl => ?_⟩
      · rw [hdepth]
        rfl
      · rw [hloops] at hl
        cases hl
    simp only [toChunk_eq]
    refine hmeans.coded ⟨List.prefix_rfl, List.prefix_rfl, ?_, List.prefix_rfl,
      .cons hsurrounds hT.enclosing⟩ hentered (Nat.le_refl _) (.of_measured (hcode.measured hloops))
    refine List.IsPrefix.trans ?_ hT.functions
    simp [State.over, State.finish, State.withConstant]
  · have hwritten : written (bodyCode b₁ line).toList
        = written b₁.toList ++ Written.of [⟨.nil, ()⟩, ⟨.return_, ()⟩] line := by
      simp [bodyCode, Item.toInstr, Item.line, Written.of]
    rwa [hwritten] at hreads

/-! ### Declarations -/

theorem coded_valueOrNil (hs : s.Wf) {value : Option Expr} {line : Nat}
    (h : Gives (valueOrNil value line) s b s') (hT : Covers T s') :
    CodedOrNil T s.inScope line value (written b.toList) := by
  cases value with
  | some value => exact coded_expr value hs h hT
  | none =>
    obtain ⟨rfl, rfl⟩ := gives_emit.1 h
    rfl

/-- A declaration binds the value that was computed before it. -/
theorem binds_declare {name : String} {isMutable : Bool} {line : Nat}
    (h : Gives (declare name isMutable line) s b s') :
    Measured b.toList ∧ s.Grows s' ∧
      (∀ {T : Tables} {x : Spot}, Covers T s' → x.inBlock = decide (s.current.depth ≠ 0) →
        Binds T name isMutable line x (written b.toList)) ∧
      s'.inScope = if s.current.depth = 0 then s.inScope else [name].reverse ++ s.inScope := by
  rcases h.declare with ⟨hdepth, w, t, hw, rfl, rfl⟩ | ⟨hdepth, rfl, rfl⟩
  · have hgrows := (grows_of_addName hw).trans (grows_over t 3)
    obtain ⟨names, rfl, -, -⟩ := hw.addName
    refine ⟨fun item hitem => ⟨_, line, List.mem_singleton.1 hitem⟩, hgrows, fun {T x} hT hx => ?_, ?_⟩
    · exact .inr ⟨by rw [hx, hdepth]; rfl, w, Covers.name hw (hT.of_grows (grows_over _ 3)), rfl⟩
    · rw [if_pos hdepth]
      rfl
  · refine ⟨nofun, grows_declare s name isMutable, fun {T x} _ hx => ?_, ?_⟩
    · exact .inl ⟨by rw [hx]; exact decide_eq_true hdepth, rfl⟩
    · rw [if_neg hdepth]
      rfl

/-- **A binding:** a value, and the instruction that binds it if there is one. -/
theorem says_binding (value : Tables → (locals : List String) → Written → Prop) {name : String}
    {isMutable : Bool} {line : Nat} (hcomputes : Computes s b₁ s₁ 1)
    (hvalue : ∀ {T : Tables}, Covers T s₁ → value T s.inScope (written b₁.toList))
    (h : Gives (declare name isMutable line) s₁ b₂ s') :
    Says s (b₁ ++ b₂) s' (fun T x code => ∃ v d, value T x.locals v ∧
      Binds T name isMutable line x d ∧ code = v ++ d) [name] := by
  obtain ⟨hmeasured, hgrows, hbinds, hscope⟩ := binds_declare h
  refine ⟨fun {T x left items} hT hx _ hcloses => ?_, ?_⟩
  · rw [Array.toList_append] at hcloses
    obtain ⟨first, last, rfl, hfirst, hlast⟩ := hcloses.of_append
    obtain rfl := hfirst.eq_of_measured hcomputes.measured
    obtain rfl := hlast.eq_of_measured hmeasured
    refine ⟨_, _, ?_, hbinds hT ?_, written_append _ _⟩
    · rw [hx.locals]
      exact hvalue (hT.of_grows hgrows)
    · rw [hx.inBlock, hcomputes.grows.depth]
  · rw [hscope, hcomputes.inScope, hcomputes.grows.depth]

/-- **A function,** which is a global outside all blocks and a local variable inside. -/
theorem says_function {name : String} {params : List String} {body : Step Block} {line : Nat}
    {coding : Tables → Coding} {names : List String} (hsound : Sound body)
    (hbody : Spells body coding names) (hs : s.Wf)
    (h : (s.current.depth = 0 ∧ ∃ b₁ s₁ w s₂, Gives (function name params body line) s b₁ s₁ ∧
        Gives (addName name line) s₁ w s₂ ∧ b₁ ++ #[Item.instr ⟨.defineLet, w⟩ line] = b ∧
        s₂.over 3 = s') ∨
      (s.current.depth ≠ 0 ∧
        Gives (function name params body line) (s.withScope (·.declare name false)) b s')) :
    Says s b s' (fun T x code => ∃ f d, MakesClosure T name params coding line (x.declare name) f ∧
      Binds T name false line x d ∧ code = f ++ d) [name] := by
  rcases h with ⟨hdepth, b₁, s₁, w, s₂, h₁, hw, rfl, rfl⟩ | ⟨hdepth, h₁⟩
  · have hfinishes := finishes_function hs hsound h₁
    obtain ⟨_, _, hclosure, -⟩ := hfinishes.code
    have hscope : s₁.inScope = s.inScope :=
      inScope_of_noted (hfinishes.grows.kept_of_length hfinishes.locals).2
    obtain ⟨_, hs₂, -, -⟩ := hw.addName
    refine ⟨fun {T x left items} hT hx _ hcloses => ?_, ?_⟩
    · have hT₂ := hT.of_grows (grows_over s₂ 3)
      have hblock : x.inBlock = false := by rw [hx.inBlock, hdepth]; rfl
      rw [Array.toList_append] at hcloses
      obtain ⟨first, _, rfl, hfirst, hlast⟩ := hcloses.of_append
      obtain rfl := hfirst.eq_of_measured fun item hitem => by
        rw [hclosure] at hitem
        exact ⟨_, line, List.mem_singleton.1 hitem⟩
      obtain ⟨_, rfl, hnil⟩ := closes_cons hlast
      cases hnil
      refine ⟨_, _, makesClosure_function hsound hbody hs h₁ (hT₂.of_grows (grows_of_addName hw)) ?_,
        .inr ⟨hblock, w, Covers.name hw hT₂, rfl⟩, written_append _ _⟩
      rw [← hx.locals]
      simp [Spot.declare, hblock]
    · rw [if_pos hdepth, ← hscope, ← hs₂]
      rfl
  · have hfinishes := finishes_function (wf_declare hs name false) hsound h₁
    obtain ⟨_, _, hclosure, -⟩ := hfinishes.code
    have hscope : s'.inScope = name :: s.inScope :=
      inScope_of_noted (hfinishes.grows.kept_of_length hfinishes.locals).2
    refine ⟨fun {T x left items} hT hx _ hcloses => ?_, ?_⟩
    · have hblock : x.inBlock = true := by rw [hx.inBlock]; exact decide_eq_true hdepth
      obtain rfl := hcloses.eq_of_measured fun item hitem => by
        rw [hclosure] at hitem
        exact ⟨_, line, List.mem_singleton.1 hitem⟩
      refine ⟨_, [], makesClosure_function hsound hbody (wf_declare hs name false) h₁ hT ?_,
        .inl ⟨hblock, rfl⟩, (List.append_nil _).symm⟩
      simp only [Spot.declare, hblock, if_true, hx.locals]
      rfl
    · rw [if_neg hdepth, hscope]
      rfl

/-! ### Leaving a loop -/

/-- In front of a jump out of a loop, or to its start, its variables are taken off the stack. -/
theorem unwinds_loop (line : Nat) {x : Spot} {left : Nat} {loop : Loop} {outer : List Loop} (hx : At x s left)
    (hloops : s.current.loops = loop :: outer) : ∃ l, x.loop = some l ∧ l.start = loop.start ∧
      l.stop = s.current.offset + left ∧ Unwinds (x.locals.length - l.kept) line
        (written (straight (s.current.unwinding loop.depth) line).toList) := by
  obtain ⟨l, hloop, hstart, hstop, hkept⟩ := hx.loop loop (by rw [hloops]; rfl)
  refine ⟨l, hloop, hstart, hstop, ?_⟩
  have hcount : x.locals.length - l.kept = (s.current.deeper loop.depth).length := by
    rw [length_deeper, hkept, hx.locals, kept, hloops]
    exact congrArg (· - _) (List.length_map _)
  rw [hcount]
  exact unwinds_straight _ _ line

theorem says_break {span : Span} (h : Gives (stmt (.break_ span)) s b s') :
    Says s b s' (Stmt.Coded (.break_ span)) [] := by
  obtain ⟨loop, outer, hloops, rfl, rfl⟩ := h.stmt_break
  refine ⟨fun {T x left items} hT hx hle hcloses => ?_, ite_inScope rfl⟩
  obtain ⟨l, hloop, -, hstop, hunwinds⟩ := unwinds_loop span.line hx hloops
  rw [Array.toList_append] at hcloses
  obtain ⟨off, last, rfl, hoff, hlast⟩ := hcloses.of_append
  obtain rfl := hoff.eq_of_measured (measured_straight _ span.line)
  have hsize : Block.size #[.exit span.line] = 3 := by simp [size_eq_place, Item.size]
  rw [size_append, hsize, size_eq_place] at hle
  cases hlast with
  | @exit _ w _ _ _ hd hnil =>
    cases hnil
    refine ⟨l, _, w, hloop, hunwinds, ?_, written_append _ _⟩
    rw [size_written, hstop, hx.offset, hd]
    omega

theorem says_continue (hs : s.Wf) {span : Span} (h : Gives (stmt (.continue_ span)) s b s') :
    Says s b s' (Stmt.Coded (.continue_ span)) [] := by
  obtain ⟨loop, outer, w, hloops, hw, rfl, rfl⟩ := h.stmt_continue
  refine ⟨fun {T x left items} hT hx hle hcloses => ?_, ite_inScope rfl⟩
  obtain ⟨l, hloop, hstart, -, hunwinds⟩ := unwinds_loop span.line hx hloops
  rw [Array.toList_append] at hcloses
  obtain ⟨off, last, rfl, hoff, hlast⟩ := hcloses.of_append
  obtain rfl := hoff.eq_of_measured (measured_straight _ span.line)
  obtain ⟨_, rfl, hnil⟩ := closes_cons hlast
  cases hnil
  refine ⟨l, _, w, hloop, hunwinds, ?_, written_append _ _⟩
  have hle' := hs.starts loop (by rw [hloops]; exact List.mem_cons_self)
  rw [size_written_toList, size_straight_unwinding, hstart, hx.offset, toNat_of_wide? hw]
  change loop.start + (_ + 3 - loop.start) = _
  omega

/-! ### The induction -/

/-- The spot behind a statement. -/
theorem At.after {x : Spot} {left : Nat} {p : Stmt} {coding : Tables → Coding} (hx : At x s left)
    (hin : s.Inside) (hexec : Executes s b s') (hmeans : Says s b s' coding p.declaredName?.toList)
    (hle : b.size ≤ left) : At (x.after p b.size) s' (left - b.size) := by
  have hbehind := hx.behind hexec.grows (hexec.grows.kept_eq hin) hexec.size hle
  have hspot : x.after p b.size = { x.past b.size with locals := s'.inScope } := by
    rw [hmeans.inScope, ← hx.locals, Spot.after]
    by_cases hdepth : s.current.depth = 0
    · have hblock : x.inBlock = false := by rw [hx.inBlock, hdepth]; rfl
      rw [if_pos hdepth]
      cases p.declaredName? <;> simp [Spot.declare, hblock, Spot.past]
    · have hblock : x.inBlock = true := by rw [hx.inBlock]; exact decide_eq_true hdepth
      rw [if_neg hdepth]
      cases p.declaredName? <;> simp [Spot.declare, hblock, Spot.past]
  rw [hspot]
  exact hbehind

mutual

/-- **The code of a statement says what the statement says.** -/
theorem says_stmt : (p : Stmt) → p.Regular → {s s' : State} → {b : Block} → s.Wf → s.Inside →
    Gives (stmt p) s b s' → Says s b s' p.Coded p.declaredName?.toList
  | .expr value, _, s, s', b, hs, _, h => by
    obtain ⟨b₁, s₁, h₁, rfl, rfl⟩ := h.stmt_expr
    have hcomputes := computes_expr value hs h₁
    refine ⟨fun {T x left items} hT hx _ hcloses => ?_, ite_inScope hcomputes.inScope⟩
    rw [Array.toList_append] at hcloses
    obtain ⟨first, _, rfl, hfirst, hlast⟩ := hcloses.of_append
    obtain rfl := hfirst.eq_of_measured hcomputes.measured
    obtain ⟨_, rfl, hnil⟩ := closes_cons hlast
    cases hnil
    refine ⟨_, ?_, written_append _ _⟩
    rw [hx.locals]
    exact coded_expr value hs h₁ (hT.of_grows (grows_over s₁ 1))
  | .var name value span, _, s, s', b, hs, _, h => by
    obtain ⟨b₁, s₁, b₂, h₁, h₂, rfl⟩ := h.stmt_var
    exact says_binding (fun T locals => CodedOrNil T locals span.line value)
      (computes_valueOrNil hs h₁) (coded_valueOrNil hs h₁) h₂
  | .let_ name value span, _, s, s', b, hs, _, h => by
    obtain ⟨b₁, s₁, b₂, h₁, h₂, rfl⟩ := h.stmt_let
    exact says_binding value.Coded (computes_expr value hs h₁) (coded_expr value hs h₁) h₂
  | .block body span, hp, s, s', b, hs, hin, h => by
    rw [Stmt.Regular] at hp
    rw [stmt] at h
    exact says_withBlock (sound_stmts body hp) (fun hs hin _ h => says_stmts body hp hs hin h) hs
      (fun loop hl => Nat.lt_succ_of_lt (hin loop hl)) h
  | .if_ condition body none span, hp, s, s', b, hs, hin, h => by
    rw [Stmt.Regular] at hp
    rw [stmt] at h
    obtain ⟨b₁, s₁, b₂, s₂, b₃, toElse, toEnd, h₁, h₂, helse, h₃, hend, rfl⟩ := h.conditional
    have hcondition := computes_expr condition hs h₁
    have hin₁ : ((s₁.over 3).over 1).entered.Inside := fun loop hl =>
      Nat.lt_succ_of_lt (hcondition.grows.inside hin loop hl)
    have hwf₁ := wf_over (wf_over hcondition.wf 3) 1
    have hbody := (sound_withBlock (sound_stmts body hp) hwf₁ hin₁ h₂).1
    have hmeans := says_withBlock (sound_stmts body hp)
      (fun hs hin _ h => says_stmts body hp hs hin h) hwf₁ hin₁ h₂
    obtain ⟨rfl, rfl⟩ := gives_pure.1 h₃
    -- A missing branch is no code, and it says nothing.
    have hnone : ∀ s : State, Says s #[] s (fun _ _ code => code = []) [] := fun s =>
      ⟨fun _ _ _ hcloses => by cases hcloses; rfl, ite_inScope rfl⟩
    exact says_conditional hs h₁ hbody hmeans (.nil (wf_over (wf_over hbody.wf 3) 1)) (hnone _) helse
      hend
  | .if_ condition body (some orElse) span, hp, s, s', b, hs, hin, h => by
    rw [Stmt.Regular] at hp
    obtain ⟨hregular, hbranch, hregular'⟩ := hp
    rw [stmt] at h
    obtain ⟨b₁, s₁, b₂, s₂, b₃, toElse, toEnd, h₁, h₂, helse, h₃, hend, rfl⟩ := h.conditional
    have hcondition := computes_expr condition hs h₁
    have hin₁ := hcondition.grows.inside hin
    have hin₁' : ((s₁.over 3).over 1).entered.Inside := fun loop hl => Nat.lt_succ_of_lt (hin₁ loop hl)
    have hwf₁ := wf_over (wf_over hcondition.wf 3) 1
    have hbody := (sound_withBlock (sound_stmts body hregular) hwf₁ hin₁' h₂).1
    have hmeans := says_withBlock (sound_stmts body hregular)
      (fun hs hin _ h => says_stmts body hregular hs hin h) hwf₁ hin₁' h₂
    have hin₂ : s₂.Inside := hbody.grows.inside (fun loop hl => hin₁ loop hl)
    have hwf₂ := wf_over (wf_over hbody.wf 3) 1
    have hsecond := (executes_stmt orElse hregular' hwf₂ (fun loop hl => hin₂ loop hl) h₃).1
    have hmeans' := says_stmt orElse hregular' hwf₂ (fun loop hl => hin₂ loop hl) h₃
    -- A second branch is a block or a conditional, and neither declares a name.
    have hname : orElse.declaredName? = none := by
      cases orElse <;> first | rfl | cases hbranch
    rw [hname] at hmeans'
    exact says_conditional hs h₁ hbody hmeans hsecond hmeans' helse hend
  | .while_ condition body span, hp, s, s', b, hs, _, h => by
    rw [Stmt.Regular] at hp
    rw [stmt] at h
    obtain ⟨b₁, s₁, b₂, s₂, back, exit, h₁, h₂, hback, hexit, hclose, rfl⟩ := h.whileLoop
    have hcondition := computes_expr condition (wf_looping hs) h₁
    have hin := inside_entered_looping s hcondition.grows.depth hcondition.grows.loops
    have hwf₁ := wf_over (wf_over hcondition.wf 3) 1
    refine says_whileLoop (fun T x => condition.Coded T x.locals) hs hcondition
      (fun {T x} hT hx => ?_) (sound_withBlock (sound_stmts body hp) hwf₁ hin h₂).1
      (says_withBlock (sound_stmts body hp) (fun hs hin _ h => says_stmts body hp hs hin h) hwf₁ hin
        h₂) hback hexit hclose
    rw [hx]
    exact coded_expr condition (wf_looping hs) h₁ hT
  | .for_ name iterable body span, hp, s, s', b, hs, hin, h => by
    rw [Stmt.Regular] at hp
    rw [stmt, forLoop_eq] at h
    exact says_withBlock (executes_iteration (sound_stmts body hp))
      (spells_iteration (sound_stmts body hp) fun hs hin _ h => says_stmts body hp hs hin h) hs
      (fun loop hl => Nat.lt_succ_of_lt (hin loop hl)) h
  | .function name params body span, hp, s, s', b, hs, _, h => by
    rw [Stmt.Regular] at hp
    exact says_function (sound_stmts body hp) (fun hs hin _ h => says_stmts body hp hs hin h) hs
      h.stmt_function
  | .return_ value span, _, s, s', b, hs, _, h => by
    obtain ⟨b₁, s₁, h₁, rfl, rfl⟩ := h.stmt_return
    have hcomputes := computes_valueOrNil hs h₁
    refine ⟨fun {T x left items} hT hx _ hcloses => ?_, ite_inScope hcomputes.inScope⟩
    rw [Array.toList_append] at hcloses
    obtain ⟨first, _, rfl, hfirst, hlast⟩ := hcloses.of_append
    obtain rfl := hfirst.eq_of_measured hcomputes.measured
    obtain ⟨_, rfl, hnil⟩ := closes_cons hlast
    cases hnil
    refine ⟨_, ?_, written_append _ _⟩
    rw [hx.locals]
    exact coded_valueOrNil hs h₁ (hT.of_grows (grows_over s₁ 1))
  | .break_ span, _, s, s', b, _, _, h => says_break h
  | .continue_ span, _, s, s', b, hs, _, h => says_continue hs h

theorem says_stmts : (ps : List Stmt) → Stmt.AllRegular ps → {s s' : State} → {b : Block} → s.Wf →
    s.Inside → Gives (stmts ps #[]) s b s' →
    Says s b s' (Stmt.CodedAll ps) (ps.filterMap Stmt.declaredName?)
  | [], _, s, s', b, _, _, h => by
    obtain ⟨rfl, rfl⟩ := gives_pure.1 (by simpa only [stmts] using h)
    refine ⟨fun _ _ _ hcloses => ?_, ite_inScope rfl⟩
    cases hcloses
    rfl
  | p :: ps, hp, s, s', b, hs, hin, h => by
    rw [Stmt.AllRegular] at hp
    obtain ⟨b₁, s₁, b₂, h₁, h₂, rfl⟩ := h.stmts_cons
    have hexec := (executes_stmt p hp.1 hs hin h₁).1
    have hfirst := says_stmt p hp.1 hs hin h₁
    have hin₁ := hexec.grows.inside hin
    have hrest := says_stmts ps hp.2 hexec.wf hin₁ h₂
    refine ⟨fun {T x left items} hT hx hle hcloses => ?_, ?_⟩
    · rw [Array.toList_append] at hcloses
      rw [size_append] at hle
      obtain ⟨first, rest, rfl, hcloses₁, hcloses₂⟩ := hcloses.of_append
      have hT₁ := hT.of_grows (sound_stmts ps hp.2 hexec.wf hin₁ h₂).grows
      rw [← size_eq_place] at hcloses₂
      refine ⟨written first, written rest, hfirst.coded hT₁ hx (by omega) hcloses₁, ?_,
        written_append _ _⟩
      rw [size_written, hcloses₁.place_eq, ← size_eq_place]
      exact hrest.coded hT (hx.after hin hexec hfirst (by omega)) (by omega) hcloses₂
    · rw [hrest.inScope, hfirst.inScope, hexec.grows.depth]
      split
      · rfl
      · cases hname : p.declaredName? <;> simp [hname]

end

end DeployScript.Compile

namespace DeployScript

open Compile Block

/-- **What a program is compiled to says what the program says.** -/
theorem Compiled.translates_ofProgram {p : Program} {c : Compiled}
    (hp : Stmt.AllRegular p.statements) (h : Compiled.ofProgram p = .ok c) : c.Translates p := by
  obtain ⟨b₁, s₁, b₂, s₂, h₁, h₂, rfl⟩ := Compiled.ofProgram_eq h
  obtain ⟨hfirst, hvalue, hsealed⟩ := sealed_script hp h₁ h₂
  have hreads := hsealed.reads s₂.current.constants s₂.current.names
  have hin : State.initial.Inside := fun loop hl => by cases hl
  have hmeans := says_stmts _ (splitLast_regular hp) wf_initial hin h₁
  have hlinked := hvalue.wf.linked
  have henclosing : s₂.enclosing = [] := by
    have hnoted : List.Forall₂ _ [] s₂.enclosing := (hfirst.grows.trans hvalue.grows).enclosing
    exact List.forall₂_nil_left_iff.1 hnoted
  have hcovers : Covers { constants := s₂.current.constants, names := s₂.current.names
                          functions := s₂.functions, captures := [], enclosing := [] } s₂ := by
    refine ⟨List.prefix_rfl, List.prefix_rfl, List.prefix_rfl, ?_, ?_⟩
    · rw [henclosing] at hlinked
      have hsize : s₂.current.captures.size = 0 := hlinked
      simp [sources, Array.eq_empty_of_size_eq_zero hsize]
    · rw [henclosing]
      exact .nil
  have hvariables : s₁.inScope = [""] := by
    rw [hmeans.inScope]
    rfl
  refine ⟨written b₁.toList, written b₂.toList, ?_, ?_, ?_⟩
  · simp only [Compiled.tables, Block.toChunk_eq]
    have hstart : At { inBlock := false, loop := none, locals := [""], offset := 0 } State.initial
        b₁.size := ⟨rfl, rfl, rfl, fun loop hl => by cases hl⟩
    exact hmeans.coded (hcovers.of_grows hvalue.grows) hstart (Nat.le_refl _)
      (.of_measured (hfirst.measured rfl))
  · simp only [Compiled.tables, Block.toChunk_eq]
    rw [← hvariables]
    exact coded_valueOrNil hfirst.wf h₂ hcovers
  · have hwritten : written (b₁ ++ (b₂ ++ #[Item.instr ⟨.return_, ()⟩ 0])).toList
        = written b₁.toList ++ (written b₂.toList ++ [(⟨.return_, ()⟩, 0)]) := by
      simp [Item.toInstr, Item.line]
    rwa [hwritten] at hreads

end DeployScript
