import DeployScript.Proofs.Code.Bytes
import DeployScript.Proofs.Code.Sequences

/-!
# What a step of the compilation gives

A step of the compilation that succeeds gives a block and a state. Here each step is taken apart:
from the result of a node to the results of its parts.

* `Gives` — a step succeeds in a state, with an answer and the state it ends in.
* `gives_bind` takes a sequence of steps apart; the lemmas `gives_…` do so for the single
  instructions and for what expressions and statements are put together from.
* `gives_resolve` — the three places where a name can be found.
-/

namespace DeployScript.Compile

/-- A step succeeds with an answer, and ends in a state. -/
def Gives {α : Type} (x : Step α) (s : State) (a : α) (s' : State) : Prop := x s = .ok (a, s')

/-- A state in which more code is counted. -/
def State.over (s : State) (size : Nat) : State :=
  { s with current := { s.current with offset := s.current.offset + size } }

theorem over_over (s : State) (m n : Nat) : (s.over m).over n = s.over (m + n) := by
  simp only [State.over, Nat.add_assoc]

/-- A state with one more constant. -/
def State.withConstant (s : State) (literal : Literal) : State :=
  { s with current := { s.current with constants := s.current.constants.push literal } }

theorem over_withConstant (s : State) (n : Nat) (literal : Literal) :
    (s.over n).withConstant literal = (s.withConstant literal).over n := rfl

/-- A state with another current scope. -/
def State.withScope (s : State) (f : Scope → Scope) : State := { s with current := f s.current }

/-- A state with other names. -/
def State.withNames (s : State) (names : Array String) : State :=
  { s with current := { s.current with names } }

/-- A state with one more block around what follows. -/
def State.entered (s : State) : State := s.withScope fun c => { c with depth := c.depth + 1 }

/-- A state with one block less around what follows. -/
def State.left (s : State) : State := s.withScope fun c => { c with depth := c.depth - 1 }

/-- Instructions of one line. -/
def straight (instrs : List Instr) (line : Nat) : Block :=
  (instrs.map (Item.instr · line)).toArray

section Monad

variable {α β : Type} {s s' s'' : State}

theorem gives_pure {a b : α} : Gives (pure a) s b s' ↔ a = b ∧ s = s' := by
  simp only [Gives, pure, StateT.pure, Except.pure, Except.ok.injEq, Prod.mk.injEq]

theorem gives_bind {x : Step α} {f : α → Step β} {b : β} :
    Gives (x >>= f) s b s'' ↔ ∃ a s', Gives x s a s' ∧ Gives (f a) s' b s'' := by
  simp only [Gives, bind, StateT.bind, Except.bind]
  constructor
  · intro h
    cases hx : x s with
    | error e => rw [hx] at h; cases h
    | ok r => rw [hx] at h; exact ⟨r.1, r.2, rfl, h⟩
  · rintro ⟨a, s', hx, hf⟩
    rw [hx]
    exact hf

theorem gives_throw {e : ScriptError} {a : α} : ¬ Gives (throw e : Step α) s a s' := by
  intro h
  cases h

theorem gives_exceed {limit : Limit} {line : Nat} {a : α} : ¬ Gives (exceed limit line) s a s' :=
  gives_throw

theorem gives_get {a : State} : Gives get s a s' ↔ s = a ∧ s = s' := gives_pure

theorem gives_modify {f : State → State} {a : Unit} : Gives (modify f) s a s' ↔ f s = s' := by
  constructor
  · intro h; cases h; rfl
  · intro h; subst h; rfl

theorem gives_set {t : State} {a : Unit} : Gives (set t) s a s' ↔ t = s' := by
  constructor
  · intro h; cases h; rfl
  · intro h; subst h; rfl

theorem gives_modifyScope {f : Scope → Scope} {a : Unit} :
    Gives (modifyScope f) s a s' ↔ s.withScope f = s' := gives_modify

theorem gives_scope {a : Scope} : Gives scope s a s' ↔ s.current = a ∧ s = s' := by
  simp only [scope, gives_bind, gives_get, gives_pure, and_assoc, exists_eq_left', exists_and_left]

end Monad

/-! ### Single instructions -/

section Instructions

variable {s s' : State} {b : Block}

theorem gives_reserve {size : Nat} {a : Unit} : Gives (reserve size) s a s' ↔ s.over size = s' :=
  gives_modifyScope

theorem gives_emit {i : Instr} {line : Nat} :
    Gives (emit i line) s b s' ↔ #[.instr i line] = b ∧ s.over i.size = s' := by
  simp only [emit, gives_bind, gives_reserve, gives_pure, exists_eq_left', exists_const]

theorem gives_wide {n : Nat} {limit : Limit} {line : Nat} {w : UInt16} :
    Gives (wide n limit line) s w s' ↔ wide? n = some w ∧ s = s' := by
  unfold wide
  cases hn : wide? n with
  | none => simp [gives_exceed]
  | some v => simp [gives_pure]

theorem gives_declareLocal {name : String} {isMutable : Bool} {a : Unit} :
    Gives (declareLocal name isMutable) s a s' ↔ s.withScope (·.declare name isMutable) = s' :=
  gives_modifyScope

theorem gives_declareSlot {name : String} {isMutable : Bool} {slot : Nat} :
    Gives (declareSlot name isMutable) s slot s' ↔
      s.current.locals.length = slot ∧ s.withScope (·.declare name isMutable) = s' := by
  simp only [declareSlot, gives_bind, gives_scope, gives_declareLocal, gives_pure, and_assoc,
    exists_eq_left', exists_and_left, exists_const]

theorem gives_addConstant {literal : Literal} {line : Nat} {w : UInt16} :
    Gives (addConstant literal line) s w s' ↔
      wide? s.current.constants.size = some w ∧ s.withConstant literal = s' := by
  simp only [addConstant, gives_bind, gives_scope, gives_wide, gives_modifyScope, gives_pure,
    and_assoc, exists_eq_left', exists_and_left, exists_const]
  constructor
  · rintro ⟨_, hw, rfl, rfl⟩
    exact ⟨hw, rfl⟩
  · rintro ⟨hw, rfl⟩
    exact ⟨_, hw, rfl, rfl⟩

/-- A name has an index, and at most becomes the last one. -/
theorem Gives.addName {name : String} {line : Nat} {w : UInt16}
    (h : Gives (addName name line) s w s') :
    ∃ names, s.withNames names = s' ∧ s.current.names.toList <+: names.toList ∧
      names[w.toNat]? = some name := by
  simp only [Compile.addName, gives_bind, gives_scope, and_assoc, exists_eq_left',
    exists_and_left] at h
  split at h
  case h_1 index hindex =>
    obtain ⟨hw, rfl⟩ := gives_wide.1 h
    refine ⟨s.current.names, rfl, List.prefix_rfl, ?_⟩
    rw [Array.idxOf?, Option.map_eq_some_iff] at hindex
    obtain ⟨k, hk, rfl⟩ := hindex
    rw [toNat_of_wide? hw, Array.getElem?_eq_getElem k.isLt]
    exact congrArg some (Array.finIdxOf?_eq_some_iff.1 hk).1
  case h_2 =>
    simp only [gives_bind, gives_wide, gives_modifyScope, gives_pure, and_assoc, exists_eq_left',
      exists_and_left, exists_const] at h
    obtain ⟨_, hw, rfl, rfl⟩ := h
    refine ⟨s.current.names.push name, rfl, by simp, ?_⟩
    rw [toNat_of_wide? hw]
    simp

theorem gives_emitConstant {literal : Literal} {line : Nat} :
    Gives (emitConstant literal line) s b s' ↔
      ∃ w, wide? s.current.constants.size = some w ∧ #[.instr ⟨.constant, w⟩ line] = b ∧
        (s.withConstant literal).over 3 = s' := by
  simp only [emitConstant, gives_bind, gives_addConstant, gives_emit]
  constructor
  · rintro ⟨w, _, ⟨hw, rfl⟩, rfl, rfl⟩
    exact ⟨w, hw, rfl, rfl⟩
  · rintro ⟨w, hw, rfl, rfl⟩
    exact ⟨w, _, ⟨hw, rfl⟩, rfl, rfl⟩

/-- The size of the instructions that take local variables off the stack: each is one byte. -/
theorem size_unwinding (c : Scope) (depth n : Nat) :
    (c.unwinding depth).foldl (fun n i => n + i.size) n = n + (c.deeper depth).length := by
  have hone : ∀ l : Local,
      (if l.isCaptured then (⟨.closeCapture, ()⟩ : Instr) else ⟨.pop, ()⟩).size = 1 := by
    intro l
    cases l.isCaptured <;> rfl
  rw [Scope.unwinding, List.foldl_map]
  generalize c.deeper depth = locals
  induction locals generalizing n with
  | nil => rfl
  | cons l locals ih =>
    rw [List.foldl_cons, ih, hone, List.length_cons]
    omega

theorem gives_unwind {depth line : Nat} :
    Gives (unwind depth line) s b s' ↔
      straight (s.current.unwinding depth) line = b ∧
        s.over (s.current.deeper depth).length = s' := by
  simp only [unwind, straight, gives_bind, gives_scope, gives_reserve, gives_pure, and_assoc,
    exists_eq_left', exists_and_left, exists_const, size_unwinding, Nat.zero_add]

theorem gives_distance {block : Block} {line : Nat} {w : UInt16} :
    Gives (distance block line) s w s' ↔ wide? block.size = some w ∧ s = s' := gives_wide

theorem gives_emitLoop {start line : Nat} :
    Gives (emitLoop start line) s b s' ↔
      ∃ w, wide? (s.current.offset + jumpSize - start) = some w ∧
        #[.instr ⟨.loop, w⟩ line] = b ∧ s.over 3 = s' := by
  simp only [emitLoop, gives_bind, gives_scope, gives_wide, gives_emit, and_assoc,
    exists_eq_left', exists_and_left]
  constructor
  · rintro ⟨w, hw, rfl, rfl⟩
    exact ⟨w, hw, rfl, rfl⟩
  · rintro ⟨w, hw, rfl, rfl⟩
    exact ⟨w, hw, rfl, rfl⟩

end Instructions

/-! ### Variables -/

section Variables

variable {s s' : State} {b : Block} {name : String}

/-- Where a name is found: in the function itself, in one around it, or among the globals. -/
inductive Resolved (name : String) (line : Nat) (s : State) : Place → State → Prop
  | slot {slot : Nat} {l : Local} (h : s.current.lookup? name = some (slot, l)) :
      Resolved name line s (.slot slot l.isMutable) s
  | global (h : s.current.lookup? name = none)
      (h' : Scope.resolveCapture name line s.current s.enclosing = .ok none) :
      Resolved name line s .global s
  | capture {index : Nat} {current : Scope} {enclosing : List Scope}
      (h : s.current.lookup? name = none)
      (h' : Scope.resolveCapture name line s.current s.enclosing
        = .ok (some (index, current, enclosing))) :
      Resolved name line s
        (.capture index ((current.captures[index]?.map (·.isMutable)).getD false))
        { s with current, enclosing }

theorem Gives.resolved {line : Nat} {place : Place} (h : Gives (resolve name line) s place s') :
    Resolved name line s place s' := by
  simp only [resolve, gives_bind, gives_get, and_assoc, exists_eq_left', exists_and_left] at h
  split at h
  case h_1 slot l hl =>
    obtain ⟨rfl, rfl⟩ := gives_pure.1 h
    exact .slot hl
  case h_2 hl =>
    simp only [gives_bind] at h
    obtain ⟨found, t, hfound, h⟩ := h
    -- The search is no step of its own: it succeeds or fails, and changes nothing.
    have hlift : Scope.resolveCapture name line s.current s.enclosing = .ok found ∧ s = t := by
      simp only [Gives, liftM, monadLift, MonadLift.monadLift, StateT.lift, bind, Except.bind, pure,
        Except.pure] at hfound
      cases hr : Scope.resolveCapture name line s.current s.enclosing with
      | error e => rw [hr] at hfound; cases hfound
      | ok r => rw [hr] at hfound; cases hfound; exact ⟨rfl, rfl⟩
    obtain ⟨hr, rfl⟩ := hlift
    cases found with
    | none =>
      obtain ⟨rfl, rfl⟩ := gives_pure.1 h
      exact .global hl hr
    | some r =>
      obtain ⟨index, current, enclosing⟩ := r
      simp only [gives_bind, gives_set, gives_pure, exists_eq_left', exists_const] at h
      obtain ⟨rfl, rfl⟩ := h
      exact .capture hl hr

end Variables

/-! ### Expressions -/

section Expressions

variable {s s' : State} {b : Block} {span : Span}

theorem Gives.binary {left right : Expr} {op : BinaryOp}
    (h : Gives (expr (.binary left op right span)) s b s') :
    ∃ b₁ s₁ b₂ s₂, Gives (expr left) s b₁ s₁ ∧ Gives (expr right) s₁ b₂ s₂ ∧
      b₁ ++ (b₂ ++ #[.instr (binaryInstr op) span.line]) = b ∧
      s₂.over (binaryInstr op).size = s' := by
  simp only [expr, afterLeft, gives_bind, gives_emit, gives_pure] at h
  obtain ⟨b₁, s₁, h₁, _, _, ⟨b₂, s₂, h₂, _, _, ⟨rfl, rfl⟩, rfl, rfl⟩, rfl, rfl⟩ := h
  exact ⟨b₁, s₁, b₂, s₂, h₁, h₂, rfl, rfl⟩

theorem Gives.logical {left right : Expr} {op : LogicalOp}
    (h : Gives (expr (.logical left op right span)) s b s') :
    ∃ b₁ s₁ b₂ distance, Gives (expr left) s b₁ s₁ ∧
      Gives (expr right) ((s₁.over jumpSize).over 1) b₂ s' ∧
      wide? (Block.size (#[.instr ⟨.pop, ()⟩ span.line] ++ b₂)) = some distance ∧
      b₁ ++ (#[.instr (logicalJump op distance) span.line] ++
        (#[.instr ⟨.pop, ()⟩ span.line] ++ b₂)) = b := by
  simp only [expr, afterDeciding, gives_bind, gives_reserve, gives_emit, gives_distance,
    gives_pure] at h
  obtain ⟨b₁, s₁, h₁, _, _, ⟨_, _, rfl, _, _, ⟨rfl, rfl⟩, b₂, _, h₂, w, _, ⟨hw, rfl⟩, rfl, rfl⟩,
    rfl, rfl⟩ := h
  exact ⟨b₁, s₁, b₂, w, h₁, h₂, hw, rfl⟩

theorem Gives.unary {op : UnaryOp} {operand : Expr}
    (h : Gives (expr (.unary op operand span)) s b s') :
    ∃ b₁ s₁ i, Gives (expr operand) s b₁ s₁ ∧
      i = (match op with | .neg => (⟨.neg, ()⟩ : Instr) | .not => ⟨.not, ()⟩) ∧
      b₁ ++ #[.instr i span.line] = b ∧ s₁.over 1 = s' := by
  cases op <;>
    simp only [expr, gives_bind, gives_emit, gives_pure] at h <;>
    obtain ⟨b₁, s₁, h₁, _, _, ⟨rfl, rfl⟩, rfl, rfl⟩ := h <;>
    exact ⟨b₁, s₁, _, h₁, rfl, rfl, rfl⟩

/-- Items behind others are those that a block of their own would have. -/
theorem gives_behind {block : Step Block} {before : Block} :
    Gives (do return before ++ (← block)) s b s' ↔ ∃ b', Gives block s b' s' ∧ before ++ b' = b := by
  simp only [gives_bind, gives_pure]
  constructor
  · rintro ⟨b', _, h, rfl, rfl⟩
    exact ⟨b', h, rfl⟩
  · rintro ⟨b', h, rfl⟩
    exact ⟨b', _, h, rfl, rfl⟩

theorem gives_exprs_behind {es : List Expr} {before : Block} :
    Gives (exprs es before) s b s' ↔ ∃ b', Gives (exprs es #[]) s b' s' ∧ before ++ b' = b := by
  rw [exprs_behind, gives_behind]

theorem Gives.exprs_cons {e : Expr} {es : List Expr} (h : Gives (exprs (e :: es) #[]) s b s') :
    ∃ b₁ s₁ b₂, Gives (expr e) s b₁ s₁ ∧ Gives (exprs es #[]) s₁ b₂ s' ∧ b₁ ++ b₂ = b := by
  rw [Compile.exprs_cons] at h
  simp only [gives_bind, gives_pure] at h
  obtain ⟨b₁, s₁, h₁, b₂, _, h₂, rfl, rfl⟩ := h
  exact ⟨b₁, s₁, b₂, h₁, h₂, rfl⟩

theorem gives_fields_behind {es : List (String × Expr)} {line : Nat} {before : Block} :
    Gives (fields es line before) s b s' ↔
      ∃ b', Gives (fields es line #[]) s b' s' ∧ before ++ b' = b := by
  rw [fields_behind, gives_behind]

theorem Gives.fields_cons {key : String} {e : Expr} {es : List (String × Expr)} {line : Nat}
    (h : Gives (fields ((key, e) :: es) line #[]) s b s') :
    ∃ w b₁ s₁ b₂, wide? s.current.constants.size = some w ∧
      Gives (expr e) ((s.withConstant (.text key)).over 3) b₁ s₁ ∧
      Gives (fields es line #[]) s₁ b₂ s' ∧ #[.instr ⟨.constant, w⟩ line] ++ (b₁ ++ b₂) = b := by
  simp only [fields, gives_bind, gives_emitConstant] at h
  obtain ⟨_, _, ⟨w, hw, rfl, rfl⟩, b₁, s₁, h₁, h₂⟩ := h
  obtain ⟨b₂, h₃, rfl⟩ := gives_fields_behind.1 h₂
  exact ⟨w, b₁, s₁, b₂, hw, h₁, h₃, by simp⟩

theorem Gives.array {es : List Expr} (h : Gives (expr (.array es span)) s b s') :
    ∃ b₁ s₁ count, Gives (exprs es #[]) s b₁ s₁ ∧ wide? es.length = some count ∧
      b₁ ++ #[.instr ⟨.array, count⟩ span.line] = b ∧ s₁.over 3 = s' := by
  simp only [expr, gives_bind, gives_wide, gives_emit, gives_pure] at h
  obtain ⟨b₁, s₁, h₁, w, _, ⟨hw, rfl⟩, _, _, ⟨rfl, rfl⟩, rfl, rfl⟩ := h
  exact ⟨b₁, s₁, w, h₁, hw, rfl, rfl⟩

theorem Gives.record {es : List (String × Expr)} (h : Gives (expr (.record es span)) s b s') :
    ∃ b₁ s₁ count, Gives (fields es span.line #[]) s b₁ s₁ ∧ wide? es.length = some count ∧
      b₁ ++ #[.instr ⟨.record, count⟩ span.line] = b ∧ s₁.over 3 = s' := by
  simp only [expr, gives_bind, gives_wide, gives_emit, gives_pure] at h
  obtain ⟨b₁, s₁, h₁, w, _, ⟨hw, rfl⟩, _, _, ⟨rfl, rfl⟩, rfl, rfl⟩ := h
  exact ⟨b₁, s₁, w, h₁, hw, rfl, rfl⟩

/-- A call prints if its callee is the name of the printing function. -/
theorem Gives.call {callee : Expr} {args : List Expr}
    (h : Gives (expr (.call callee args span)) s b s') :
    args.length ≤ maxArgs ∧
      ((isPrint callee = true ∧ ∃ b₁ s₁, Gives (exprs args #[]) s b₁ s₁ ∧
        b₁ ++ #[.instr ⟨.print, UInt8.ofNat args.length⟩ span.line] = b ∧ s₁.over 2 = s') ∨
      (isPrint callee = false ∧ ∃ b₁ s₁ b₂ s₂, Gives (expr callee) s b₁ s₁ ∧
        Gives (exprs args #[]) s₁ b₂ s₂ ∧
        b₁ ++ (b₂ ++ #[.instr ⟨.call, UInt8.ofNat args.length⟩ span.line]) = b ∧
        s₂.over 2 = s')) := by
  simp only [expr] at h
  by_cases hargs : maxArgs < args.length
  · rw [if_pos hargs, gives_bind] at h
    obtain ⟨_, _, h, _⟩ := h
    exact absurd h gives_exceed
  rw [if_neg hargs] at h
  refine ⟨Nat.not_lt.1 hargs, ?_⟩
  cases hp : isPrint callee with
  | true =>
    simp only [hp, if_true, gives_bind, gives_emit, gives_pure] at h
    obtain ⟨b₁, s₁, h₁, _, _, ⟨rfl, rfl⟩, rfl, rfl⟩ := h
    exact Or.inl ⟨rfl, b₁, s₁, h₁, rfl, rfl⟩
  | false =>
    simp only [hp, Bool.false_eq_true, if_false, gives_bind, gives_emit, gives_pure] at h
    obtain ⟨b₁, s₁, h₁, _, s₂, h₂, _, _, ⟨rfl, rfl⟩, rfl, rfl⟩ := h
    obtain ⟨b₂, h₃, rfl⟩ := gives_exprs_behind.1 h₂
    exact Or.inr ⟨rfl, b₁, s₁, b₂, s₂, h₁, h₃, by simp, rfl⟩

theorem Gives.assign {name : String} {value : Expr} (h : Gives (expr (.assign name value span)) s b s') :
    ∃ b₁ s₁ b₂, Gives (expr value) s b₁ s₁ ∧ Gives (writeVariable name span) s₁ b₂ s' ∧
      b₁ ++ b₂ = b := by
  simp only [expr, gives_bind, gives_pure] at h
  obtain ⟨b₁, s₁, h₁, b₂, _, h₂, rfl, rfl⟩ := h
  exact ⟨b₁, s₁, b₂, h₁, h₂, rfl⟩

theorem Gives.get {object : Expr} {name : String} (h : Gives (expr (.get object name span)) s b s') :
    ∃ b₁ s₁ w s₂, Gives (expr object) s b₁ s₁ ∧ Gives (Compile.addName name span.line) s₁ w s₂ ∧
      b₁ ++ #[.instr ⟨.getProperty, w⟩ span.line] = b ∧ s₂.over 3 = s' := by
  simp only [expr, gives_bind, gives_emit, gives_pure] at h
  obtain ⟨b₁, s₁, h₁, w, s₂, hw, _, _, ⟨rfl, rfl⟩, rfl, rfl⟩ := h
  exact ⟨b₁, s₁, w, s₂, h₁, hw, rfl, rfl⟩

theorem Gives.set {object value : Expr} {name : String}
    (h : Gives (expr (.set object name value span)) s b s') :
    ∃ b₁ s₁ b₂ s₂ w s₃, Gives (expr object) s b₁ s₁ ∧ Gives (expr value) s₁ b₂ s₂ ∧
      Gives (Compile.addName name span.line) s₂ w s₃ ∧
      b₁ ++ (b₂ ++ #[.instr ⟨.setProperty, w⟩ span.line]) = b ∧ s₃.over 3 = s' := by
  simp only [expr, gives_bind, gives_emit, gives_pure] at h
  obtain ⟨b₁, s₁, h₁, b₂, s₂, h₂, w, s₃, hw, _, _, ⟨rfl, rfl⟩, rfl, rfl⟩ := h
  exact ⟨b₁, s₁, b₂, s₂, w, s₃, h₁, h₂, hw, by simp, rfl⟩

theorem Gives.index {object key : Expr} (h : Gives (expr (.index object key span)) s b s') :
    ∃ b₁ s₁ b₂ s₂, Gives (expr object) s b₁ s₁ ∧ Gives (expr key) s₁ b₂ s₂ ∧
      b₁ ++ (b₂ ++ #[.instr ⟨.index, ()⟩ span.line]) = b ∧ s₂.over 1 = s' := by
  simp only [expr, gives_bind, gives_emit, gives_pure] at h
  obtain ⟨b₁, s₁, h₁, b₂, s₂, h₂, _, _, ⟨rfl, rfl⟩, rfl, rfl⟩ := h
  exact ⟨b₁, s₁, b₂, s₂, h₁, h₂, by simp, rfl⟩

theorem Gives.setIndex {object key value : Expr}
    (h : Gives (expr (.setIndex object key value span)) s b s') :
    ∃ b₁ s₁ b₂ s₂ b₃ s₃, Gives (expr object) s b₁ s₁ ∧ Gives (expr key) s₁ b₂ s₂ ∧
      Gives (expr value) s₂ b₃ s₃ ∧
      b₁ ++ (b₂ ++ (b₃ ++ #[.instr ⟨.setIndex, ()⟩ span.line])) = b ∧ s₃.over 1 = s' := by
  simp only [expr, gives_bind, gives_emit, gives_pure] at h
  obtain ⟨b₁, s₁, h₁, b₂, s₂, h₂, b₃, s₃, h₃, _, _, ⟨rfl, rfl⟩, rfl, rfl⟩ := h
  exact ⟨b₁, s₁, b₂, s₂, b₃, s₃, h₁, h₂, h₃, by simp, rfl⟩

end Expressions

/-! ### Reading, writing and declaring variables -/

section Access

variable {s s' : State} {b : Block} {name : String}

/-- The instruction that reads a variable, with the number that finds it. -/
def readInstr : Place → UInt16 → Instr
  | .slot .., w => ⟨.getLocal, w⟩
  | .capture .., w => ⟨.getCapture, w⟩
  | .global, w => ⟨.getGlobal, w⟩

/-- The instruction that writes a variable, with the number that finds it. -/
def writeInstr : Place → UInt16 → Instr
  | .slot .., w => ⟨.setLocal, w⟩
  | .capture .., w => ⟨.setCapture, w⟩
  | .global, w => ⟨.setGlobal, w⟩

/-- The number that finds a variable: its slot, the index of the capture, or that of the name. -/
inductive Located (name : String) (line : Nat) (s : State) : Place → UInt16 → State → Prop
  | slot {slot : Nat} {l : Local} {w : UInt16} (h : s.current.lookup? name = some (slot, l))
      (hw : wide? slot = some w) : Located name line s (.slot slot l.isMutable) w s
  | capture {index : Nat} {isMutable : Bool} {w : UInt16} {t : State}
      (h : Resolved name line s (.capture index isMutable) t) (hw : wide? index = some w) :
      Located name line s (.capture index isMutable) w t
  | global {w : UInt16} {t : State} (h : Resolved name line s .global s)
      (hw : Gives (addName name line) s w t) : Located name line s .global w t

theorem Gives.readVariable {line : Nat} (h : Gives (readVariable name line) s b s') :
    ∃ place w t, Located name line s place w t ∧ #[.instr (readInstr place w) line] = b ∧
      t.over 3 = s' := by
  simp only [Compile.readVariable, gives_bind] at h
  obtain ⟨place, t, hplace, h⟩ := h
  have hresolved := hplace.resolved
  cases place with
  | slot slot isMutable =>
    obtain ⟨w, _, hw, h⟩ := gives_bind.1 h
    obtain ⟨hwide, rfl⟩ := gives_wide.1 hw
    obtain ⟨rfl, rfl⟩ := gives_emit.1 h
    cases hresolved with
    | slot hl => exact ⟨_, w, _, .slot hl hwide, rfl, rfl⟩
  | capture index isMutable =>
    obtain ⟨w, _, hw, h⟩ := gives_bind.1 h
    obtain ⟨hwide, rfl⟩ := gives_wide.1 hw
    obtain ⟨rfl, rfl⟩ := gives_emit.1 h
    exact ⟨_, w, _, .capture hresolved hwide, rfl, rfl⟩
  | global =>
    obtain ⟨w, t', hw, h⟩ := gives_bind.1 h
    obtain ⟨rfl, rfl⟩ := gives_emit.1 h
    cases hresolved with
    | global hl hr => exact ⟨_, w, _, .global (.global hl hr) hw, rfl, rfl⟩

theorem Gives.writeVariable {span : Span} (h : Gives (writeVariable name span) s b s') :
    ∃ place w t, Located name span.line s place w t ∧
      #[.instr (writeInstr place w) span.line] = b ∧ t.over 3 = s' := by
  simp only [Compile.writeVariable, gives_bind] at h
  obtain ⟨place, t, hplace, h⟩ := h
  have hresolved := hplace.resolved
  cases place with
  | slot slot isMutable =>
    cases isMutable with
    | false => exact absurd h gives_throw
    | true =>
      obtain ⟨w, _, hw, h⟩ := gives_bind.1 h
      obtain ⟨hwide, rfl⟩ := gives_wide.1 hw
      obtain ⟨rfl, rfl⟩ := gives_emit.1 h
      generalize true = isMutable at hresolved ⊢
      cases hresolved with
      | slot hl => exact ⟨_, w, _, .slot hl hwide, rfl, rfl⟩
  | capture index isMutable =>
    cases isMutable with
    | false => exact absurd h gives_throw
    | true =>
      obtain ⟨w, _, hw, h⟩ := gives_bind.1 h
      obtain ⟨hwide, rfl⟩ := gives_wide.1 hw
      obtain ⟨rfl, rfl⟩ := gives_emit.1 h
      exact ⟨_, w, _, .capture hresolved hwide, rfl, rfl⟩
  | global =>
    obtain ⟨w, t', hw, h⟩ := gives_bind.1 h
    obtain ⟨rfl, rfl⟩ := gives_emit.1 h
    cases hresolved with
    | global hl hr => exact ⟨_, w, _, .global (.global hl hr) hw, rfl, rfl⟩

/-- The instruction that binds a global. -/
def defineInstr (isMutable : Bool) (index : UInt16) : Instr :=
  if isMutable then ⟨.defineVar, index⟩ else ⟨.defineLet, index⟩

/-- A declaration binds a global outside all blocks, and a slot inside. -/
theorem Gives.declare {isMutable : Bool} {line : Nat}
    (h : Gives (declare name isMutable line) s b s') :
    (s.current.depth = 0 ∧ ∃ w t, Gives (Compile.addName name line) s w t ∧
      #[.instr (defineInstr isMutable w) line] = b ∧ t.over 3 = s') ∨
    (s.current.depth ≠ 0 ∧ b = #[] ∧ s.withScope (·.declare name isMutable) = s') := by
  simp only [Compile.declare, gives_bind, gives_scope, and_assoc, exists_eq_left',
    exists_and_left] at h
  by_cases hd : s.current.depth = 0
  · rw [if_pos hd] at h
    obtain ⟨w, t, hw, h⟩ := gives_bind.1 h
    refine Or.inl ⟨hd, w, t, hw, ?_⟩
    cases isMutable <;> exact gives_emit.1 h
  · rw [if_neg hd] at h
    simp only [gives_bind, gives_declareLocal, gives_pure, exists_eq_left', exists_const] at h
    exact Or.inr ⟨hd, h.1.symm, h.2⟩

end Access

/-! ### Blocks, loops and conditionals -/

section Statements

variable {s s' : State} {b : Block} {line : Nat}

/-- The state behind a block: its variables are off the stack and forgotten. -/
def State.closed (s : State) : State :=
  (s.left.over (s.left.current.deeper s.left.current.depth).length).withScope
    (·.dropDeeper s.left.current.depth)

theorem Gives.withBlock {body : Step Block} (h : Gives (withBlock body) s b s') :
    ∃ b₁ s₁, Gives body s.entered b₁ s₁ ∧
      b₁ ++ straight (s₁.left.current.unwinding s₁.left.current.depth) 0 = b ∧ s₁.closed = s' := by
  simp only [Compile.withBlock, gives_bind, gives_modifyScope, gives_scope, gives_unwind,
    gives_pure, and_assoc, exists_eq_left', exists_and_left, exists_const] at h
  obtain ⟨b₁, s₁, h₁, rfl, rfl⟩ := h
  exact ⟨b₁, s₁, h₁, rfl, rfl⟩

/-- The state at the start of a loop. -/
def State.looping (s : State) : State :=
  s.withScope fun c => { c with loops := { start := s.current.offset, depth := s.current.depth }
    :: c.loops }

/-- The state behind a loop. -/
def State.looped (s : State) : State := s.withScope fun c => { c with loops := c.loops.tail }

theorem Gives.withLoop {body : Nat → Step Block} (h : Gives (withLoop line body) s b s') :
    ∃ b₁ s₁, Gives (body s.current.offset) s.looping b₁ s₁ ∧ b₁.closeLoop? = some b ∧
      s₁.looped = s' := by
  simp only [Compile.withLoop, gives_bind, gives_modifyScope, gives_scope, and_assoc,
    exists_eq_left', exists_and_left, exists_const] at h
  obtain ⟨b₁, s₁, h₁, h⟩ := h
  cases hc : b₁.closeLoop? with
  | none => rw [hc] at h; exact absurd h gives_exceed
  | some c =>
    rw [hc] at h
    obtain ⟨rfl, rfl⟩ := gives_pure.1 h
    exact ⟨b₁, s₁, h₁, hc, rfl⟩

/-- What a loop jumps over when its condition is false. -/
def roundCode (body : Block) (back : UInt16) (line : Nat) : Block :=
  #[.instr ⟨.pop, ()⟩ line] ++ (body ++ #[.instr ⟨.loop, back⟩ line])

theorem Gives.whileLoop {condition body : Step Block}
    (h : Gives (whileLoop condition body line) s b s') :
    ∃ b₁ s₁ b₂ s₂ back exit, Gives condition s.looping b₁ s₁ ∧
      Gives body ((s₁.over 3).over 1) b₂ s₂ ∧
      wide? (s₂.current.offset + jumpSize - s.current.offset) = some back ∧
      wide? (roundCode b₂ back line).size = some exit ∧
      Block.closeLoop? (b₁ ++ (#[.instr ⟨.jumpIfFalse, exit⟩ line] ++ (roundCode b₂ back line ++
        #[.instr ⟨.pop, ()⟩ line]))) = some b ∧
      ((s₂.over 3).over 1).looped = s' := by
  obtain ⟨code, t, h₀, hclose, rfl⟩ := h.withLoop
  simp only [gives_bind, gives_reserve, gives_emit, gives_emitLoop, gives_distance,
    gives_pure] at h₀
  obtain ⟨b₁, s₁, h₁, _, _, rfl, _, _, ⟨rfl, rfl⟩, b₂, s₂, h₂, _, _, ⟨back, hback, rfl, rfl⟩,
    exit, _, ⟨hexit, rfl⟩, _, _, ⟨rfl, rfl⟩, rfl, rfl⟩ := h₀
  refine ⟨b₁, s₁, b₂, s₂, back, exit, h₁, h₂, hback, ?_, ?_, rfl⟩
  · simpa only [roundCode, Array.append_assoc] using hexit
  · simpa only [roundCode, Array.append_assoc] using hclose

theorem gives_readSlot {slot : Nat} :
    Gives (readSlot slot line) s b s' ↔
      ∃ w, wide? slot = some w ∧ #[.instr ⟨.getLocal, w⟩ line] = b ∧ s.over 3 = s' := by
  simp only [readSlot, gives_bind, gives_wide, gives_emit]
  constructor
  · rintro ⟨w, _, ⟨hw, rfl⟩, rfl, rfl⟩
    exact ⟨w, hw, rfl, rfl⟩
  · rintro ⟨w, hw, rfl, rfl⟩
    exact ⟨w, s, ⟨hw, rfl⟩, rfl, rfl⟩

theorem gives_moveToSlot {slot : Nat} :
    Gives (moveToSlot slot line) s b s' ↔
      ∃ w, wide? slot = some w ∧ straight [⟨.setLocal, w⟩, ⟨.pop, ()⟩] line = b ∧
        s.over 4 = s' := by
  simp only [moveToSlot, gives_bind, gives_wide, gives_emit, gives_pure]
  constructor
  · rintro ⟨w, _, ⟨hw, rfl⟩, _, _, ⟨rfl, rfl⟩, _, _, ⟨rfl, rfl⟩, rfl, rfl⟩
    exact ⟨w, hw, rfl, rfl⟩
  · rintro ⟨w, hw, rfl, rfl⟩
    exact ⟨w, s, ⟨hw, rfl⟩, _, _, ⟨rfl, rfl⟩, _, _, ⟨rfl, rfl⟩, rfl, rfl⟩

theorem Gives.nextIndex {container index : Nat} (h : Gives (nextIndex container index line) s b s') :
    ∃ wc wi one, wide? container = some wc ∧ wide? index = some wi ∧
      wide? s.current.constants.size = some one ∧
      straight [⟨.getLocal, wi⟩, ⟨.constant, one⟩, ⟨.add, ()⟩, ⟨.setLocal, wi⟩, ⟨.pop, ()⟩,
        ⟨.getLocal, wc⟩, ⟨.len, ()⟩, ⟨.getLocal, wi⟩, ⟨.gt, ()⟩] line = b ∧
      (s.withConstant (.number 1)).over 19 = s' := by
  simp only [Compile.nextIndex, gives_bind, gives_readSlot, gives_moveToSlot, gives_emit,
    gives_emitConstant, gives_pure] at h
  obtain ⟨_, _, ⟨wi, hi, rfl, rfl⟩, _, _, ⟨one, hone, rfl, rfl⟩, _, _, ⟨rfl, rfl⟩, _, _,
    ⟨_, hi', rfl, rfl⟩, _, _, ⟨wc, hc, rfl, rfl⟩, _, _, ⟨rfl, rfl⟩, _, _, ⟨_, hi'', rfl, rfl⟩, _, _,
    ⟨rfl, rfl⟩, rfl, rfl⟩ := h
  obtain rfl := Option.some.inj (hi.symm.trans hi')
  obtain rfl := Option.some.inj (hi.symm.trans hi'')
  refine ⟨wc, wi, one, hc, hi, hone, by simp [straight], ?_⟩
  simp only [over_withConstant, over_over]
  rfl

theorem Gives.takeElement {container index element : Nat}
    (h : Gives (takeElement container index element line) s b s') :
    ∃ wc wi we, wide? container = some wc ∧ wide? index = some wi ∧ wide? element = some we ∧
      straight [⟨.getLocal, wc⟩, ⟨.getLocal, wi⟩, ⟨.index, ()⟩, ⟨.setLocal, we⟩, ⟨.pop, ()⟩] line
        = b ∧
      s.over 11 = s' := by
  simp only [Compile.takeElement, gives_bind, gives_readSlot, gives_moveToSlot, gives_emit,
    gives_pure] at h
  obtain ⟨_, _, ⟨wc, hc, rfl, rfl⟩, _, _, ⟨wi, hi, rfl, rfl⟩, _, _, ⟨rfl, rfl⟩, _, _,
    ⟨we, he, rfl, rfl⟩, rfl, rfl⟩ := h
  refine ⟨wc, wi, we, hc, hi, he, by simp [straight], ?_⟩
  simp only [over_over]
  rfl

/-- The state in front of the rounds of a loop over a container: behind the container, its index
and the variable of the loop. -/
def State.forSlots (s : State) (name : String) : State :=
  ((((((s.withScope (·.declare "__iter__" false)).withConstant (.number (-1))).over 3).withScope
    (·.declare "__idx__" true)).over 1).withScope (·.declare name true))

/-- What stands in the block of a loop over a container. -/
def iteration (name : String) (iterable body : Step Block) (line : Nat) : Step Block := do
  let iterable ← iterable
  let container ← declareSlot "__iter__" false
  let first ← emitConstant (.number (-1)) line
  let index ← declareSlot "__idx__" true
  let nothing ← emit ⟨.nil, ()⟩ line
  let element ← declareSlot name true
  let round : Step Block := do
    return (← takeElement container index element line) ++ (← body)
  return iterable ++ first ++ nothing ++
    (← whileLoop (nextIndex container index line) round line)

theorem forLoop_eq (name : String) (iterable body : Step Block) (line : Nat) :
    forLoop name iterable body line = withBlock (iteration name iterable body line) := rfl

theorem Gives.iteration {name : String} {iterable body : Step Block}
    (h : Gives (iteration name iterable body line) s b s') :
    ∃ b₁ s₁ w b₂, Gives iterable s b₁ s₁ ∧ wide? s₁.current.constants.size = some w ∧
      Gives (Compile.whileLoop
        (Compile.nextIndex s₁.current.locals.length (s₁.current.locals.length + 1) line)
        (do
          return (← Compile.takeElement s₁.current.locals.length (s₁.current.locals.length + 1)
            (s₁.current.locals.length + 2) line) ++ (← body)) line) (s₁.forSlots name) b₂ s' ∧
      b₁ ++ (#[.instr ⟨.constant, w⟩ line] ++ (#[.instr ⟨.nil, ()⟩ line] ++ b₂)) = b := by
  simp only [Compile.iteration, gives_bind, gives_emit, gives_emitConstant, gives_declareSlot,
    gives_pure] at h
  obtain ⟨b₁, s₁, h₁, _, _, ⟨rfl, rfl⟩, _, _, ⟨w, hw, rfl, rfl⟩, _, _, ⟨rfl, rfl⟩, _, _, ⟨rfl, rfl⟩,
    _, _, ⟨rfl, rfl⟩, b₂, _, h₂, rfl, rfl⟩ := h
  refine ⟨b₁, s₁, w, b₂, h₁, hw, h₂, ?_⟩
  simp only [Array.append_assoc]

theorem Gives.conditional {condition body orElse : Step Block}
    (h : Gives (conditional condition body orElse line) s b s') :
    ∃ b₁ s₁ b₂ s₂ b₃ toElse toEnd, Gives condition s b₁ s₁ ∧
      Gives body ((s₁.over 3).over 1) b₂ s₂ ∧
      wide? (Block.size (#[.instr ⟨.pop, ()⟩ line] ++ b₂) + jumpSize) = some toElse ∧
      Gives orElse ((s₂.over 3).over 1) b₃ s' ∧
      wide? (Block.size (#[.instr ⟨.pop, ()⟩ line] ++ b₃)) = some toEnd ∧
      b₁ ++ (#[.instr ⟨.jumpIfFalse, toElse⟩ line] ++ ((#[.instr ⟨.pop, ()⟩ line] ++ b₂) ++
        (#[.instr ⟨.jump, toEnd⟩ line] ++ (#[.instr ⟨.pop, ()⟩ line] ++ b₃)))) = b := by
  simp only [Compile.conditional, gives_bind, gives_reserve, gives_emit, gives_wide,
    gives_distance, gives_pure] at h
  obtain ⟨b₁, s₁, h₁, _, _, rfl, _, _, ⟨rfl, rfl⟩, b₂, s₂, h₂, _, _, rfl, toElse, _,
    ⟨helse, rfl⟩, _, _, ⟨rfl, rfl⟩, b₃, _, h₃, toEnd, _, ⟨hend, rfl⟩, rfl, rfl⟩ := h
  exact ⟨b₁, s₁, b₂, s₂, b₃, toElse, toEnd, h₁, h₂, helse, h₃, hend, by
    simp only [Array.append_assoc]⟩

/-- The state in front of the body of a function. -/
def State.nested (s : State) (params : List String) : State :=
  { s with
    current := params.foldl (fun f p => f.declare p true) { Scope.start with depth := 1 }
    enclosing := s.current :: s.enclosing }

/-- The state behind the body of a function: it is finished, and a constant refers to it. -/
def State.finish (s : State) (prototype : Prototype Literal) : State :=
  State.withConstant
    { s with
      current := s.enclosing.headD s.current
      enclosing := s.enclosing.tail
      functions := s.functions.push prototype } (.function s.functions.size)

/-- The code of a function that leaves without a value at its end. -/
def bodyCode (body : Block) (line : Nat) : Block :=
  body ++ (#[.instr ⟨.nil, ()⟩ line] ++ #[.instr ⟨.return_, ()⟩ line])

/-- The sources of the captures of a function. -/
def sources (c : Scope) : List CaptureSource := (c.captures.map (·.source)).toList

theorem Gives.function {name : String} {params : List String} {body : Step Block}
    (h : Gives (function name params body line) s b s') :
    params.length ≤ maxParams ∧ ∃ b₁ s₁ s₂ w, Gives body (s.nested params) b₁ s₁ ∧
      s₂ = ((s₁.over 1).over 1).finish
        { name, params, captures := s₁.current.captures.size
          chunk := (bodyCode b₁ line).toChunk s₁.current.constants s₁.current.names } ∧
      wide? (s₁.enclosing.headD ((s₁.over 1).over 1).current).constants.size = some w ∧
      #[.instr ⟨.closure, (w, sources s₁.current)⟩ line] = b ∧
      s₂.over (4 + 2 * s₁.current.captures.size) = s' := by
  simp only [Compile.function] at h
  by_cases hparams : maxParams < params.length
  · rw [if_pos hparams, gives_bind] at h
    obtain ⟨_, _, h, _⟩ := h
    exact absurd h gives_exceed
  rw [if_neg hparams] at h
  refine ⟨Nat.not_lt.1 hparams, ?_⟩
  simp only [gives_bind, gives_modify, gives_emit, gives_get, gives_set, gives_addConstant] at h
  obtain ⟨_, _, rfl, b₁, s₁, h₁, _, _, ⟨rfl, rfl⟩, _, _, ⟨rfl, rfl⟩, _, _, ⟨rfl, rfl⟩, _, _, rfl,
    w, _, ⟨hw, rfl⟩, rfl, rfl⟩ := h
  refine ⟨b₁, s₁, _, w, h₁, rfl, hw, rfl, ?_⟩
  simp only [bodyCode, Array.append_assoc, Instr.size, Layout.size, Array.length_toList,
    Array.size_map]
  rw [show 4 + 2 * s₁.current.captures.size = 1 + (3 + 2 * s₁.current.captures.size) by omega]
  rfl

/-! ### Statements -/

theorem Gives.stmt_expr {value : Expr} (h : Gives (stmt (.expr value)) s b s') :
    ∃ b₁ s₁, Gives (expr value) s b₁ s₁ ∧ b₁ ++ #[.instr ⟨.pop, ()⟩ value.span.line] = b ∧
      s₁.over 1 = s' := by
  simp only [stmt, gives_bind, gives_emit, gives_pure] at h
  obtain ⟨b₁, s₁, h₁, _, _, ⟨rfl, rfl⟩, rfl, rfl⟩ := h
  exact ⟨b₁, s₁, h₁, rfl, rfl⟩

/-- The code of a value that may be left out, and is nil then. -/
def valueOrNil (value : Option Expr) (line : Nat) : Step Block :=
  match value with
  | some value => expr value
  | none => emit ⟨.nil, ()⟩ line

theorem Gives.stmt_var {name : String} {value : Option Expr} {span : Span}
    (h : Gives (stmt (.var name value span)) s b s') :
    ∃ b₁ s₁ b₂, Gives (valueOrNil value span.line) s b₁ s₁ ∧
      Gives (Compile.declare name true span.line) s₁ b₂ s' ∧ b₁ ++ b₂ = b := by
  cases value <;>
    simp only [stmt, gives_bind, gives_pure] at h <;>
    obtain ⟨b₁, s₁, h₁, b₂, _, h₂, rfl, rfl⟩ := h <;>
    exact ⟨b₁, s₁, b₂, h₁, h₂, rfl⟩

theorem Gives.stmt_let {name : String} {value : Expr} {span : Span}
    (h : Gives (stmt (.let_ name value span)) s b s') :
    ∃ b₁ s₁ b₂, Gives (expr value) s b₁ s₁ ∧
      Gives (Compile.declare name false span.line) s₁ b₂ s' ∧ b₁ ++ b₂ = b := by
  simp only [stmt, gives_bind, gives_pure] at h
  obtain ⟨b₁, s₁, h₁, b₂, _, h₂, rfl, rfl⟩ := h
  exact ⟨b₁, s₁, b₂, h₁, h₂, rfl⟩

/-- A function is a global outside all blocks, and a local variable inside. -/
theorem Gives.stmt_function {name : String} {params : List String} {body : List Stmt} {span : Span}
    (h : Gives (stmt (.function name params body span)) s b s') :
    (s.current.depth = 0 ∧ ∃ b₁ s₁ w s₂,
      Gives (Compile.function name params (stmts body #[]) span.line) s b₁ s₁ ∧
      Gives (Compile.addName name span.line) s₁ w s₂ ∧
      b₁ ++ #[.instr ⟨.defineLet, w⟩ span.line] = b ∧ s₂.over 3 = s') ∨
    (s.current.depth ≠ 0 ∧
      Gives (Compile.function name params (stmts body #[]) span.line)
        (s.withScope (·.declare name false)) b s') := by
  simp only [stmt, gives_bind, gives_scope, and_assoc, exists_eq_left', exists_and_left] at h
  by_cases hd : s.current.depth = 0
  · rw [if_pos hd] at h
    simp only [gives_bind, gives_emit, gives_pure] at h
    obtain ⟨b₁, s₁, h₁, w, s₂, hw, _, _, ⟨rfl, rfl⟩, rfl, rfl⟩ := h
    exact Or.inl ⟨hd, b₁, s₁, w, s₂, h₁, hw, rfl, rfl⟩
  · rw [if_neg hd] at h
    simp only [gives_bind, gives_declareLocal, exists_eq_left', exists_const] at h
    exact Or.inr ⟨hd, h⟩

theorem Gives.stmt_return {value : Option Expr} {span : Span}
    (h : Gives (stmt (.return_ value span)) s b s') :
    ∃ b₁ s₁, Gives (valueOrNil value span.line) s b₁ s₁ ∧
      b₁ ++ #[.instr ⟨.return_, ()⟩ span.line] = b ∧ s₁.over 1 = s' := by
  have h' : ∃ b₁ s₁, Gives (valueOrNil value span.line) s b₁ s₁ ∧
      Gives (do return b₁ ++ (← emit ⟨.return_, ()⟩ span.line)) s₁ b s' := by
    cases value <;> exact gives_bind.1 h
  obtain ⟨b₁, s₁, h₁, h⟩ := h'
  simp only [gives_bind, gives_emit, gives_pure] at h
  obtain ⟨_, _, ⟨rfl, rfl⟩, rfl, rfl⟩ := h
  exact ⟨b₁, s₁, h₁, rfl, rfl⟩

theorem Gives.stmt_break {span : Span} (h : Gives (stmt (.break_ span)) s b s') :
    ∃ loop outer, s.current.loops = loop :: outer ∧
      straight (s.current.unwinding loop.depth) span.line ++ #[.exit span.line] = b ∧
      (s.over (s.current.deeper loop.depth).length).over 3 = s' := by
  simp only [stmt, gives_bind, gives_scope, and_assoc, exists_eq_left', exists_and_left] at h
  split at h
  case h_1 => exact absurd h gives_throw
  case h_2 loop outer hloops =>
    simp only [gives_bind, gives_unwind, gives_reserve, gives_pure] at h
    obtain ⟨_, _, ⟨rfl, rfl⟩, _, _, rfl, rfl, rfl⟩ := h
    exact ⟨loop, outer, hloops, by simp, rfl⟩

theorem Gives.stmt_continue {span : Span} (h : Gives (stmt (.continue_ span)) s b s') :
    ∃ loop outer w, s.current.loops = loop :: outer ∧
      wide? (s.current.offset + (s.current.deeper loop.depth).length + jumpSize - loop.start)
        = some w ∧
      straight (s.current.unwinding loop.depth) span.line ++ #[.instr ⟨.loop, w⟩ span.line] = b ∧
      (s.over (s.current.deeper loop.depth).length).over 3 = s' := by
  simp only [stmt, gives_bind, gives_scope, and_assoc, exists_eq_left', exists_and_left] at h
  split at h
  case h_1 => exact absurd h gives_throw
  case h_2 loop outer hloops =>
    simp only [gives_bind, gives_unwind, gives_emitLoop, gives_pure] at h
    obtain ⟨_, _, ⟨rfl, rfl⟩, _, _, ⟨w, hw, rfl, rfl⟩, rfl, rfl⟩ := h
    exact ⟨loop, outer, w, hloops, hw, rfl, rfl⟩

theorem gives_stmts_behind {ps : List Stmt} {before : Block} :
    Gives (stmts ps before) s b s' ↔ ∃ b', Gives (stmts ps #[]) s b' s' ∧ before ++ b' = b := by
  rw [stmts_behind, gives_behind]

theorem Gives.stmts_cons {p : Stmt} {ps : List Stmt} (h : Gives (stmts (p :: ps) #[]) s b s') :
    ∃ b₁ s₁ b₂, Gives (stmt p) s b₁ s₁ ∧ Gives (stmts ps #[]) s₁ b₂ s' ∧ b₁ ++ b₂ = b := by
  rw [Compile.stmts_cons] at h
  simp only [gives_bind, gives_pure] at h
  obtain ⟨b₁, s₁, h₁, b₂, _, h₂, rfl, rfl⟩ := h
  exact ⟨b₁, s₁, b₂, h₁, h₂, rfl⟩

/-- The statements of a script without the expression at its end, if there is one. -/
def splitLast : List Stmt → List Stmt × Option Expr
  | [] => ([], none)
  | [.expr value] => ([], some value)
  | p :: ps => (p :: (splitLast ps).1, (splitLast ps).2)

/-- A script is its statements, and behind them its value. -/
theorem Gives.script {ps : List Stmt} {before : Block} (h : Gives (script ps before) s b s') :
    ∃ b₁ s₁ b₂, Gives (stmts (splitLast ps).1 #[]) s b₁ s₁ ∧
      Gives (valueOrNil (splitLast ps).2 0) s₁ b₂ s' ∧ before ++ (b₁ ++ b₂) = b := by
  induction ps, before using Compile.script.induct generalizing s b with
  | case1 before =>
    simp only [Compile.script, gives_bind, gives_pure] at h
    obtain ⟨b₂, _, h₂, rfl, rfl⟩ := h
    exact ⟨#[], s, b₂, gives_pure.2 ⟨rfl, rfl⟩, h₂, by simp⟩
  | case2 before value =>
    simp only [Compile.script, gives_bind, gives_pure] at h
    obtain ⟨b₂, _, h₂, rfl, rfl⟩ := h
    exact ⟨#[], s, b₂, gives_pure.2 ⟨rfl, rfl⟩, h₂, by simp⟩
  | case3 before p ps hlast ih =>
    rw [Compile.script, gives_bind] at h
    · obtain ⟨b₁, s₁, h₁, h⟩ := h
      obtain ⟨b₂, s₂, b₃, h₂, h₃, rfl⟩ := ih b₁ h
      rw [splitLast]
      · refine ⟨b₁ ++ b₂, s₂, b₃, ?_, h₃, by simp⟩
        simp only [stmts, gives_bind]
        exact ⟨b₁, s₁, h₁, gives_stmts_behind.2 ⟨b₂, h₂, by simp⟩⟩
      · exact hlast
    · exact hlast

end Statements

end DeployScript.Compile
