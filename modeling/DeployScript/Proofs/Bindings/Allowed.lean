import DeployScript.Proofs.Bindings.Scopes
import DeployScript.Proofs.Code.Exact

/-!
# What compiles is allowed

A program that compiles has no assignment that means an immutable variable. Whether a captured variable
may be assigned is noted when it is captured, and the note stays right: it is the one of the variable that
the capture stands for, whichever name found it first.

* `Faithful` — the notes of captures are those of the variables that they stand for.
* `allowed_writeVariable` — what is written may be assigned.
* `allowed_expr`, `allowed_stmt` — expressions and statements.
* `Program.allowed_of_compiled` — whole programs.
-/

namespace DeployScript

open Compile Compile.State

/-! ### Visible variables -/

/-- A variable as its program declares it. -/
def Local.variable (l : Local) : Variable := ⟨l.name, l.isMutable⟩

/-- The variables of a function that are in scope. -/
def Scope.variables (c : Scope) : List Variable := c.locals.map Local.variable

/-- The variables that are in scope, those of the functions around behind those of the function. -/
def Compile.State.visible (s : State) : List Variable :=
  s.current.variables ++ s.enclosing.flatMap Scope.variables

theorem variables_of_noted {ls ls' : List Local} (h : List.Forall₂ Local.Noted ls ls') :
    ls'.map Local.variable = ls.map Local.variable := by
  induction h with
  | nil => rfl
  | cons ha _ ih =>
    rw [List.map_cons, List.map_cons, ih, Local.variable, Local.variable, ha.name, ha.isMutable]

theorem variables_of_notedAll {cs cs' : List Scope} (h : List.Forall₂ Scope.Noted cs cs') :
    cs'.flatMap Scope.variables = cs.flatMap Scope.variables := by
  induction h with
  | nil => rfl
  | cons hc _ ih =>
    rw [List.flatMap_cons, List.flatMap_cons, ih, Scope.variables, variables_of_noted hc.locals]
    rfl

/-- The variable that is found by its slot is the one that the name means. -/
theorem find?_variables {name : String} {ls : List Local} {slot : Nat} {l : Local}
    (h : Scope.find? name ls = some (slot, l)) :
    Variable.find? name (ls.map Local.variable) = some l.variable := by
  unfold Variable.find?
  induction ls with
  | nil => cases h
  | cons a ls ih =>
    rw [Scope.find?] at h
    rw [List.map_cons, List.find?_cons]
    split at h
    case isTrue hname =>
      cases h
      simp [Local.variable, hname]
    case isFalse hname =>
      have hne : decide ((Local.variable a).name = name) = false := decide_eq_false hname
      rw [hne]
      exact ih h

theorem find?_variables_none {name : String} {ls : List Local} (h : Scope.find? name ls = none) :
    Variable.find? name (ls.map Local.variable) = none := by
  unfold Variable.find?
  induction ls with
  | nil => rfl
  | cons a ls ih =>
    rw [Scope.find?] at h
    rw [List.map_cons, List.find?_cons]
    split at h
    case isTrue => cases h
    case isFalse hname =>
      have hne : decide ((Local.variable a).name = name) = false := decide_eq_false hname
      rw [hne]
      exact ih h

theorem Variable.find?_append (name : String) (vars vars' : List Variable) :
    find? name (vars ++ vars') = (find? name vars).or (find? name vars') :=
  List.find?_append

/-! ### Notes of captures -/

/-- **The notes of captures are right:** each is that of the variable of the next function, or of the
capture of that function, that the capture stands for; and so are the notes of the functions around. -/
def Faithful : (captures : Array Capture) → (enclosing : List Scope) → Prop
  | _, [] => True
  | captures, parent :: outer =>
    (∀ k ∈ captures,
      (k.source.isLocal = true → ∃ l, parent.locals.reverse[k.source.index.toNat]? = some l ∧
        k.isMutable = l.isMutable) ∧
      (k.source.isLocal = false → ∃ k', parent.captures[k.source.index.toNat]? = some k' ∧
        k.isMutable = k'.isMutable)) ∧
    Faithful parent.captures outer

/-- The notes of a capture stay right while the next function gets notes. -/
theorem Faithful.noted {captures : Array Capture} {parent parent' : Scope} {outer outer' : List Scope}
    (h : Faithful captures (parent :: outer)) (hp : parent.Noted parent')
    (ho : Faithful parent'.captures outer') : Faithful captures (parent' :: outer') := by
  refine ⟨fun k hk => ⟨fun hlocal => ?_, fun houter => ?_⟩, ho⟩
  · obtain ⟨l, hl, he⟩ := (h.1 k hk).1 hlocal
    have hr : List.Forall₂ Local.Noted parent.locals.reverse parent'.locals.reverse :=
      List.rel_reverse hp.locals
    obtain ⟨hlt, rfl⟩ := List.getElem?_eq_some_iff.1 hl
    have hlt' : k.source.index.toNat < parent'.locals.reverse.length := hr.length_eq ▸ hlt
    exact ⟨_, List.getElem?_eq_getElem hlt', he.trans (hr.get hlt hlt').isMutable.symm⟩
  · obtain ⟨k', hk', he⟩ := (h.1 k hk).2 houter
    exact ⟨k', getElem?_of_extends hp.captures hk', he⟩

/-- **A capture that stands for a name** has the note of the variable that the name means. -/
theorem Faithful.found {name : String} {captures : Array Capture} {enclosing : List Scope}
    {index : Nat} (h : Faithful captures enclosing) (hc : CapturedAs name captures enclosing index) :
    ∃ k v, captures[index]? = some k ∧
      Variable.find? name (enclosing.flatMap Scope.variables) = some v ∧ k.isMutable = v.isMutable := by
  induction hc with
  | @slot captures parent outer index k l hk hlocal hl _ =>
    obtain ⟨l', hl', he⟩ := (h.1 k (Array.mem_of_getElem? hk)).1 hlocal
    obtain rfl := Option.some.inj (hl'.symm.trans (Scope.find?_slot hl).2)
    refine ⟨k, l'.variable, hk, ?_, he⟩
    rw [List.flatMap_cons, Variable.find?_append, Scope.variables, find?_variables hl]
    rfl
  | @outer captures parent outer index k hk hlocal hl _ ih =>
    obtain ⟨k', v, hk', hv, he⟩ := ih h.2
    obtain ⟨k'', hk'', he'⟩ := (h.1 k (Array.mem_of_getElem? hk)).2 hlocal
    obtain rfl := Option.some.inj (hk''.symm.trans hk')
    refine ⟨k, v, hk, ?_, he'.trans he⟩
    rw [List.flatMap_cons, Variable.find?_append, Scope.variables, find?_variables_none hl]
    exact hv

/-- A capture that is added keeps the notes right if its own is. -/
theorem Scope.faithful_addCapture {c c' : Scope} {capture : Capture} {line index : Nat}
    {parent : Scope} {outer : List Scope} (h : c.addCapture capture line = .ok (index, c'))
    (hc : Faithful c.captures (parent :: outer))
    (hnew : Faithful #[capture] (parent :: outer)) : Faithful c'.captures (parent :: outer) := by
  unfold addCapture at h
  split at h
  · obtain ⟨-, rfl⟩ := Prod.mk.inj (Except.ok.inj h)
    exact hc
  · split at h
    · obtain ⟨-, rfl⟩ := Prod.mk.inj (Except.ok.inj h)
      refine ⟨fun k hk => ?_, hc.2⟩
      rcases Array.mem_push.1 hk with hk | rfl
      · exact hc.1 k hk
      · exact hnew.1 k (by simp)
    · cases h

/-- **Looking for a variable further out** keeps the notes right. -/
theorem Scope.faithful_resolveCapture {name : String} {line index : Nat} {c c' : Scope}
    {enclosing enclosing' : List Scope} (hlinked : Linked c.captures enclosing)
    (hc : Faithful c.captures enclosing)
    (h : resolveCapture name line c enclosing = .ok (some (index, c', enclosing'))) :
    Faithful c'.captures enclosing' := by
  -- As in `resolveCapture_spec`, which keeps the functions linked that the next step needs.
  induction enclosing generalizing c c' enclosing' index with
  | nil => cases h
  | cons parent outer ih =>
    rw [resolveCapture] at h
    split at h
    case h_1 slot l hl =>
      split at h
      case isFalse => cases h
      case isTrue hslot =>
        have hindex : (UInt8.ofNat slot).toNat = slot := by
          rw [UInt8.toNat_ofNat']
          exact Nat.mod_eq_of_lt hslot
        simp only [bind, Except.bind] at h
        split at h
        case h_1 => cases h
        case h_2 r hadd =>
          obtain ⟨found, c₁⟩ := r
          cases h
          have hp : parent.Noted (parent.markCaptured name) :=
            ⟨noted_mark, List.prefix_rfl, rfl, rfl, rfl, rfl, rfl⟩
          have hadded : Faithful c₁.captures (parent :: outer) := by
            refine faithful_addCapture hadd hc ⟨fun k hk => ?_, hc.2⟩
            obtain rfl : k = _ := by simpa using hk
            exact ⟨fun _ => ⟨l, by rw [hindex]; exact (find?_slot hl).2, rfl⟩, fun he => by cases he⟩
          exact hadded.noted hp hc.2
    case h_2 hl =>
      simp only [bind, Except.bind] at h
      split at h
      case h_1 => cases h
      case h_2 r hr =>
        cases r with
        | none => cases h
        | some r =>
          obtain ⟨inner, parent', outer'⟩ := r
          simp only at h
          split at h
          case h_1 => cases h
          case h_2 r hadd =>
            obtain ⟨found, c₁⟩ := r
            cases h
            obtain ⟨⟨captures', rfl⟩, hpre', -, hlinked', hinner⟩ := resolveCapture_spec hlinked.2.2 hr
            have hlt : inner < UInt8.size :=
              Nat.lt_trans (Nat.lt_of_lt_of_le hinner.lt hlinked'.size_le) (by decide)
            have hindex : (UInt8.ofNat inner).toNat = inner := by
              rw [UInt8.toNat_ofNat']
              exact Nat.mod_eq_of_lt hlt
            have hp : parent.Noted { parent with captures := captures' } :=
              ⟨noted_refl parent.locals, hpre', rfl, rfl, rfl, rfl, rfl⟩
            have houter := ih hlinked.2.2 hc.2 hr
            refine faithful_addCapture hadd (hc.noted hp houter) ⟨fun k hk => ?_, houter⟩
            obtain rfl : k = _ := by simpa using hk
            obtain ⟨k', hk'⟩ : ∃ k', captures'[inner]? = some k' :=
              ⟨_, Array.getElem?_eq_getElem hinner.lt⟩
            exact ⟨fun he => (by cases he), fun _ => ⟨k', by rw [hindex]; exact hk', by simp [hk']⟩⟩

end DeployScript

namespace DeployScript.Compile

open State

variable {s s' s₁ s₂ : State} {b : Block} {name : String}

/-- The notes of all captures are right. -/
def State.Faithful (s : State) : Prop := DeployScript.Faithful s.current.captures s.enclosing

/-- What is known of a variable where it was found: whether it may be assigned, unless it is a global. -/
def Place.note? : Place → Option Bool
  | .slot _ isMutable | .capture _ isMutable => some isMutable
  | .global => none

/-- **Where a variable is found,** the note is that of the variable that the name means. -/
theorem Resolved.note {line : Nat} {place : Place} (hs : s.Wf) (hf : s.Faithful)
    (h : Resolved name line s place s') : s'.Faithful ∧
      ∀ v, Variable.find? name s.visible = some v → place.note? = some v.isMutable := by
  have hhere : ∀ {slot l}, s.current.lookup? name = some (slot, l) →
      Variable.find? name s.visible = some l.variable := fun hl => by
    rw [State.visible, Variable.find?_append, Scope.variables, find?_variables hl]
    rfl
  have helsewhere : s.current.lookup? name = none → Variable.find? name s.visible
      = Variable.find? name (s.enclosing.flatMap Scope.variables) := fun hl => by
    rw [State.visible, Variable.find?_append, Scope.variables, find?_variables_none hl]
    rfl
  cases h with
  | slot hl =>
    refine ⟨hf, fun v hv => ?_⟩
    rw [hhere hl] at hv
    cases hv
    rfl
  | global hl hr =>
    refine ⟨hf, fun v hv => ?_⟩
    rw [helsewhere hl] at hv
    obtain ⟨l, hmem, hname⟩ : ∃ l ∈ s.enclosing.flatMap Scope.variables, l.name = name :=
      ⟨v, List.mem_of_find?_eq_some hv, by simpa using List.find?_some hv⟩
    obtain ⟨c, hc, hl'⟩ := List.mem_flatMap.1 hmem
    have hnone := find?_variables_none (Scope.resolveCapture_none hr c hc)
    exact absurd hname (of_decide_eq_false (Bool.eq_false_of_not_eq_true
      (List.find?_eq_none.1 hnone l hl')))
  | @capture index current enclosing hl hr =>
    obtain ⟨-, -, hnoted, -, hfound⟩ := Scope.resolveCapture_spec hs.linked hr
    have hf' := Scope.faithful_resolveCapture hs.linked hf hr
    refine ⟨hf', fun v hv => ?_⟩
    obtain ⟨k, v', hk, hv', he⟩ := hf'.found hfound
    rw [helsewhere hl, ← variables_of_notedAll hnoted, hv'] at hv
    cases hv
    simp [Place.note?, hk, he]

/-- **What is written** may be assigned. -/
theorem allowed_writeVariable {span : Span} (hs : s.Wf) (hf : s.Faithful)
    (h : Gives (writeVariable name span) s b s') :
    (∀ v, Variable.find? name s.visible = some v → v.isMutable = true) ∧ s'.Faithful := by
  simp only [writeVariable, gives_bind] at h
  obtain ⟨place, t, hplace, h⟩ := h
  obtain ⟨hf', hnote⟩ := hplace.resolved.note hs hf
  cases place with
  | slot slot isMutable =>
    cases isMutable with
    | false => exact absurd h gives_throw
    | true =>
      obtain ⟨w, _, hw, h⟩ := gives_bind.1 h
      obtain ⟨-, rfl⟩ := gives_wide.1 hw
      obtain ⟨-, rfl⟩ := gives_emit.1 h
      exact ⟨fun v hv => (Option.some.inj (hnote v hv)).symm, hf'⟩
  | capture index isMutable =>
    cases isMutable with
    | false => exact absurd h gives_throw
    | true =>
      obtain ⟨w, _, hw, h⟩ := gives_bind.1 h
      obtain ⟨-, rfl⟩ := gives_wide.1 hw
      obtain ⟨-, rfl⟩ := gives_emit.1 h
      exact ⟨fun v hv => (Option.some.inj (hnote v hv)).symm, hf'⟩
  | global =>
    obtain ⟨w, _, hw, h⟩ := gives_bind.1 h
    obtain ⟨-, rfl⟩ := gives_emit.1 h
    obtain ⟨names, rfl, -, -⟩ := hw.addName
    exact ⟨fun v hv => (by cases hnote v hv), hf'⟩

theorem faithful_readVariable {line : Nat} (hs : s.Wf) (hf : s.Faithful)
    (h : Gives (readVariable name line) s b s') : s'.Faithful := by
  obtain ⟨place, w, t, hloc, -, rfl⟩ := h.readVariable
  cases hloc with
  | slot => exact hf
  | capture hr => exact (hr.note hs hf).1
  | global hr hw =>
    obtain ⟨names, rfl, -⟩ := hw.addName
    exact hf

/-! ### Expressions -/

/-- Values that are computed leave the visible variables as they are. -/
theorem Computes.visible {n : Nat} (h : Computes s b s' n) : s'.visible = s.visible := by
  rw [State.visible, State.visible, variables_of_notedAll h.grows.enclosing, Scope.variables,
    variables_of_noted (h.grows.kept_of_length h.locals).2]
  rfl

theorem faithful_addName {line : Nat} {w : UInt16} (hf : s.Faithful)
    (h : Gives (addName name line) s w s') : s'.Faithful := by
  obtain ⟨names, rfl, -⟩ := h.addName
  exact hf

mutual

/-- **An expression that compiles** is allowed where its variables are in scope. -/
theorem allowed_expr : (e : Expr) → {s s' : State} → {b : Block} → s.Wf → s.Faithful →
    Gives (expr e) s b s' → e.Allowed s.visible ∧ s'.Faithful
  | .number value span, s, s', b, _, hf, h => by
    obtain ⟨w, -, -, rfl⟩ := gives_emitConstant.1 (by simpa only [expr] using h)
    exact ⟨trivial, hf⟩
  | .text value span, s, s', b, _, hf, h => by
    obtain ⟨w, -, -, rfl⟩ := gives_emitConstant.1 (by simpa only [expr] using h)
    exact ⟨trivial, hf⟩
  | .bool true span, s, s', b, _, hf, h | .bool false span, s, s', b, _, hf, h
  | .nil span, s, s', b, _, hf, h => by
    obtain ⟨-, rfl⟩ := gives_emit.1 (by simpa only [expr] using h)
    exact ⟨trivial, hf⟩
  | .name x span, s, s', b, hs, hf, h =>
    ⟨trivial, faithful_readVariable hs hf (by simpa only [expr] using h)⟩
  | .array elements span, s, s', b, hs, hf, h => by
    obtain ⟨b₁, s₁, count, h₁, -, -, rfl⟩ := h.array
    obtain ⟨he, hf₁⟩ := allowed_exprs elements hs hf h₁
    exact ⟨he, hf₁⟩
  | .record entries span, s, s', b, hs, hf, h => by
    obtain ⟨b₁, s₁, count, h₁, -, -, rfl⟩ := h.record
    obtain ⟨he, hf₁⟩ := allowed_fields entries hs hf h₁
    exact ⟨he, hf₁⟩
  | .binary left op right span, s, s', b, hs, hf, h => by
    obtain ⟨b₁, s₁, b₂, s₂, h₁, h₂, -, rfl⟩ := h.binary
    have hleft := computes_expr left hs h₁
    obtain ⟨hl, hf₁⟩ := allowed_expr left hs hf h₁
    obtain ⟨hr, hf₂⟩ := allowed_expr right hleft.wf hf₁ h₂
    -- Operands declare no variables, so the right one sees what the left one saw.
    rw [hleft.visible] at hr
    exact ⟨⟨hl, hr⟩, hf₂⟩
  | .logical left op right span, s, s', b, hs, hf, h => by
    obtain ⟨b₁, s₁, b₂, distance, h₁, h₂, -, -⟩ := h.logical
    have hleft := computes_expr left hs h₁
    obtain ⟨hl, hf₁⟩ := allowed_expr left hs hf h₁
    obtain ⟨hr, hf₂⟩ := allowed_expr right (wf_over (wf_over hleft.wf jumpSize) 1) hf₁ h₂
    change right.Allowed s₁.visible at hr
    rw [hleft.visible] at hr
    exact ⟨⟨hl, hr⟩, hf₂⟩
  | .unary op operand span, s, s', b, hs, hf, h => by
    obtain ⟨b₁, s₁, i, h₁, -, -, rfl⟩ := h.unary
    obtain ⟨ho, hf₁⟩ := allowed_expr operand hs hf h₁
    exact ⟨ho, hf₁⟩
  | .call callee args span, s, s', b, hs, hf, h => by
    obtain ⟨-, ⟨hp, b₁, s₁, h₁, -, rfl⟩ | ⟨-, b₁, s₁, b₂, s₂, h₁, h₂, -, rfl⟩⟩ := h.call
    · obtain ⟨hargs, hf₁⟩ := allowed_exprs args hs hf h₁
      refine ⟨⟨?_, hargs⟩, hf₁⟩
      cases callee with
      | name x span => trivial
      | _ => cases hp
    · have hcallee := computes_expr callee hs h₁
      obtain ⟨hc, hf₁⟩ := allowed_expr callee hs hf h₁
      obtain ⟨hargs, hf₂⟩ := allowed_exprs args hcallee.wf hf₁ h₂
      rw [hcallee.visible] at hargs
      exact ⟨⟨hc, hargs⟩, hf₂⟩
  | .group inner span, s, s', b, hs, hf, h => allowed_expr inner hs hf (by simpa only [expr] using h)
  | .assign x value span, s, s', b, hs, hf, h => by
    obtain ⟨b₁, s₁, b₂, h₁, h₂, -⟩ := h.assign
    have hvalue := computes_expr value hs h₁
    obtain ⟨hv, hf₁⟩ := allowed_expr value hs hf h₁
    obtain ⟨hx, hf₂⟩ := allowed_writeVariable hvalue.wf hf₁ h₂
    rw [hvalue.visible] at hx
    exact ⟨⟨hv, hx⟩, hf₂⟩
  | .get object property span, s, s', b, hs, hf, h => by
    obtain ⟨b₁, s₁, w, s₂, h₁, hw, -, rfl⟩ := h.get
    obtain ⟨ho, hf₁⟩ := allowed_expr object hs hf h₁
    have hf₂ := faithful_addName hf₁ hw
    exact ⟨ho, hf₂⟩
  | .set object property value span, s, s', b, hs, hf, h => by
    obtain ⟨b₁, s₁, b₂, s₂, w, s₃, h₁, h₂, hw, -, rfl⟩ := h.set
    have hobject := computes_expr object hs h₁
    obtain ⟨ho, hf₁⟩ := allowed_expr object hs hf h₁
    obtain ⟨hv, hf₂⟩ := allowed_expr value hobject.wf hf₁ h₂
    rw [hobject.visible] at hv
    have hf₃ := faithful_addName hf₂ hw
    exact ⟨⟨ho, hv⟩, hf₃⟩
  | .index object key span, s, s', b, hs, hf, h => by
    obtain ⟨b₁, s₁, b₂, s₂, h₁, h₂, -, rfl⟩ := h.index
    have hobject := computes_expr object hs h₁
    obtain ⟨ho, hf₁⟩ := allowed_expr object hs hf h₁
    obtain ⟨hk, hf₂⟩ := allowed_expr key hobject.wf hf₁ h₂
    rw [hobject.visible] at hk
    exact ⟨⟨ho, hk⟩, hf₂⟩
  | .setIndex object key value span, s, s', b, hs, hf, h => by
    obtain ⟨b₁, s₁, b₂, s₂, b₃, s₃, h₁, h₂, h₃, -, rfl⟩ := h.setIndex
    have hobject := computes_expr object hs h₁
    have hkey := computes_expr key hobject.wf h₂
    obtain ⟨ho, hf₁⟩ := allowed_expr object hs hf h₁
    obtain ⟨hk, hf₂⟩ := allowed_expr key hobject.wf hf₁ h₂
    obtain ⟨hv, hf₃⟩ := allowed_expr value hkey.wf hf₂ h₃
    rw [hkey.visible, hobject.visible] at hv
    rw [hobject.visible] at hk
    exact ⟨⟨ho, hk, hv⟩, hf₃⟩

theorem allowed_exprs : (es : List Expr) → {s s' : State} → {b : Block} → s.Wf → s.Faithful →
    Gives (exprs es #[]) s b s' → Expr.AllAllowed s.visible es ∧ s'.Faithful
  | [], s, s', b, _, hf, h => by
    obtain ⟨-, rfl⟩ := gives_pure.1 (by simpa only [exprs] using h)
    exact ⟨trivial, hf⟩
  | e :: es, s, s', b, hs, hf, h => by
    obtain ⟨b₁, s₁, b₂, h₁, h₂, -⟩ := h.exprs_cons
    have hfirst := computes_expr e hs h₁
    obtain ⟨he, hf₁⟩ := allowed_expr e hs hf h₁
    obtain ⟨hes, hf₂⟩ := allowed_exprs es hfirst.wf hf₁ h₂
    rw [hfirst.visible] at hes
    exact ⟨⟨he, hes⟩, hf₂⟩

theorem allowed_fields : (es : List (String × Expr)) → {s s' : State} → {b : Block} → {line : Nat} →
    s.Wf → s.Faithful → Gives (fields es line #[]) s b s' →
    Expr.FieldsAllowed s.visible es ∧ s'.Faithful
  | [], s, s', b, line, _, hf, h => by
    obtain ⟨-, rfl⟩ := gives_pure.1 (by simpa only [fields] using h)
    exact ⟨trivial, hf⟩
  | (key, e) :: es, s, s', b, line, hs, hf, h => by
    obtain ⟨w, b₁, s₁, b₂, hw, h₁, h₂, -⟩ := h.fields_cons
    have hkey := computes_emitConstant hs (text_ne_function key) hw line
    have hvalue := computes_expr e hkey.wf h₁
    obtain ⟨he, hf₁⟩ := allowed_expr e hkey.wf hf h₁
    obtain ⟨hes, hf₂⟩ := allowed_fields es hvalue.wf hf₁ h₂
    rw [hvalue.visible] at hes
    exact ⟨⟨he, hes⟩, hf₂⟩

end

/-! ### Statements -/

/-- **A step heeds what is declared:** what it compiles is allowed where its variables are in scope, and
behind it other variables may be. -/
structure Heeds (s s' : State) (allowed : List Variable → Prop)
    (declare : List Variable → List Variable) : Prop where
  allowed : allowed s.visible
  faithful : s'.Faithful
  visible : s'.visible = declare s.visible

/-- What holds of a body that can stand in a block. -/
structure Heeding (body : Step Block) (allowed : List Variable → Prop) : Prop where
  heeds : ∀ {s s' : State} {b : Block}, s.Wf → s.Inside → s.current.depth ≠ 0 → s.Faithful →
    Gives body s b s' → allowed s.visible ∧ s'.Faithful

theorem heeds_withBlock {body : Step Block} {allowed : List Variable → Prop} (hsound : Sound body)
    (hbody : Heeding body allowed) (hs : s.Wf) (hin : s.entered.Inside) (hf : s.Faithful)
    (h : Gives (withBlock body) s b s') : Heeds s s' allowed id := by
  obtain ⟨b₁, s₁, h₁, -, rfl⟩ := h.withBlock
  have hexec := hsound (wf_entered hs) hin h₁
  obtain ⟨hallowed, hf₁⟩ :=
    hbody.heeds (wf_entered hs) hin (Nat.succ_ne_zero _) hf h₁
  obtain ⟨hdepth, hnoted⟩ := closed_locals hs hexec.grows
  refine ⟨hallowed, hf₁, ?_⟩
  have hlocals : s₁.closed.current.variables = s.current.variables := by
    change (s₁.current.locals.dropWhile fun l => s₁.left.current.depth < l.depth).map _ = _
    rw [hdepth]
    exact variables_of_noted hnoted
  have houter : s₁.closed.enclosing.flatMap Scope.variables = s.enclosing.flatMap Scope.variables :=
    variables_of_notedAll hexec.grows.enclosing
  rw [State.visible, hlocals, houter]
  rfl

theorem heeds_declare {isMutable : Bool} {line : Nat} (hf : s.Faithful)
    (h : Gives (declare name isMutable line) s b s') :
    s'.Faithful ∧ s'.visible
      = if decide (s.current.depth ≠ 0) then ⟨name, isMutable⟩ :: s.visible else s.visible := by
  rcases h.declare with ⟨hdepth, w, t, hw, -, rfl⟩ | ⟨hdepth, -, rfl⟩
  · obtain ⟨names, rfl, -, -⟩ := hw.addName
    refine ⟨hf, ?_⟩
    rw [if_neg (by simp [hdepth])]
    rfl
  · refine ⟨hf, ?_⟩
    rw [if_pos (by simp [hdepth])]
    rfl

theorem allowed_valueOrNil {value : Option Expr} {line : Nat} (hs : s.Wf) (hf : s.Faithful)
    (h : Gives (valueOrNil value line) s b s') :
    (∀ e ∈ value, e.Allowed s.visible) ∧ s'.Faithful := by
  cases value with
  | some value =>
    obtain ⟨hv, hf'⟩ := allowed_expr value hs hf h
    exact ⟨fun e he => Option.some.inj he ▸ hv, hf'⟩
  | none =>
    obtain ⟨-, rfl⟩ := gives_emit.1 h
    exact ⟨nofun, hf⟩

/-- The variables in front of the body of a function. -/
theorem visible_nested (s : State) (params : List String) :
    (s.nested params).visible = Variable.entry params ++ s.visible := by
  have hfold : ∀ (params : List String) (c : Scope),
      (params.foldl (fun f p => f.declare p true) c).variables
        = params.reverse.map (⟨·, true⟩) ++ c.variables := by
    intro params
    induction params with
    | nil => intro c; rfl
    | cons p params ih =>
      intro c
      rw [List.foldl_cons, ih, List.reverse_cons, List.map_append, List.append_assoc]
      rfl
  rw [State.visible, State.nested, hfold, List.flatMap_cons, Variable.entry, State.visible]
  simp only [List.append_assoc]
  rfl

/-- **A function** is allowed if its body is, where its parameters are in scope as well. -/
theorem heeds_function {params : List String} {body : Step Block} {line : Nat}
    {allowed : List Variable → Prop} (hsound : Sound body) (hbody : Heeding body allowed) (hs : s.Wf)
    (hf : s.Faithful) (h : Gives (function name params body line) s b s') :
    Heeds s s' (fun vars => allowed (Variable.entry params ++ vars)) id := by
  obtain ⟨-, b₁, s₁, s₂, w, h₁, rfl, -, -, rfl⟩ := h.function
  obtain ⟨hwf, hloops, -, -⟩ := wf_nested hs params
  obtain ⟨-, ls, hls, -⟩ := length_foldl_declare params { Scope.start with depth := 1 }
  have hdepth : (s.nested params).current.depth = 1 := congrArg Scope.depth hls
  have hcaptures : (s.nested params).current.captures = #[] := congrArg Scope.captures hls
  have hin : (s.nested params).Inside := fun loop hl => by rw [hloops] at hl; cases hl
  have hf₀ : (s.nested params).Faithful := by
    unfold State.Faithful
    rw [hcaptures]
    exact ⟨fun k hk => (Array.not_mem_empty k hk).elim, hf⟩
  have hcode := hsound hwf hin h₁
  obtain ⟨hallowed, hf₁⟩ :=
    hbody.heeds hwf hin (by rw [hdepth]; exact one_ne_zero) hf₀ h₁
  rw [visible_nested] at hallowed
  -- The functions around got notes only.
  have henclosing := hcode.grows.enclosing
  change List.Forall₂ Scope.Noted (s.current :: s.enclosing) s₁.enclosing at henclosing
  obtain ⟨current, enclosing, functions⟩ := s₁
  obtain ⟨parent, outer, hparent, houter, rfl⟩ := List.forall₂_cons_left_iff.1 henclosing
  refine ⟨hallowed, hf₁.2, ?_⟩
  change parent.variables ++ outer.flatMap Scope.variables = s.current.variables ++ _
  rw [Scope.variables, variables_of_noted hparent.locals, variables_of_notedAll houter]
  rfl

/-- **What stands in the block of a loop over a container** is allowed if the container is, and the body
where the variables of the loop are in scope as well. -/
theorem heeding_iteration (name : String) {iterable : Expr} {body : Step Block} {line : Nat}
    {allowed : List Variable → Prop} (hsound : Sound body) (hbody : Heeding body allowed) :
    Heeding (iteration name (expr iterable) (withBlock body) line)
      (fun vars => iterable.Allowed vars ∧ allowed (Variable.ofLoop name vars)) := by
  refine ⟨fun {s s' b} hs hin _ hf h => ?_⟩
  obtain ⟨b₁, s₁, w, b₂, h₁, hw, h₂, -⟩ := h.iteration
  have hiterable := computes_expr iterable hs h₁
  obtain ⟨hallowed, hf₁⟩ := allowed_expr iterable hs hf h₁
  have hslots := executes_forSlots name line hs hin h₁ hw
  obtain ⟨c₁, t₁, c₂, t₂, c₃, t₃, back, exit, g₁, hnext, g₂, htake, g₃, hin₃, -, -, -, -, -, rfl⟩ :=
    rounds_parts hsound hslots.wf rfl h₂
  have hf₂ : t₂.Faithful := by
    obtain ⟨_, _, _, -, -, -, -, rfl⟩ := g₁.nextIndex
    obtain ⟨_, _, _, -, -, -, -, rfl⟩ := g₂.takeElement
    exact hf₁
  have hvisible : t₂.visible = Variable.ofLoop name s.visible := by
    have hslotted : t₂.visible = (s₁.forSlots name).visible := htake.visible.trans hnext.visible
    rw [hslotted, ← hiterable.visible]
    rfl
  have hblock := heeds_withBlock hsound hbody htake.wf hin₃ hf₂ g₃
  exact ⟨⟨hallowed, hvisible ▸ hblock.allowed⟩, hblock.faithful⟩

theorem Heeding.of_stmts {body : List Stmt}
    (h : ∀ {s s' : State} {b : Block}, s.Wf → s.Inside → s.Faithful → Gives (stmts body #[]) s b s' →
      Heeds s s' (fun vars => Stmt.AllAllowed (decide (s.current.depth ≠ 0)) vars body)
        (fun vars => Stmt.declareAll (decide (s.current.depth ≠ 0)) vars body)) :
    Heeding (stmts body #[]) fun vars => Stmt.AllAllowed true vars body := by
  refine ⟨fun {s s' b} hs hin hdepth hf hgives => ?_⟩
  have hheeds := h hs hin hf hgives
  rw [decide_eq_true hdepth] at hheeds
  exact ⟨hheeds.allowed, hheeds.faithful⟩

mutual

/-- **A statement that compiles** is allowed where its variables are in scope. -/
theorem heeds_stmt : (p : Stmt) → p.Regular → {s s' : State} → {b : Block} → s.Wf → s.Inside →
    s.Faithful → Gives (stmt p) s b s' →
    Heeds s s' (fun vars => p.Allowed (decide (s.current.depth ≠ 0)) vars)
      (fun vars => p.declare (decide (s.current.depth ≠ 0)) vars)
  | .expr value, _, s, s', b, hs, _, hf, h => by
    obtain ⟨b₁, s₁, h₁, -, rfl⟩ := h.stmt_expr
    obtain ⟨hv, hf₁⟩ := allowed_expr value hs hf h₁
    have hvisible : (s₁.over 1).visible = s.visible := (computes_expr value hs h₁).visible
    exact ⟨hv, hf₁, hvisible.trans (Stmt.declare_of_none rfl).symm⟩
  | .var name value span, _, s, s', b, hs, _, hf, h => by
    obtain ⟨b₁, s₁, b₂, h₁, h₂, -⟩ := h.stmt_var
    have hcomputes := computes_valueOrNil hs h₁
    obtain ⟨hv, hf₁⟩ := allowed_valueOrNil hs hf h₁
    obtain ⟨hf₂, hvisible⟩ := heeds_declare hf₁ h₂
    rw [hcomputes.visible, hcomputes.grows.depth] at hvisible
    exact ⟨hv, hf₂, hvisible⟩
  | .let_ name value span, _, s, s', b, hs, _, hf, h => by
    obtain ⟨b₁, s₁, b₂, h₁, h₂, -⟩ := h.stmt_let
    have hcomputes := computes_expr value hs h₁
    obtain ⟨hv, hf₁⟩ := allowed_expr value hs hf h₁
    obtain ⟨hf₂, hvisible⟩ := heeds_declare hf₁ h₂
    rw [hcomputes.visible, hcomputes.grows.depth] at hvisible
    exact ⟨hv, hf₂, hvisible⟩
  | .block body span, hp, s, s', b, hs, hin, hf, h => by
    rw [Stmt.Regular] at hp
    rw [stmt] at h
    have hblock := heeds_withBlock (sound_stmts body hp)
      (Heeding.of_stmts fun hs hin hf h => heeds_stmts body hp hs hin hf h) hs (fun loop hl => Nat.lt_succ_of_lt (hin loop hl)) hf h
    exact ⟨hblock.allowed, hblock.faithful, hblock.visible.trans (Stmt.declare_of_none rfl).symm⟩
  | .if_ condition body none span, hp, s, s', b, hs, hin, hf, h => by
    rw [Stmt.Regular] at hp
    rw [stmt] at h
    obtain ⟨b₁, s₁, b₂, s₂, b₃, toElse, toEnd, h₁, h₂, -, h₃, -, -⟩ := h.conditional
    have hcondition := computes_expr condition hs h₁
    obtain ⟨hc, hf₁⟩ := allowed_expr condition hs hf h₁
    have hblock := heeds_withBlock (sound_stmts body hp)
      (Heeding.of_stmts fun hs hin hf h => heeds_stmts body hp hs hin hf h) (wf_over (wf_over hcondition.wf 3) 1)
      (fun loop hl => Nat.lt_succ_of_lt (hcondition.grows.inside hin loop hl)) hf₁ h₂
    obtain ⟨-, rfl⟩ := gives_pure.1 h₃
    have hvisible : ((s₁.over 3).over 1).visible = s.visible := hcondition.visible
    refine ⟨⟨hc, ?_⟩, hblock.faithful, ?_⟩
    · rw [← hvisible]
      exact hblock.allowed
    · exact (hblock.visible.trans hvisible).trans (Stmt.declare_of_none rfl).symm
  | .if_ condition body (some orElse) span, hp, s, s', b, hs, hin, hf, h => by
    rw [Stmt.Regular] at hp
    obtain ⟨hregular, hbranch, hregular'⟩ := hp
    rw [stmt] at h
    obtain ⟨b₁, s₁, b₂, s₂, b₃, toElse, toEnd, h₁, h₂, -, h₃, -, -⟩ := h.conditional
    have hcondition := computes_expr condition hs h₁
    have hin₁ := hcondition.grows.inside hin
    obtain ⟨hc, hf₁⟩ := allowed_expr condition hs hf h₁
    have hwf₁ := wf_over (wf_over hcondition.wf 3) 1
    have hin₁' : ((s₁.over 3).over 1).entered.Inside := fun loop hl => Nat.lt_succ_of_lt (hin₁ loop hl)
    have hblock := heeds_withBlock (sound_stmts body hregular)
      (Heeding.of_stmts fun hs hin hf h => heeds_stmts body hregular hs hin hf h) hwf₁ hin₁' hf₁ h₂
    have hbody := (sound_withBlock (sound_stmts body hregular) hwf₁ hin₁' h₂).1
    have hin₂ : s₂.Inside := hbody.grows.inside (fun loop hl => hin₁ loop hl)
    have hother := heeds_stmt orElse hregular' (wf_over (wf_over hbody.wf 3) 1)
      (fun loop hl => hin₂ loop hl) hblock.faithful h₃
    have hvisible : ((s₁.over 3).over 1).visible = s.visible := hcondition.visible
    -- The second branch finds the variables that the first one found.
    have hvisible₂ : ((s₂.over 3).over 1).visible = s.visible := hblock.visible.trans hvisible
    have hdepth : ((s₂.over 3).over 1).current.depth = s.current.depth :=
      hbody.grows.depth.trans hcondition.grows.depth
    have hallowed := hother.allowed
    have hbehind := hother.visible
    rw [hvisible₂, hdepth] at hallowed hbehind
    have hnone : orElse.declared? = none := by
      cases orElse <;> first | rfl | cases hbranch
    refine ⟨⟨hc, ?_, hallowed⟩, hother.faithful, ?_⟩
    · rw [← hvisible]
      exact hblock.allowed
    · exact hbehind.trans ((Stmt.declare_of_none hnone).trans (Stmt.declare_of_none rfl).symm)
  | .while_ condition body span, hp, s, s', b, hs, hin, hf, h => by
    rw [Stmt.Regular] at hp
    rw [stmt] at h
    obtain ⟨b₁, s₁, b₂, s₂, back, exit, h₁, h₂, -, -, -, rfl⟩ := h.whileLoop
    have hcondition := computes_expr condition (wf_looping hs) h₁
    obtain ⟨hc, hf₁⟩ := allowed_expr condition (wf_looping hs) hf h₁
    have hblock := heeds_withBlock (sound_stmts body hp)
      (Heeding.of_stmts fun hs hin hf h => heeds_stmts body hp hs hin hf h)
      (wf_over (wf_over hcondition.wf 3) 1)
      (inside_entered_looping s hcondition.grows.depth hcondition.grows.loops) hf₁ h₂
    have hvisible : ((s₁.over 3).over 1).visible = s.visible := hcondition.visible
    refine ⟨⟨hc, ?_⟩, hblock.faithful, ?_⟩
    · rw [← hvisible]
      exact hblock.allowed
    · exact (hblock.visible.trans hvisible).trans (Stmt.declare_of_none rfl).symm
  | .for_ name iterable body span, hp, s, s', b, hs, hin, hf, h => by
    rw [Stmt.Regular] at hp
    rw [stmt, forLoop_eq] at h
    have hblock := heeds_withBlock (executes_iteration (sound_stmts body hp))
      (heeding_iteration name (sound_stmts body hp) (Heeding.of_stmts fun hs hin hf h => heeds_stmts body hp hs hin hf h)) hs
      (fun loop hl => Nat.lt_succ_of_lt (hin loop hl)) hf h
    exact ⟨hblock.allowed, hblock.faithful, hblock.visible.trans (Stmt.declare_of_none rfl).symm⟩
  | .function name params body span, hp, s, s', b, hs, _, hf, h => by
    rw [Stmt.Regular] at hp
    -- At the top the function becomes a global once it is made; in a block its name is declared
    -- first, so that its body may use it.
    rcases h.stmt_function with ⟨hdepth, b₁, s₁, w, s₂, h₁, hw, -, rfl⟩ | ⟨hdepth, h₁⟩
    · have hfunction := heeds_function (sound_stmts body hp) (Heeding.of_stmts fun hs hin hf h => heeds_stmts body hp hs hin hf h) hs hf h₁
      obtain ⟨names, rfl, -, -⟩ := hw.addName
      refine ⟨?_, hfunction.faithful, ?_⟩
      · simpa [hdepth] using hfunction.allowed
      · have hvisible : ((s₁.withNames names).over 3).visible = s.visible := hfunction.visible
        simpa [Stmt.declare, hdepth] using hvisible
    · have hfunction := heeds_function (sound_stmts body hp)
        (Heeding.of_stmts fun hs hin hf h => heeds_stmts body hp hs hin hf h) (wf_declare hs name false) hf h₁
      have hdeclared : (s.withScope fun c => c.declare name false).visible
          = ⟨name, false⟩ :: s.visible := rfl
      have hallowed := hfunction.allowed
      have hvisible := hfunction.visible
      rw [hdeclared] at hallowed hvisible
      refine ⟨?_, hfunction.faithful, ?_⟩
      · simpa [hdepth] using hallowed
      · simpa [Stmt.declare, Stmt.declared?, hdepth] using hvisible
  | .return_ value span, _, s, s', b, hs, _, hf, h => by
    obtain ⟨b₁, s₁, h₁, -, rfl⟩ := h.stmt_return
    obtain ⟨hv, hf₁⟩ := allowed_valueOrNil hs hf h₁
    have hvisible : (s₁.over 1).visible = s.visible := (computes_valueOrNil hs h₁).visible
    exact ⟨hv, hf₁, hvisible.trans (Stmt.declare_of_none rfl).symm⟩
  | .break_ span, _, s, s', b, _, _, hf, h => by
    obtain ⟨loop, outer, -, -, rfl⟩ := h.stmt_break
    exact ⟨trivial, hf, by simp [Stmt.declare, Stmt.declared?]; rfl⟩
  | .continue_ span, _, s, s', b, hs, _, hf, h => by
    obtain ⟨loop, outer, w, -, -, -, rfl⟩ := h.stmt_continue
    exact ⟨trivial, hf, by simp [Stmt.declare, Stmt.declared?]; rfl⟩

theorem heeds_stmts : (ps : List Stmt) → Stmt.AllRegular ps → {s s' : State} → {b : Block} → s.Wf →
    s.Inside → s.Faithful → Gives (stmts ps #[]) s b s' →
    Heeds s s' (fun vars => Stmt.AllAllowed (decide (s.current.depth ≠ 0)) vars ps)
      (fun vars => Stmt.declareAll (decide (s.current.depth ≠ 0)) vars ps)
  | [], _, s, s', b, _, _, hf, h => by
    obtain ⟨-, rfl⟩ := gives_pure.1 (by simpa only [stmts] using h)
    exact ⟨trivial, hf, rfl⟩
  | p :: ps, hp, s, s', b, hs, hin, hf, h => by
    rw [Stmt.AllRegular] at hp
    obtain ⟨b₁, s₁, b₂, h₁, h₂, -⟩ := h.stmts_cons
    have hexec := (executes_stmt p hp.1 hs hin h₁).1
    have hfirst := heeds_stmt p hp.1 hs hin hf h₁
    have hrest := heeds_stmts ps hp.2 hexec.wf (hexec.grows.inside hin) hfirst.faithful h₂
    have hallowed := hrest.allowed
    have hvisible := hrest.visible
    rw [hfirst.visible, hexec.grows.depth] at hallowed hvisible
    exact ⟨⟨hfirst.allowed, hallowed⟩, hrest.faithful, hvisible⟩

end

end DeployScript.Compile

namespace DeployScript

open Compile

/-- **A program that compiles** has no assignment that means an immutable variable. -/
theorem Program.allowed_of_compiled {p : Program} {c : Compiled} (hp : Stmt.AllRegular p.statements)
    (h : Compiled.ofProgram p = .ok c) :
    Stmt.AllAllowed false [⟨"", false⟩] (splitLast p.statements).1 ∧
      ∀ e ∈ (splitLast p.statements).2, e.Allowed [⟨"", false⟩] := by
  obtain ⟨b₁, s₁, b₂, s₂, h₁, h₂, rfl⟩ := Compiled.ofProgram_eq h
  have hregular := splitLast_regular hp
  have hin : State.initial.Inside := fun loop hl => by cases hl
  have hbody := heeds_stmts _ hregular wf_initial hin trivial h₁
  have hwf := (sound_stmts _ hregular wf_initial hin h₁).wf
  have hvisible : s₁.visible = [⟨"", false⟩] :=
    hbody.visible.trans (Stmt.declareAll_global _ _)
  refine ⟨hbody.allowed, ?_⟩
  have hvalue := (allowed_valueOrNil hwf hbody.faithful h₂).1
  rwa [hvisible] at hvalue

end DeployScript
