import DeployScript.Heap.Intrinsic
import DeployScript.Proofs.Heap.Twin

/-!
# Errors of the machine itself

Some failures say that the machine is broken, and not the script. No operation on values that are
what they seem to be ends in one, and no operation at all blames the syntax of the script.
-/

namespace DeployScript

/-- A failure that says that the machine is broken. -/
def Cause.IsInternal : Cause → Prop
  | .failure (.invalidOpcode _) | .failure .closureOperand | .failure (.missingCapture _)
  | .failure .deadFunction | .failure .deadArray | .failure .deadPushTarget => True
  | _ => False

/-- A failure of what a script does: neither one of the machine itself nor one of syntax. -/
structure Cause.IsOrdinary (cause : Cause) : Prop where
  external : ¬ cause.IsInternal
  late : cause.isSyntax = false

/-- An outcome with no failure but an ordinary one. -/
def External {α : Type} (result : Except Cause α) : Prop :=
  ∀ cause, result = .error cause → cause.IsOrdinary

theorem external_ok {α : Type} (a : α) : External (.ok a) := by
  intro cause h
  cases h

theorem external_wrongTypes {α : Type} (expected : String) (a b : Value) :
    External (.error (wrongTypes expected a b) : Except Cause α) := by
  intro cause h
  cases h
  exact ⟨id, rfl⟩

theorem external_wrongType {α : Type} (expected : String) (v : Value) :
    External (.error (wrongType expected v) : Except Cause α) := by
  intro cause h
  cases h
  exact ⟨id, rfl⟩

namespace Heap

variable {β : Link} {heap : Heap} {v w : Value}

theorem external_repeatText (s : String) (times : Float) : External (repeatText s times) := by
  unfold repeatText
  split
  · intro cause h
    cases h
    exact ⟨id, rfl⟩
  · split
    · exact external_ok _
    · intro cause h
      cases h
      exact ⟨id, rfl⟩

theorem external_ordered (byNumber : Float → Float → Bool) (byText : Ordering → Bool)
    (v w : Value) : External (ordered byNumber byText v w) := by
  unfold ordered
  split
  · exact external_ok _
  · exact external_ok _
  · exact external_wrongTypes _ _ _

/-- **Operators** fail only for reasons of the script. -/
theorem external_binary (op : BinaryOp) (v w : Value) : External (heap.binary op v w) := by
  unfold binary
  split
  case h_7 =>
    split
    · exact external_repeatText _ _
    · exact external_wrongTypes _ _ _
  case h_8 =>
    split
    · intro cause h
      cases h
      exact ⟨id, rfl⟩
    · exact external_ok _
  all_goals first
    | exact external_ok _
    | exact external_wrongTypes _ _ _
    | exact external_ordered _ _ _ _

theorem external_unary (op : UnaryOp) (v : Value) : External (unary op v) := by
  unfold unary
  split
  · exact external_ok _
  · exact external_wrongType _ _
  · exact external_ok _

theorem external_index (v w : Value) : External (heap.index v w) := by
  unfold index
  split <;> first | exact external_ok _ | exact external_wrongType _ _

theorem external_property (name : String) (v : Value) : External (heap.property name v) := by
  unfold property
  split
  · exact external_ok _
  · split
    · exact external_ok _
    · intro cause h
      cases h
      exact ⟨id, rfl⟩
  · split
    · exact external_ok _
    · intro cause h
      cases h
      exact ⟨id, rfl⟩
  · exact external_wrongType _ _

/-- Where a write goes to is no matter of syntax. -/
theorem late_target {cause : Cause} (h : heap.target v w = .error cause) : cause.isSyntax = false := by
  unfold target at h
  split at h
  · split at h
    · cases h
      rfl
    · split at h
      · split at h
        · cases h
        · split at h <;> cases h
          rfl
      · cases h
        rfl
  all_goals cases h
  all_goals rfl

/-- A write finds its array, -/
theorem external_target (ht : heap.Twin β heap) (hv : v.Similar β v) (w : Value) :
    External (heap.target v w) := by
  unfold target
  split
  · cases hv with
    | array hh =>
      obtain ⟨items, _, hi, _⟩ := ht.array _ _ hh
      rw [hi]
      dsimp only
      split
      · split
        · exact external_ok _
        · split
          · exact external_ok _
          · intro cause h
            cases h
            exact ⟨id, rfl⟩
      · intro cause h
        cases h
        exact ⟨id, rfl⟩
  · exact external_ok _
  · exact external_wrongType _ _
  · exact external_wrongType _ _
  · exact external_wrongType _ _

theorem external_propertyTarget (name : String) (v : Value) : External (propertyTarget name v) := by
  unfold propertyTarget
  split
  · exact external_ok _
  · exact external_wrongType _ _

/-- and so does an append. -/
theorem effect_error (ht : heap.Twin β heap) (f : Intrinsic) {args : List Value}
    (hs : ∀ v ∈ args, v.Similar β v) {failure : Failure}
    (h : f.effect? heap args = .error failure) : ¬ (Cause.failure failure).IsInternal := by
  have hhead : (args.headD .nil).Similar β (args.headD .nil) := by
    cases args with
    | nil => exact .nil
    | cons v _ => exact hs v List.mem_cons_self
  have hrange : ∀ {start stop : Float}, Intrinsic.rangeEffect start stop = .error failure →
      ¬ (Cause.failure failure).IsInternal := by
    intro start stop h
    unfold Intrinsic.rangeEffect at h
    dsimp only at h
    split at h
    · cases h
      exact id
    · cases h
  cases f with
  | push =>
    simp only [Intrinsic.effect?] at h
    generalize args.headD .nil = v at h hhead
    cases hhead with
    | array hh =>
      obtain ⟨items, _, hi, _⟩ := ht.array _ _ hh
      simp only [hi] at h
      cases h
    | _ =>
      cases h
      exact id
  | _ =>
    simp only [Intrinsic.effect?] at h
    repeat' split at h
    all_goals first
      | contradiction
      | exact hrange h
      | cases h; exact id

theorem convertFrom_error {builtin : String} {position : Nat} {shapes : List Shape}
    {values : List Value} {cause : Cause}
    (h : heap.convertFrom builtin position shapes values = .error cause) : cause.IsOrdinary := by
  induction shapes generalizing position values with
  | nil => cases h
  | cons shape shapes ih =>
    cases values with
    | nil => cases h
    | cons v values =>
      unfold convertFrom at h
      split at h
      · cases h
        exact ⟨id, rfl⟩
      · simp only [bind, Except.bind] at h
        split at h
        case h_1 cause' hc =>
          obtain rfl := Except.error.inj h
          exact ih hc
        case h_2 => cases h

theorem external_unpack (builtin : String) (shapes : List Shape) (values : List Value) :
    External (heap.unpack builtin shapes values) := by
  intro cause h
  unfold unpack at h
  split at h
  · exact convertFrom_error h
  · cases h
    exact ⟨id, rfl⟩

end Heap

end DeployScript
