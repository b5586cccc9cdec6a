import DeployScript.Proofs.Code.Bytes
import DeployScript.Code.Compile

/-!
# Code that is counted

While a function is compiled, its scope counts the bytes of its code. The count goes up by the size of each
block that a step of the compilation gives, and those of the functions around it stay what they are, although
these functions may get captures and notes.

* `Compile.Counts` — what a step with some code does to the counts.
* `Compile.Quiet` — a step without code. `resolve` is one: it looks through the functions around.
* `Compile.Sized` — a step with a block that leaves no loop, which is counted.
-/

namespace DeployScript

/-! ### Blocks -/

namespace Block

theorem Measured.nil : Measured [] := fun _ h => nomatch h

theorem Measured.single (i : Instr) (line : Nat) : Measured [.instr i line] := fun _ h =>
  ⟨i, line, List.mem_singleton.1 h⟩

theorem Measured.append {items rest : List Item} (h : Measured items) (h' : Measured rest) :
    Measured (items ++ rest) := fun item hi =>
  (List.mem_append.1 hi).elim (h item) (h' item)

/-- Code with a block behind it is longer by the size of the block. -/
theorem size_extend {κ : Type} (c : Chunk κ) (b : Block) : (c.extend b).code.size = c.code.size + b.size := by
  rw [extend_eq, size_eq_place, ← length_bytes]
  exact Array.size_append

end Block

/-! ### Captures -/

namespace Scope

variable {c c' : Scope} {index line : Nat} {name : String}

theorem offset_addCapture {capture : Capture} (h : c.addCapture capture line = .ok (index, c')) :
    c'.offset = c.offset := by
  unfold addCapture at h
  split at h
  · cases h
    rfl
  · split at h
    · cases h
      rfl
    · cases h

/-- Looking for a variable in the functions around this one leaves all counts. -/
theorem offset_resolveCapture {enclosing enclosing' : List Scope}
    (h : resolveCapture name line c enclosing = .ok (some (index, c', enclosing'))) :
    c'.offset = c.offset ∧ enclosing'.map Scope.offset = enclosing.map Scope.offset := by
  -- Each function further out asks the next one in its own place, so `c` varies as well.
  induction enclosing generalizing c c' enclosing' index with
  | nil => cases h
  | cons parent outer ih =>
    rw [resolveCapture] at h
    split at h
    case h_1 slot l hl =>
      split at h
      case isFalse => cases h
      case isTrue =>
        simp only [bind, Except.bind] at h
        split at h
        case h_1 => cases h
        case h_2 r hadd =>
          cases h
          exact ⟨offset_addCapture hadd, rfl⟩
    case h_2 hl =>
      simp only [bind, Except.bind] at h
      split at h
      case h_1 => cases h
      case h_2 r hr =>
        cases r with
        | none => cases h
        | some r =>
          obtain ⟨inner, parent', outer'⟩ := r
          simp only at h
          split at h
          case h_1 => cases h
          case h_2 r hadd =>
            cases h
            obtain ⟨hparent, houter⟩ := ih hr
            exact ⟨offset_addCapture hadd, by rw [List.map_cons, List.map_cons, hparent, houter]⟩

end Scope

namespace Compile

variable {σ α β : Type} {s s₁ s' : State σ}

/-! ### Counts -/

theorem size_append (b c : Block) : Block.size (b ++ c) = b.size + c.size := by
  rw [Block.size_eq_place, Block.size_eq_place, Block.size_eq_place, Array.toList_append,
    Block.place_append]

/-- **Code of a size has been added** to the current function. -/
structure Counts (s : State σ) (size : Nat) (s' : State σ) : Prop where
  current : s'.current.offset = s.current.offset + size
  enclosing : s'.enclosing.map Scope.offset = s.enclosing.map Scope.offset

theorem Counts.refl (s : State σ) : Counts s 0 s := ⟨rfl, rfl⟩

theorem Counts.trans {m n : Nat} (h : Counts s m s₁) (h' : Counts s₁ n s') : Counts s (m + n) s' :=
  ⟨by rw [h'.current, h.current, Nat.add_assoc], h'.enclosing.trans h.enclosing⟩

theorem counts_reserve {size : Nat} (h : reserve size s = .ok ((), s')) : Counts s size s' := by
  cases h
  exact ⟨rfl, rfl⟩

/-- A step behind another one. -/
theorem bind_eq_ok {x : StepIn σ α} {f : α → StepIn σ β} {r : β × State σ} (h : (x >>= f) s = .ok r) :
    ∃ a s₁, x s = .ok (a, s₁) ∧ f a s₁ = .ok r := by
  change (x s >>= fun r => f r.1 r.2) = _ at h
  cases hx : x s with
  | error e => rw [hx] at h; cases h
  | ok r => rw [hx] at h; exact ⟨r.1, r.2, rfl, h⟩

/-- **A step without code.** -/
def Quiet (x : StepIn σ α) : Prop := ∀ s a s', x s = .ok (a, s') → Counts s 0 s'

namespace Quiet

theorem pure (a : α) : Quiet (Pure.pure a : StepIn σ α) := by
  intro s a s' h
  cases h
  exact .refl s

theorem bind {x : StepIn σ α} {f : α → StepIn σ β} (hx : Quiet x) (hf : ∀ a, Quiet (f a)) :
    Quiet (x >>= f) := by
  intro s b s' h
  obtain ⟨a, s₁, h₁, h₂⟩ := bind_eq_ok h
  exact (hx s a s₁ h₁).trans (hf a s₁ b s' h₂)

theorem throw (e : ScriptError) : Quiet (MonadExcept.throw e : StepIn σ α) := fun _ _ _ h => nomatch h

theorem scope : Quiet (scope : StepIn σ Scope) := by
  intro s c s' h
  cases h
  exact .refl s

theorem modifyScope {f : Scope → Scope} (hf : ∀ c, (f c).offset = c.offset) :
    Quiet (modifyScope f : StepIn σ Unit) := by
  intro s u s' h
  cases h
  exact ⟨hf s.current, rfl⟩

theorem wide (n : Nat) (limit : Limit) (line : Nat) : Quiet (wide n limit line : StepIn σ UInt16) := by
  unfold Compile.wide
  split
  · exact .pure _
  · exact .throw _

theorem declareLocal (name : String) (isMutable : Bool) : Quiet (declareLocal name isMutable : StepIn σ Unit) :=
  .modifyScope fun _ => rfl

theorem declareSlot (name : String) (isMutable : Bool) : Quiet (declareSlot name isMutable : StepIn σ Nat) :=
  .bind .scope fun _ => .bind (.declareLocal _ _) fun _ => .pure _

theorem addConstant (literal : Literal) (line : Nat) : Quiet (addConstant literal line : StepIn σ UInt16) :=
  .bind .scope fun _ => .bind (.wide _ _ _) fun _ => .bind (.modifyScope fun _ => rfl) fun _ => .pure _

theorem addName (name : String) (line : Nat) : Quiet (addName name line : StepIn σ UInt16) := by
  refine .bind .scope fun c => ?_
  dsimp only
  split
  · exact .wide _ _ _
  · exact .bind (.wide _ _ _) fun _ => .bind (.modifyScope fun _ => rfl) fun _ => .pure _

/-- Finding a variable adds no code to any function. -/
theorem resolve (name : String) (line : Nat) : Quiet (resolve name line : StepIn σ Place) := by
  intro s place s' h
  obtain ⟨s₁, t, hget, h⟩ := bind_eq_ok h
  cases hget
  cases hl : s.current.lookup? name with
  | some found =>
    simp only [hl] at h
    cases h
    exact .refl s
  | none =>
    simp only [hl] at h
    obtain ⟨found, t, hfound, h⟩ := bind_eq_ok h
    cases hr : Scope.resolveCapture name line s.current s.enclosing with
    | error e => rw [hr] at hfound; cases hfound
    | ok r =>
      rw [hr] at hfound
      cases hfound
      cases found with
      | none =>
        cases h
        exact .refl _
      | some r =>
        obtain ⟨index, current, enclosing⟩ := r
        cases h
        exact ⟨(Scope.offset_resolveCapture hr).1, (Scope.offset_resolveCapture hr).2⟩

end Quiet

/-- **A step with a block** that leaves no loop. -/
def Sized (block : StepIn σ Block) : Prop :=
  ∀ s b s', block s = .ok (b, s') → Block.Measured b.toList ∧ Counts s b.size s'

namespace Sized

theorem nil : Sized (Pure.pure #[] : StepIn σ Block) := by
  intro s b s' h
  cases h
  exact ⟨.nil, .refl s⟩

theorem throw (e : ScriptError) : Sized (MonadExcept.throw e : StepIn σ Block) := fun _ _ _ h => nomatch h

/-- A block behind a step without code. -/
theorem behind {x : StepIn σ α} {f : α → StepIn σ Block} (hx : Quiet x) (hf : ∀ a, Sized (f a)) :
    Sized (x >>= f) := by
  intro s b s' h
  obtain ⟨a, s₁, h₁, h₂⟩ := bind_eq_ok h
  obtain ⟨hb, hcounts⟩ := hf a s₁ b s' h₂
  refine ⟨hb, ?_⟩
  have hall := (hx s a s₁ h₁).trans hcounts
  rwa [Nat.zero_add] at hall

/-- A block behind another one. -/
theorem append {first second : StepIn σ Block} (h : Sized first) (h' : Sized second) :
    Sized (do return (← first) ++ (← second)) := by
  intro s b s' hb
  obtain ⟨b₁, s₁, h₁, hrest⟩ := bind_eq_ok hb
  obtain ⟨b₂, s₂, h₂, hpure⟩ := bind_eq_ok hrest
  cases hpure
  obtain ⟨hm₁, hc₁⟩ := h s b₁ s₁ h₁
  obtain ⟨hm₂, hc₂⟩ := h' s₁ b₂ s' h₂
  rw [Array.toList_append, size_append]
  exact ⟨hm₁.append hm₂, hc₁.trans hc₂⟩

theorem emit (i : Instr) (line : Nat) : Sized (emit i line : StepIn σ Block) := by
  intro s b s' h
  cases h
  refine ⟨.single i line, ?_, rfl⟩
  rw [Block.size_eq_place, Block.place_cons, Block.place_nil]
  rfl

theorem emitConstant (literal : Literal) (line : Nat) : Sized (emitConstant literal line : StepIn σ Block) :=
  .behind (.addConstant literal line) fun _ => .emit _ line

theorem readVariable (name : String) (line : Nat) : Sized (readVariable name line : StepIn σ Block) := by
  refine .behind (.resolve name line) fun place => ?_
  cases place with
  | slot | capture => exact .behind (.wide _ _ _) fun _ => .emit _ line
  | global => exact .behind (.addName _ _) fun _ => .emit _ line

theorem writeVariable (name : String) (span : Span) : Sized (writeVariable name span : StepIn σ Block) := by
  refine .behind (.resolve name span.line) fun place => ?_
  cases place with
  | slot | capture =>
    dsimp only
    split
    · exact .behind (.wide _ _ _) fun _ => .emit _ span.line
    · exact .throw _
  | global => exact .behind (.addName _ _) fun _ => .emit _ span.line

theorem declare (name : String) (isMutable : Bool) (line : Nat) :
    Sized (declare name isMutable line : StepIn σ Block) := by
  refine .behind .scope fun c => ?_
  split
  · refine .behind (.addName name line) fun _ => ?_
    split
    · exact .emit _ line
    · exact .emit _ line
  · exact .behind (.declareLocal name isMutable) fun _ => .nil

theorem readSlot (slot line : Nat) : Sized (readSlot slot line : StepIn σ Block) :=
  .behind (.wide _ _ _) fun _ => .emit _ line

theorem moveToSlot (slot line : Nat) : Sized (moveToSlot slot line : StepIn σ Block) :=
  .behind (.wide _ _ _) fun _ => .append (.emit _ line) (.emit _ line)

/-- Variables leave the stack by one instruction each. -/
theorem unwind (depth line : Nat) : Sized (unwind depth line : StepIn σ Block) := by
  intro s b s' h
  cases h
  have hsize : ∀ (is : List Instr) (n : Nat), is.foldl (fun n i => n + i.size) n =
      n + Block.place (is.map (Item.instr · line)) := by
    intro is
    induction is with
    | nil => intro n; rfl
    | cons i is ih =>
      intro n
      rw [List.foldl_cons, ih, List.map_cons, Block.place_cons, Nat.add_assoc]
      rfl
  refine ⟨fun item hi => ?_, ?_, rfl⟩
  · obtain ⟨i, -, rfl⟩ := List.mem_map.1 hi
    exact ⟨i, line, rfl⟩
  · rw [Block.size_eq_place, ← Nat.zero_add (Block.place _), ← hsize]

end Sized

end Compile

end DeployScript
