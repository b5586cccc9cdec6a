import DeployScript.Proofs.Code.Bytes

/-!
# The shape of the stack along a block

What is known of the stack before each instruction of a block: how many values lie above the start
of the frame, and which of these slots a closure may share. Code is typed if every instruction finds
what it needs there and leads only to places where the shape is the one it leaves.

* `Instr.taken`, `Instr.given` — how many values an instruction takes and leaves.
* `Instr.Fits` — what an instruction needs of its operand and of the stack. Only the instructions
  that give a slot a value of its own, `closeCapture` and `return_`, may take a slot that is shared.
* `Typed` — a block with a shape before each item. Blocks are typed one behind another
  (`Typed.append`), and the three ways that code jumps have a rule each: to the end of the block
  behind (`Typed.append_over`), back to the start of the block (`Typed.loop`), and to the end of a
  loop that is being closed (`Typed.closeLoop`).
-/

namespace DeployScript

/-! ### What an instruction does to the stack -/

namespace Instr

/-- How many values an instruction takes from the top of the stack or looks at there. -/
def taken : Instr → Nat
  | ⟨.add, _⟩ | ⟨.sub, _⟩ | ⟨.mul, _⟩ | ⟨.div, _⟩ | ⟨.mod, _⟩ => 2
  | ⟨.eq, _⟩ | ⟨.ne, _⟩ | ⟨.lt, _⟩ | ⟨.le, _⟩ | ⟨.gt, _⟩ | ⟨.ge, _⟩ => 2
  | ⟨.index, _⟩ | ⟨.setProperty, _⟩ => 2
  | ⟨.setIndex, _⟩ => 3
  | ⟨.pop, _⟩ | ⟨.defineLet, _⟩ | ⟨.defineVar, _⟩ | ⟨.closeCapture, _⟩ | ⟨.return_, _⟩ => 1
  | ⟨.setGlobal, _⟩ | ⟨.setLocal, _⟩ | ⟨.setCapture, _⟩ => 1
  | ⟨.neg, _⟩ | ⟨.not, _⟩ | ⟨.len, _⟩ | ⟨.getProperty, _⟩ => 1
  | ⟨.jumpIfFalse, _⟩ | ⟨.jumpIfTrue, _⟩ => 1
  | ⟨.call, count⟩ => count.toNat + 1
  | ⟨.print, count⟩ => count.toNat
  | ⟨.array, count⟩ => count.toNat
  | ⟨.record, count⟩ => 2 * count.toNat
  | _ => 0

/-- How many values an instruction leaves in their place. -/
def given : Instr → Nat
  | ⟨.pop, _⟩ | ⟨.defineLet, _⟩ | ⟨.defineVar, _⟩ | ⟨.closeCapture, _⟩ | ⟨.return_, _⟩ => 0
  | ⟨.jump, _⟩ | ⟨.loop, _⟩ => 0
  | _ => 1

/-- The places of the code that an instruction may lead to, from the place behind it. -/
def targets : Instr → (behind : Nat) → List Nat
  | ⟨.jump, distance⟩, behind => [behind + distance.toNat]
  | ⟨.jumpIfFalse, distance⟩, behind => [behind, behind + distance.toNat]
  | ⟨.jumpIfTrue, distance⟩, behind => [behind, behind + distance.toNat]
  | ⟨.loop, distance⟩, behind => [behind - distance.toNat]
  | ⟨.return_, _⟩, _ => []
  | _, behind => [behind]

end Instr

/-! ### Shapes -/

/-- The stack of a frame: how many values lie on it, and which of its slots may be shared with a
closure. -/
structure StackShape where
  height : Nat
  shared : Nat → Prop

namespace StackShape

/-- Equally many values, and at most the slots that the other shape lets be shared. -/
protected def Le (t u : StackShape) : Prop := t.height = u.height ∧ ∀ j, t.shared j → u.shared j

instance : LE StackShape := ⟨StackShape.Le⟩

@[refl] theorem le_refl (t : StackShape) : t ≤ t := ⟨rfl, fun _ h => h⟩

theorem le_trans {t u v : StackShape} (h : t ≤ u) (h' : u ≤ v) : t ≤ v :=
  ⟨h.1.trans h'.1, fun j hj => h'.2 j (h.2 j hj)⟩

end StackShape

/-- What the instructions of a function refer to by index: which constants are data, which are
functions with how many captures, how many names there are, and how many cells the function has. -/
structure Pool where
  data : Nat → Prop
  function : (index captures : Nat) → Prop
  names : Nat
  captures : Nat

/-- The second pool has all that the first has. -/
structure Pool.Le (P Q : Pool) : Prop where
  data : ∀ i, P.data i → Q.data i
  function : ∀ i n, P.function i n → Q.function i n
  names : P.names ≤ Q.names
  captures : P.captures ≤ Q.captures

theorem Pool.le_refl (P : Pool) : P.Le P := ⟨fun _ h => h, fun _ _ h => h, Nat.le_refl _, Nat.le_refl _⟩

theorem Pool.le_trans {P Q R : Pool} (h : P.Le Q) (h' : Q.Le R) : P.Le R where
  data i hi := h'.data i (h.data i hi)
  function i n hi := h'.function i n (h.function i n hi)
  names := Nat.le_trans h.names h'.names
  captures := Nat.le_trans h.captures h'.captures

namespace Instr

/-- The source of a capture exists: a slot, which may be the one that the closure is about to take,
or a cell of the function itself. -/
def SourceFits (P : Pool) (t : StackShape) (c : CaptureSource) : Prop :=
  if c.isLocal then c.index.toNat ≤ t.height else c.index.toNat < P.captures

/-- What an operand refers to exists. The place is that behind the instruction. -/
def OperandFits (P : Pool) (t : StackShape) (behind : Nat) : Instr → Prop
  | ⟨.constant, index⟩ => P.data index.toNat
  | ⟨.defineLet, index⟩ | ⟨.defineVar, index⟩ | ⟨.getGlobal, index⟩ | ⟨.setGlobal, index⟩ =>
    index.toNat < P.names
  | ⟨.getProperty, index⟩ | ⟨.setProperty, index⟩ => index.toNat < P.names
  | ⟨.getLocal, slot⟩ | ⟨.setLocal, slot⟩ => slot.toNat < t.height
  | ⟨.getCapture, index⟩ | ⟨.setCapture, index⟩ => index.toNat < P.captures
  | ⟨.loop, distance⟩ => distance.toNat ≤ behind
  | ⟨.closure, (index, sources)⟩ =>
    P.function index.toNat sources.length ∧ sources.length < UInt8.size ∧
      ∀ c ∈ sources, SourceFits P t c
  | _ => True

/-- Whether an instruction may take a slot that is shared. -/
def closes (i : Instr) : Prop := i.op = .closeCapture ∨ i.op = .return_

/-- What an instruction needs: its operand, the values that it takes, and that none of them is
shared, unless it gives the shared slots values of their own. -/
structure Fits (P : Pool) (t : StackShape) (behind : Nat) (i : Instr) : Prop where
  operand : i.OperandFits P t behind
  deep : i.taken ≤ t.height
  unshared : i.closes ∨ ∀ j, t.height - i.taken ≤ j → j < t.height → ¬ t.shared j

/-- The slots that may be shared behind an instruction. -/
def sharedAfter (t : StackShape) : Instr → Nat → Prop
  | ⟨.closure, (_, sources)⟩, j =>
    t.shared j ∨ ∃ c ∈ sources, c.isLocal = true ∧ c.index.toNat = j
  | ⟨.closeCapture, _⟩, j => t.shared j ∧ j < t.height - 1
  | _, j => t.shared j

/-- The shape behind an instruction. -/
def after (t : StackShape) (i : Instr) : StackShape where
  height := t.height - i.taken + i.given
  shared := i.sharedAfter t

theorem Fits.mono {P Q : Pool} {t : StackShape} {behind : Nat} {i : Instr} (h : P.Le Q)
    (hi : i.Fits P t behind) : i.Fits Q t behind := by
  refine ⟨?_, hi.deep, hi.unshared⟩
  have hop := hi.operand
  obtain ⟨op, operand⟩ := i
  cases op <;> try exact hop
  case constant => exact h.data _ hop
  case defineLet | defineVar | getGlobal | setGlobal | getProperty | setProperty =>
    exact Nat.lt_of_lt_of_le hop h.names
  case getCapture | setCapture => exact Nat.lt_of_lt_of_le hop h.captures
  case closure =>
    obtain ⟨index, sources⟩ := operand
    refine ⟨h.function _ _ hop.1, hop.2.1, fun c hc => ?_⟩
    have hsource := hop.2.2 c hc
    unfold SourceFits at hsource ⊢
    split
    case isTrue hl => rwa [if_pos hl] at hsource
    case isFalse hl => rw [if_neg hl] at hsource; exact Nat.lt_of_lt_of_le hsource h.captures

/-- What fits can be written. -/
theorem Fits.writable {P : Pool} {t : StackShape} {behind : Nat} {i : Instr} (h : i.Fits P t behind) :
    i.Writable := by
  have hoperand := h.operand
  obtain ⟨op, operand⟩ := i
  cases op
  case closure => exact hoperand.2.1
  all_goals trivial

end Instr

/-! ### Typed blocks -/

/-- Where code may lead: to a place, or to the end of the innermost loop. -/
inductive Label
  | at_ (place : Nat)
  | exit

/-- The shapes with which a label may be reached. -/
abbrev Arrivals := Label → StackShape → Prop

namespace Item

/-- Where an item may lead, from the place behind it. -/
def labels : Item → (behind : Nat) → List Label
  | instr i _, behind => (i.targets behind).map .at_
  | exit _, _ => [.exit]

/-- What an item needs. -/
def Fits (P : Pool) (t : StackShape) (behind : Nat) : Item → Prop
  | instr i _ => i.Fits P t behind
  | exit _ => True

/-- The shape that an item leaves. -/
def after (t : StackShape) : Item → StackShape
  | instr i _ => i.after t
  | exit _ => t

theorem Fits.mono {P Q : Pool} {t : StackShape} {behind : Nat} {item : Item} (h : P.Le Q)
    (hi : item.Fits P t behind) : item.Fits Q t behind := by
  cases item with
  | instr i line => exact Instr.Fits.mono h hi
  | exit line => trivial

end Item

/-- Items with the shape before each. -/
abbrev Annotated := List (Item × StackShape)

namespace Annotated

/-- How many bytes the items have. -/
def size (l : Annotated) : Nat := Block.place (l.map Prod.fst)

@[simp] theorem size_nil : size [] = 0 := rfl

@[simp] theorem size_cons (item : Item) (t : StackShape) (l : Annotated) :
    size ((item, t) :: l) = item.size + size l := by
  simp [size]

@[simp] theorem size_append (l l' : Annotated) : size (l ++ l') = size l + size l' := by
  simp [size]

/-- A place at which the shape is one that the item there allows. -/
def Known : (start : Nat) → Annotated → (place : Nat) → StackShape → Prop
  | _, [], _, _ => False
  | start, (item, u) :: rest, place, t =>
    (place = start ∧ t ≤ u) ∨ Known (start + item.size) rest place t

/-- The shape with which the items may be reached from the front, where `exit` is the shape
behind them. -/
def Enters (exit : StackShape) : Annotated → StackShape → Prop
  | [], t => t ≤ exit
  | (_, u) :: _, t => t ≤ u

/-- Every item finds what it needs, and leads where the shape it leaves may arrive. -/
def Checked (P : Pool) (E : Arrivals) : (start : Nat) → Annotated → Prop
  | _, [] => True
  | start, (item, t) :: rest =>
    item.Fits P t (start + item.size) ∧
      (∀ label ∈ item.labels (start + item.size), E label (item.after t)) ∧
      Checked P E (start + item.size) rest

/-- The places of the items and the place behind them, beside those of `E`. -/
def Around (E : Arrivals) (start : Nat) (l : Annotated) (exit : StackShape) : Arrivals :=
  fun label t => E label t ∨ ∃ place, label = .at_ place ∧
    (Known start l place t ∨ (place = start + l.size ∧ t ≤ exit))

variable {P Q : Pool} {E F : Arrivals} {start place : Nat} {l l' : Annotated} {t u v : StackShape}

theorem known_append :
    Known start (l ++ l') place t ↔ Known start l place t ∨ Known (start + l.size) l' place t := by
  induction l generalizing start with
  | nil => simp [Known]
  | cons a l ih =>
    obtain ⟨item, u⟩ := a
    simp only [List.cons_append, Known, ih, size_cons, or_assoc, Nat.add_assoc]

theorem checked_append :
    Checked P E start (l ++ l') ↔ Checked P E start l ∧ Checked P E (start + l.size) l' := by
  induction l generalizing start with
  | nil => simp [Checked]
  | cons a l ih =>
    obtain ⟨item, u⟩ := a
    simp only [List.cons_append, Checked, ih, size_cons, and_assoc, Nat.add_assoc]

/-- An item of checked code finds what it needs and leads where it may. -/
theorem Checked.item {before after : Annotated} {item : Item} (h : Checked P E start l)
    (hl : l = before ++ (item, t) :: after) :
    item.Fits P t (start + size before + item.size) ∧
      ∀ label ∈ item.labels (start + size before + item.size), E label (item.after t) := by
  rw [hl, checked_append] at h
  exact ⟨h.2.1, h.2.2.1⟩

theorem Checked.mono (hP : P.Le Q) (hE : ∀ label t, E label t → F label t)
    (h : Checked P E start l) : Checked Q F start l := by
  induction l generalizing start with
  | nil => trivial
  | cons a l ih => exact ⟨h.1.mono hP, fun label hl => hE _ _ (h.2.1 label hl), ih h.2.2⟩

theorem Enters.known (h : Enters u l t) (hl : l ≠ []) : Known start l start t := by
  cases l with
  | nil => exact absurd rfl hl
  | cons a l => exact Or.inl ⟨rfl, h⟩

theorem Enters.of_le (h : Enters u l t) (ht : v ≤ t) : Enters u l v := by
  cases l with
  | nil => exact StackShape.le_trans ht h
  | cons a l => exact StackShape.le_trans ht h

theorem Enters.mono (h : Enters u l t) (hu : u ≤ v) : Enters v l t := by
  cases l with
  | nil => exact StackShape.le_trans h hu
  | cons a l => exact h

/-- A place with a known shape is that of an item. -/
theorem Known.item (h : Known start l place t) : ∃ before item u after,
    l = before ++ (item, u) :: after ∧ place = start + size before ∧ t ≤ u := by
  induction l generalizing start with
  | nil => exact h.elim
  | cons a l ih =>
    obtain ⟨item, u⟩ := a
    rcases h with ⟨rfl, ht⟩ | h
    · exact ⟨[], item, u, l, rfl, rfl, ht⟩
    · obtain ⟨before, item', u', after, rfl, rfl, ht⟩ := ih h
      refine ⟨(item, u) :: before, item', u', after, rfl, ?_, ht⟩
      rw [size_cons, Nat.add_assoc]

theorem Known.le (h : Known start l place t) : start ≤ place := by
  obtain ⟨before, _, _, _, _, rfl, _⟩ := h.item
  exact Nat.le_add_right _ _

/-- **One place has one height.** -/
theorem Known.unique (h : Known start l place t) (h' : Known start l place u) :
    t.height = u.height := by
  induction l generalizing start with
  | nil => exact h.elim
  | cons a l ih =>
    obtain ⟨item, v⟩ := a
    have hpos := Block.size_item_pos item
    rcases h with ⟨rfl, ht⟩ | h
    · rcases h' with ⟨-, hu⟩ | h'
      · exact ht.1.trans hu.1.symm
      · have := Known.le h'
        omega
    · rcases h' with ⟨rfl, hu⟩ | h'
      · have := Known.le h
        omega
      · exact ih h h'

end Annotated

open Annotated in
/-- **A typed block:** from the shape `t` before it to the shape `u` behind it. Beside its own places
the block leads only to those of `E`. -/
def Typed (P : Pool) (E : Arrivals) (start : Nat) (b : Block) (t u : StackShape) : Prop :=
  ∃ l : Annotated, l.map Prod.fst = b.toList ∧ Enters u l t ∧ Checked P (Around E start l u) start l

namespace Typed

open Annotated

variable {P Q : Pool} {E F : Arrivals} {start : Nat} {b c : Block} {t t' u u' v : StackShape}

theorem mono (hP : P.Le Q) (hE : ∀ label t, E label t → F label t)
    (h : Typed P E start b t u) : Typed Q F start b t u := by
  obtain ⟨l, hl, henter, hcheck⟩ := h
  exact ⟨l, hl, henter, hcheck.mono hP fun label s hs => hs.imp_left (hE label s)⟩

/-- A block may be reached with less, and left with more. -/
theorem weaken (ht : t' ≤ t) (hu : u ≤ u') (h : Typed P E start b t u) :
    Typed P E start b t' u' := by
  obtain ⟨l, hl, henter, hcheck⟩ := h
  refine ⟨l, hl, (henter.of_le ht).mono hu, hcheck.mono P.le_refl ?_⟩
  rintro label s (hs | ⟨place, rfl, hk | ⟨rfl, hs⟩⟩)
  · exact Or.inl hs
  · exact Or.inr ⟨place, rfl, Or.inl hk⟩
  · exact Or.inr ⟨_, rfl, Or.inr ⟨rfl, StackShape.le_trans hs hu⟩⟩

theorem nil (h : t ≤ u) : Typed P E start #[] t u :=
  ⟨[], rfl, h, trivial⟩

/-- One item leads behind itself or where it may lead anyway. -/
theorem single {item : Item} (hfits : item.Fits P t (start + item.size))
    (hlabels : ∀ label ∈ item.labels (start + item.size),
      (label = .at_ (start + item.size) ∧ item.after t ≤ u) ∨ E label (item.after t)) :
    Typed P E start #[item] t u := by
  refine ⟨[(item, t)], rfl, StackShape.le_refl t, hfits, fun label hl => ?_, trivial⟩
  rcases hlabels label hl with ⟨rfl, hle⟩ | hE
  · exact Or.inr ⟨_, rfl, Or.inr ⟨by simp, hle⟩⟩
  · exact Or.inl hE

/-- An instruction that leads behind itself and nowhere else. -/
theorem instr {i : Instr} {line : Nat} (hfits : i.Fits P t (start + i.size))
    (htargets : i.targets (start + i.size) = [start + i.size]) (hu : i.after t ≤ u) :
    Typed P E start #[.instr i line] t u := by
  refine single hfits fun label hl => Or.inl ?_
  change label ∈ (i.targets (start + i.size)).map .at_ at hl
  rw [htargets, List.map_singleton, List.mem_singleton] at hl
  exact ⟨hl, hu⟩

/-- **Blocks one behind another.** The first may lead to the end of the second. -/
theorem append_over
    (h : Typed P (fun label s => E label s ∨ (label = .at_ (start + b.size + c.size) ∧ s ≤ v))
      start b t u)
    (h' : Typed P E (start + b.size) c u v) : Typed P E start (b ++ c) t v := by
  obtain ⟨l, hl, henter, hcheck⟩ := h
  obtain ⟨l', hl', henter', hcheck'⟩ := h'
  have hb : l.size = b.size := by rw [Block.size_eq_place, ← hl]; rfl
  have hc : l'.size = c.size := by rw [Block.size_eq_place, ← hl']; rfl
  refine ⟨l ++ l', by rw [List.map_append, hl, hl', Array.toList_append], ?_, ?_⟩
  · cases l with
    | nil => exact henter'.of_le henter
    | cons a l => exact henter
  · rw [checked_append, hb]
    refine ⟨hcheck.mono P.le_refl ?_, hcheck'.mono P.le_refl ?_⟩
    · rintro label s ((hs | ⟨rfl, hs⟩) | ⟨place, rfl, hk | ⟨rfl, hs⟩⟩)
      · exact Or.inl hs
      · exact Or.inr ⟨_, rfl, Or.inr ⟨by rw [size_append, hb, hc, Nat.add_assoc], hs⟩⟩
      · exact Or.inr ⟨place, rfl, Or.inl (known_append.2 (Or.inl hk))⟩
      · refine Or.inr ⟨_, rfl, ?_⟩
        cases l' with
        | nil => exact Or.inr ⟨by rw [size_append]; rfl, StackShape.le_trans hs henter'⟩
        | cons a l' =>
          exact Or.inl (known_append.2 (Or.inr ((henter'.of_le hs).known (List.cons_ne_nil a l'))))
    · rintro label s (hs | ⟨place, rfl, hk | ⟨rfl, hs⟩⟩)
      · exact Or.inl hs
      · exact Or.inr ⟨place, rfl, Or.inl (known_append.2 (Or.inr (by rwa [hb])))⟩
      · exact Or.inr ⟨_, rfl, Or.inr ⟨by rw [size_append, hb, Nat.add_assoc], hs⟩⟩

theorem append (h : Typed P E start b t u) (h' : Typed P E (start + b.size) c u v) :
    Typed P E start (b ++ c) t v :=
  append_over (h.mono P.le_refl fun _ _ => Or.inl) h'

/-- **A conditional jump over a block.** -/
theorem branch {i : Instr} {distance : UInt16} {line : Nat}
    (hi : i = ⟨.jumpIfFalse, distance⟩ ∨ i = ⟨.jumpIfTrue, distance⟩)
    (hd : distance.toNat = c.size) (ht : 0 < t.height) (htop : ∀ j, t.shared j → j + 1 < t.height)
    (htu : t ≤ u) (h : Typed P E (start + 3) c t u) :
    Typed P E start (#[.instr i line] ++ c) t u := by
  have hsize : Block.size #[.instr i line] = 3 := by
    rcases hi with rfl | rfl <;> rfl
  have hafter : i.after t = t := by
    obtain ⟨height, shared⟩ := t
    rcases hi with rfl | rfl <;>
      exact congrArg (fun n => StackShape.mk n shared) (Nat.sub_add_cancel ht)
  have htargets : i.targets (start + 3) = [start + 3, start + 3 + distance.toNat] := by
    rcases hi with rfl | rfl <;> rfl
  have hjump : Typed P
      (fun label s => E label s ∨ (label = .at_ (start + Block.size #[.instr i line] + c.size) ∧ s ≤ u))
      start #[.instr i line] t t := by
    refine single ⟨?_, ?_, Or.inr fun j hj hlt hs => ?_⟩ fun label hlabel => ?_
    · rcases hi with rfl | rfl <;> trivial
    · rcases hi with rfl | rfl <;> exact ht
    · have htaken : i.taken = 1 := by rcases hi with rfl | rfl <;> rfl
      have := htop j hs
      omega
    · have hitem : (Item.instr i line).size = 3 := by rcases hi with rfl | rfl <;> rfl
      change label ∈ (i.targets (start + (Item.instr i line).size)).map .at_ at hlabel
      rw [hitem] at hlabel ⊢
      rw [htargets, List.map_cons, List.map_singleton, List.mem_cons, List.mem_singleton] at hlabel
      change (label = .at_ (start + 3) ∧ i.after t ≤ t) ∨ _
      rw [hafter]
      rcases hlabel with rfl | rfl
      · exact Or.inl ⟨rfl, StackShape.le_refl t⟩
      · refine Or.inr (Or.inr ⟨by rw [hsize, hd], ?_⟩)
        change i.after t ≤ u
        rwa [hafter]
  exact append_over hjump (by rwa [hsize])

/-- **A block that leads back to its start.** -/
theorem loop (h : Typed P (fun label s => E label s ∨ (label = .at_ start ∧ s ≤ t)) start b t u) :
    Typed P E start b t u := by
  obtain ⟨l, hl, henter, hcheck⟩ := h
  refine ⟨l, hl, henter, ?_⟩
  cases l with
  | nil => trivial
  | cons a l =>
    refine hcheck.mono P.le_refl ?_
    rintro label s ((hs | ⟨rfl, hs⟩) | hs)
    · exact Or.inl hs
    · exact Or.inr ⟨_, rfl, Or.inl ((henter.of_le hs).known (List.cons_ne_nil a l))⟩
    · exact Or.inr hs

/-- **A loop that is closed:** what left the loop now leads behind it. -/
theorem closeLoop (hclose : b.closeLoop? = some c) (h : Typed P F start b t u)
    (hexit : ∀ s, F .exit s → s ≤ u) (hplace : ∀ place s, F (.at_ place) s → E (.at_ place) s) :
    Typed P E start c t u := by
  obtain ⟨l, hl, henter, hcheck⟩ := h
  have hclosed := Block.closes_of_closeLoop? hclose
  rw [← hl] at hclosed
  -- What is closed is a part `m` of the items, with the places of all of `l` around it.
  have hpart : ∀ (m : Annotated) (first left : Nat) (closed : List Item),
      Block.Closes left (m.map Prod.fst) closed → first + left = start + l.size →
      left = Annotated.size m → Checked P (Around F start l u) first m →
      ∃ m' : Annotated, m'.map Prod.fst = closed ∧ (∀ s, Enters u m s → Enters u m' s) ∧
        (∀ place s, Known first m place s → Known first m' place s) ∧
        Checked P (Around E start l u) first m' := by
    intro m
    induction m with
    | nil =>
      intro first left closed hc _ _ _
      cases hc
      exact ⟨[], rfl, fun _ hs => hs, fun _ _ hk => hk, trivial⟩
    | cons a m ih =>
      intro first left closed hc hfirst hleft hcheck
      obtain ⟨item, s⟩ := a
      rw [size_cons] at hleft
      cases hc with
      | @instr _ i line _ closed rest =>
        change left = i.size + Annotated.size m at hleft
        obtain ⟨m', hm', _, hknown, hcheck'⟩ :=
          ih (first + i.size) (left - i.size) closed rest (by omega) (by omega) hcheck.2.2
        refine ⟨(.instr i line, s) :: m', by simp [hm'], fun _ hs => hs,
          fun place t hk => hk.imp_right (hknown place t), hcheck.1, fun label hlabel => ?_, hcheck'⟩
        obtain ⟨place, _, rfl⟩ := List.mem_map.1 hlabel
        exact (hcheck.2.1 (.at_ place) hlabel).imp_left (hplace place _)
      | @exit _ distance line _ closed hd rest =>
        change left = 3 + Annotated.size m at hleft
        obtain ⟨m', hm', _, hknown, hcheck'⟩ :=
          ih (first + 3) (left - 3) closed rest (by omega) (by omega) hcheck.2.2
        refine ⟨(.instr ⟨.jump, distance⟩ line, s) :: m', by simp [hm'], fun _ hs => hs,
          fun place t hk => hk.imp_right (hknown place t),
          ⟨trivial, Nat.zero_le _, Or.inr fun j hj hlt => absurd hlt (Nat.not_lt.2 hj)⟩, ?_, hcheck'⟩
        intro label hlabel
        obtain rfl : label = .at_ (first + 3 + distance.toNat) := List.mem_singleton.1 hlabel
        have hs : s ≤ u := by
          rcases hcheck.2.1 .exit (List.mem_singleton.2 rfl) with hE | ⟨_, hne, _⟩
          · exact hexit s hE
          · cases hne
        exact Or.inr ⟨_, rfl, Or.inr ⟨by omega, hs⟩⟩
  obtain ⟨l', hl', henter', hknown, hcheck'⟩ :=
    hpart l start _ c.toList hclosed (by rfl) rfl hcheck
  have hsize : l'.size = l.size := by
    change Block.place (l'.map Prod.fst) = Block.place (l.map Prod.fst)
    rw [hl', hclosed.place_eq]
  refine ⟨l', hl', henter' t henter, hcheck'.mono P.le_refl ?_⟩
  rintro label s (hs | ⟨place, rfl, hk | ⟨rfl, hs⟩⟩)
  · exact Or.inl hs
  · exact Or.inr ⟨place, rfl, Or.inl (hknown place s hk)⟩
  · exact Or.inr ⟨_, rfl, Or.inr ⟨by rw [hsize], hs⟩⟩

/-- Instructions one behind another, none of which leads anywhere else. -/
theorem straight {shape : Nat → StackShape} {instrs : List Instr} {line : Nat}
    (h : ∀ k, (hk : k < instrs.length) → instrs[k].targets = (fun behind => [behind]) ∧
      (∀ behind, instrs[k].Fits P (shape k) behind) ∧ instrs[k].after (shape k) ≤ shape (k + 1)) :
    Typed P E start (instrs.map (Item.instr · line)).toArray (shape 0) (shape instrs.length) := by
  induction instrs generalizing start shape with
  | nil => exact nil (StackShape.le_refl _)
  | cons i instrs ih =>
    obtain ⟨htargets, hfits, hafter⟩ := h 0 (Nat.zero_lt_succ _)
    have hrest := @ih (start + Block.size #[.instr i line]) (fun k => shape (k + 1))
      fun k hk => h (k + 1) (Nat.succ_lt_succ hk)
    have hfirst : Typed P E start #[.instr i line] (shape 0) (shape 1) :=
      instr (hfits _) (by rw [show i.targets = _ from htargets]) hafter
    have hall := append hfirst hrest
    rw [List.map_cons, ← List.singleton_append, ← List.append_toArray]
    exact hall

end Typed

/-! ### Code on its own -/

open Annotated in
/-- **Sealed code:** it is entered at its start with the shape `t`, and leads nowhere but to its own
places. -/
def Sealed (P : Pool) (b : Block) (t : StackShape) : Prop :=
  ∃ l : Annotated, l.map Prod.fst = b.toList ∧ Known 0 l 0 t ∧
    Checked P (fun label s => ∃ place, label = .at_ place ∧ Known 0 l place s) 0 l

theorem Sealed.mono {P Q : Pool} {b : Block} {t : StackShape} (hP : P.Le Q) (h : Sealed P b t) :
    Sealed Q b t := by
  obtain ⟨l, hl, hknown, hcheck⟩ := h
  exact ⟨l, hl, hknown, hcheck.mono hP fun _ _ hs => hs⟩

open Annotated in
/-- A block that leads at most to its end is sealed by a return. -/
theorem Typed.sealed {P : Pool} {b : Block} {t u : StackShape}
    (h : Typed P (fun _ _ => False) 0 b t u) (hu : 0 < u.height) (line : Nat) :
    Sealed P (b ++ #[.instr ⟨.return_, ()⟩ line]) t := by
  have hreturn : Typed P (fun _ _ => False) (0 + b.size) #[.instr ⟨.return_, ()⟩ line] u
      ⟨0, fun _ => False⟩ :=
    .single ⟨trivial, hu, Or.inl (Or.inr rfl)⟩ fun label hlabel => nomatch hlabel
  obtain ⟨l, hl, henter, hcheck⟩ := h
  obtain ⟨l', hl', henter', hcheck'⟩ := hreturn
  have hb : l.size = b.size := by rw [Block.size_eq_place, ← hl]; rfl
  obtain ⟨last, rfl⟩ : ∃ a, l' = [a] := List.length_eq_one_iff.1 (by simpa using congrArg List.length hl')
  obtain ⟨item, v⟩ := last
  obtain rfl : item = .instr ⟨.return_, ()⟩ line := by simpa using hl'
  have hbehind : ∀ s, s ≤ u → Known (0 + l.size) [(.instr ⟨.return_, ()⟩ line, v)] (0 + l.size) s :=
    fun s hs => Or.inl ⟨rfl, StackShape.le_trans hs henter'⟩
  refine ⟨l ++ [(.instr ⟨.return_, ()⟩ line, v)], by simp [hl], ?_, ?_⟩
  · rw [known_append]
    cases l with
    | nil => exact Or.inr (hbehind t henter)
    | cons a l => exact Or.inl (henter.known (List.cons_ne_nil a l))
  · rw [checked_append]
    refine ⟨hcheck.mono P.le_refl ?_, ?_, fun label hlabel => (nomatch hlabel), trivial⟩
    · rintro label s (hs | ⟨place, rfl, hk | ⟨rfl, hs⟩⟩)
      · exact hs.elim
      · exact ⟨place, rfl, known_append.2 (Or.inl hk)⟩
      · exact ⟨_, rfl, known_append.2 (Or.inr (hbehind s hs))⟩
    · rw [hb]
      exact hcheck'.1

end DeployScript
