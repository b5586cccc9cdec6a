import Mathlib
import DeployScript.Proofs.Meaning.Exits

/-!
# Loops are followed

A round of a loop is a test, the body, and a jump back. The induction is on the number of rounds that
evaluation is given, and each round takes at least one instruction. A loop over a container has three
variables around its body: the container, the index of the last round, and the element. Where they lie on
the stack is known to the code alone, since the body may declare others of the same names.

* `Finishes` — where a machine stands when a loop is left; `Follows.looping` — any loop.
* `Site.Does.while_`, `Site.Does.for_` — the two loops of the language.
-/

namespace DeployScript

open Compile

variable {ω : Type} {S : Site} {β γ : Link} {φ ψ : Roles} {place place' bound line size : Nat}
  {m m' : Machine ω} {μ μ' : Memory ω} {locals : List String} {env outer : Env} {v : Value}
  {rest code : Written} {x : Spot} {flow : Flow}

/-- **A loop that has come to its end,** with the variables of its rounds still in scope, or is left out
of the function. For what is behind it, the variables in scope are `outer`. -/
def Finishes (S : Site) (β : Link) (φ : Roles) (m : Machine ω) (size : Nat) (locals : List String)
    (env outer : Env) (place : Nat) (flow : Flow) (μ : Memory ω) (m' : Machine ω) : Prop :=
  (flow = .next outer ∧ ∃ γ ψ, Stays φ β m size γ ψ m' ∧ Rests S γ ψ locals env place m' μ) ∨
    ∃ v, flow = .return_ v ∧ Returns S β φ m v μ m'

theorem Finishes.behind (hs : Stays φ β m size γ ψ m') (hbase : S.frame.base ≤ size) {m'' : Machine ω}
    (h : Finishes S γ ψ m' size locals env outer place flow μ m'') :
    Finishes S β φ m size locals env outer place flow μ m'' := by
  obtain ⟨rfl, δ, χ, hs', hrests⟩ | ⟨v, rfl, hreturns⟩ := h
  · exact .inl ⟨rfl, δ, χ, hs.trans hs', hrests⟩
  · exact .inr ⟨v, rfl, hreturns.behind hs hbase⟩

/-- The spot of the body of a loop. -/
def Spot.round (x : Spot) (test size : Nat) : Spot :=
  { x.past (test + 4) with
    loop := some { start := x.offset, stop := x.offset + size, kept := x.locals.length } }

/-- **A loop** is left at its end, or out of the function. What it needs of the slots in scope is `Kept`. -/
theorem Follows.looping {condition body : Coding} {test : Eval ω Value} {e : Eval ω Flow} (outer : Env)
    (Kept : Roles → Prop) (hcode : Looping condition body line x code) (hc : S.Has x.offset code)
    (hkept : ∀ {φ ψ}, Kept φ → (∀ k, k < S.frame.base + x.locals.length → ψ k = φ k) → Kept ψ)
    (htest : ∀ c, condition x c → S.Has x.offset c → ∀ φ, S.InScope φ x.locals env → Kept φ →
      S.Computes φ bound x.offset (x.offset + Written.size c) (fun r => [r]) test)
    (hbody : ∀ test b, body (x.round test (Written.size code)) b → S.Has (x.offset + (test + 4)) b →
      ∀ β φ m μ, m.Running → Rests S β φ x.locals env (x.offset + (test + 4)) m μ → Kept φ →
      Follows bound m (fun flow => Exits S β φ m m.stack.size
        (x.round test (Written.size code)).loop x.locals (x.offset + (test + 4) + Written.size b)
        (flow.leave env)) (e μ))
    (rounds : Nat) (hr : m.Running) (h : Rests S β φ x.locals env x.offset m μ) (hφ : Kept φ) :
    Follows (min rounds bound) m (Finishes S β φ m (S.frame.base + x.locals.length) x.locals env outer
      (x.offset + Written.size code)) (Eval.repeating outer test e rounds μ) := by
  obtain ⟨c, b, exit, back, hcondition, hb, hexit, hback, hcode⟩ := hcode
  have hparts := hc
  rw [hcode] at hparts
  have hafter := hparts.right
  have hbehind := hafter.tail.tail.right
  have hend : x.offset + Written.size c + 3 + exit.toNat + 1 = x.offset + Written.size code := by
    rw [hcode]
    simp only [Written.size_append, Written.size_cons, Written.of, List.map_cons, List.map_nil,
      Written.size_nil, Instr.size, Layout.size]
    omega
  induction rounds generalizing β φ m μ with
  | zero => exact .unfinished (by omega) (.refl m)
  | succ rounds ih =>
    have htested := htest c hcondition hparts.left φ h.scope hφ β m μ hr h.here h.under
    refine .bind hr (htested.mono (Nat.min_le_right _ _)) fun v μ₁ m₁ hr₁ hleft => ?_
    obtain ⟨m₂, hruns, γ, hstays, hrests⟩ := hleft.branch h hafter
      (hbehind.tail.moved (by simp only [Instr.size, Layout.size]; omega))
    have hr₂ := hruns.running hr₁
    rw [h.size] at hstays
    -- Behind a round the loop starts again.
    have hagain : ∀ {γ₃ ψ₃ m₃ μ₃}, m₃.Running →
        Stays φ γ m₂ (S.frame.base + x.locals.length) γ₃ ψ₃ m₃ →
        Rests S γ₃ ψ₃ x.locals env x.offset m₃ μ₃ →
        Follows (min rounds bound) m₃ (Finishes S β φ m (S.frame.base + x.locals.length) x.locals env outer
          (x.offset + Written.size code)) (Eval.repeating outer test e rounds μ₃) := by
      intro γ₃ ψ₃ m₃ μ₃ hr₃ hstays₃ hrests₃
      exact (ih hr₃ hrests₃ (hkept hφ hstays₃.roles)).imp fun flow μ' m' hends =>
        hends.behind (hstays.trans hstays₃) (Nat.le_add_right _ _)
    cases hv : v.isTruthy with
    | false =>
      rw [hv, if_neg Bool.false_ne_true, hend] at hrests
      rw [if_neg Bool.false_ne_true]
      exact .behind hruns (.refl (.inl ⟨rfl, γ, φ, hstays, hrests⟩))
    | true =>
      rw [hv, if_pos rfl] at hrests
      rw [if_pos rfl]
      have hdone := hbody (Written.size c) b (hcode ▸ hb) hafter.tail.tail.left γ φ m₂ μ₁ hr₂ hrests hφ
      refine (Follows.after hruns (.bind hr₂ (hdone.mono (Nat.min_le_right rounds _)) ?_)).mono (by omega)
      intro flow μ₃ m₃ hr₃ hexits
      have hrests₃ : ∀ {place}, Falls S γ φ m₂ (S.frame.base + x.locals.length) place μ₃ m₃ → ∃ γ₃ ψ₃,
          Stays φ γ m₂ (S.frame.base + x.locals.length) γ₃ ψ₃ m₃ ∧
          Rests S γ₃ ψ₃ x.locals env place m₃ μ₃ := fun hfalls => hfalls.rests hrests.scope rfl
      cases flow with
      | return_ v =>
        exact .refl (.inr ⟨v, rfl, Returns.behind hstays (Nat.le_add_right _ _) hexits⟩)
      | break_ =>
        obtain ⟨l, hl, hfalls⟩ := hexits
        cases hl
        obtain ⟨γ₃, ψ₃, hstays₃, hrests₃⟩ := hrests₃ hfalls
        exact .refl (.inl ⟨rfl, γ₃, ψ₃, hstays.trans hstays₃, hrests₃⟩)
      | continue_ =>
        obtain ⟨l, hl, hfalls⟩ := hexits
        cases hl
        obtain ⟨γ₃, ψ₃, hstays₃, hrests₃⟩ := hrests₃ hfalls
        exact hagain hr₃ hstays₃ hrests₃
      | next env' =>
        obtain ⟨γ₃, ψ₃, hstays₃, hrests₃⟩ := hexits
        have hback' := hrests₃.here.back hbehind (by omega)
        have hstart : x.offset + (Written.size c + 4) + Written.size b + 3 - back.toNat = x.offset := by
          omega
        rw [hstart] at hback'
        have hstays₃ := (hrests.size ▸ hstays₃).moved (S.at_ x.offset)
        exact .step hback' (hagain (hr₃.next hback') hstays₃ (hrests₃.moved _))

/-- **A loop with a condition.** -/
theorem Site.Does.while_ {condition body : Coding} {test : Eval ω Value} {e : Eval ω Flow} {rounds : Nat}
    (hcode : Looping condition body line x code) (hc : S.Has x.offset code) (hrounds : bound ≤ rounds)
    (htest : ∀ c, condition x c → S.Has x.offset c → ∀ φ, S.InScope φ x.locals env →
      S.Computes φ bound x.offset (x.offset + Written.size c) (fun r => [r]) test)
    (hbody : ∀ test b, body (x.round test (Written.size code)) b → S.Has (x.offset + (test + 4)) b →
      ∀ β φ m μ, m.Running → Rests S β φ x.locals env (x.offset + (test + 4)) m μ →
      Follows bound m (fun flow => Exits S β φ m m.stack.size
        (x.round test (Written.size code)).loop x.locals (x.offset + (test + 4) + Written.size b)
        (flow.leave env)) (e μ)) :
    S.Does bound x x.locals env (Written.size code) (Eval.repeating env test e rounds) := by
  intro β φ m μ hr h
  refine .imp (.mono (.looping env (fun _ => True) hcode hc (fun _ _ => trivial)
    (fun c hcond hc φ hs _ => htest c hcond hc φ hs)
    (fun test b hb hc β φ m μ hr h _ => hbody test b hb hc β φ m μ hr h) rounds hr h trivial)
    (Nat.le_min.2 ⟨hrounds, Nat.le_refl bound⟩)) fun flow μ' m' hends => ?_
  obtain ⟨rfl, hnext⟩ | ⟨v, rfl, hreturns⟩ := hends
  · rw [h.size]
    exact hnext
  · exact hreturns

/-! ### Loops over containers -/

/-- The length of a container is left. -/
theorem Leaves.length (h : Leaves S φ β m place [v] μ m') (hc : S.Has place ((⟨.len, ()⟩, line) :: rest)) :
    Follows bound m' (fun n => Leaves S φ β m (place + 1) [.number (Float.ofNat n)])
      (Eval.length v μ) := by
  obtain ⟨γ, kept, vs, hl⟩ := h
  obtain ⟨u, rfl⟩ : ∃ u, vs = [u] := List.length_eq_one_iff.1 hl.similar.length_eq
  have hu := (List.forall₂_cons.1 hl.similar).1
  have hpop := Machine.pop_of (m := { m' with frames := S.at_ (place + 1) })
    (hl.stack.trans Array.push_eq_append.symm)
  have hstep := hl.here.step hc 1 rfl
  have hlength := hl.here.models.twin.length? hu
  simp only [Machine.exec, hpop] at hstep
  unfold Eval.length Eval.given
  dsimp only
  rw [← hlength]
  generalize m'.heap.length? u = n at hstep
  cases n with
  | some n =>
    have hm := hl.withStack [.number (Float.ofNat n)] (S.at_ (place + 1))
    rw [← Array.push_eq_append] at hm
    exact .ok (.one hstep) (hl.next (.of_heap rfl) hm rfl Array.push_eq_append (.cons (.number _) .nil))
  | none =>
    have hm := hl.withStack [] (S.at_ (place + 1))
    rw [Array.append_empty] at hm
    unfold wrongType at hstep ⊢
    rw [hu.typeName] at hstep
    exact .error (.refl _) hstep hm

/-- A constant is left on top of other values. -/
theorem Leaves.constant {values : List Value} {w : UInt16} {l : Literal}
    (h : Leaves S φ β m place values μ m') (hw : S.tables.constants[w.toNat]? = some l)
    (hc : S.Has place ((⟨.constant, w⟩, line) :: rest))
    (hv : ∀ γ, (Heap.literalValue S.handles l).Similar γ v) :
    Follows bound m' (fun r => Leaves S φ β m (place + 3) (values ++ [r])) (.ok v μ) :=
  h.more (x := fun μ => .ok v μ) fun γ hhere hunder => hhere.pushConstant hunder hw hc (hv γ)

/-- The spot of a loop over a container, whose variables are in scope. -/
def Spot.iterating (x : Spot) (name : String) (size : Nat) : Spot :=
  { inBlock := true, loop := x.loop, locals := name :: "__idx__" :: "__iter__" :: x.locals
    offset := x.offset + size }

/-- **The slots of a loop over a container** are variables: the container, the index and the element. -/
structure Iterates (S : Site) (φ : Roles) (slot : Nat) (cursor : Eval.Cursor) : Prop where
  container : φ (S.frame.base + slot) = .bound cursor.container
  index : φ (S.frame.base + (slot + 1)) = .bound cursor.index
  element : φ (S.frame.base + (slot + 2)) = .bound cursor.element

/-- Below a height where nothing has changed the slots are what they were. -/
theorem Iterates.stays {slot : Nat} {cursor : Eval.Cursor} (hi : Iterates S φ slot cursor)
    (h : ∀ k, k < S.frame.base + (slot + 3) → ψ k = φ k) : Iterates S ψ slot cursor where
  container := (h _ (by omega)).trans hi.container
  index := (h _ (by omega)).trans hi.index
  element := (h _ (by omega)).trans hi.element

/-- **The variables of a loop over a container** come into scope. -/
theorem Rests.iterates {container : Value} {first : UInt16} (name : String) (hr : m'.Running)
    (h : Rests S β φ locals env place' m μ) (hl : Leaves S φ β m place [container] μ' m')
    (hfirst : S.tables.constants[first.toNat]? = some (.number (-1)))
    (hc : S.Has place ((⟨.constant, first⟩, line) :: (⟨.nil, ()⟩, line) :: rest)) :
    Follows bound m' (fun cursor μ'' m'' => ∃ γ ψ, Stays φ β m m.stack.size γ ψ m'' ∧
      Rests S γ ψ (name :: "__idx__" :: "__iter__" :: locals) (cursor.scope name env) (place + 4) m'' μ'' ∧
      Iterates S ψ locals.length cursor) (Eval.iterate container μ') := by
  have hsize := h.size
  refine .bind hr (h.declares hl "__iter__") fun c μ₁ m₁ hr₁ ⟨γ₁, φ₁, hstays₁, h₁, hcontainer⟩ => ?_
  have hsize₁ : m₁.stack.size = S.frame.base + (locals.length + 1) := h₁.size
  refine .first hr₁ (h₁.here.pushConstant h₁.under (v := Value.number (-1)) hfirst hc (.number (-1)))
    fun m₂ hr₂ h₂ => ?_
  refine .bind hr₂ (h₁.declares h₂ "__idx__") fun i μ₃ m₃ hr₃ ⟨γ₃, φ₃, hstays₃, h₃, hindex⟩ => ?_
  have hsize₃ : m₃.stack.size = S.frame.base + (locals.length + 2) := h₃.size
  refine .first hr₃ (h₃.here.push h₃.under (h₃.here.step hc.tail 1 rfl) .nil) fun m₄ hr₄ h₄ => ?_
  refine .bind hr₄ (h₃.declares h₄ name) fun g μ₅ m₅ hr₅ ⟨γ₅, φ₅, hstays₅, h₅, helement⟩ => .refl ?_
  refine ⟨γ₅, φ₅, (hstays₁.trans (hstays₃.mono (by omega))).trans (hstays₅.mono (by omega)), h₅, ?_, ?_,
    helement⟩
  · rw [hstays₅.roles _ (by omega), hstays₃.roles _ (by omega), hcontainer]
  · rw [hstays₅.roles _ (by omega), ← hindex]
    rfl

/-- **The start of a round** of a loop over a container. -/
theorem Iterates.nextIndex {slot : Nat} {cursor : Eval.Cursor} (hi : Iterates S φ slot cursor)
    (hcode : NextRound S.tables slot line x code) (hc : S.Has x.offset code) :
    S.Computes φ bound x.offset (x.offset + Written.size code) (fun r => [r])
      (Eval.nextIndex (ω := ω) cursor) := by
  obtain ⟨c, index, one, rfl, hislot, hone, rfl⟩ := hcode
  have hindex := hi.index
  rw [← hislot] at hindex
  intro β m μ hr h hφ
  refine .bind hr (Leaves.getLocal (h.leaves hφ) hindex hc) fun i μ₁ m₁ hr₁ h₁ => ?_
  refine .first hr₁ (Leaves.constant h₁ hone hc.tail (v := Value.number 1) fun _ => .number 1) fun m₂ hr₂ h₂ => ?_
  have hadd : S.Has _ ((binaryInstr .add, line) :: _) := hc.tail.tail
  refine .bind hr₂ (Leaves.binary h₂ hadd) fun next μ₃ m₃ hr₃ h₃ => ?_
  refine .bind hr₃ (h₃.setLocal hindex hc.tail.tail.tail) fun _ μ₄ m₄ hr₄ h₄ => ?_
  have h₄ : Leaves S φ β m _ ([] ++ [next]) μ₄ m₄ := h₄
  obtain ⟨m₅, hdrop, h₅⟩ := h₄.drop hc.tail.tail.tail.tail
  have hthere := hc.tail.tail.tail.tail.tail
  refine .step hdrop (.bind (hr₄.next hdrop) (h₅.getLocal hi.container hthere) fun container μ₆ m₆ hr₆ h₆ => ?_)
  refine .bind hr₆ (Leaves.length h₆ hthere.tail) fun n μ₇ m₇ hr₇ h₇ => ?_
  refine .bind hr₇ (Leaves.getLocal h₇ hindex hthere.tail.tail) fun i μ₈ m₈ hr₈ h₈ => ?_
  have hgt : S.Has _ ((binaryInstr .gt, line) :: _) := hthere.tail.tail.tail
  exact Leaves.binary h₈ hgt

/-- **The element of a round** becomes the value of the variable of the loop. -/
theorem Iterates.take {slot : Nat} {cursor : Eval.Cursor} (hi : Iterates S φ slot cursor) (hr : m.Running)
    (h : Rests S β φ locals env place m μ) {c index element : UInt16} (hcslot : c.toNat = slot)
    (hislot : index.toNat = slot + 1) (heslot : element.toNat = slot + 2)
    (hc : S.Has place (Written.of [⟨.getLocal, c⟩, ⟨.getLocal, index⟩, ⟨.index, ()⟩,
      ⟨.setLocal, element⟩, ⟨.pop, ()⟩] line ++ rest)) :
    Follows bound m (fun _ μ' m' => ∃ γ, Stays φ β m m.stack.size γ φ m' ∧
      Rests S γ φ locals env (place + 11) m' μ') (Eval.take cursor μ) := by
  obtain ⟨hcontainer, hindex, helement⟩ := hi
  rw [← hcslot] at hcontainer
  rw [← hislot] at hindex
  rw [← heslot] at helement
  refine .bind hr (Leaves.getLocal (h.here.leaves h.under) hcontainer hc) fun container μ₁ m₁ hr₁ h₁ => ?_
  refine .bind hr₁ (h₁.getLocal hindex hc.tail) fun i μ₂ m₂ hr₂ h₂ => ?_
  refine .bind hr₂ (Leaves.index h₂ hc.tail.tail) fun v μ₃ m₃ hr₃ h₃ => ?_
  refine .bind hr₃ (h₃.setLocal helement hc.tail.tail.tail) fun _ μ₄ m₄ hr₄ h₄ => ?_
  have h₄ : Leaves S φ β m _ ([] ++ [v]) μ₄ m₄ := h₄
  obtain ⟨m₅, hdrop, hdropped⟩ := h₄.drop hc.tail.tail.tail.tail
  exact .step hdrop (.refl (h.after hdropped))

/-- **A round of a loop over a container:** the element is taken, and the body does what it does. -/
theorem Rests.round {name : String} {body : Coding} {e : Eval ω Flow} {cursor : Eval.Cursor}
    {size at_ test : Nat} (hr : m.Running)
    (hcode : Round body x.locals.length line ((x.iterating name at_).round test size) code)
    (hc : S.Has ((x.iterating name at_).offset + (test + 4)) code)
    (h : Rests S β φ (x.iterating name at_).locals env
      ((x.iterating name at_).offset + (test + 4)) m μ)
    (hi : Iterates S φ x.locals.length cursor)
    (hbody : ∀ (y : Spot) b, body y b → S.Has y.offset b → y.locals = (x.iterating name at_).locals →
      (∀ l, y.loop = some l → l.kept ≤ y.locals.length) → ∀ β φ m μ, m.Running →
      Rests S β φ y.locals env y.offset m μ →
      Follows bound m (fun flow => Exits S β φ m m.stack.size y.loop y.locals
        (y.offset + Written.size b) (flow.leave env)) (e μ)) :
    Follows bound m (fun flow => Exits S β φ m m.stack.size
      ((x.iterating name at_).round test size).loop (x.iterating name at_).locals
      ((x.iterating name at_).offset + (test + 4) + Written.size code) (flow.leave env))
      ((do
        Eval.take cursor
        e) μ) := by
  obtain ⟨c, index, element, b, hcslot, hislot, heslot, hb, rfl⟩ := hcode
  refine .bind hr (hi.take hr h hcslot hislot heslot hc) fun _ μ₁ m₁ hr₁ ⟨γ, hstays, hrests⟩ => ?_
  have hsize := h.size
  have hinner := hbody (((x.iterating name at_).round test size).past 11) b hb hc.right rfl
    (fun l hl => by cases hl; exact Nat.le_refl _) γ φ m₁ μ₁ hr₁ hrests
  rw [Written.size_append, ← Nat.add_assoc]
  refine hinner.imp fun flow μ' m' hexits => hexits.behind hstays ?_ ?_ ?_
  · rw [hrests.size, hsize]
  · omega
  · intro l hl
    cases hl
    rw [hsize]

/-- **A loop over a container.** -/
theorem Site.Does.for_ {name : String} {iterable body : Coding} {init : Eval ω Value}
    {e : Env → Eval ω Flow} {rounds : Nat} (hcode : Iterating S.tables name iterable body line x code)
    (hc : S.Has x.offset code) (hrounds : bound ≤ rounds)
    (hiterable : ∀ it, iterable { x with inBlock := true } it → S.Has x.offset it → ∀ φ,
      S.InScope φ x.locals env →
      S.Computes φ bound x.offset (x.offset + Written.size it) (fun r => [r]) init)
    (hbody : ∀ (y : Spot) b, body y b → S.Has y.offset b →
      y.locals = name :: "__idx__" :: "__iter__" :: x.locals →
      (∀ l, y.loop = some l → l.kept ≤ y.locals.length) → ∀ (c : Eval.Cursor) β φ m μ, m.Running →
      Rests S β φ y.locals (c.scope name env) y.offset m μ →
      Follows bound m (fun flow => Exits S β φ m m.stack.size y.loop y.locals
        (y.offset + Written.size b) (flow.leave (c.scope name env))) (e (c.scope name env) μ)) :
    S.Does bound x x.locals env (Written.size code) (do
      let container ← init
      let cursor ← Eval.iterate container
      Eval.repeating env (Eval.nextIndex cursor)
        (do
          Eval.take cursor
          e (cursor.scope name env))
        rounds) := by
  obtain ⟨_, off, ⟨it, first, loop, hit, hfirst, hloop, rfl⟩, hoff, rfl⟩ := hcode
  intro β φ m μ hr h
  have hsize := h.size
  have hfirstAt := hc.left.right
  refine .bind hr (hiterable it hit hc.left.left φ h.scope β m μ hr h.here h.under) ?_
  intro container μ₁ m₁ hr₁ h₁
  refine .bind hr₁ (h.iterates name hr₁ h₁ hfirst hfirstAt) ?_
  intro cursor μ₂ m₂ hr₂ ⟨γ₂, φ₂, hstays₂, hrests₂, hiterates⟩
  -- The loop itself stands where the container, the index and the element are variables.
  let y := x.iterating name (Written.size it + 4)
  have hrests : Rests S γ₂ φ₂ y.locals (cursor.scope name env) y.offset m₂ μ₂ := hrests₂
  have hat : S.Has y.offset loop := hfirstAt.tail.tail
  have hlooping : Looping (NextRound S.tables x.locals.length line) (Round body x.locals.length line) line
      y loop := hloop
  refine .last hr₂ (.mono (.looping env (Iterates S · x.locals.length cursor) hlooping hat Iterates.stays
    (fun c hnext hc φ _ hi => hi.nextIndex hnext hc)
    (fun test b hb hc β φ m μ hr h hi => h.round hr hb hc hi
      fun y b hb hc hlocals hkept => hbody y b hb hc hlocals hkept cursor)
    rounds hr₂ hrests hiterates) (Nat.le_min.2 ⟨hrounds, Nat.le_refl bound⟩)) ?_
  have hlow : S.frame.base + x.locals.length ≤ S.frame.base + y.locals.length :=
    Nat.add_le_add_left (Nat.le_add_right x.locals.length 3) _
  rintro flow μ₃ m₃ hr₃ (⟨rfl, γ₃, φ₃, hstays₃, hrests₃⟩ | ⟨v, rfl, hreturns⟩)
  · have hsize₃ : m₃.stack.size = S.frame.base + x.locals.length + 3 := hrests₃.size
    have hbehind : S.Has (y.offset + Written.size loop) off := hc.right.moved (by
      simp only [Written.size_append, Written.size_cons, Instr.size, Layout.size, y, Spot.iterating]
      omega)
    -- Behind the loop its three variables are taken off the stack.
    obtain ⟨n, m₄, hruns, hfalls⟩ := hrests₃.here.unwinds hoff hr₃ hbehind hsize₃ hrests₃.under
    have hend : y.offset + Written.size loop + Written.size off = x.offset + Written.size
        ((it ++ ((⟨.constant, first⟩, line) :: (⟨.nil, ()⟩, line) :: loop)) ++ off) := by
      simp only [Written.size_append, Written.size_cons, Instr.size, Layout.size, y, Spot.iterating]
      omega
    rw [hend] at hfalls
    have hfell := hfalls.behind (Stays.trans (hstays₂.mono (Nat.le_of_eq hsize.symm)) (hstays₃.mono hlow))
      (Nat.le_refl _)
    rw [← hsize] at hfell
    exact .behind hruns (.refl (hfell.rests h.scope h.size))
  · exact .refl (Returns.behind hstays₂ (by omega) hreturns)

end DeployScript
