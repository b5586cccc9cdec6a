import Mathlib
import DeployScript.Proofs.Meaning.Statements

/-!
# Calls are followed

A call of a function of the language or of the host replaces the function and its arguments by the
result. A call of a script's function starts a frame on them: the arguments become the variables of the
parameters, and the slot of the function is one that only the code knows. When the function returns,
everything from there on leaves the stack, so that the caller finds it as it left it.

* `Answers` — functions that are not written in the language; `Models.callIntrinsic`, `callBuiltin`.
* `Site.ofCall` — the call of a closure; `Site.declaresAll` — its parameters; `Site.enters` — its start.
* `Returns.step` — a return; `Returns.leaves` — the return to the caller.
* `Site.calls` — all calls, by induction on the number of calls that evaluation is given.
-/

namespace DeployScript

open Compile

variable {ω : Type} {S : Site} {β γ : Link} {φ ψ : Roles} {place place' bound line : Nat}
  {m m' : Machine ω} {μ μ' : Memory ω} {locals : List String} {env : Env} {v callee : Value}
  {args : List Value} {rest code : Written} {n : UInt8} {kept : Array Value} {u : Value}
  {us : List Value}

/-! ### The callee and its arguments -/

namespace Machine

variable {m : Machine ω}

theorem size_of_call (hs : m.stack = kept ++ (u :: us).toArray) :
    m.stack.size = kept.size + us.length + 1 := by
  rw [hs]
  simp [Nat.add_assoc]

theorem peek_callee (hs : m.stack = kept ++ (u :: us).toArray) : m.peek us.length = u := by
  have hsize := size_of_call hs
  have hplace : m.stack.size - 1 - us.length = kept.size := by omega
  unfold peek
  rw [if_pos (by omega), hplace, hs]
  simp

theorem arguments_of (hs : m.stack = kept ++ (u :: us).toArray) : m.arguments us.length = us := by
  have hsize := size_of_call hs
  have hplace : m.stack.size - us.length = kept.size + 1 := by omega
  unfold arguments
  rw [hplace, hsize, hs]
  simp
  omega

theorem leave_of (hs : m.stack = kept ++ (u :: us).toArray) (v : Value) :
    m.leave us.length v = { m with stack := kept.push v } := by
  have hsize := size_of_call hs
  have hplace : m.stack.size - us.length - 1 = kept.size := by omega
  unfold leave
  rw [hplace, hs]
  simp

end Machine

/-! ### Functions of the language and of the host -/

/-- **A function that is not written in the language answers.** On both sides a result takes the place of
the callee and its arguments, after an operation on data; or it fails for one cause. -/
inductive Answers (γ : Link) (m : Machine ω) (μ : Memory ω) (count : Nat) :
    Outcome ω → Result ω Value → Prop
  | ok {δ : Link} {next next' : Heap} {w v : Value} {world world' : ω}
    (hx : Heap.Extends γ m.heap μ.heap δ next next') (hw : w.Similar δ v) (he : world = world') :
    Answers γ m μ count (.next (Machine.leave { m with heap := next, world } count w))
      (.ok v { μ with heap := next', world := world' })
  | error (cause : Cause) {world world' : ω} (he : world = world') :
    Answers γ m μ count (.raise cause { m with world }) (.error cause { μ with world := world' })

namespace Machine.Models

/-- What a function of the language does to its arguments, once there are as many as there should be. -/
theorem performs {f : Intrinsic} (hm : m.Models γ φ μ) (hargs : List.Forall₂ (Value.Similar γ) us args) :
    Answers γ m μ us.length
      (match f.effect? m.heap us with
        | .error failure => .raise (.failure failure) m
        | .ok effect => .next (Machine.leave { m with heap := (m.heap.perform effect).2 } us.length
          (m.heap.perform effect).1))
      ((do
        let effect ← Eval.given fun heap => (f.effect? heap args).mapError Cause.failure
        Eval.change (·.perform effect) : Eval ω Value) μ) := by
  have heffect := hm.twin.effect? f hargs
  change Answers γ m μ us.length _ (Eval.andThen _ _ μ)
  unfold Eval.andThen Eval.given
  dsimp only
  generalize f.effect? m.heap us = e at heffect
  generalize f.effect? μ.heap args = e' at heffect
  cases heffect with
  | error failure => exact .error _ hm.world
  | @ok effect effect' hsimilar =>
    obtain ⟨δ, hx, hv⟩ := hm.twin.perform hsimilar
    exact .ok hx hv hm.world

/-- **A function of the language.** -/
theorem callIntrinsic (hm : m.Models γ φ μ) (hs : m.stack = kept ++ (u :: us).toArray)
    (hargs : List.Forall₂ (Value.Similar γ) us args) (f : Intrinsic) :
    Answers γ m μ us.length (m.callIntrinsic f us.length) (Eval.intrinsic f args μ) := by
  have hperforms := hm.performs (f := f) hargs
  unfold Machine.callIntrinsic Eval.intrinsic
  rw [Machine.arguments_of hs]
  cases harity : f.arity? with
  | none => exact hperforms
  | some arity =>
    by_cases hcount : us.length = arity
    · simp only [← hargs.length_eq, hcount, if_true, ne_eq, not_true_eq_false, if_false]
      exact hcount ▸ hperforms
    · simp only [← hargs.length_eq, ne_eq, hcount, not_false_eq_true, if_true]
      exact .error _ hm.world

/-- **A function of the host.** -/
theorem callBuiltin {name : String} (hm : m.Models γ φ μ) (hs : m.stack = kept ++ (u :: us).toArray)
    (hargs : List.Forall₂ (Value.Similar γ) us args) (hname : γ.builtin name) :
    Answers γ m μ us.length (m.callBuiltin name us.length) (Eval.builtin m.callerName name args μ) := by
  obtain ⟨b, hb⟩ := Option.isSome_iff_exists.1 (hm.builtins name hname)
  have hb' : μ.library.get? name = some b := by rw [← hm.library, hb]
  unfold Machine.callBuiltin Eval.builtin
  simp only [hb, hb', Machine.arguments_of hs, hm.twin.unpack b.name b.params hargs]
  cases μ.heap.unpack b.name b.params args with
  | error cause => exact .error cause hm.world
  | ok given =>
    have hrun : b.run { caller := m.callerName, assets := m.assets } given m.world
        = b.run { caller := m.callerName, assets := μ.assets } given μ.world := by rw [hm.assets, hm.world]
    dsimp only
    rw [hrun]
    obtain ⟨cause | result, world⟩ := b.run { caller := m.callerName, assets := μ.assets } given μ.world
    · exact .error cause rfl
    · obtain ⟨δ, hx, hv⟩ := hm.twin.ofHost result
      exact .ok hx hv rfl

end Machine.Models

/-- A machine that calls such a function follows. -/
theorem Left.answered {outcome : Outcome ω} {r : Result ω Value}
    (h : Left S φ β m place (callee :: args) μ m' γ kept (u :: us)) (hstep : m'.step = outcome)
    (ha : Answers γ { m' with frames := S.at_ place' } μ us.length outcome r) :
    Follows bound m' (fun r => Leaves S φ β m place' [r]) r := by
  cases ha with
  | error cause he =>
    subst he
    exact .error (.refl _) hstep ((h.here.models.withFrames (S.at_ place')).withWorld _)
  | @ok δ next next' w v world world' hx hw he =>
    subst he
    have hm := ((h.withStack [w] (S.at_ place')).extend hx).withWorld world
    rw [← Array.push_eq_append] at hm
    rw [Machine.leave_of (m := { m' with frames := S.at_ place', heap := next, world }) h.stack] at hstep
    exact .ok (.one hstep) (h.next (.of_extends hx rfl) hm rfl Array.push_eq_append (.cons hw .nil))

/-! ### Functions of the script -/

/-- **The parameters of a function** become variables, whose values lie on the stack. -/
theorem Site.declaresAll {params : List String} (hs : S.InScope φ locals env) (hm : m.Models β φ μ)
    (hφ : φ.Under (S.frame.base + locals.length)) (hlength : args.length = params.length)
    (hargs : ∀ i v, args[i]? = some v → ∃ u, m.stack[S.frame.base + locals.length + i]? = some u ∧
      u.Similar β v) :
    ∃ ψ env' μ', Eval.declareAll params args env μ = .ok env' μ' ∧ m.Models β ψ μ' ∧
      S.InScope ψ (params.reverse ++ locals) env' ∧
      ψ.Under (S.frame.base + (params.reverse ++ locals).length) ∧
      ∀ k, k < S.frame.base + locals.length → ψ k = φ k := by
  induction params generalizing φ μ locals env args with
  | nil =>
    obtain rfl := List.length_eq_zero_iff.1 hlength
    exact ⟨φ, env, μ, rfl, hm, hs, hφ, fun _ _ => rfl⟩
  | cons p params ih =>
    obtain ⟨v, args, rfl⟩ : ∃ v rest, args = v :: rest := List.exists_cons_of_length_eq_add_one hlength
    obtain ⟨u, hu, hv⟩ := hargs 0 v rfl
    have hdeclared := hm.declare (hφ _ (Nat.le_refl _)) rfl (by
      rw [Nat.add_zero] at hu
      rw [hu]
      exact hv)
    obtain ⟨ψ, env', μ', heval, hm', hs', hψ, hsame⟩ := ih (hs.declare p _) hdeclared (hφ.set _)
      (Nat.succ.inj hlength) fun i w hi => by
        obtain ⟨u, hu, hw⟩ := hargs (i + 1) w hi
        exact ⟨u, by rw [← hu, List.length_cons]; congr 1; omega, hw⟩
    have hreverse : (p :: params).reverse ++ locals = params.reverse ++ p :: locals := by simp
    refine ⟨ψ, env', μ', heval, hm', hreverse ▸ hs', hreverse ▸ hψ, fun k hk => ?_⟩
    rw [hsame k (by rw [List.length_cons]; omega), φ.set_of_ne _ (by omega)]

/-- **A return:** what lies from the start of the call on leaves the stack. -/
theorem Returns.step (h : Returns S β φ m v μ m') (hr : m'.Running) :
    ∃ γ ψ w m'', m'.step = (if S.callers = [] then .done w m'' else .next (m''.push w)) ∧
      w.Similar γ v ∧ Stays φ β m S.frame.base γ ψ m'' ∧ m''.Models γ (ψ.below S.frame.base) μ ∧
      m''.frames = S.callers ∧ m''.stack.size = S.frame.base := by
  obtain ⟨γ, ψ, place, line, rest, kept, w, hstays, hhere, hc, hstack, hbase, hunder, hv⟩ := h
  let popped : Machine ω := { m' with stack := kept, frames := S.callers }
  let left : Machine ω := { popped.closeFrom S.frame.base with stack := kept.shrink S.frame.base }
  have hsize : (kept.shrink S.frame.base).size = S.frame.base := by
    rw [Array.size_shrink, Nat.min_eq_left hbase]
  have hlow : ∀ {k}, k < S.frame.base → (kept.shrink S.frame.base)[k]? = m'.stack[k]? := by
    intro k hk
    rw [hstack, Array.getElem?_push_lt (by omega), ← Array.getElem?_eq_getElem, Array.shrink_eq_take,
      Array.take_eq_extract, Array.getElem?_extract, if_pos (by omega), Nat.zero_add]
  have hstep : m'.step = (if S.callers = [] then .done w left else .next (left.push w)) := by
    have hpop := Machine.pop_of (m := { m' with frames := S.at_ (place + 1) }) hstack
    rw [hhere.step hc 1 rfl]
    simp only [Machine.exec, Machine.return_, hpop]
    cases hcallers : S.callers with
    | nil =>
      simp only [Site.at_, left, popped, hcallers, if_true]
      rfl
    | cons f callers =>
      simp only [Site.at_, left, popped, hcallers, reduceCtorEq, if_false]
      rfl
  -- The variables of the call leave the stack, and those of the caller are what they were.
  have hpopped : popped.Models γ ψ μ := (hhere.models.withFrames S.callers).withStack fun k g hg => by
    have hlt := hunder.lt hg
    change kept[k]? = m'.stack[k]?
    rw [hstack, Array.getElem?_push_lt hlt, Array.getElem?_eq_getElem hlt]
  obtain ⟨ε, hsound⟩ := hr.sound
  have hsound' : popped.Sound ε := { hsound with
    stack := fun v hv => hsound.stack v (by rw [hstack]; exact Array.mem_push_of_mem _ hv)
    builtins := hsound.builtins }
  have hclosing : Later γ popped γ (popped.closeFrom S.frame.base) := .of_recells (.setCells _ _)
  refine ⟨γ, ψ, w, left, hstep, hv, ⟨hstays.later.trans ⟨hclosing.le, hclosing.closure, hclosing.function⟩,
    hstays.roles, fun k hk hφ => (hlow hk).trans (hstays.same k hk hφ)⟩,
    (hpopped.closeFrom hsound' S.frame.base).withStack fun k g hg => ?_, rfl, hsize⟩
  have hlt := (Roles.under_below ψ S.frame.base).lt hg
  change (kept.shrink S.frame.base)[k]? = kept[k]?
  rw [hlow hlt, hstack, Array.getElem?_push_lt (by omega), Array.getElem?_eq_getElem]

/-- **The return** from a call of a closure: the caller finds the result in the place of the callee and
its arguments. -/
theorem Returns.leaves {S' : Site} {m₁ m₂ : Machine ω} (hreturns : Returns S' γ ψ m₁ v μ' m₂)
    (h : Left S φ β m place (callee :: args) μ m' γ kept (u :: us))
    (hframe : S'.frame.base = kept.size) (hcallers : S'.callers = S.at_ place')
    (hheap : m₁.heap = m'.heap) (hvalues : m₁.stack = m'.stack) (hψ : ∀ k, k < kept.size → ψ k = φ k)
    (hr : m₂.Running) :
    ∃ m₃, m₂.step = .next m₃ ∧ Leaves S φ β m place' [v] μ' m₃ := by
  obtain ⟨δ, χ, w, m₃, hstep, hv, hstays, hmodels, hframes, hsize⟩ := hreturns.step hr
  rw [hframe] at hstays hmodels hsize
  rw [hcallers, if_neg (by exact List.cons_ne_nil _ _)] at hstep
  have hlater : Later γ m' δ (m₃.push w) := by
    have hentered : Later γ m' γ m₁ := .of_heap hheap
    exact hentered.trans (hstays.later.trans (.of_heap rfl))
  have hbelow : χ.below kept.size = φ := by
    funext k
    by_cases hk : k < kept.size
    · rw [χ.below_of_lt hk, hstays.roles k hk, hψ k hk]
    · rw [χ.below_of_le (Nat.le_of_not_lt hk), h.under k (by rw [← h.keeps.size]; omega)]
  rw [hbelow] at hmodels
  refine ⟨_, hstep, δ, m₃.stack, [w], h.under, h.later.trans hlater,
    h.here.next hlater (hmodels.withStack fun k g hg => ?_) (hframes.trans hcallers),
    ⟨hsize.trans h.keeps.size, fun k hk => ?_⟩, Array.push_eq_append, .cons hv .nil⟩
  · have hlt : k < m₃.stack.size := hsize ▸ h.bound_lt hg
    rw [Array.getElem?_push_lt hlt, Array.getElem?_eq_getElem hlt]
  · by_cases hlt : k < kept.size
    · have hsame := hstays.same k hlt fun g => by
        rw [hψ k hlt]
        exact hk g
      rw [hsame, hvalues, h.stack, Array.getElem?_append_left hlt, h.keeps.same k hk]
    · rw [Array.getElem?_eq_none (by omega), Array.getElem?_eq_none (by rw [← h.keeps.size]; omega)]

/-- What follows a result. -/
theorem Eval.ok_bind {α ι : Type} {x : Eval ω α} {a : α} (h : x μ = .ok a μ') (f : α → Eval ω ι) :
    (x >>= f) μ = f a μ' := by
  change Eval.andThen x f μ = _
  unfold Eval.andThen
  rw [h]

/-- The call of a closure: the callee and its arguments are the lowest values of its frame. -/
def Site.ofCall (S : Site) (place base : Nat) (g : Handle) (c : Closure) (chunk : Chunk Value)
    (T : Tables) (handles : Array Handle) (f : Lambda) (name : String) : Site :=
  { frame := { closure := g, chunk, ip := 0, base }, callers := S.at_ place, tables := T, handles
    cells := c.cells, outer := f.env, name }

section Closure

variable {g g' : Handle} {c : Closure} {f : Lambda} {p : Prototype Value} {T : Tables}
  {handles : Array Handle}

/-- The site of a call of a closure. -/
theorem Site.fits_ofCall (hm : m.Models γ φ μ) (hlink : γ .closure g g') (hc : m.heap.closure? g = some c)
    (hinstalled : m.heap.Installed T.functions handles) (hfill : T.Fill handles p.chunk)
    (hcloses : Closes γ c.cells T.captures T.enclosing f.env) (base : Nat) :
    (S.ofCall place base g c p.chunk T handles f ((μ.heap.functionName? g').getD scriptName)).Fits γ m where
  closure := ⟨c.function, hc⟩
  closes := hcloses
  fill := hfill
  installed := hinstalled
  name := by
    obtain ⟨name, hn, hn'⟩ := hm.twin.named g g' (.inr hlink)
    change (m.heap.functionName? g).getD scriptName = (μ.heap.functionName? g').getD scriptName
    rw [hn, hn']
  named := by
    obtain ⟨name, hn, -⟩ := hm.twin.named g g' (.inr hlink)
    exact Option.isSome_iff_exists.2 ⟨name, hn⟩

/-- **A call has started:** the parameters are variables, and the body is about to be executed. -/
theorem Site.enters {S' : Site} (hm : m'.Models γ φ μ) (hunder : φ.Under kept.size)
    (hs : m'.stack = kept ++ (u :: us).toArray) (hargs : List.Forall₂ (Value.Similar γ) us args)
    (hbase : S'.frame.base = kept.size) (houter : S'.outer = f.env) (hfits : S'.Fits γ m')
    (hlength : args.length = f.params.length) :
    ∃ ψ env μ', Eval.declareAll f.params args f.env μ = .ok env μ' ∧
      Rests S' γ ψ (f.params.reverse ++ [""]) env 0 { m' with frames := S'.at_ 0 } μ' ∧
      ∀ k, k < kept.size → ψ k = φ k := by
  have hm : ({ m' with frames := S'.at_ 0 } : Machine ω).Models γ (φ.set S'.frame.base .hidden) μ :=
    (hm.withFrames _).hide (hbase ▸ hunder _ (Nat.le_refl _))
  have hscope : S'.InScope (φ.set S'.frame.base .hidden) [""] f.env :=
    houter ▸ Site.inScope_entry (by rw [φ.set_self]; exact nofun)
  obtain ⟨ψ, env, μ', heval, hm', hscope', hψ, hsame⟩ := Site.declaresAll hscope hm
    ((hbase ▸ hunder).set .hidden) hlength fun i v hi => by
      obtain ⟨hlt, rfl⟩ := List.getElem?_eq_some_iff.1 hi
      obtain ⟨hcount, hget⟩ := List.forall₂_iff_get.1 hargs
      have hplace : S'.frame.base + [""].length + i = kept.size + (i + 1) := by
        rw [hbase, List.length_singleton, Nat.add_assoc, Nat.add_comm 1 i]
      have hlt' : i < us.length := hcount ▸ hlt
      refine ⟨us[i], ?_, hget i hlt' hlt⟩
      change m'.stack[_]? = _
      rw [hplace, hs, Array.getElem?_append_right (Nat.le_add_right _ _), Nat.add_sub_cancel_left]
      simp [hlt']
  have hsize : m'.stack.size = S'.frame.base + (f.params.reverse ++ [""]).length := by
    rw [Machine.size_of_call hs, hargs.length_eq, hlength, hbase, List.length_append,
      List.length_reverse, List.length_singleton, Nat.add_assoc]
  refine ⟨ψ, env, μ', heval, ⟨⟨hm', hfits.later (.of_heap rfl), rfl⟩, hscope', hsize, hsize ▸ hψ⟩,
    fun k hk => ?_⟩
  rw [hsame k (by rw [hbase]; omega), φ.set_of_ne _ (by omega)]

/-- **A function of the script.** Its body is followed as it was where the function was made. -/
theorem Left.closure (h : Left S φ β m place (callee :: args) μ m' γ kept (.closure g :: us))
    (hr : m'.Running) (hlink : γ .closure g g')
    (hstep : m'.step = ({ m' with frames := S.at_ place' } : Machine ω).enter g us.length)
    (hcalls : ∀ S' : Site, S'.Calls bound (Eval.apply (ω := ω) bound (S'.callers.length + 1) S'.name)) :
    Follows (bound + 1) m' (fun r => Leaves S φ β m place' [r])
      (Eval.apply (bound + 1) (S.callers.length + 1) S.name (.closure g') args μ) := by
  obtain ⟨c, f, hc, hf, p, T, handles, inner, line, hp, hparams, hinstalled, hfill, hcloses, hplain, hnames,
    hregular, hcoded, hreads⟩ := h.here.models.closures g g' hlink
  have hcount := (List.forall₂_cons.1 h.similar).2.length_eq
  have hmodels := h.here.models.withFrames (S.at_ place')
  have hbase : m'.stack.size - us.length - 1 = kept.size := by
    rw [Machine.size_of_call h.stack]
    omega
  simp only [Machine.enter, hc, Option.bind_some, hp, hparams, hbase] at hstep
  rw [hcount] at hstep
  unfold Eval.apply
  simp only [hf]
  by_cases hlength : args.length = f.params.length
  · rw [if_neg (not_not.2 hlength)] at hstep ⊢
    by_cases hdepth : maxFrames ≤ S.callers.length + 1
    · rw [if_pos hdepth]
      rw [if_pos (by exact hdepth)] at hstep
      exact .error (.refl _) hstep hmodels
    · rw [if_neg hdepth]
      rw [if_neg (by exact hdepth)] at hstep
      let S' := S.ofCall place' kept.size g c p.chunk T handles f ((μ.heap.functionName? g').getD scriptName)
      have hr₁ := hr.next hstep
      have hfits : S'.Fits γ m' :=
        Site.fits_ofCall h.here.models hlink hc hinstalled hfill hcloses kept.size
      obtain ⟨ψ, env, μ₁, heval, hrests, hsame⟩ := Site.enters h.here.models (h.keeps.size ▸ h.under)
        h.stack (List.forall₂_cons.1 h.similar).2 rfl rfl hfits hlength
      have hat : S'.Has 0 (inner ++ Written.of [⟨.nil, ()⟩, ⟨.return_, ()⟩] line) := hreads.has
      have hbody := Stmt.doesAll (x := Spot.entry f.params) (hcalls S') (Nat.le_refl bound)
        f.body hnames hregular hcoded hat.left nofun γ ψ _ μ₁ hr₁ hrests
      change Follows _ _ _ ((Eval.declareAll f.params args f.env >>= _) μ)
      rw [Eval.ok_bind heval]
      refine (Follows.after (.one hstep) (.bind hr₁ hbody ?_)).mono (by omega)
      intro flow μ₂ m₂ hr₂ hexits
      cases flow with
      | return_ v =>
        have hreturns : Returns S' γ ψ _ v μ₂ m₂ := hexits
        obtain ⟨m₃, hback, hleaves⟩ := hreturns.leaves h rfl rfl rfl rfl hsame hr₂
        exact .step hback (.refl hleaves)
      | break_ | continue_ =>
        obtain ⟨l, hl, -⟩ := hexits
        cases hl
      | next env' =>
        -- Behind the body there is nil, which is returned.
        obtain ⟨δ, χ, hstays, hrests₂⟩ := hexits
        have hnil := hat.right
        have hsize := hrests₂.size
        have hlow : kept.size ≤ m'.stack.size := by
          rw [Machine.size_of_call h.stack]
          omega
        refine .first hr₂ (hrests₂.here.push hrests₂.under (hrests₂.here.step hnil 1 rfl) .nil)
          fun m₃ hr₃ hl => ?_
        have hreturns := Returns.behind hstays (by exact hlow) (hl.returns (by omega) hnil.tail)
        obtain ⟨m₄, hback, hleaves⟩ := hreturns.leaves h rfl rfl rfl rfl hsame hr₃
        exact .step hback (.refl hleaves)
  · rw [if_pos hlength] at hstep ⊢
    exact .error (.refl _) hstep hmodels

end Closure

/-! ### All calls -/

/-- **Calls are followed,** as many behind one another as evaluation is given. -/
theorem Site.calls (fuel : Nat) (S : Site) :
    S.Calls fuel (Eval.apply (ω := ω) fuel (S.callers.length + 1) S.name) := by
  induction fuel generalizing S with
  | zero =>
    intro φ β m m' μ place line n rest callee args _ _ _ _
    exact .unfinished (Nat.le_refl 0) (.refl m')
  | succ fuel ih =>
    intro φ β m m' μ place line n rest callee args hr h hc hn
    obtain ⟨γ, kept, vs, hl⟩ := h
    obtain ⟨u, us, rfl⟩ : ∃ u us, vs = u :: us := List.exists_cons_of_ne_nil fun he => by
      rw [he] at hl
      cases hl.similar
    obtain ⟨hu, hus⟩ := List.forall₂_cons.1 hl.similar
    have hcount : n.toNat = us.length := hn.trans hus.length_eq.symm
    have hstep := hl.here.step hc 2 rfl
    have hpeek : ({ m' with frames := S.at_ (place + 2) } : Machine ω).peek us.length = u :=
      Machine.peek_callee hl.stack
    simp only [Machine.exec, hcount, hpeek] at hstep
    cases hu with
    | closure hlink => exact hl.closure hr hlink hstep ih
    | intrinsic f =>
      exact hl.answered hstep ((hl.here.models.withFrames (S.at_ (place + 2))).callIntrinsic hl.stack hus f)
    | @builtin name hname =>
      have hanswers := (hl.here.models.withFrames (S.at_ (place + 2))).callBuiltin hl.stack hus hname
      have hcaller : ({ m' with frames := S.at_ (place + 2) } : Machine ω).callerName = S.name :=
        hl.here.fits.name
      rw [hcaller] at hanswers
      exact hl.answered hstep hanswers
    | function hh => exact absurd hh (hl.here.models.functions _ _)
    | _ => exact .error (.refl _) hstep (hl.here.models.withFrames _)

end DeployScript
