import DeployScript.Proofs.Meaning.Scripts

/-!
# Calls from outside

A host calls a function that a global is bound to, with arguments that are stored first. The call is
followed as calls of a script are, with nothing around it. So a machine between two runs, which stands
for a memory, ends the call as evaluation does.

* `Outcome.outside` — what comes of a call from outside when it has started, or is complete at once.
* `Site.outside` — the call of a closure with no calls around it.
* `Machine.calls_mean` — calls from outside mean what evaluation says.
-/

namespace DeployScript

variable {ω : Type} {β γ : Link} {m m' : Machine ω} {μ μ' : Memory ω} {args : List Value} {u callee : Value}
  {us : List Value}

/-- What a call from outside does, after its arguments have been stored. -/
def Eval.callGlobal (fuel : Nat) (name : String) (args : List HostValue) : Eval ω Value := do
  let values ← Eval.change (Heap.ofHostItems args #[])
  let callee ← Eval.read [] name
  Eval.apply fuel 0 scriptName callee values.toList

/-- What comes of a call from outside: it runs on, or is complete at once. -/
def Outcome.outside (fuel : Nat) : Outcome ω → Finish × Machine ω
  | .next m => if 0 < m.frames.length then m.resume fuel else (.value m.pop.1, m.pop.2)
  | .done value m => (.value value, m)
  | .raise cause m => (.error (.ofCause cause), m.reset)
  | .stuck m => (.stuck, m)

namespace Machine

/-- How a call from outside goes on from where its arguments are stored. -/
theorem Idle.callGlobal_eq (hi : m.Idle) {name : String} (hg : m.global? name = some callee)
    (args : List HostValue) (fuel : Nat) :
    ({ m with heap := (Session.storeArgs args m.heap).2 } : Machine ω).callGlobal name
      (Session.storeArgs args m.heap).1.toList fuel = (m.calling callee args).outside fuel := by
  have hg' : Machine.global? { m with heap := (Session.storeArgs args m.heap).2 } name = some callee := hg
  have hdepth : ({ m with heap := (Session.storeArgs args m.heap).2 } : Machine ω).frames.length = 0 := by
    rw [show _ = m.frames from rfl, hi.frames]
    rfl
  unfold Machine.callGlobal
  rw [hg', hdepth]
  rfl

/-- The arguments lie on the stack, above the function. -/
theorem Idle.calling_eq (hi : m.Idle) (callee : Value) (args : List HostValue) :
    m.calling callee args = Machine.call { m with
      heap := (Heap.ofHostItems args #[] m.heap).2
      stack := (callee :: (Heap.ofHostItems args #[] m.heap).1.toList).toArray } callee
        (Heap.ofHostItems args #[] m.heap).1.toList.length := by
  have hstack : (m.stack.push callee) ++ (Heap.ofHostItems args #[] m.heap).1.toList.toArray
      = (callee :: (Heap.ofHostItems args #[] m.heap).1.toList).toArray := by
    rw [hi.stack]
    apply Array.ext'
    simp
  unfold Machine.calling Session.storeArgs
  dsimp only
  rw [Machine.stack_pushAll, ← hstack]
  rfl

end Machine

/-- **A function that is not the script's** is complete at once. -/
theorem Answers.ends {outcome : Outcome ω} {r : Result ω Value} {l : Library ω}
    (ha : Answers γ m μ us.length outcome r) (hm : m.Models γ (fun _ => .value) μ)
    (hs : m.stack = (u :: us).toArray) (hframes : m.frames = []) (hcalled : Machine.Called l outcome)
    (fuel : Nat) : Ends (outcome.outside fuel) r := by
  cases ha with
  | @error cause world world' he =>
    subst he
    cases hcalled with
    | raise _ hs => exact (hm.withWorld world).ends_error hs (.ofCause cause)
  | @ok δ next next' w v world world' hx hw he =>
    subst he
    have hs' : ({ m with heap := next, world } : Machine ω).stack = #[] ++ (u :: us).toArray := by
      rw [Array.empty_append]
      exact hs
    rw [Machine.leave_of hs'] at hcalled ⊢
    have hidle : ({ m with heap := next, world, stack := #[] } : Machine ω).Idle := by
      cases hcalled with
      | running hr _ => exact absurd hframes hr.busy
      | complete _ hi _ => exact hi
    have hout : (Outcome.next { m with heap := next, world, stack := #[].push w } : Outcome ω).outside fuel
        = (.value w, { m with heap := next, world, stack := #[] }) := by
      unfold Outcome.outside
      rw [hframes]
      rfl
    rw [hout]
    exact .value hw hidle (((hm.extend hx).withWorld world).withStack nofun)

/-- The start of a call with no calls around it. -/
theorem Machine.enter_outside {g : Handle} {c : Closure} {p : Prototype Value}
    (hc : m.heap.closure? g = some c) (hp : m.heap.function? c.function = some p)
    (hs : m.stack = (u :: us).toArray) (hframes : m.frames = []) :
    m.enter g us.length = (if us.length ≠ p.params.length then
        .raise (.wrongArity p.params.length us.length) m
      else .next { m with frames := [{ closure := g, chunk := p.chunk, ip := 0, base := 0 }] }) := by
  have hbase : m.stack.size - us.length - 1 = 0 := by simp [hs]
  have hdepth : ¬maxFrames ≤ ([] : List Frame).length := Nat.not_le_of_lt (by decide)
  unfold Machine.enter
  simp only [hc, Option.bind_some, hp, hbase, hframes, if_neg hdepth]

/-- The call of a closure with no calls around it. -/
def Site.outside (g : Handle) (c : Closure) (chunk : Chunk Value) (T : Tables) (handles : Array Handle)
    (f : Lambda) (name : String) : Site :=
  { frame := { closure := g, chunk, ip := 0, base := 0 }, callers := [], tables := T, handles
    cells := c.cells, outer := f.env, name }

/-- **A function of the script** that is called from outside is followed to its end. -/
theorem Machine.Models.ends_closure {g g' : Handle} {l : Library ω} (hm : m.Models γ (fun _ => .value) μ)
    (hs : m.stack = (u :: us).toArray) (hframes : m.frames = [])
    (hargs : List.Forall₂ (Value.Similar γ) us args) (hlink : γ .closure g g')
    (hcalled : Machine.Called l (m.enter g us.length)) {fuel k : Nat} (hk : k ≤ fuel)
    (hend : ((m.enter g us.length).outside k).1 ≠ .unfinished) :
    Ends ((m.enter g us.length).outside k) (Eval.apply (fuel + 1) 0 scriptName (.closure g') args μ) := by
  obtain ⟨c, f, hc, hf, p, T, handles, inner, line, hp, hparams, hinstalled, hfill, hcloses, hplain, hnames,
    hregular, hcoded, hreads⟩ := hm.closures g g' hlink
  have hcount := hargs.length_eq
  rw [Machine.enter_outside hc hp hs hframes, hparams] at hcalled hend ⊢
  unfold Eval.apply
  simp only [hf]
  by_cases hlength : args.length = f.params.length
  · have hnot : ¬us.length ≠ f.params.length := not_not.2 (hcount.trans hlength)
    have hdepth : ¬maxFrames ≤ 0 := by decide
    rw [if_neg hnot] at hcalled hend ⊢
    rw [if_neg (not_not.2 hlength), if_neg hdepth]
    let S := Site.outside g c p.chunk T handles f ((μ.heap.functionName? g').getD scriptName)
    have hfits : S.Fits γ m := by
      have h : (S.ofCall 0 0 g c p.chunk T handles f ((μ.heap.functionName? g').getD scriptName)).Fits γ m :=
        Site.fits_ofCall hm hlink hc hinstalled hfill hcloses 0
      exact ⟨h.closure, h.closes, h.fill, h.installed, h.name, h.named⟩
    have hr : ({ m with frames := S.at_ 0 } : Machine ω).Running := by
      cases hcalled with
      | running hr _ => exact hr
      | complete hnone _ _ => cases hnone
    have hs' : m.stack = #[] ++ (u :: us).toArray := by rw [Array.empty_append]; exact hs
    have hbase : S.frame.base = (#[] : Array Value).size := rfl
    obtain ⟨ψ, env, μ₁, heval, hrests, -⟩ := Site.enters hm (fun _ _ => rfl) hs' hargs hbase rfl hfits hlength
    have hat : S.Has 0 (inner ++ Written.of [⟨.nil, ()⟩, ⟨.return_, ()⟩] line) := hreads.has
    have hbody := Stmt.doesAll (x := Spot.entry f.params) (Site.calls fuel S) (Nat.le_refl fuel)
      f.body hnames hregular hcoded hat.left (by rintro _ ⟨⟩) γ ψ _ μ₁ hr hrests
    change Ends _ ((Eval.declareAll f.params args f.env >>= _) μ)
    rw [Eval.ok_bind heval]
    refine (Follows.ends hr (.bind hr hbody ?_)).2 k hk hend
    intro flow μ₂ m₂ hr₂ hexits
    cases flow with
    | return_ v => exact .refl (Returns.completes hexits hr₂ rfl rfl)
    | break_ | continue_ =>
      obtain ⟨l, hl, -⟩ := hexits
      cases hl
    | next env' =>
      -- Behind the body there is nil, which is returned.
      obtain ⟨δ, χ, hstays, hrests₂⟩ := hexits
      have hnil := hat.right
      refine .first hr₂ (hrests₂.here.push hrests₂.under (hrests₂.here.step hnil 1 rfl) .nil)
        fun m₃ hr₃ hl => .refl ?_
      exact (hl.returns (Nat.zero_le _) hnil.tail).completes hr₃ rfl rfl
  · rw [if_pos hlength]
    have hne : us.length ≠ f.params.length := by rwa [hcount]
    rw [if_pos hne, hcount] at hcalled ⊢
    cases hcalled with
    | raise _ hs => exact hm.ends_error hs (.ofCause _)

/-- **A call from outside** of any value, with its arguments on the stack. -/
theorem Machine.Models.ends_call {l : Library ω} {v : Value} (hm : m.Models γ (fun _ => .value) μ)
    (hs : m.stack = (u :: us).toArray) (hframes : m.frames = [])
    (hargs : List.Forall₂ (Value.Similar γ) us args) (hu : u.Similar γ v)
    (hcalled : Machine.Called l (m.call u us.length)) {fuel k : Nat} (hk : k ≤ fuel)
    (hend : ((m.call u us.length).outside k).1 ≠ .unfinished) :
    Ends ((m.call u us.length).outside k) (Eval.apply (fuel + 1) 0 scriptName v args μ) := by
  have hs' : m.stack = #[] ++ (u :: us).toArray := by rw [hs, Array.empty_append]
  cases hu with
  | closure hlink => exact hm.ends_closure hs hframes hargs hlink hcalled hk hend
  | intrinsic f => exact (hm.callIntrinsic hs' hargs f).ends hm hs hframes hcalled k
  | builtin hname =>
    have hanswers := hm.callBuiltin hs' hargs hname
    have hcaller : m.callerName = scriptName := by
      unfold Machine.callerName
      rw [hframes]
      rfl
    rw [hcaller] at hanswers
    exact hanswers.ends hm hs hframes hcalled k
  | function hh => exact absurd hh (hm.functions _ _)
  | _ =>
    cases hcalled with
    | raise _ hs => exact hm.ends_error hs (.ofCause _)

/-- What evaluation does where the global is bound. -/
theorem Eval.callGlobal_eq {name : String} {b : Binding} (hb : μ.globals[name]? = some b) (fuel : Nat)
    (args : List HostValue) :
    Eval.callGlobal fuel name args μ = Eval.apply fuel 0 scriptName b.value
      (Heap.ofHostItems args #[] μ.heap).1.toList
      { μ with heap := (Heap.ofHostItems args #[] μ.heap).2 } := by
  have hread : Eval.read [] name { μ with heap := (Heap.ofHostItems args #[] μ.heap).2 }
      = .ok b.value { μ with heap := (Heap.ofHostItems args #[] μ.heap).2 } := by
    unfold Eval.read
    simp only [List.lookup_nil, hb]
  exact Eval.ok_bind hread _

/-- **Calls from outside mean what evaluation says:** on a machine between two runs that stands for a
memory, a call that ends does so as its evaluation does. -/
theorem Machine.calls_mean (hi : m.Idle) (hm : m.Models β (fun _ => .value) μ) {name : String}
    (hg : m.global? name = some callee) (args : List HostValue) {fuel k : Nat} (hk : k ≤ fuel)
    (hend : (({ m with heap := (Session.storeArgs args m.heap).2 } : Machine ω).callGlobal name
      (Session.storeArgs args m.heap).1.toList k).1 ≠ .unfinished) :
    Ends (({ m with heap := (Session.storeArgs args m.heap).2 } : Machine ω).callGlobal name
      (Session.storeArgs args m.heap).1.toList k) (Eval.callGlobal (fuel + 1) name args μ) := by
  have hcalled := hi.calling hg args
  obtain ⟨b, hb, rfl⟩ := Option.map_eq_some_iff.1 hg
  obtain ⟨b', hb', hsimilar⟩ : ∃ b', μ.globals[name]? = some b' ∧ b.Similar β b' := by
    have hglobal := hm.globals name
    rw [hb] at hglobal
    generalize μ.globals[name]? = o at hglobal
    cases hglobal with
    | some h => exact ⟨_, rfl, h⟩
  obtain ⟨γ, hx, hvalues⟩ := hm.twin.ofHostItems args
    (show List.Forall₂ (Value.Similar β) (#[] : Array Value).toList (#[] : Array Value).toList from .nil)
  rw [hi.callGlobal_eq hg, hi.calling_eq] at hend ⊢
  rw [hi.calling_eq] at hcalled
  rw [Eval.callGlobal_eq hb']
  exact ((hm.extend hx).withStack nofun).ends_call rfl hi.frames hvalues (hsimilar.value.mono hx.le) hcalled
    hk hend

end DeployScript
