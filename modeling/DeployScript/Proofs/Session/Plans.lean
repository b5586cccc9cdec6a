import DeployScript.Proofs.Heap.Arguments
import DeployScript.Session.Plan

/-!
# How plans go

A plan calls the hooks that a session has declared, one after another, and stops at the first that fails. The
functions that are called are scripts: they can change whatever the next call finds, so a plan is said by the
calls that it makes, each on the session that the call before it has left.

* `Session.Calls` — calls in a row, from one session to another.
* `Plan.Goes` — which calls a plan makes and what it reports, said of their results alone.
* `Plan.execute_eq` — a plan makes exactly these calls, whatever the functions do.
* `Plan.runs_in_order` — what a session has declared, and how a plan of that goes.

A call that is stuck or does not end has no result that a plan could go on with, and ends the plan as well.
-/

namespace DeployScript

variable {ω : Type}

/-! ### What a session has declared -/

section Discovery

variable {α ε : Type} {f : α → Except ε Bool} {l : List α}

theorem filterAuxM_eq_ok {p : α → Bool} (hf : ∀ a ∈ l, f a = .ok (p a)) (kept : List α) :
    l.filterAuxM f kept = .ok ((l.filter p).reverse ++ kept) := by
  induction l generalizing kept with
  | nil => rfl
  | cons a l ih =>
    obtain ⟨ha, hl⟩ := List.forall_mem_cons.1 hf
    rw [List.filterAuxM, ha]
    show l.filterAuxM f (bif p a then a :: kept else kept) = _
    rw [ih hl]
    cases hp : p a <;> simp [hp]

/-- **Filtering by a test that may fail** keeps what passes, if the test fails nowhere. -/
theorem filterM_eq_ok {p : α → Bool} (hf : ∀ a ∈ l, f a = .ok (p a)) :
    l.filterM f = .ok (l.filter p) := by
  rw [List.filterM, filterAuxM_eq_ok hf]
  show Except.ok ((l.filter p).reverse ++ []).reverse = _
  rw [List.append_nil, List.reverse_reverse]

theorem filterAuxM_eq_error {e : ε} (kept : List α) :
    l.filterAuxM f kept = .error e ↔ l.mapM f = .error e := by
  induction l generalizing kept with
  | nil => exact ⟨nofun, nofun⟩
  | cons a l ih =>
    rw [List.filterAuxM, List.mapM_cons]
    cases f a with
    | error e' => constructor <;> exact fun h => congrArg Except.error (Except.error.inj h)
    | ok b =>
      show l.filterAuxM f (bif b then a :: kept else kept) = _ ↔
        (do let bs ← l.mapM f; pure (b :: bs)) = _
      rw [ih]
      cases l.mapM f with
      | error e' => exact Iff.rfl
      | ok bs => exact ⟨nofun, nofun⟩

/-- Otherwise it fails where reading the whole list fails. -/
theorem filterM_eq_error {e : ε} : l.filterM f = .error e ↔ l.mapM f = .error e := by
  rw [← filterAuxM_eq_error [], List.filterM]
  cases l.filterAuxM f [] with
  | error e' => exact Iff.rfl
  | ok kept => exact ⟨nofun, nofun⟩

end Discovery

namespace Session

/-- **A name that a plan may use:** bound to a function, if it is bound at all. -/
def Usable (s : Session ω) (name : String) : Prop :=
  ∀ v, s.machine.global? name = some v → v.isCallable = true

/-- Whether a name is bound to a function. -/
def bindsFunction (s : Session ω) (name : String) : Bool := (s.machine.global? name).any Value.isCallable

end Session

/-- The names that a plan looks for, in this order. -/
def reservedNames : List String := hookNames ++ [errorHookName]

/-- A value is copied out as a function if and only if it is one. -/
theorem Heap.isFunction_toHost (heap : Heap) (v : Value) : (heap.toHost v).isFunction = v.isCallable := by
  cases v with
  | array h =>
    rw [toHost, maxExportDepth, toHostWithin]
    cases heap.array? h <;> rfl
  | record h =>
    rw [toHost, maxExportDepth, toHostWithin]
    cases heap.record? h <;> rfl
  | _ => rfl

namespace Plan

variable {s : Session ω} {name : String}

/-- The refusal of a reserved name that is bound to something else. -/
def misuse (s : Session ω) (name : String) (v : Value) : SessionError :=
  .failedHook name ("reserved name is bound to a " ++ (s.machine.heap.toHost v).typeName)

theorem isDeclared_of_usable (hu : s.Usable name) : isDeclared s name = .ok (s.bindsFunction name) := by
  unfold isDeclared Session.get Session.bindsFunction
  cases hv : s.machine.global? name with
  | none => rfl
  | some v =>
    have hfunction := s.machine.heap.isFunction_toHost v
    rw [hu v hv] at hfunction
    simp [hfunction, hu v hv]

theorem isDeclared_eq_error {e : SessionError} : isDeclared s name = .error e ↔
    ∃ v, s.machine.global? name = some v ∧ v.isCallable = false ∧ e = misuse s name v := by
  unfold isDeclared Session.get
  cases s.machine.global? name with
  | none => exact ⟨nofun, nofun⟩
  | some v =>
    have hfunction := s.machine.heap.isFunction_toHost v
    simp only [Option.some.injEq, exists_eq_left']
    cases hv : v.isCallable with
    | true => simp [hfunction, hv]
    | false => simp [hfunction, hv, misuse, eq_comm]

/-- Declared or not, a name is read if it is usable. -/
theorem exists_isDeclared_iff : (∃ b, isDeclared s name = .ok b) ↔ s.Usable name := by
  constructor
  · rintro ⟨b, hb⟩ v hv
    by_contra hcallable
    have herror := isDeclared_eq_error.2 ⟨v, hv, Bool.eq_false_of_not_eq_true hcallable, rfl⟩
    rw [hb] at herror
    cases herror
  · intro hu
    exact ⟨_, isDeclared_of_usable hu⟩

/-- **A session is refused** for the first reserved name that is bound to something else. -/
theorem discover_eq_error (hs : s.phase = .executed) {e : SessionError} :
    discover s = .error e ↔ ∃ i name v, FirstNot s.Usable reservedNames i name ∧
      s.machine.global? name = some v ∧ v.isCallable = false ∧ e = misuse s name v := by
  have hall : discover s = .error e ↔ reservedNames.mapM (isDeclared s) = .error e := by
    rw [reservedNames, List.mapM_append, List.mapM_cons, List.mapM_nil, discover, hs]
    cases hhooks : declared s hookNames with
    | error e' =>
      rw [declared, filterM_eq_error] at hhooks
      rw [hhooks]
      constructor <;> exact fun h => congrArg Except.error (Except.error.inj h)
    | ok hooks =>
      cases hflags : hookNames.mapM (isDeclared s) with
      | error e' =>
        rw [declared, filterM_eq_error.2 hflags] at hhooks
        cases hhooks
      | ok flags =>
        cases isDeclared s errorHookName with
        | error e' => constructor <;> exact fun h => congrArg Except.error (Except.error.inj h)
        | ok report => exact ⟨nofun, nofun⟩
  rw [hall, mapM_eq_error]
  simp only [FirstNot.congr fun name => exists_isDeclared_iff, isDeclared_eq_error, exists_and_left]

/-- **Any other session** has declared what it has bound, in the order of the calls. -/
theorem discover_eq_ok (hs : s.phase = .executed) {p : Plan} :
    discover s = .ok p ↔ (∀ name ∈ reservedNames, s.Usable name) ∧
      p.hooks = hookNames.filter s.bindsFunction ∧ p.hasErrorHook = s.bindsFunction errorHookName := by
  by_cases hall : ∀ name ∈ reservedNames, s.Usable name
  · obtain ⟨hhooks, herror⟩ := List.forall_mem_append.1 hall
    have hdeclared : declared s hookNames = .ok (hookNames.filter s.bindsFunction) :=
      filterM_eq_ok fun name hname => isDeclared_of_usable (hhooks name hname)
    have hreport := isDeclared_of_usable (herror errorHookName List.mem_cons_self)
    have hfound : discover s = .ok ⟨hookNames.filter s.bindsFunction, s.bindsFunction errorHookName⟩ := by
      rw [discover, hs, hdeclared, hreport]
      rfl
    obtain ⟨hooks, report⟩ := p
    rw [hfound, Except.ok.injEq, Plan.mk.injEq]
    constructor
    · rintro ⟨rfl, rfl⟩
      exact ⟨hall, rfl, rfl⟩
    · rintro ⟨-, rfl, rfl⟩
      exact ⟨rfl, rfl⟩
  · refine ⟨fun hok => ?_, fun h => absurd h.1 hall⟩
    -- The first name that is not usable is what the session is refused for.
    obtain ⟨name, hmem, hnot⟩ : ∃ name ∈ reservedNames, ¬ s.Usable name := by
      simpa only [not_forall, exists_prop] using hall
    obtain ⟨i, first, hfirst⟩ := exists_firstNot.2 ⟨name, hmem, hnot⟩
    obtain ⟨v, hv, hcallable⟩ : ∃ v, s.machine.global? first = some v ∧ ¬ v.isCallable = true := by
      simpa only [Session.Usable, not_forall, exists_prop] using hfirst.2.1
    have herror := (discover_eq_error hs).2
      ⟨i, first, v, hfirst, hv, Bool.eq_false_of_not_eq_true hcallable, rfl⟩
    rw [hok] at herror
    cases herror

/-- **The hooks of a session** come in their fixed order, each once, and the error hook is none of them. -/
theorem hooks_sublist (hs : s.phase = .executed) {p : Plan} (hp : discover s = .ok p) :
    p.hooks.Sublist hookNames := by
  obtain ⟨-, hhooks, -⟩ := (discover_eq_ok hs).1 hp
  rw [hhooks]
  exact List.filter_sublist

end Plan

/-! ### Calls in a row -/

/-- **A call from the host,** and how it ended. -/
structure Called where
  name : String
  args : List HostValue
  result : Except SessionError HostValue

/-- **Calls one after another,** each on the session that the call before it has left. -/
inductive Session.Calls (fuel : Nat) : Session ω → List Called → Session ω → Prop
  | nil (s : Session ω) : Calls fuel s [] s
  | cons {s s' s'' : Session ω} {c : Called} {calls : List Called}
      (hcall : s.call c.name c.args fuel = (c.result, s')) (hrest : Calls fuel s' calls s'') :
      Calls fuel s (c :: calls) s''

namespace Session.Calls

variable {fuel : Nat} {s s' s'' : Session ω} {calls calls' : List Called}

theorem append (hc : Calls fuel s calls s') (hc' : Calls fuel s' calls' s'') :
    Calls fuel s (calls ++ calls') s'' := by
  induction hc with
  | nil => exact hc'
  | cons hcall _ ih => exact .cons hcall (ih hc')

/-- The calls can be parted anywhere. -/
theorem exists_of_append (hc : Calls fuel s (calls ++ calls') s'') :
    ∃ s', Calls fuel s calls s' ∧ Calls fuel s' calls' s'' := by
  induction calls generalizing s with
  | nil => exact ⟨s, .nil s, hc⟩
  | cons c calls ih =>
    cases hc with
    | cons hcall hrest =>
      obtain ⟨s', hcalls, hcalls'⟩ := ih hrest
      exact ⟨s', .cons hcall hcalls, hcalls'⟩

end Session.Calls

/-! ### The calls of a plan -/

/-- The end of a call that is stuck or does not end: it gives no result. -/
inductive SessionError.Abnormal : SessionError → Prop
  | stuck : Abnormal .stuck
  | unfinished : Abnormal .unfinished

/-- **A hook that passes** is called without arguments, and returns anything but false. -/
structure Called.Passes (hook : String) (c : Called) : Prop where
  name : c.name = hook
  args : c.args = []
  result : ∃ v, c.result = .ok v ∧ v ≠ .bool false

/-- **A hook that fails,** and why: it has returned false, or there was an error. -/
inductive Called.Fails : (hook reason : String) → Called → Prop
  | refuses (hook : String) : Fails hook "returned false" ⟨hook, [], .ok (.bool false)⟩
  | raises (hook : String) {e : SessionError} (he : ¬ e.Abnormal) : Fails hook e.message ⟨hook, [], .error e⟩

namespace Plan

/-- **How a plan goes.** The hooks pass in their order, up to the first that fails; that is told to the error
hook if there is one, and reported with its own reason. -/
inductive Goes (p : Plan) : List Called → Except SessionError (List String) → Prop
  | completed {passed : List Called} (hpassed : List.Forall₂ Called.Passes p.hooks passed) :
    Goes p passed (.ok p.hooks)
  | failed {before after : List String} {hook reason : String} {passed : List Called} {c : Called}
      (hhooks : p.hooks = before ++ hook :: after) (hpassed : List.Forall₂ Called.Passes before passed)
      (hfails : c.Fails hook reason) (hreport : p.hasErrorHook = false) :
    Goes p (passed ++ [c]) (.error (.failedHook hook reason))
  | reported {before after : List String} {hook reason : String} {passed : List Called} {c : Called}
      {answer : Except SessionError HostValue}
      (hhooks : p.hooks = before ++ hook :: after) (hpassed : List.Forall₂ Called.Passes before passed)
      (hfails : c.Fails hook reason) (hreport : p.hasErrorHook = true)
      (hanswer : ∀ e, answer = .error e → ¬ e.Abnormal) :
    Goes p (passed ++ [c, ⟨errorHookName, [.text hook], answer⟩]) (.error (.failedHook hook reason))
  | halted {before after : List String} {hook : String} {passed : List Called} {e : SessionError}
      (hhooks : p.hooks = before ++ hook :: after) (hpassed : List.Forall₂ Called.Passes before passed)
      (he : e.Abnormal) : Goes p (passed ++ [⟨hook, [], .error e⟩]) (.error e)
  | haltedReport {before after : List String} {hook reason : String} {passed : List Called} {c : Called}
      {e : SessionError}
      (hhooks : p.hooks = before ++ hook :: after) (hpassed : List.Forall₂ Called.Passes before passed)
      (hfails : c.Fails hook reason) (hreport : p.hasErrorHook = true) (he : e.Abnormal) :
    Goes p (passed ++ [c, ⟨errorHookName, [.text hook], .error e⟩]) (.error e)

theorem isAbnormal_iff {r : Except SessionError HostValue} :
    isAbnormal r = true ↔ ∃ e, r = .error e ∧ e.Abnormal := by
  constructor
  · intro hr
    cases r with
    | ok v => cases hr
    | error e =>
      cases e with
      | stuck => exact ⟨_, rfl, .stuck⟩
      | unfinished => exact ⟨_, rfl, .unfinished⟩
      | _ => cases hr
  · rintro ⟨e, rfl, ⟨⟩⟩ <;> rfl

theorem isAbnormal_error {e : SessionError} : isAbnormal (.error e) = false ↔ ¬ e.Abnormal := by
  rw [Bool.eq_false_iff, ne_eq, isAbnormal_iff]
  simp

/-- Only false is a failure without an error. -/
theorem failure?_of_ne {v : HostValue} (hv : v ≠ .bool false) : failure? (.ok v) = none := by
  cases v with
  | bool b =>
    cases b with
    | false => exact absurd rfl hv
    | true => rfl
  | _ => rfl

/-- **A call ends** in one of three ways: it gives no result, it passes, or it fails. -/
theorem called_cases (hook : String) (r : Except SessionError HostValue) :
    (∃ e, r = .error e ∧ e.Abnormal) ∨ Called.Passes hook ⟨hook, [], r⟩ ∨
      ∃ reason, Called.Fails hook reason ⟨hook, [], r⟩ := by
  cases r with
  | ok v =>
    by_cases hv : v = .bool false
    · subst hv
      exact .inr (.inr ⟨_, .refuses hook⟩)
    · exact .inr (.inl ⟨rfl, rfl, v, rfl, hv⟩)
  | error e =>
    by_cases he : e.Abnormal
    · exact .inl ⟨e, rfl, he⟩
    · exact .inr (.inr ⟨_, .raises hook he⟩)

theorem failure?_of_fails {hook reason : String} {c : Called} (hf : c.Fails hook reason) :
    c.name = hook ∧ c.args = [] ∧ isAbnormal c.result = false ∧ failure? c.result = some reason := by
  cases hf with
  | refuses => exact ⟨rfl, rfl, rfl, rfl⟩
  | raises he => exact ⟨rfl, rfl, isAbnormal_error.2 he, rfl⟩

section Steps

variable {report : Bool} {fuel : Nat} {s s' s'' : Session ω} {hook reason : String} {hooks completed : List String}
  {c : Called} {e : SessionError} {answer : Except SessionError HostValue}

/-- After a hook that passes the next one is called. -/
theorem callHooks_passes (hcall : s.call c.name c.args fuel = (c.result, s')) (hp : c.Passes hook) :
    callHooks report fuel (hook :: hooks) completed s =
      callHooks report fuel hooks (completed ++ [hook]) s' := by
  obtain ⟨rfl, hargs, v, hv, hne⟩ := hp
  rw [hargs, hv] at hcall
  rw [callHooks, hcall]
  simp [isAbnormal, failure?_of_ne hne]

/-- A hook that fails is the last one, and without an error hook that is all. -/
theorem callHooks_fails (hcall : s.call c.name c.args fuel = (c.result, s')) (hf : c.Fails hook reason) :
    callHooks false fuel (hook :: hooks) completed s = (.error (.failedHook hook reason), s') := by
  obtain ⟨rfl, hargs, hnormal, hreason⟩ := failure?_of_fails hf
  rw [hargs] at hcall
  rw [callHooks, hcall]
  simp [hnormal, hreason]

/-- The error hook is told, and its answer plays no part. -/
theorem callHooks_reports (hcall : s.call c.name c.args fuel = (c.result, s')) (hf : c.Fails hook reason)
    (hreport : s'.call errorHookName [.text hook] fuel = (answer, s''))
    (hanswer : ∀ e, answer = .error e → ¬ e.Abnormal) :
    callHooks true fuel (hook :: hooks) completed s = (.error (.failedHook hook reason), s'') := by
  obtain ⟨rfl, hargs, hnormal, hreason⟩ := failure?_of_fails hf
  have hquiet : isAbnormal answer = false := by
    rw [Bool.eq_false_iff, ne_eq, isAbnormal_iff]
    rintro ⟨e, he, habnormal⟩
    exact hanswer e he habnormal
  rw [hargs] at hcall
  rw [callHooks, hcall]
  simp [hnormal, hreason, hreport, hquiet]

/-- A hook without a result ends the plan. -/
theorem callHooks_halts (hcall : s.call hook [] fuel = (.error e, s')) (he : e.Abnormal) :
    callHooks report fuel (hook :: hooks) completed s = (.error e, s') := by
  rw [callHooks, hcall]
  simp [isAbnormal_iff.2 ⟨e, rfl, he⟩, Except.map]

theorem callHooks_haltsReport (hcall : s.call c.name c.args fuel = (c.result, s')) (hf : c.Fails hook reason)
    (hreport : s'.call errorHookName [.text hook] fuel = (.error e, s'')) (he : e.Abnormal) :
    callHooks true fuel (hook :: hooks) completed s = (.error e, s'') := by
  obtain ⟨rfl, hargs, hnormal, hreason⟩ := failure?_of_fails hf
  rw [hargs] at hcall
  rw [callHooks, hcall]
  simp [hnormal, hreason, hreport, isAbnormal_iff.2 ⟨e, rfl, he⟩, Except.map]

/-- **Hooks that pass** are completed, and leave the plan at the hook behind them. -/
theorem callHooks_passed {before : List String} {passed : List Called}
    (hpassed : List.Forall₂ Called.Passes before passed) (hc : Session.Calls fuel s passed s') :
    callHooks report fuel (before ++ hooks) completed s =
      callHooks report fuel hooks (completed ++ before) s' := by
  induction hpassed generalizing s completed with
  | nil =>
    cases hc
    rw [List.nil_append, List.append_nil]
  | cons hp _ ih =>
    cases hc with
    | cons hcall hrest =>
      rw [List.cons_append, callHooks_passes hcall hp, ih hrest, List.append_assoc, List.singleton_append]

end Steps

variable {p : Plan} {fuel : Nat} {s s' : Session ω} {calls : List Called}
  {outcome : Except SessionError (List String)}

/-- **A plan that goes in some way** is carried out with the same calls and the same report. -/
theorem Goes.execute_eq (hg : p.Goes calls outcome) (hc : Session.Calls fuel s calls s') :
    p.execute s fuel = (outcome, s') := by
  unfold execute
  cases hg with
  | completed hpassed =>
    -- The hooks that have completed are all that the plan has.
    have hall : callHooks p.hasErrorHook fuel (p.hooks ++ []) [] s =
        callHooks p.hasErrorHook fuel [] ([] ++ p.hooks) s' := callHooks_passed hpassed hc
    rw [List.append_nil, List.nil_append] at hall
    rw [hall]
    rfl
  | failed hhooks hpassed hfails hreport =>
    obtain ⟨s₁, hcalls, hrest⟩ := hc.exists_of_append
    cases hrest with
    | cons hcall hnil =>
      cases hnil
      rw [hhooks, callHooks_passed hpassed hcalls, hreport, callHooks_fails hcall hfails]
  | reported hhooks hpassed hfails hreport hanswer =>
    obtain ⟨s₁, hcalls, hrest⟩ := hc.exists_of_append
    cases hrest with
    | cons hcall hlast =>
      cases hlast with
      | cons hcall' hnil =>
        cases hnil
        rw [hhooks, callHooks_passed hpassed hcalls, hreport, callHooks_reports hcall hfails hcall' hanswer]
  | halted hhooks hpassed he =>
    obtain ⟨s₁, hcalls, hrest⟩ := hc.exists_of_append
    cases hrest with
    | cons hcall hnil =>
      cases hnil
      rw [hhooks, callHooks_passed hpassed hcalls, callHooks_halts hcall he]
  | haltedReport hhooks hpassed hfails hreport he =>
    obtain ⟨s₁, hcalls, hrest⟩ := hc.exists_of_append
    cases hrest with
    | cons hcall hlast =>
      cases hlast with
      | cons hcall' hnil =>
        cases hnil
        rw [hhooks, callHooks_passed hpassed hcalls, hreport, callHooks_haltsReport hcall hfails hcall' he]

/-- The hooks from the front of a plan that pass, and what is left of them. -/
theorem exists_passed (fuel : Nat) (hooks : List String) (s : Session ω) :
    ∃ before rest passed s', hooks = before ++ rest ∧ List.Forall₂ Called.Passes before passed ∧
      Session.Calls fuel s passed s' ∧
      ∀ hook after, rest = hook :: after → ¬ Called.Passes hook ⟨hook, [], (s'.call hook [] fuel).1⟩ := by
  induction hooks generalizing s with
  | nil => exact ⟨[], [], [], s, rfl, .nil, .nil s, nofun⟩
  | cons hook hooks ih =>
    by_cases hp : Called.Passes hook ⟨hook, [], (s.call hook [] fuel).1⟩
    · obtain ⟨before, rest, passed, s', rfl, hpassed, hcalls, hstop⟩ := ih (s.call hook [] fuel).2
      exact ⟨hook :: before, rest, _ :: passed, s', rfl, .cons hp hpassed, .cons rfl hcalls, hstop⟩
    · refine ⟨[], hook :: hooks, [], s, rfl, .nil, .nil s, ?_⟩
      rintro _ _ ⟨⟩
      exact hp

/-- **Each plan goes** in some way, on whatever session. -/
theorem exists_goes (p : Plan) (fuel : Nat) (s : Session ω) :
    ∃ calls outcome s', p.Goes calls outcome ∧ Session.Calls fuel s calls s' := by
  obtain ⟨before, rest, passed, s₁, hhooks, hpassed, hcalls, hstop⟩ := exists_passed fuel p.hooks s
  cases rest with
  | nil =>
    rw [List.append_nil] at hhooks
    rw [← hhooks] at hpassed
    exact ⟨passed, _, s₁, .completed hpassed, hcalls⟩
  | cons hook after =>
    rcases hcall : s₁.call hook [] fuel with ⟨r, s₂⟩
    have hnot := hstop hook after rfl
    rw [hcall] at hnot
    obtain ⟨e, rfl, he⟩ | hp | ⟨reason, hfails⟩ := called_cases hook r
    · exact ⟨_, _, s₂, .halted hhooks hpassed he, hcalls.append (.cons hcall (.nil s₂))⟩
    · exact absurd hp hnot
    · cases hreport : p.hasErrorHook with
      | false =>
        exact ⟨_, _, s₂, .failed hhooks hpassed hfails hreport, hcalls.append (.cons hcall (.nil s₂))⟩
      | true =>
        rcases hcall' : s₂.call errorHookName [.text hook] fuel with ⟨answer, s₃⟩
        have hreported : Session.Calls fuel s₂ [⟨errorHookName, [.text hook], answer⟩] s₃ :=
          .cons hcall' (.nil s₃)
        have hlast := hcalls.append (.cons (c := ⟨hook, [], r⟩) hcall hreported)
        by_cases hanswer : ∀ e, answer = .error e → ¬ e.Abnormal
        · exact ⟨_, _, s₃, .reported hhooks hpassed hfails hreport hanswer, hlast⟩
        · simp only [not_forall, not_not] at hanswer
          obtain ⟨e, rfl, he⟩ := hanswer
          exact ⟨_, _, s₃, .haltedReport hhooks hpassed hfails hreport he, hlast⟩

/-- **The run of a plan** is the calls that it makes, and nothing else. -/
theorem execute_eq_iff :
    p.execute s fuel = (outcome, s') ↔ ∃ calls, p.Goes calls outcome ∧ Session.Calls fuel s calls s' := by
  constructor
  · intro hrun
    obtain ⟨calls, outcome', s'', hg, hc⟩ := exists_goes p fuel s
    obtain ⟨rfl, rfl⟩ := Prod.mk.inj (hrun.symm.trans (hg.execute_eq hc))
    exact ⟨calls, hg, hc⟩
  · rintro ⟨calls, hg, hc⟩
    exact hg.execute_eq hc

theorem names_of_passes {before : List String} {passed : List Called}
    (hpassed : List.Forall₂ Called.Passes before passed) : passed.map Called.name = before := by
  rw [← List.forall₂_eq_eq_eq, List.forall₂_map_left_iff]
  exact hpassed.flip.imp fun _ _ hp => hp.name

theorem name_of_fails {hook reason : String} {c : Called} (hf : c.Fails hook reason) : c.name = hook :=
  (failure?_of_fails hf).1

/-- **The calls of a plan** come in the fixed order, each at most once. -/
theorem Goes.names_sublist (hg : p.Goes calls outcome) (hp : p.hooks.Sublist hookNames) :
    (calls.map Called.name).Sublist reservedNames := by
  have hall : p.hooks.Sublist reservedNames := hp.trans (List.sublist_append_left _ _)
  -- The hooks up to one of them, and then perhaps the error hook.
  have hupto : ∀ {before after : List String} {hook : String}, p.hooks = before ++ hook :: after →
      (before ++ [hook]).Sublist hookNames := by
    intro before after hook hhooks
    rw [hhooks] at hp
    exact (List.Sublist.append_left (List.singleton_sublist.2 List.mem_cons_self) before).trans hp
  have hwith : ∀ {before after : List String} {hook : String}, p.hooks = before ++ hook :: after →
      (before ++ [hook, errorHookName]).Sublist reservedNames := by
    intro before after hook hhooks
    have hsub := (hupto hhooks).append_right [errorHookName]
    rwa [List.append_assoc] at hsub
  cases hg with
  | completed hpassed =>
    rw [names_of_passes hpassed]
    exact hall
  | failed hhooks hpassed hfails =>
    rw [List.map_append, names_of_passes hpassed, List.map_singleton, name_of_fails hfails]
    exact (hupto hhooks).trans (List.sublist_append_left _ _)
  | halted hhooks hpassed =>
    rw [List.map_append, names_of_passes hpassed]
    exact (hupto hhooks).trans (List.sublist_append_left _ _)
  | reported hhooks hpassed hfails | haltedReport hhooks hpassed hfails =>
    rw [List.map_append, names_of_passes hpassed, List.map_cons, name_of_fails hfails]
    exact hwith hhooks

/-- **A plan runs its hooks in order,** and stops at the first that fails. An executed session is refused exactly
for the first reserved name that is bound to something else than a function, and otherwise the plan has the
hooks that are bound, in their fixed order. Whatever the functions do, and on whatever session the plan is
carried out, it makes the calls that the rules of `Goes` give, each at most once, and reports what they say. -/
theorem runs_in_order {s : Session ω} (hs : s.phase = .executed) :
    (∀ e, discover s = .error e ↔ ∃ i name v, FirstNot s.Usable reservedNames i name ∧
      s.machine.global? name = some v ∧ v.isCallable = false ∧ e = misuse s name v) ∧
    (∀ p, discover s = .ok p ↔ (∀ name ∈ reservedNames, s.Usable name) ∧
      p.hooks = hookNames.filter s.bindsFunction ∧ p.hasErrorHook = s.bindsFunction errorHookName) ∧
    ∀ p, discover s = .ok p → ∀ (s₀ : Session ω) (fuel : Nat) (outcome : Except SessionError (List String))
      (s' : Session ω), (p.execute s₀ fuel = (outcome, s') ↔
        ∃ calls, p.Goes calls outcome ∧ Session.Calls fuel s₀ calls s') ∧
      ∀ calls, p.Goes calls outcome → (calls.map Called.name).Sublist reservedNames := by
  refine ⟨fun e => discover_eq_error hs, fun p => discover_eq_ok hs, ?_⟩
  intro p hp s₀ fuel outcome s'
  exact ⟨execute_eq_iff, fun calls hg => hg.names_sublist (hooks_sublist hs hp)⟩

/-- A builtin that notes that it was called, and gives one answer. -/
def noting (name : String) (params : List Shape) (answer : HostValue) : Builtin (List String) where
  name
  params
  run _ _ journal := (.ok answer, journal ++ [name])

/-- Two hooks, the second of which fails, and an error hook. -/
def rehearsed : Library (List String) where
  builtins := [noting "BeforeDeploy" [] .nil, noting "Deploy" [] (.bool false), noting "OnError" [.text] .nil]

/-- A session that has them bound. -/
def rehearsal : Session (List String) where
  machine := rehearsed.names.foldl (fun m name => m.define name (.builtin name) false)
    { Machine.new {} [] with library := rehearsed }
  phase := .executed
  pending := none
  source := ""
  builtins := rehearsed.names

/-- What its plan calls. -/
def rehearsedCalls : List Called :=
  [⟨"BeforeDeploy", [], .ok .nil⟩, ⟨"Deploy", [], .ok (.bool false)⟩,
    ⟨"OnError", [.text "Deploy"], .ok .nil⟩]

/-- It has a plan of two hooks, and the error hook is told of the second. -/
theorem rehearsal_reported :
    rehearsal.phase = .executed ∧ discover rehearsal = .ok ⟨["BeforeDeploy", "Deploy"], true⟩ ∧
      ∃ s', execute ⟨["BeforeDeploy", "Deploy"], true⟩ rehearsal 1
          = (.error (.failedHook "Deploy" "returned false"), s') ∧
        s'.machine.world = ["BeforeDeploy", "Deploy", "OnError"] := by
  obtain ⟨-, hfound, hgoes⟩ := runs_in_order (s := rehearsal) rfl
  have hall : ∀ name ∈ reservedNames, (rehearsal.machine.global? name).all Value.isCallable = true := by
    decide
  have hplan : discover rehearsal = .ok ⟨["BeforeDeploy", "Deploy"], true⟩ := by
    refine (hfound _).2 ⟨?_, rfl, rfl⟩
    intro name hname v hv
    have hcallable := hall name hname
    rwa [hv] at hcallable
  obtain ⟨s', hcalls, hworld⟩ : ∃ s', Session.Calls 1 rehearsal rehearsedCalls s' ∧
      s'.machine.world = ["BeforeDeploy", "Deploy", "OnError"] :=
    ⟨_, .cons rfl (.cons rfl (.cons rfl (.nil _))), rfl⟩
  have hpasses : List.Forall₂ Called.Passes ["BeforeDeploy"] [⟨"BeforeDeploy", [], .ok .nil⟩] :=
    .cons ⟨rfl, rfl, .nil, rfl, nofun⟩ .nil
  have hanswer : ∀ e, (Except.ok .nil : Except SessionError HostValue) = .error e → ¬ e.Abnormal := nofun
  have hrun : (⟨["BeforeDeploy", "Deploy"], true⟩ : Plan).Goes rehearsedCalls
      (.error (.failedHook "Deploy" "returned false")) :=
    .reported rfl hpasses (.refuses "Deploy") rfl hanswer
  exact ⟨rfl, hplan, s', (hgoes _ hplan rehearsal 1 _ s').1.2 ⟨_, hrun, hcalls⟩, hworld⟩

end Plan

end DeployScript
