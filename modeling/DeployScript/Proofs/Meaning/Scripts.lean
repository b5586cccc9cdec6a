import Mathlib
import DeployScript.Proofs.Code.Exact
import DeployScript.Proofs.Machine.Reached
import DeployScript.Proofs.Meaning.Calls
import DeployScript.Proofs.Session.Load

/-!
# Scripts mean what their code does

A machine between two runs stands for a memory in which every variable that a closure holds is a cell.
A script is stored and started on it, and its code follows what evaluation does from there. So the two
end alike: with one value and one set of globals, or with one error, and what was printed and what the
host has seen is the same.

* `Heap.installed_storeAll`, `Models.grows` — the functions of a script are stored.
* `Idle.starts` — the call of a script, in front of its first statement.
* `Returns.completes` — the end of a run; `Program.follows` — the run as a whole.
* `Ends` — a run and an evaluation that end alike; `Models.ends_error` — where both fail.
* `models_offering`, `Models.defines` — machines that stand for memories.
* `Script.means` — the main statement.
-/

namespace DeployScript

open Compile

variable {ω : Type} {S : Site} {β γ : Link} {φ ψ : Roles} {m m' : Machine ω} {μ μ' : Memory ω}
  {v : Value} {p : Program} {c : Compiled}

/-! ### Storing a script -/

/-- **The functions of a script** are stored behind one another, so that each finds those before it. -/
theorem Heap.installed_storeAll {heap : Heap} (hw : heap.Wf) (functions : Array (Prototype Literal)) :
    (heap.storeAll functions).2.Installed functions (heap.storeAll functions).1 := by
  have hall : (heap.storeAll functions).2.Wf ∧ (heap.storeAll functions).1.size = functions.size ∧
      (heap.storeAll functions).2.Installed functions (heap.storeAll functions).1 := by
    refine Array.foldl_induction (fun n (stored : Array Handle × Heap) =>
      stored.2.Wf ∧ stored.1.size = n ∧ stored.2.Installed functions stored.1)
      ⟨hw, rfl, fun k h hk => by simp at hk⟩ ?_
    rintro i ⟨handles, next⟩ ⟨hwf, hsize, hstored⟩
    have hf : functions[i.val]? = some functions[i] := Array.getElem?_eq_getElem i.isLt
    dsimp only at hwf hsize hstored ⊢
    generalize functions[i] = f at hf ⊢
    cases hi : next.insert (.function (f.valued handles)) with
    | mk h last =>
    obtain ⟨-, hwf', hget⟩ := get?_insert hwf hi
    have hkeep := kept_insert hwf hi
    have hpush : (next.insert (.function
        { f with chunk := f.chunk.mapConstants (literalValue handles) }))
        = (h, last) := hi
    rw [hpush]
    refine ⟨hwf', by simp [hsize], fun k g hk => ?_⟩
    dsimp only at hk
    rw [Array.getElem?_push] at hk
    split at hk
    case isTrue he =>
      obtain rfl := Option.some.inj hk
      have htake : ((handles.push h).toList.take k).toArray = handles := by
        rw [he, Array.toList_push, ← Array.length_toList, List.take_left]
      refine ⟨f, he.trans hsize ▸ hf, ?_⟩
      rw [htake]
      exact function?_eq.2 (by rw [hget, if_pos rfl])
    case isFalse hne =>
      have hlt : k < handles.size := (Array.getElem?_eq_some_iff.1 hk).1
      have htake : (handles.push h).toList.take k = handles.toList.take k := by
        rw [Array.toList_push, List.take_append_of_le_length (by simpa using hlt.le)]
      obtain ⟨q, hq, hp⟩ := hstored k g hk
      exact ⟨q, hq, htake ▸ hkeep.function? hp⟩
  exact hall.2.2

namespace Machine

/-- **The heap grows** by code, and by closures that nothing refers to yet. -/
theorem Models.grows (hm : m.Models β φ μ) {next : Heap} (hw : next.Wf)
    (hkeep : m.heap.Kept next)
    (hcell : ∀ g d, next.cell? g = some d → m.heap.cell? g = some d) :
    ({ m with heap := next } : Machine ω).Models β φ μ := by
  refine { hm with
    twin := hm.twin.keep hw hm.twin.wf' hkeep fun _ _ ho => ho
    closures := fun h h' hh => ?_
    cells := fun h g hh => ?_
    opened := fun h k hk => hm.opened h k (hcell _ _ hk)
    tied := fun k g h hk hh => hkeep.cell? (hm.tied k g h hk hh) }
  · obtain ⟨d, f, hd, hf, hp⟩ := hm.closures h h' hh
    exact ⟨d, f, hkeep.closure? hd, hf, hp.mono (.refl β) fun _ _ hp => hkeep.function? hp⟩
  · obtain ⟨w, hw, hwhere⟩ := hm.cells h g hh
    refine ⟨w, hw, ?_⟩
    rcases hwhere with ⟨w', hc, hs⟩ | ⟨k, hc, hk⟩
    · exact .inl ⟨w', hkeep.cell? hc, hs⟩
    · exact .inr ⟨k, hkeep.cell? hc, hk⟩

/-- **A script has started** on a machine between two runs: the function that runs is on the stack, and
nothing else is. -/
theorem Idle.start_eq (hi : m.Idle) {heap next last : Heap} {chunk : Chunk Value} {f g : Handle}
    (hf : heap.insert (.function (scriptPrototype chunk)) = (f, next))
    (hg : next.insert (.closure { function := f, cells := #[] }) = (g, last)) :
    Machine.start { m with heap } chunk
      = { m with
          heap := last, stack := #[.closure g], frames := [{ closure := g, chunk, ip := 0, base := 0 }] } := by
  have hf' : heap.insert (.function { name := scriptName, params := [], captures := 0, chunk })
      = (f, next) := hf
  unfold Machine.start
  simp only [hf', hg, hi.frames, Machine.push, hi.stack]
  rfl

/-- **The call of a script,** in front of its first statement. -/
theorem Idle.starts (hi : m.Idle) (hm : m.Models β (fun _ => .value) μ) (c : Compiled) :
    ∃ (S : Site) (φ : Roles), S.frame.base = 0 ∧ S.callers = [] ∧ S.outer = [] ∧ S.name = scriptName ∧
      S.tables = c.tables ∧ S.frame.chunk = (m.heap.install c).1 ∧
      Rests S β φ [""] [] 0 (Machine.start { m with heap := (m.heap.install c).2 } (m.heap.install c).1) μ := by
  have hadds := Heap.addsCode_storeAll hm.twin.wf c.functions
  have hinstalled := Heap.installed_storeAll hm.twin.wf c.functions
  have hchunk : (m.heap.install c).1
      = c.main.mapConstants (Heap.literalValue (m.heap.storeAll c.functions).1) := rfl
  have hheap : (m.heap.install c).2 = (m.heap.storeAll c.functions).2 := rfl
  rw [hheap]
  generalize (m.heap.install c).1 = chunk at hchunk ⊢
  generalize (m.heap.storeAll c.functions).1 = handles at hchunk hinstalled
  generalize (m.heap.storeAll c.functions).2 = heap at hadds hinstalled ⊢
  cases hf : heap.insert (.function (scriptPrototype chunk)) with
  | mk f next =>
  cases hg : next.insert (.closure { function := f, cells := #[] }) with
  | mk g last =>
  have hadds' := hadds.trans (Heap.addsCode_insert hadds.wf hf)
  obtain ⟨-, -, hgetf⟩ := Heap.get?_insert hadds.wf hf
  obtain ⟨-, hw, hgetg⟩ := Heap.get?_insert hadds'.wf hg
  have hkeep := Heap.kept_insert hadds'.wf hg
  -- Neither the functions, nor the script, nor its closure is a cell.
  have hcell : ∀ k d, last.cell? k = some d → m.heap.cell? k = some d := by
    intro k d hd
    rw [Heap.cell?_insert hadds'.wf hg nofun, Heap.cell?_eq] at hd
    obtain hold | ⟨p, hp⟩ := hadds'.new k _ hd
    · exact Heap.cell?_eq.2 hold
    · cases hp
  have hclosure : last.closure? g = some { function := f, cells := #[] } :=
    Heap.closure?_eq.2 (by rw [hgetg, if_pos rfl])
  have hfunction : last.function? f = some (scriptPrototype chunk) :=
    hkeep.function? (Heap.function?_eq.2 (by rw [hgetf, if_pos rfl]))
  have hname : last.functionName? g = some scriptName := by
    unfold Heap.functionName? Heap.code?
    rw [hclosure]
    simp only [hfunction]
    rfl
  rw [hi.start_eq hf hg]
  -- Slot 0 holds the closure of the script, which is no variable of the program.
  have hgrown : ({ m with
      heap := last, stack := #[.closure g], frames := [{ closure := g, chunk, ip := 0, base := 0 }] } :
      Machine ω).Models β (Roles.set (fun _ => .value) 0 .hidden) μ :=
    (((hm.grows hw (Heap.Kept.trans hadds'.keep hkeep) hcell).withStack nofun).withFrames _).hide
      rfl
  refine ⟨{ frame := { closure := g, chunk, ip := 0, base := 0 }, callers := [], tables := c.tables, handles
            cells := #[], outer := [], name := scriptName }, _, rfl, rfl, rfl, rfl, rfl, rfl,
    ⟨⟨hgrown, ?_, rfl⟩, ?_, rfl, ?_⟩⟩
  · exact
      { closure := ⟨f, hclosure⟩
        closes := ⟨fun _ _ _ => nofun, fun _ _ _ => rfl⟩
        fill := ⟨by rw [hchunk]; rfl, by rw [hchunk]; rfl⟩
        installed := hinstalled.mono fun k p hp =>
          hkeep.function? ((Heap.kept_insert hadds.wf hf).function? hp)
        name := by
          dsimp only
          rw [hname]
          rfl
        named := by
          dsimp only
          rw [hname]
          rfl }
  · exact Site.inScope_entry nofun
  · exact Roles.Under.set (fun _ _ => rfl) .hidden

end Machine

/-! ### The run -/

/-- What is left of a script at its end: a value, and a machine that stands for the memory. -/
def Completes (v : Value) (μ : Memory ω) (m : Machine ω) : Prop :=
  ∃ β w m', m.step = .done w m' ∧ w.Similar β v ∧ m'.Models β (fun _ => .value) μ

/-- **The return of a script** is the end of the run. -/
theorem Returns.completes (h : Returns S β φ m v μ m') (hr : m'.Running) (hbase : S.frame.base = 0)
    (hcallers : S.callers = []) : Completes v μ m' := by
  obtain ⟨γ, ψ, w, m'', hstep, hv, -, hm, -, -⟩ := h.step hr
  rw [if_pos hcallers] at hstep
  rw [hbase] at hm
  have hnone : ψ.below 0 = fun _ => .value := funext fun k => ψ.below_of_le (Nat.zero_le k)
  exact ⟨γ, w, m'', hstep, hv, hnone ▸ hm⟩

theorem splitLast_names {ok : String → Prop} {ps : List Stmt} (h : Stmt.AllNames ok ps) :
    Stmt.AllNames ok (splitLast ps).1 ∧ ∀ e ∈ (splitLast ps).2, e.Names ok := by
  induction ps using splitLast.induct with
  | case1 =>
    refine ⟨trivial, fun e he => ?_⟩
    cases he
  | case2 value =>
    refine ⟨trivial, fun e he => ?_⟩
    cases he
    exact h.1
  | case3 p ps hlast ih =>
    rw [splitLast]
    · exact ⟨⟨h.1, (ih h.2).1⟩, (ih h.2).2⟩
    · exact hlast

/-- **A script is followed:** its code does what evaluation does, from beginning to end. -/
theorem Program.follows (hi : m.Idle) (hm : m.Models β (fun _ => .value) μ)
    (hregular : Stmt.AllRegular p.statements) (hnames : Stmt.AllNames (· ≠ "") p.statements)
    (hc : Compiled.ofProgram p = .ok c) (fuel : Nat) :
    Follows fuel (Machine.start { m with heap := (m.heap.install c).2 } (m.heap.install c).1) Completes
      (p.eval fuel μ) := by
  obtain ⟨body, value, hbody, hvalue, hreads⟩ := Compiled.translates_ofProgram hregular hc
  obtain ⟨hnames', hlast⟩ := splitLast_names hnames
  obtain ⟨S, φ, hbase, hcallers, houter, hname, htables, hchunk, hrests⟩ := hi.starts hm c
  have hr := hi.start (Compiled.sound_ofProgram hregular hc)
  generalize Machine.start { m with heap := (m.heap.install c).2 } (m.heap.install c).1 = m₀ at hrests hr ⊢
  have hat : S.Has 0 (body ++ (value ++ [(⟨.return_, ()⟩, 0)])) := by
    unfold Site.Has
    rw [hchunk]
    exact (hreads.mapConstants _).has
  have hcalls : S.Calls fuel (Eval.apply (ω := ω) fuel (S.callers.length + 1) S.name) := Site.calls fuel S
  rw [hcallers, hname] at hcalls
  have hdone := Stmt.doesAll hcalls (Nat.le_refl fuel) _ hnames' (splitLast_regular hregular)
    (htables ▸ hbody) hat.left (fun l hl => by cases hl) β φ m₀ μ hr hrests
  unfold Program.eval
  refine .bind hr hdone fun flow μ₁ m₁ hr₁ hexits => ?_
  cases flow with
  | return_ v => exact .refl (Returns.completes hexits hr₁ hbase hcallers)
  | break_ | continue_ =>
    obtain ⟨l, hl, -⟩ := hexits
    cases hl
  | next env =>
    obtain ⟨γ, ψ, -, hrests₁⟩ := hexits
    -- Outside all blocks no variable has come into scope.
    have hscope : S.InScope ψ [""] [] :=
      houter ▸ Site.inScope_entry (hrests₁.scope.taken 0 Nat.zero_lt_one)
    have hvalued := Expr.computesOrNil hcalls hscope hlast (htables ▸ hvalue) hat.right.left γ m₁ μ₁ hr₁
      hrests₁.here hrests₁.under
    refine .last hr₁ hvalued fun v μ₂ m₂ hr₂ hl => .refl ?_
    exact (hl.returns (by rw [hbase]; exact Nat.zero_le _) hat.right.right).completes hr₂ hbase hcallers

/-! ### Ends -/

/-- **A run ends as an evaluation does:** with a similar value, on a machine between two runs that stands
for the memory of the result; or with an error for the same cause, and there is the same to be seen. Behind
an error the machine stands for the memory as well, unless a captured variable was still on the stack. -/
inductive Ends : Finish × Machine ω → Result ω Value → Prop
  | value {β : Link} {w v : Value} {m : Machine ω} {μ : Memory ω} (hv : w.Similar β v) (hi : m.Idle)
    (hm : m.Models β (fun _ => .value) μ) : Ends (.value w, m) (.ok v μ)
  | error {β : Link} {e : ScriptError} {m : Machine ω} {μ : Memory ω} (hm : m.Mirrors β μ)
    (hstands : (∀ slot, ¬m.Open slot) → m.Idle ∧ m.Models β (fun _ => .value) μ) :
    Ends (.error e, m) (.error e.cause μ)

namespace Machine

/-- What is left of a sound machine where nothing is open is a machine between two runs. -/
theorem Sound.reset (hs : m.Sound β) (hclosed : ∀ slot, ¬m.Open slot) : m.reset.Idle where
  sound := ⟨β,
    { hs with
      stack := fun v hv => by cases Array.not_mem_empty v hv
      opened := fun h => ⟨nofun, fun ⟨slot, hc⟩ => absurd ⟨h, hc⟩ (hclosed slot)⟩
      nodup := .nil }⟩
  stack := rfl
  frames := rfl
  opened := rfl

/-- **What is left of a machine where nothing is open** stands for the memory for which the machine stood:
every variable is in a cell of its own. -/
theorem Models.reset (hm : m.Models β φ μ) (hclosed : ∀ slot, ¬m.Open slot) :
    m.reset.Models β (fun _ => .value) μ :=
  { hm with
    twin := hm.twin
    slots := nofun
    cells := fun h g hh => by
      obtain ⟨v, hv, hwhere⟩ := hm.cells h g hh
      obtain hown | ⟨slot, hc, -⟩ := hwhere
      · exact ⟨v, hv, .inl hown⟩
      · exact absurd ⟨h, hc⟩ (hclosed slot)
    opened := fun h slot hc => absurd ⟨h, hc⟩ (hclosed slot)
    tied := nofun
    apart := nofun }

/-- **A sound machine that fails** where it stands for a memory ends as an evaluation that fails there. -/
theorem Models.ends_error (hm : m.Models β φ μ) {γ : Link} (hs : m.Sound γ) (e : ScriptError) :
    Ends (.error e, m.reset) (.error e.cause μ) :=
  .error { hm with twin := hm.twin } fun hclosed => ⟨hs.reset hclosed, hm.reset hclosed⟩

end Machine

namespace Machine

/-- Fewer instructions than there are do not end a run. -/
theorem Runs.unfinished {count fuel : Nat} (h : m.Runs count m') (hle : fuel ≤ count) :
    (m.resume fuel).1 = .unfinished := by
  induction h generalizing fuel with
  | refl m =>
    obtain rfl := Nat.le_zero.1 hle
    rfl
  | next hs _ ih =>
    cases fuel with
    | zero => rfl
    | succ fuel =>
      rw [Machine.resume, hs]
      exact ih (Nat.le_of_succ_le_succ hle)

end Machine

/-- **A machine that follows an evaluation** ends with it: as soon as it has been given enough
instructions if the evaluation ends, and whenever it ends within as many as the evaluation was given
rounds and calls. -/
theorem Follows.ends {bound : Nat} {r : Result ω Value} (hr : m.Running)
    (h : Follows bound m Completes r) :
    (r ≠ .unfinished → ∃ n, ∀ k, n ≤ k → Ends (m.resume k) r) ∧
      ∀ k, k ≤ bound → (m.resume k).1 ≠ .unfinished → Ends (m.resume k) r := by
  -- Either the run is over behind some number of instructions, or it is not over within the bound.
  have hover : ∀ {count : Nat} {m' : Machine ω} (last : Finish × Machine ω), m.Runs count m' →
      (∀ k, m'.resume (k + 1) = last) → Ends last r →
      (∀ k, count + 1 ≤ k → Ends (m.resume k) r) ∧
        ∀ k, (m.resume k).1 ≠ .unfinished → Ends (m.resume k) r := by
    intro count m' last hruns hend hends
    have henough : ∀ k, count + 1 ≤ k → Ends (m.resume k) r := by
      intro k hk
      obtain ⟨more, rfl⟩ := Nat.exists_eq_add_of_le hk
      rw [Nat.add_assoc, hruns.resume, Nat.add_comm 1, hend]
      exact hends
    refine ⟨henough, fun k hk => henough k ?_⟩
    by_contra hlt
    exact hk (hruns.unfinished (by omega))
  cases h with
  | ok hruns hq =>
    obtain ⟨β, w, m'', hstep, hv, hm⟩ := hq
    have hi : m''.Idle := by
      have hsafe := (hruns.running hr).step
      rw [hstep] at hsafe
      cases hsafe with
      | done hi _ => exact hi
    obtain ⟨henough, hwhen⟩ := hover (.value w, m'') hruns (fun k => by rw [Machine.resume, hstep])
      (.value hv hi hm)
    exact ⟨fun _ => ⟨_, henough⟩, fun k _ => hwhen k⟩
  | @error count cause μ m' m'' β φ hruns hstep hm =>
    have hends : Ends (.error (m''.errorHere cause), m''.reset) (.error cause μ) := by
      have hsafe := (hruns.running hr).step
      rw [hstep] at hsafe
      cases hsafe with
      | raise _ hs => exact hm.ends_error hs _
    obtain ⟨henough, hwhen⟩ := hover _ hruns (fun k => by rw [Machine.resume, hstep]) hends
    exact ⟨fun _ => ⟨_, henough⟩, fun k _ => hwhen k⟩
  | unfinished hle hruns =>
    exact ⟨fun h => absurd rfl h, fun k hk hne => absurd (hruns.unfinished (hk.trans hle)) hne⟩

/-! ### Machines that stand for memories -/

namespace Machine

/-- The memory at the beginning: the functions of the language and of the host, and nothing else. -/
def memory (assets : Assets) (library : Library ω) (world : ω) : Memory ω :=
  { globals := provided library, heap := Heap.empty, lambdas := fun _ => none, assets, library, world
    output := "" }

/-- **A machine at its beginning** stands for the memory at the beginning. -/
theorem models_offering (assets : Assets) (library : Library ω) (world : ω) :
    (offering assets library world).Models ⟨fun _ _ _ => False, fun name => name ∈ library.names⟩
      (fun _ => .value) (memory assets library world) := by
  rw [offering_eq]
  refine {
    twin := ⟨Heap.wf_empty, Heap.wf_empty, nofun, nofun, nofun, nofun, nofun,
      fun _ _ h => h.elim False.elim False.elim⟩
    globals := ?_
    output := rfl
    world := rfl
    assets := rfl
    library := rfl
    builtins := fun name hname => ?_
    functions := fun _ _ => id
    closures := nofun
    slots := nofun
    cells := nofun
    opened := fun h slot hc => ?_
    tied := nofun
    apart := nofun }
  · exact matching_insertAll library.names id .builtin (fun name hname => .builtin hname)
      (matching_insertAll Intrinsic.all Intrinsic.name .intrinsic (fun f _ => .intrinsic f)
        matching_empty)
  · obtain ⟨b, hb, rfl⟩ := List.mem_map.1 hname
    exact List.find?_isSome.2 ⟨b, hb, by simp⟩
  · rw [Heap.cell?_eq, Heap.get?_empty] at hc
    cases hc

/-- **A host stores a value** in a global, on both sides. -/
theorem Models.defines (hm : m.Models β φ μ) (name : String) (value : HostValue) (isMutable : Bool) :
    ∃ γ, ({ m with heap := (Heap.ofHost value m.heap).2 }.define name (Heap.ofHost value m.heap).1
        isMutable).Models γ φ
      { μ with
        heap := (Heap.ofHost value μ.heap).2
        globals := μ.globals.insert name ⟨(Heap.ofHost value μ.heap).1, isMutable⟩ } := by
  obtain ⟨γ, hx, hv⟩ := hm.twin.ofHost value
  exact ⟨γ, (hm.extend hx).withGlobal name hv isMutable⟩

end Machine

/-! ### The main statement -/

/-- **Scripts mean what their code does.** On a machine that stands for a memory, the code of a script
ends if and only if its evaluation does, and alike. -/
theorem Script.means {source : String} {script : Script} (h : Script.ofSource source = .ok script)
    (hi : m.Idle) (hm : m.Models β (fun _ => .value) μ) :
    (∀ fuel, script.program.eval fuel μ ≠ .unfinished →
      ∃ n, ∀ k, n ≤ k → Ends (m.runCompiled script.compiled k) (script.program.eval fuel μ)) ∧
    ∀ k fuel, k ≤ fuel → (m.runCompiled script.compiled k).1 ≠ .unfinished →
      Ends (m.runCompiled script.compiled k) (script.program.eval fuel μ) := by
  obtain ⟨hprogram, hcompiled⟩ := Script.of_ofSource h
  obtain ⟨hregular, hspelled⟩ := Program.spelled_ofSource hprogram
  have hrunning := hi.start (Compiled.sound_ofProgram hregular hcompiled)
  have hends := fun fuel => (Program.follows hi hm hregular hspelled hcompiled fuel).ends hrunning
  exact ⟨fun fuel => (hends fuel).1, fun k fuel hk => (hends fuel).2 k hk⟩

end DeployScript
