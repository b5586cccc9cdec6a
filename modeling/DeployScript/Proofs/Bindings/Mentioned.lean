import DeployScript.Proofs.Bindings.Immutable
import DeployScript.Proofs.Code.Touches
import DeployScript.Proofs.Session.Confined

/-!
# A run touches what its script mentions

All functions of a machine are code of routines, and a routine touches no global that its script does not
mention. So a builtin that the script does not mention is nowhere but under its own name: nothing reads
it there, and a host that calls it by its name has its result and not the builtin itself.

* `Routine.Mentions` — what a routine mentions; `Routine.Of.mentions`.
* `Machine.Touches` — a machine is about to read or to assign a global; `Machine.Faithful.touches`.
* `Machine.Has` — where a run has what it has read.
* `During.guarded` — a run has no builtins but mentioned ones.
* `Script.touched_is_mentioned` — a script and its runs.
-/

namespace DeployScript

variable {ω : Type} {A : String → Prop} {n : String}

/-! ### Routines -/

mutual

/-- A statement mentions what a function that it declares mentions. -/
theorem Stmt.mentions_of_functions {f : List String × List Stmt} (hn : Stmt.AnyMentions f.2 n) :
    (p : Stmt) → f ∈ p.functions → p.Mentions n
  | .block body _, hf => Stmt.anyMentions_of_functions hn body hf
  | .if_ _ body none _, hf | .while_ _ body _, hf | .for_ _ _ body _, hf =>
    .inr (Stmt.anyMentions_of_functions hn body hf)
  | .if_ _ body (some orElse) _, hf => by
    refine .inr ((List.mem_append.1 hf).imp ?_ ?_)
    · exact Stmt.anyMentions_of_functions hn body
    · exact orElse.mentions_of_functions hn
  | .function _ params body _, hf => by
    obtain rfl : f = (params, body) := List.mem_singleton.1 hf
    exact hn
  | .expr _, hf | .var .., hf | .let_ .., hf | .return_ .., hf | .break_ _, hf | .continue_ _, hf =>
    absurd hf List.not_mem_nil

theorem Stmt.anyMentions_of_functions {f : List String × List Stmt} (hn : Stmt.AnyMentions f.2 n) :
    (ps : List Stmt) → f ∈ Stmt.functionsAll ps → Stmt.AnyMentions ps n
  | [], hf => absurd hf List.not_mem_nil
  | p :: ps, hf => by
    refine (List.mem_append.1 hf).imp ?_ ?_
    · exact p.mentions_of_functions hn
    · exact Stmt.anyMentions_of_functions hn ps

end

namespace Routine

variable {r : Routine} {p : Program}

/-- **A routine mentions a name** if one of its statements does. -/
def Mentions (r : Routine) (n : String) : Prop :=
  match r.text with
  | .script p => Stmt.AnyMentions p.statements n
  | .function _ body => Stmt.AnyMentions body n

theorem mentions_of_functions {params : List String} {body : List Stmt}
    (hf : (params, body) ∈ r.functions) (hn : Stmt.AnyMentions body n) : r.Mentions n := by
  obtain ⟨text, captures, outer⟩ := r
  cases text with
  | script p => exact anyMentions_splitLast.2 (.inl (Stmt.anyMentions_of_functions hn _ hf))
  | function _ _ => exact Stmt.anyMentions_of_functions hn _ hf

/-- **The routines of a program** mention what the program mentions. -/
theorem Of.mentions (h : Of p r) (hn : r.Mentions n) : n ∈ p.mentions := by
  induction h with
  | script => exact Program.mem_mentions.2 hn
  | function _ hf _ _ ih => exact ih (mentions_of_functions hf hn)

/-- **The instructions of a routine** touch what it mentions. -/
theorem Coded.touchesOnly {T : Tables} {code : Written} (h : r.Coded T code)
    (hA : ∀ n, r.Mentions n → A n) : code.TouchesOnly T.names A := by
  obtain ⟨text, captures, outer⟩ := r
  cases text with
  | script p =>
    obtain ⟨body, value, hbody, hvalue, rfl⟩ := h
    have hfirst := Stmt.allTouchOnly _ (fun n hn => hA n (anyMentions_splitLast.2 (.inl hn))) _ body hbody
    have hlast := touchesOnly_valueOrNil hvalue fun n hn => hA n (anyMentions_splitLast.2 (.inr hn))
    exact Written.touchesOnly_append.2 ⟨hfirst, hlast.snoc rfl⟩
  | function params body =>
    obtain ⟨inner, line, hinner, rfl⟩ := h
    exact touchesOnly_body hinner hA line

end Routine

/-! ### Functions of a machine -/

/-- **A function that is the code of a routine** touches what the routine mentions. -/
theorem Heap.Holds.touchesOnly {heap : Heap} {h : Handle} {r : Routine} {p : Prototype Value}
    (hh : heap.Holds h r) (hp : heap.function? h = some p) (hA : ∀ n, r.Mentions n → A n) :
    p.chunk.TouchesOnly A := by
  obtain ⟨functions, at_, q, -, ⟨handles, hq, -⟩, hcodes⟩ := hh
  obtain rfl := Option.some.inj (hp.symm.trans hq)
  obtain ⟨code, hcoded, hreads⟩ := hcodes.code
  exact ⟨code, hreads.mapConstants _, hcoded.touchesOnly hA⟩

/-- The instruction at a place of a routine is one of its code. -/
theorem Chunk.TouchesOnly.instr {κ : Type} {c : Chunk κ} {r : Routine} {place : Nat}
    {vars : List Variable} {i : Instr} (h : c.TouchesOnly A) (hplace : r.InScope c place vars)
    (hi : Instr.decode c.code place = .instr i) : i.TouchesOnly c.names A := by
  obtain ⟨code, hreads, htouches⟩ := h
  obtain ⟨code', k, hreads', hk, -⟩ := hplace
  obtain rfl := hreads.unique hreads'
  obtain ⟨before, e, after, rfl, rfl⟩ := Written.mem_places.1 (List.mem_of_getElem? hk)
  have hdecode := hreads.has.right.decode
  obtain rfl := Instr.Decoded.instr.inj (hi.symm.trans hdecode)
  exact htouches e (List.mem_append_right _ List.mem_cons_self)

namespace Machine

variable {m : Machine ω} {source : String} {p : Program}

/-- **A machine is about to touch a global:** its next instruction reads or assigns it. -/
def Touches (m : Machine ω) (name : String) : Prop :=
  ∃ f callers i index, m.frames = f :: callers ∧ Instr.decode f.chunk.code f.ip = .instr i ∧
    i.global? = some index ∧ f.chunk.names[index.toNat]? = some name

/-- **A machine with the functions of one script** touches what the script mentions. -/
theorem Faithful.touches (hm : m.Faithful (· = source)) (hr : m.Running)
    (hp : Program.ofSource source = .ok p) (h : m.Touches n) : n ∈ p.mentions := by
  obtain ⟨f, callers, i, index, hframes, hdecode, hindex, hname⟩ := h
  obtain ⟨β, f', callers', c, q, i', u, hat⟩ := hr.at_
  obtain ⟨rfl, rfl⟩ := List.cons.inj (hframes.symm.trans hat.frames)
  obtain rfl := Instr.Decoded.instr.inj (hdecode.symm.trans hat.decode)
  obtain ⟨r, hholds, _, p', rfl, hp', hof⟩ := hm.routines _ _ hat.closure
  obtain rfl := Except.ok.inj (hp.symm.trans hp')
  obtain ⟨paint, -, hpaints⟩ := hat.paints hholds
  have htouches := (hholds.touchesOnly hat.function fun _ => hof.mentions).instr hpaints.scope
    (hat.chunk ▸ hdecode)
  obtain ⟨name, hname', hmentions⟩ := htouches index hindex
  rw [hat.chunk, hname] at hname'
  exact Option.some.inj hname' ▸ hmentions

end Machine

/-! ### Runs -/

namespace Library

variable {l : Library ω} {p : Program}

theorem mem_mentioned : n ∈ l.mentioned p ↔ n ∈ l.names ∧ n ∈ p.mentions :=
  List.mem_filter.trans (and_congr_right' Std.TreeSet.contains_iff_mem)

/-- **Globals with no builtin but given ones,** and those of the library under their own names. -/
def Binds (l : Library ω) (A : Set String) (globals : Std.TreeMap String Binding) : Prop :=
  ∀ (name : String) (b : Binding), globals[name]? = some b →
    b.value.Within A ∨ (name ∈ l.names ∧ b.value = .builtin name)

theorem Binds.insert {A : Set String} {globals : Std.TreeMap String Binding} {name : String} {v : Value}
    {isMutable : Bool} (h : l.Binds A globals) (hv : v.Within A) :
    l.Binds A (globals.insert name ⟨v, isMutable⟩) := by
  intro name' b hb
  rw [Std.TreeMap.getElem?_insert] at hb
  split at hb
  · cases hb
    exact .inl hv
  · exact h name' b hb

/-- **The guard of a program:** builtins that it does not mention are nowhere but under their names. -/
def mentionGuard (l : Library ω) (p : Program) : Guard ω where
  within := fun name => name ∈ l.mentioned p
  holds _ _ globals := l.Binds (fun name => name ∈ l.mentioned p) globals
  acts h _ _ _ := h
  binds h hv _ := h.insert hv

end Library

namespace Machine

variable {l : Library ω} {p : Program} {m m' : Machine ω} {G : Guard ω}

/-- Between two runs there is nothing on the stack, and no code runs. -/
theorem Idle.guarded (hi : m.Idle) (hheap : m.heap.Within G.within)
    (hhost : G.holds m.library m.world m.globals) : m.Guarded G where
  stack v hv := by
    rw [hi.stack] at hv
    exact (Array.not_mem_empty v hv).elim
  heap := hheap
  frames f hf := by
    rw [hi.frames] at hf
    exact (List.not_mem_nil hf).elim
  host := hhost

/-- At the beginning the builtins of the library are bound to their names, and are nowhere else. -/
theorem guarded_offering (assets : Assets) (world : ω) :
    (offering assets l world).Guarded (l.mentionGuard p) := by
  refine (idle_offering assets l world).guarded ?_ ?_
  · rw [offering_eq]
    exact Heap.Within.empty
  · rw [offering_eq]
    intro name b hb
    obtain hown | ⟨f, hf⟩ := provided_eq_some hb
    · exact .inr hown
    · exact .inl (hf ▸ trivial)

/-- A call of a builtin stores its result, and calls nothing else. -/
theorem callBuiltin_next {name : String} {count : Nat} (h : m.callBuiltin name count = .next m') :
    ∃ result, m'.heap = (Heap.ofHost result m.heap).2 ∧ m'.frames = m.frames := by
  unfold callBuiltin at h
  split at h
  · cases h
  · split at h
    · cases h
    · dsimp only at h
      split at h
      case h_1 => cases h
      case h_2 result world _ =>
        obtain rfl := Outcome.next.inj h
        exact ⟨result, rfl, rfl⟩

/-- A call of a builtin from outside stores its arguments too. -/
theorem calling_builtin {name : String} {args : List HostValue} {A : Set String}
    (h : m.calling (.builtin name) args = .next m') (hm : m.heap.Within A) :
    m'.heap.Within A ∧ m'.frames = m.frames := by
  have hargs := (hm.ofHostItems args #[] fun v hv => (Array.not_mem_empty v hv).elim).2
  obtain ⟨result, hheap, hframes⟩ := callBuiltin_next h
  rw [stack_pushAll] at hheap hframes
  exact ⟨hheap ▸ (hargs.ofHost result).2, hframes⟩

/-- What a global has. -/
theorem Guarded.global? (hm : m.Guarded (l.mentionGuard p)) {name : String} {v : Value}
    (hv : m.global? name = some v) :
    v.Within (l.mentionGuard p).within ∨ (name ∈ l.names ∧ v = .builtin name) := by
  obtain ⟨b, hb, rfl⟩ := Option.map_eq_some_iff.1 hv
  exact hm.host name b hb

/-- **What a script reads** from a global that it mentions. If it is a builtin that has only its own name,
then this name is mentioned. -/
theorem Guarded.read (hm : m.Guarded (l.mentionGuard p)) {name : String} {v : Value}
    (hname : name ∈ p.mentions) (hv : m.global? name = some v) : v.Within (l.mentionGuard p).within := by
  rcases hm.global? hv with hwithin | ⟨hmem, rfl⟩
  · exact hwithin
  · exact Library.mem_mentioned.2 ⟨hmem, hname⟩

end Machine

namespace Advances

variable {l : Library ω} {source : String} {p : Program} {moment moment' : Moment} {m m' : Machine ω}

/-- An instruction of the script reads what the script mentions. -/
theorem guarded_step (hr : m.Running) (hm : m.Faithful (· = source))
    (hp : Program.ofSource source = .ok p) (hg : m.Guarded (l.mentionGuard p)) :
    m.step.Guarded (l.mentionGuard p) := by
  refine hg.step fun f callers i hframes hdecode index name v hi hname hv => ?_
  rw [Machine.moveTo_eq hframes] at hname hv
  subst hi
  exact hg.read (hm.touches hr hp ⟨f, callers, _, index, hframes, hdecode, rfl, hname⟩) hv

/-- **Whatever may happen,** no builtin gets anywhere that the script does not mention. -/
theorem guarded (ha : Advances l (· = source) moment m moment' m') (h : Reached l moment m)
    (hm : m.Faithful (· = source)) (hp : Program.ofSource source = .ok p)
    (hg : m.Guarded (l.mentionGuard p)) : m'.Guarded (l.mentionGuard p) := by
  have hreached := ha.reached h
  cases ha with
  | collect => exact hg.collect
  | define hprovides =>
    obtain ⟨value, isMutable, rfl⟩ := hprovides
    obtain ⟨hv, hheap⟩ := hg.heap.ofHost value
    exact hreached.fine.2.guarded hheap (hg.host.insert hv)
  | start _ hc =>
    obtain ⟨hmain, hheap⟩ := hg.heap.install _
    exact (hg.withHeap hheap).start hmain
  | @call _ _ _ _ hglobal args hc hbusy =>
    rcases hg.global? hglobal with hcallee | ⟨-, rfl⟩
    · have hcalled := hg.calling hcallee args
      rw [hc] at hcalled
      exact hcalled
    · obtain ⟨-, hframes⟩ := Machine.calling_builtin hc hg.heap
      exact absurd (hframes.trans h.fine.2.frames) hbusy
  | @called _ _ _ _ hglobal args hc hidle =>
    rcases hg.global? hglobal with hcallee | ⟨-, rfl⟩
    · have hcalled := hg.calling hcallee args
      rw [hc] at hcalled
      exact Machine.Guarded.pop hcalled |>.2
    · -- The host has called a builtin that the script does not mention, and has its result.
      obtain ⟨hheap, -⟩ := Machine.calling_builtin hc hg.heap
      obtain ⟨-, hglobals⟩ := h.fine.2.calling_steady hglobal hc
      have hhost : l.Binds (l.mentionGuard p).within _ := hglobals ▸ hg.host
      exact hreached.fine.2.guarded hheap hhost
  | step hs =>
    have hstep := guarded_step h.fine.2 hm hp hg
    rw [hs] at hstep
    exact hstep
  | finish hs =>
    have hstep := guarded_step h.fine.2 hm hp hg
    rw [hs] at hstep
    exact hstep

end Advances

/-- **A run of a script,** with whatever its host does before and after: no builtin gets anywhere that the
script does not mention. -/
theorem During.guarded {l : Library ω} {source : String} {p : Program} {assets : Assets} {world : ω}
    {P : Machine ω → Prop} {moment : Moment} {m : Machine ω}
    (h : During l (· = source) P .between (Machine.offering assets l world) moment m)
    (hp : Program.ofSource source = .ok p) : m.Guarded (l.mentionGuard p) := by
  induction h with
  | here => exact Machine.guarded_offering assets world
  | next h ha _ ih =>
    obtain ⟨hr, hm⟩ := h.reached (.new assets world) (Machine.faithful_offering assets world)
    exact ha.guarded hr hm hp ih

/-- **Where a run has a value:** in a global that it is about to touch, on the stack, in an object of the
heap whether it is in use or not, or among the constants of code that runs. -/
inductive Machine.Has (m : Machine ω) (v : Value) : Prop
  | touched {name : String} (ht : m.Touches name) (hv : m.global? name = some v)
  | stack (hv : v ∈ m.stack)
  | object {h : Handle} {o : Object} (ho : m.heap.get? h = some o) (hv : v ∈ o.values)
  | running {f : Frame} (hf : f ∈ m.frames) (hv : v ∈ f.chunk.constants)

/-- **What a script touches, it mentions.** All code of a checked source, that of the script and that of
every function in it, reads and assigns only globals whose names are mentioned. So no run of the script,
on a machine with any library, is ever about to touch another global; and whatever builtin it has
anywhere is one of those that the library has for the names that the script mentions. -/
theorem Script.touched_is_mentioned {source : String} {script : Script}
    (h : Script.ofSource source = .ok script) :
    (∀ chunk ∈ script.compiled.chunks, chunk.TouchesOnly (· ∈ script.program.mentions)) ∧
    ∀ {ω : Type} (l : Library ω) (assets : Assets) (world : ω) (moment : Moment) (m : Machine ω),
      During l (· = source) (fun _ => True) .between (Machine.offering assets l world) moment m →
        (∀ name, m.Touches name → name ∈ script.program.mentions) ∧
        ∀ name, m.Has (.builtin name) → name ∈ l.mentioned script.program := by
  obtain ⟨hp, hc⟩ := Script.of_ofSource h
  refine ⟨Compiled.chunks_touchesOnly (Program.spelled_ofSource hp).1 hc, ?_⟩
  intro ω l assets world moment m hduring
  obtain ⟨hr, hm⟩ := hduring.reached (.new assets world) (Machine.faithful_offering assets world)
  have hguarded := hduring.guarded hp
  have htouched : ∀ name, m.Touches name → name ∈ script.program.mentions := by
    intro name ht
    cases moment with
    | inside => exact hm.touches hr.fine.2 hp ht
    | between =>
      obtain ⟨f, callers, -, -, hframes, -⟩ := ht
      rw [hr.fine.2.frames] at hframes
      cases hframes
  refine ⟨htouched, fun name hv => ?_⟩
  cases hv with
  | touched ht hv => exact hguarded.read (htouched _ ht) hv
  | stack hv => exact hguarded.stack _ hv
  | object ho hv => exact hguarded.heap _ _ ho _ hv
  | running hf hv => exact hguarded.frames _ hf _ hv

/-- Two builtins, neither of which does anything. -/
def Library.clocks : Library Unit where
  builtins := ["Now", "Later"].map fun name => { name, params := [], run := fun _ _ n => (.ok .nil, n) }

/-- A script has started on a machine with these. -/
def Machine.clocked (c : Compiled) : Machine Unit :=
  let m : Machine Unit := Machine.offering {} Library.clocks ()
  Machine.start { m with heap := (m.heap.install c).2 } (m.heap.install c).1

/-- Behind the instruction that reads one of them, the script has it on the stack. -/
theorem now_runs : (match Script.ofSource "Now" with
    | .ok script => match (Machine.clocked script.compiled).step with
      | .next m => match m.stack[1]? with
        | some (Value.builtin "Now") => Library.clocks.mentioned script.program == ["Now"]
        | _ => false
      | _ => false
    | .error _ => false) = true := by
  decide +kernel

/-- A script that mentions one builtin of two, behind the instruction that reads it. -/
theorem now_mentioned : ∃ script m, Script.ofSource "Now" = .ok script ∧
    (Machine.clocked script.compiled).step = .next m ∧ m.Has (.builtin "Now") ∧
    "Now" ∈ Library.clocks.mentioned script.program ∧ ¬ m.Has (.builtin "Later") := by
  have hrun := now_runs
  cases h : Script.ofSource "Now" with
  | error e =>
    rw [h] at hrun
    cases hrun
  | ok script =>
  rw [h] at hrun
  dsimp only at hrun
  split at hrun
  case h_2 => cases hrun
  case h_1 m hstep =>
  split at hrun
  case h_2 => cases hrun
  case h_1 hvalue =>
  obtain ⟨hp, hc⟩ := Script.of_ofSource h
  have hcompiled : Compiled.ofSource "Now" = .ok script.compiled := by
    rw [Compiled.ofSource, hp]
    exact hc
  have hpath : During Library.clocks (· = "Now") (fun _ => True) .between
      (Machine.offering {} Library.clocks ()) .inside m :=
    .next (.next (.here trivial) (.start rfl hcompiled) trivial) (.step hstep) trivial
  obtain ⟨-, hbuiltins⟩ := (Script.touched_is_mentioned h).2 Library.clocks {} () .inside m hpath
  have hnow : m.Has (.builtin "Now") := .stack (Array.mem_of_getElem? hvalue)
  refine ⟨script, m, rfl, hstep, hnow, hbuiltins _ hnow, fun hlater => ?_⟩
  have hmem := hbuiltins _ hlater
  rw [beq_iff_eq.1 hrun] at hmem
  simp at hmem

end DeployScript
