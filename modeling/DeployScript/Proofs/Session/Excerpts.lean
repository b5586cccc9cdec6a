import DeployScript.Proofs.Machine.Chunks
import DeployScript.Proofs.Session.Declared
import DeployScript.Proofs.Session.Plans
import DeployScript.Proofs.Session.Unfailed

/-!
# Excerpts of sources

An error with a line shows that line of a source. A session keeps one source for this, the one that it has
loaded last, while a function stays callable when further scripts are loaded. So the line is the right one
for the functions of that source; for a function of an earlier one it is a line of another text, or there
is none.

* `splitOn_newline` — the lines of a text.
* `Session.Loaded` — sessions with the sources that they have loaded.
* `Session.Starts`, `Session.FailsIn` — where a command begins to run code, and in which source it fails.
* `Session.Traced` — all code is from the sources that were loaded; `Loaded.traced` — in every session.
* `Loaded.excerpts_of_last` — which source an error shows.
-/

namespace DeployScript

variable {ω : Type}

/-! ### Lines of a text -/

section Lines

open String

/-- Splitting goes through the text with the piece that it is in, `m`, and the pieces behind it. -/
theorem splitOnAux_newline (l m r : List Char) (pieces : List String) :
    splitOnAux (ofList (l ++ m ++ r)) "\n" ⟨utf8Len l⟩ ⟨utf8Len l + utf8Len m⟩ 0 pieces
      = pieces.reverse ++ (List.splitOnPPrepend (· == '\n') r m.reverse).map ofList := by
  induction r generalizing l m pieces with
  | nil =>
    have hend : Pos.Raw.atEnd (ofList (l ++ m ++ [])) ⟨utf8Len l + utf8Len m⟩ = true := by
      simp [-ofList_append]
    rw [splitOnAux, if_pos hend, extract_of_valid l m []]
    simp
  | cons c r ih =>
    have hend : ¬ Pos.Raw.atEnd (ofList (l ++ m ++ c :: r)) ⟨utf8Len l + utf8Len m⟩ = true := by
      have hc := c.utf8Size_pos
      simp [-ofList_append]
      omega
    have hget : Pos.Raw.get (ofList (l ++ m ++ c :: r)) ⟨utf8Len l + utf8Len m⟩ = c := by
      simpa [-ofList_append] using get_of_valid (l ++ m) (c :: r)
    have hnext : Pos.Raw.next (ofList (l ++ m ++ c :: r)) ⟨utf8Len l + utf8Len m⟩
        = ⟨utf8Len l + utf8Len m + c.utf8Size⟩ := by
      simpa [-ofList_append] using next_of_valid (l ++ m) c r
    have hbreak : Pos.Raw.get "\n" 0 = '\n' := by decide
    rw [splitOnAux, if_neg hend, hget, hbreak]
    by_cases hc : c = '\n'
    · subst hc
      have hlast : Pos.Raw.atEnd "\n" (Pos.Raw.next "\n" 0) = true := by decide
      have hback : Pos.Raw.unoffsetBy ⟨utf8Len l + utf8Len m + '\n'.utf8Size⟩ (Pos.Raw.next "\n" 0)
          = ⟨utf8Len l + utf8Len m⟩ := by
        rw [show Pos.Raw.next "\n" 0 = ⟨'\n'.utf8Size⟩ by decide]
        exact Pos.Raw.ext (Nat.add_sub_cancel _ _)
      have hrest := ih (l ++ m ++ ['\n']) [] (ofList m :: pieces)
      simp only [beq_self_eq_true, if_true, hnext, hlast, hback, extract_of_valid l m]
      simpa [-ofList_append, List.splitOnPPrepend_cons_eq_if, Nat.add_assoc] using hrest
    · have hrest := ih l (m ++ [c]) pieces
      have hstay : Pos.Raw.unoffsetBy ⟨utf8Len l + utf8Len m⟩ 0 = ⟨utf8Len l + utf8Len m⟩ := rfl
      rw [if_neg (by simpa using hc), hstay, hnext]
      simpa [-ofList_append, List.splitOnPPrepend_cons_eq_if, hc, Nat.add_assoc] using hrest

/-- **The pieces of a text** between its line feeds. -/
theorem splitOn_newline (s : String) : s.splitOn "\n" = (s.toList.splitOn '\n').map ofList := by
  have hsplit := splitOnAux_newline [] [] s.toList []
  have hsep : ("\n" == "") = false := by decide
  rw [splitOn, hsep, if_neg Bool.false_ne_true]
  simpa [List.splitOn] using hsplit

end Lines

/-! ### Sessions and machines -/

/-- Globals are no code. -/
theorem Machine.stays_foldl_define (names : List String) (m : Machine ω) :
    m.Stays (names.foldl (fun m name => m.define name (.builtin name) false) m) := by
  induction names generalizing m with
  | nil => exact .refl m
  | cons name names ih =>
    have hdefine : m.Stays (m.define name (.builtin name) false) := ⟨rfl, subset_rfl⟩
    exact hdefine.trans (ih _)

/-- A failure is one of the instruction and the line, whatever is shown of a source. -/
theorem Machine.FailsWith.withSource {m : Machine ω} {e : ScriptError} (h : m.FailsWith e) (source : String) :
    m.FailsWith (e.withSource source) := by
  obtain ⟨f, callers, i, n, m', hf, hrecords, hraise, hspan, hfrom⟩ := h
  refine ⟨f, callers, i, n, m', hf, hrecords, ?_, (Session.span_withSource e source).trans hspan, hfrom⟩
  rwa [Session.cause_withSource]

namespace Session

variable {s t : Session ω} {sources : List String} {source name : String} {fuel : Nat} {e : ScriptError}

/-! ### Histories -/

/-- The source that a command loads, if it does. -/
def loads (s : Session ω) : Command ω → List String
  | .ask (.load source) | .ask (.eval source _) =>
    match s.load source with
    | .ok _ => [source]
    | .error _ => []
  | _ => []

/-- **Sessions with the sources that they have loaded,** the last one first. Each command has come to an end
before the next. -/
inductive Loaded : List String → Session ω → Prop
  | new (assets : Assets) (world : ω) : Loaded [] (new assets world)
  | obey {sources : List String} {s : Session ω} (h : Loaded sources s) (c : Command ω)
    (hc : ∀ e, s.failure? c = some e → ¬ e.Abnormal) : Loaded (s.loads c ++ sources) (s.obey c)

/-- **The machine with which a command begins to run code:** at the start of the script that waits, or of the
one that the command loads, or in the function that it calls. -/
inductive Starts (s : Session ω) : Command ω → Machine ω → Prop
  | run {fuel : Nat} {code : Chunk Value} (hphase : s.phase = .loaded) (hpending : s.pending = some code) :
    Starts s (.ask (.run fuel)) (s.machine.start code)
  | eval {t : Session ω} {source : String} {fuel : Nat} {code : Chunk Value} (ht : s.load source = .ok t)
    (hpending : t.pending = some code) : Starts s (.ask (.eval source fuel)) (t.machine.start code)
  | call {name : String} {args : List HostValue} {fuel : Nat} {m : Machine ω} (hphase : s.phase = .executed)
    (h : ({ s.machine with heap := (storeArgs args s.machine.heap).2 } : Machine ω).Enters name
      (storeArgs args s.machine.heap).1.toList m) : Starts s (.ask (.call name args fuel)) m

/-- **A command fails in a source:** the code that it runs comes to an instruction which fails with the error,
in a function that was compiled from the source, and the line of the error is one of its lines. -/
structure FailsIn (s : Session ω) (c : Command ω) (e : ScriptError) (n : Nat) (source : String) : Prop where
  fails : ∃ m₀ m f callers, s.Starts c m₀ ∧ Machine.Reaches m₀ m ∧ m.FailsWith e ∧
    m.frames = f :: callers ∧ f.chunk.From source
  span : e.span = some (.ofLine n)
  line : LineOf source n

/-! ### Commands that run code -/

/-- A run is that of the script which waits, or it is refused. -/
theorem run_cases (s : Session ω) (fuel : Nat) :
    (∃ code, s.phase = .loaded ∧ s.pending = some code ∧
      s.run fuel = s.ended s.source (s.machine.run code fuel)) ∨
      (∃ e, s.run fuel = (.error e, s) ∧ ∀ error, e ≠ .failedScript error) := by
  unfold run
  split
  case h_1 code hphase hpending =>
    refine .inl ⟨code, hphase, hpending, ?_⟩
    cases hlast : s.machine.run code fuel with
    | mk finish m => cases finish <;> rfl
  case h_2 => exact .inr ⟨_, rfl, nofun⟩
  case h_3 => exact .inr ⟨_, rfl, nofun⟩

/-- A call is that of a function on the machine, or it is refused. -/
theorem call_cases (s : Session ω) (name : String) (args : List HostValue) (fuel : Nat) :
    (s.phase = .executed ∧ s.call name args fuel =
      (({ s with machine := (s.calledBy name args fuel).2 } : Session ω).result (s.calledBy name args fuel).1,
        { s with machine := (s.calledBy name args fuel).2 })) ∨
      ∃ e, s.call name args fuel = (.error e, s) ∧ ∀ error, e ≠ .failedScript error := by
  unfold call
  split
  case h_1 hphase =>
    split
    · exact .inr ⟨_, rfl, nofun⟩
    · split
      · exact .inl ⟨hphase, rfl⟩
      · exact .inr ⟨_, rfl, nofun⟩
  case h_2 => exact .inr ⟨_, rfl, nofun⟩

/-- What is not abnormal for the host has returned. -/
theorem returned_of_result {finish : Finish} (h : ∀ e, errorOf? (s.result finish) = some e → ¬ e.Abnormal) :
    finish.Returned := by
  cases finish with
  | value | error => trivial
  | stuck => exact absurd .stuck (h _ rfl)
  | unfinished => exact absurd .unfinished (h _ rfl)

/-- An error of a script is shown with the source of the session. -/
theorem error_of_result {finish : Finish} (h : errorOf? (s.result finish) = some (.failedScript e)) :
    ∃ e₀, finish = .error e₀ ∧ e = e₀.withSource s.source := by
  cases finish with
  | error e₀ =>
    cases h
    exact ⟨e₀, rfl, rfl⟩
  | value | stuck | unfinished => cases h

theorem FailsIn.line_eq {c : Command ω} {n k : Nat} (h : s.FailsIn c e n source)
    (hspan : e.span = some (.ofLine k)) : n = k := by
  have hline := h.span.symm.trans hspan
  simpa [Span.ofLine] using hline

/-! ### Code of the sources that were loaded -/

/-- **All code of a session is from its sources,** and that which waits is from the last of them. -/
structure Traced (sources : List String) (s : Session ω) : Prop where
  machine : s.machine.Sourced
  chunks : ∀ c ∈ s.machine.chunks, ∃ source ∈ sources, c.From source
  pending : ∀ code, s.pending = some code → code.From s.source
  last : s.phase = .loaded ∨ s.phase = .executed → ∃ older, sources = s.source :: older

namespace Traced

/-- A session that has run code from its sources. -/
theorem moved (h : s.Traced sources) (hmachine : t.machine.Sourced)
    (hchunks : ∀ c ∈ t.machine.chunks, ∃ source ∈ sources, c.From source) (hpending : t.pending = none)
    (hsource : t.source = s.source) (hphase : t.phase = .executed → s.phase = .loaded ∨ s.phase = .executed)
    (hloaded : t.phase ≠ .loaded) : t.Traced sources where
  machine := hmachine
  chunks := hchunks
  pending code hcode := by
    rw [hpending] at hcode
    cases hcode
  last hready := by
    rw [hsource]
    exact h.last (hphase (hready.resolve_left hloaded))

/-- **A script that is loaded** is one more source. -/
theorem withScript (h : s.Traced sources) {script : Script} (hscript : Script.ofSource source = .ok script) :
    (s.withScript script source).Traced (source :: sources) := by
  obtain ⟨hprogram, hcompiled⟩ := Script.of_ofSource hscript
  have hcompile : s.machine.heap.compile script.program = .ok (s.machine.heap.install script.compiled) := by
    rw [Heap.compile_eq, hcompiled]
    rfl
  have hsource := Script.compiled_ofSource hscript
  obtain ⟨hmachine, hfrom⟩ := h.machine.compile hprogram hcompile
  refine ⟨hmachine, fun c hc => ?_, fun code hcode => Option.some.inj hcode ▸ hfrom, fun _ => ⟨sources, rfl⟩⟩
  obtain hold | hnew := s.machine.chunks_install hsource hc
  · obtain ⟨source', hmem, hfrom⟩ := h.chunks c hold
    exact ⟨source', List.mem_cons_of_mem _ hmem, hfrom⟩
  · exact ⟨source, List.mem_cons_self, hnew⟩

/-- The script that waits, when it starts. -/
theorem start (h : s.Traced sources) (hphase : s.phase = .loaded) {code : Chunk Value}
    (hpending : s.pending = some code) :
    (s.machine.start code).Sourced ∧ ∀ c ∈ (s.machine.start code).chunks, ∃ source ∈ sources, c.From source := by
  have hfrom := h.pending code hpending
  obtain ⟨older, hsources⟩ := h.last (.inl hphase)
  refine ⟨h.machine.start hfrom, fun c hc => ?_⟩
  obtain rfl | hold := s.machine.chunks_start code hc
  · exact ⟨s.source, hsources ▸ List.mem_cons_self, hfrom⟩
  · exact h.chunks c hold

/-- **A run** goes through code of the sources. -/
theorem run (h : s.Traced sources) (hc : ∀ e, errorOf? (s.run fuel).1 = some e → ¬ e.Abnormal) :
    (s.run fuel).2.Traced sources := by
  obtain ⟨code, hphase, hpending, hrun⟩ | ⟨_, hrun, -⟩ := s.run_cases fuel
  case inr => rwa [hrun]
  case inl =>
    obtain ⟨hmachine, hchunks⟩ := h.start hphase hpending
    rw [hrun] at hc ⊢
    have hreturned := returned_of_result hc
    unfold Machine.run at hreturned ⊢
    rw [← Machine.resumeOn_never fuel 0] at hreturned ⊢
    refine h.moved (hmachine.resumeOn _ _ _ hreturned)
      (fun c hc => hchunks c (Machine.chunks_resumeOn _ _ _ _ hc)) rfl rfl (fun _ => .inl hphase) ?_
    unfold ended
    dsimp only
    split <;> nofun

/-- **A call** goes through code of the sources. -/
theorem call (h : s.Traced sources) (hs : s.Waiting) {args : List HostValue}
    (hc : ∀ e, errorOf? (s.call name args fuel).1 = some e → ¬ e.Abnormal) :
    (s.call name args fuel).2.Traced sources := by
  obtain ⟨hphase, hcall⟩ | ⟨_, hcall, -⟩ := s.call_cases name args fuel
  case inr => rwa [hcall]
  case inl =>
    rw [hcall] at hc ⊢
    have hreturned := returned_of_result hc
    have hstored := Heap.code_ofHostItems args #[] s.machine.heap
    unfold calledBy at hreturned ⊢
    dsimp only at hreturned ⊢
    rw [← Machine.callGlobalOn_never fuel 0] at hreturned ⊢
    have hstays : s.machine.Stays { s.machine with heap := (storeArgs args s.machine.heap).2 } := ⟨rfl, hstored⟩
    have hloaded : s.phase ≠ .loaded := by
      rw [hphase]
      nofun
    exact h.moved ((h.machine.stays hstays).callGlobalOn _ _ _ _ _ hreturned)
      (fun c hc => h.chunks c (hstays.chunks (Machine.chunks_callGlobalOn _ _ _ _ _ _ hc)))
      (hs.pending_eq hloaded) rfl (fun _ => .inr hphase) hloaded

/-- **A command** leaves all code from the sources that were loaded. -/
theorem obey (h : s.Traced sources) (hs : s.Waiting) (c : Command ω)
    (hc : ∀ e, s.failure? c = some e → ¬ e.Abnormal) : (s.obey c).Traced (s.loads c ++ sources) := by
  cases c with
  | register library =>
    unfold Session.obey
    dsimp only
    cases ht : s.register library with
    | error e => exact h
    | ok t =>
      unfold register at ht
      split at ht
      case h_2 => cases ht
      case h_1 hphase =>
        cases ht
        have hstays := Machine.stays_foldl_define library.names { s.machine with library }
        have hstays : s.machine.Stays _ := ⟨hstays.frames, hstays.code⟩
        exact ⟨h.machine.stays hstays, fun c hc => h.chunks c (hstays.chunks hc), h.pending, nofun⟩
  | ask r =>
    cases r with
    | load source =>
      unfold Session.obey behind loads
      dsimp only
      cases ht : s.load source with
      | error e => exact h
      | ok t =>
        obtain ⟨script, hscript, rfl⟩ := load_eq_ok ht
        exact h.withScript hscript
    | run fuel => exact h.run hc
    | eval source fuel =>
      unfold failure? eval at hc
      unfold Session.obey behind loads eval
      dsimp only at hc ⊢
      cases ht : s.load source with
      | error e => exact h
      | ok t =>
        rw [ht] at hc
        obtain ⟨script, hscript, rfl⟩ := load_eq_ok ht
        exact (h.withScript hscript).run hc
    | call name args fuel => exact h.call hs hc
    | get | exports => exact h

end Traced

/-- **In every session** all code is from the sources that were loaded. -/
theorem Loaded.traced (h : Loaded sources s) : s.Traced sources ∧ s.Waiting := by
  induction h with
  | new assets world =>
    have hnew := Machine.sourced_new assets Library.empty world
    refine ⟨⟨⟨hnew.functions, hnew.frames⟩, fun c hc => ?_, nofun, nofun⟩, .of_none rfl nofun⟩
    rcases hc with ⟨p, hp, -⟩ | ⟨f, hf, -⟩
    · have hempty : (Session.new assets world).machine.heap = Heap.empty := rfl
      rw [hempty, Heap.code_empty] at hp
      exact hp.elim
    · cases hf
  | obey h c hc ih => exact ⟨ih.1.obey ih.2 c hc, (steps c).waiting ih.2⟩

/-! ### Which source an error shows -/

/-- A machine that has failed in code of some sources, with what is shown of the error. -/
theorem FailsIn.of_reaches {c : Command ω} {m₀ m : Machine ω} (hstarts : s.Starts c m₀)
    (hchunks : ∀ c ∈ m₀.chunks, ∃ source ∈ sources, c.From source) (hreaches : Machine.Reaches m₀ m)
    (hfails : m.FailsWith e) (last : String) :
    ∃ n, ∃ source ∈ sources, s.FailsIn c (e.withSource last) n source ∧
      (e.withSource last).excerpt = (sourceLines last)[n - 1]? := by
  obtain ⟨f, callers, i, n, m', hf, hrecords, hraise, hspan, hsome, hlines⟩ := hfails
  obtain ⟨source, hmem, hfrom⟩ :=
    hchunks f.chunk (Machine.chunks_reaches hreaches (.inr ⟨f, hf ▸ List.mem_cons_self, rfl⟩))
  have hfails : m.FailsWith e := ⟨f, callers, i, n, m', hf, hrecords, hraise, hspan, hsome, hlines⟩
  refine ⟨n, source, hmem, ⟨⟨m₀, m, f, callers, hstarts, hreaches, hfails.withSource last, hf, hfrom⟩,
    (span_withSource e last).trans hspan, hlines source hfrom⟩, ?_⟩
  unfold ScriptError.withSource
  rw [hspan]
  rfl

/-- A source that is not loaded has not failed in a run. -/
theorem load_ne_failed {error : SessionError} (h : s.load source = .error error) : error ≠ .failedScript e := by
  rintro rfl
  by_cases hphase : s.phase = .registered ∨ s.phase = .executed
  · rw [load_eq hphase] at h
    cases hscript : Script.ofSource source <;> rw [hscript] at h <;> cases h
  · rw [load_eq_error hphase] at h
    cases h

/-- **An error of a run** is shown with the source of the script that is run. -/
theorem Traced.run_fails (h : t.Traced sources) {c : Command ω}
    (hstarts : ∀ code, t.phase = .loaded → t.pending = some code → s.Starts c (t.machine.start code))
    (he : errorOf? (t.run fuel).1 = some (.failedScript e)) :
    ∃ older n source, sources = t.source :: older ∧ source ∈ sources ∧ s.FailsIn c e n source ∧
      e.excerpt = (sourceLines t.source)[n - 1]? := by
  obtain ⟨code, hphase, hpending, hrun⟩ | ⟨_, hrun, hother⟩ := t.run_cases fuel
  case inr =>
    rw [hrun] at he
    exact absurd (Option.some.inj he) (hother e)
  case inl =>
    obtain ⟨hmachine, hchunks⟩ := h.start hphase hpending
    obtain ⟨older, hsources⟩ := h.last (.inl hphase)
    rw [hrun] at he
    obtain ⟨e₀, hfinish, rfl⟩ := error_of_result he
    unfold Machine.run at hfinish
    rw [← Machine.resumeOn_never fuel 0] at hfinish
    obtain ⟨m, hreaches, hfails⟩ := hmachine.error_resumeOn hfinish
    obtain ⟨n, source, hmem, hin, hexcerpt⟩ :=
      FailsIn.of_reaches (hstarts code hphase hpending) hchunks hreaches hfails t.source
    exact ⟨older, n, source, hsources, hmem, hin, hexcerpt⟩

/-- **An error of a call** is shown with the source that was loaded last, if the function has started. -/
theorem Traced.call_fails (h : s.Traced sources) {args : List HostValue}
    (he : errorOf? (s.call name args fuel).1 = some (.failedScript e)) :
    (e.span = none ∧ ∀ m, ¬ s.Starts (.ask (.call name args fuel)) m) ∨
      ∃ older n source, sources = s.source :: older ∧ source ∈ sources ∧
        s.FailsIn (.ask (.call name args fuel)) e n source ∧ e.excerpt = (sourceLines s.source)[n - 1]? := by
  obtain ⟨hphase, hcall⟩ | ⟨_, hcall, hother⟩ := s.call_cases name args fuel
  case inr =>
    rw [hcall] at he
    exact absurd (Option.some.inj he) (hother e)
  case inl =>
    obtain ⟨older, hsources⟩ := h.last (.inr hphase)
    have hstays : s.machine.Stays { s.machine with heap := (storeArgs args s.machine.heap).2 } :=
      ⟨rfl, Heap.code_ofHostItems args #[] s.machine.heap⟩
    rw [hcall] at he
    obtain ⟨e₀, hfinish, rfl⟩ := error_of_result he
    unfold calledBy at hfinish
    dsimp only at hfinish
    rw [← Machine.callGlobalOn_never fuel 0] at hfinish
    rcases Machine.enters_of_error hfinish with ⟨hspan, hnone⟩ | ⟨m₀, henters, herror⟩
    · refine .inl ⟨(span_withSource e₀ _).trans hspan, fun m hstarts => ?_⟩
      cases hstarts with
      | call _ henters => exact hnone m henters
    · obtain ⟨m, hreaches, hfails⟩ := ((h.machine.stays hstays).enters henters).error_resumeOn herror
      have hchunks : ∀ c ∈ m₀.chunks, ∃ source ∈ sources, c.From source := fun c hc =>
        h.chunks c (hstays.chunks (henters.chunks hc))
      obtain ⟨n, source, hmem, hin, hexcerpt⟩ :=
        FailsIn.of_reaches (.call hphase henters) hchunks hreaches hfails s.source
      exact .inr ⟨older, n, source, hsources, hmem, hin, hexcerpt⟩

/-- **An error shows the source that was loaded last.** In every session, if a command fails in a script, then it
fails in code of one of the sources that the session has loaded, and what is shown is the line with the number
of the failure, but of the source that was loaded last. It is the line that has failed if that is the same
source, as it is where only one was loaded. An error of a call that has started nothing has no line. -/
theorem Loaded.excerpts_of_last (h : Loaded sources s) (c : Command ω)
    (he : s.failure? c = some (.failedScript e)) :
    (e.span = none ∧ ∀ m, ¬ s.Starts c m) ∨
      ∃ last older n source, s.loads c ++ sources = last :: older ∧ source ∈ s.loads c ++ sources ∧
        s.FailsIn c e n source ∧ e.excerpt = (sourceLines last)[n - 1]? ∧
        ((∀ other ∈ older, other = last) → e.excerpt = (sourceLines source)[n - 1]?) := by
  have hsame : ∀ {last : String} {older : List String} {n : Nat} {source : String},
      s.loads c ++ sources = last :: older → source ∈ s.loads c ++ sources → s.FailsIn c e n source →
      e.excerpt = (sourceLines last)[n - 1]? →
      ∃ last older n source, s.loads c ++ sources = last :: older ∧ source ∈ s.loads c ++ sources ∧
        s.FailsIn c e n source ∧ e.excerpt = (sourceLines last)[n - 1]? ∧
        ((∀ other ∈ older, other = last) → e.excerpt = (sourceLines source)[n - 1]?) := by
    intro last older n source hsources hmem hin hexcerpt
    refine ⟨last, older, n, source, hsources, hmem, hin, hexcerpt, fun hone => ?_⟩
    rw [hsources, List.mem_cons] at hmem
    obtain rfl : source = last := hmem.elim id (hone source)
    exact hexcerpt
  obtain ⟨htraced, -⟩ := h.traced
  cases c with
  | register library =>
    unfold failure? register at he
    dsimp only at he
    split at he <;> cases he
  | ask r =>
    cases r with
    | load source =>
      unfold failure? at he
      dsimp only at he
      cases ht : s.load source with
      | error error =>
        rw [ht] at he
        exact absurd (Option.some.inj he) (load_ne_failed ht)
      | ok t =>
        rw [ht] at he
        cases he
    | run fuel =>
      obtain ⟨older, n, source, hsources, hmem, hin, hexcerpt⟩ :=
        htraced.run_fails (fun code hphase hpending => .run hphase hpending) he
      exact .inr (hsame hsources hmem hin hexcerpt)
    | eval source fuel =>
      unfold failure? eval at he
      dsimp only at he
      cases ht : s.load source with
      | error error =>
        rw [ht] at he
        exact absurd (Option.some.inj he) (load_ne_failed ht)
      | ok t =>
        rw [ht] at he
        have hloads : s.loads (.ask (.eval source fuel)) = [source] := by
          unfold loads
          dsimp only
          rw [ht]
        have hlast : t.Traced (source :: sources) := by
          obtain ⟨script, hscript, rfl⟩ := load_eq_ok ht
          exact htraced.withScript hscript
        obtain ⟨older, n, failed, hsources, hmem, hin, hexcerpt⟩ :=
          hlast.run_fails (s := s) (fun code _ hpending => .eval ht hpending) he
        rw [hloads] at hsame ⊢
        exact .inr (hsame hsources hmem hin hexcerpt)
    | call name args fuel =>
      refine (htraced.call_fails he).imp id ?_
      rintro ⟨older, n, source, hsources, hmem, hin, hexcerpt⟩
      exact hsame hsources hmem hin hexcerpt
    | get name =>
      unfold failure? get at he
      dsimp only at he
      split at he <;> cases he
    | exports => cases he

/-! ### Two scripts -/

/-- A function that fails on its second line. -/
def failingSource : String := "fn f() \x7b\n return nil.x\n\x7d"

/-- A session behind the script that declares the function. -/
def behindOne : Session Unit := plain.obey (.ask (.eval failingSource 99))

/-- The same session behind a second script, of two lines. -/
def behindTwo : Session Unit := behindOne.obey (.ask (.eval "nil\nnil" 99))

/-- The call of the function. -/
def callFailing : Command Unit := .ask (.call "f" [] 99)

/-- The place of the error that a command fails with. -/
def failedAt? (s : Session ω) (c : Command ω) : Option Span :=
  match s.failure? c with
  | some (.failedScript e) => e.span
  | _ => none

theorem of_failedAt? {c : Command ω} {place : Span} (h : s.failedAt? c = some place) :
    ∃ e, s.failure? c = some (.failedScript e) ∧ e.span = some place := by
  unfold failedAt? at h
  split at h
  case h_1 e he => exact ⟨e, he, h⟩
  case h_2 => cases h

/-- The second lines of the two sources. -/
theorem second_lines : (sourceLines failingSource)[1]? = some " return nil.x" ∧
    (sourceLines "nil\nnil")[1]? = some "nil" := by
  unfold sourceLines failingSource
  rw [splitOn_newline, splitOn_newline]
  decide +kernel

theorem loaded_behindOne : Loaded [failingSource] behindOne := by
  have hplain : Loaded [] plain := .obey (.new {} ()) (.register Library.empty) nofun
  have hloads : plain.loads (.ask (.eval failingSource 99)) = [failingSource] := by decide +kernel
  have hnone : (plain.failure? (.ask (.eval failingSource 99))).isNone = true := by decide +kernel
  have hone := hplain.obey (.ask (.eval failingSource 99)) fun e he => by
    rw [Option.isNone_iff_eq_none.1 hnone] at he
    cases he
  rwa [hloads] at hone

theorem loaded_behindTwo : Loaded ["nil\nnil", failingSource] behindTwo := by
  have hloads : behindOne.loads (.ask (.eval "nil\nnil" 99)) = ["nil\nnil"] := by decide +kernel
  have hnone : (behindOne.failure? (.ask (.eval "nil\nnil" 99))).isNone = true := by decide +kernel
  have htwo := loaded_behindOne.obey (.ask (.eval "nil\nnil" 99)) fun e he => by
    rw [Option.isNone_iff_eq_none.1 hnone] at he
    cases he
  rwa [hloads] at htwo

/-- Behind the script that declares it, the function fails with the line that it fails on. -/
theorem excerpt_of_only_script : ∃ (sources : List String) (s : Session Unit) (e : ScriptError) (n : Nat)
    (source : String), Loaded sources s ∧ s.failure? callFailing = some (.failedScript e) ∧
      s.FailsIn callFailing e n source ∧ e.excerpt = (sourceLines source)[n - 1]? ∧
        e.excerpt = some " return nil.x" := by
  have hplace : behindOne.failedAt? callFailing = some (.ofLine 2) := by decide +kernel
  obtain ⟨e, he, hspan⟩ := of_failedAt? hplace
  rcases loaded_behindOne.excerpts_of_last callFailing he with
    ⟨hnone, -⟩ | ⟨last, older, n, source, hsources, -, hin, hexcerpt, hsame⟩
  · rw [hspan] at hnone
    cases hnone
  · cases hsources
    obtain rfl := hin.line_eq hspan
    exact ⟨_, _, e, 2, source, loaded_behindOne, he, hin, hsame nofun, hexcerpt.trans second_lines.1⟩

/-- Whether the instruction at a place of code cannot fail. -/
def tacitAt (code : Array UInt8) (ip : Nat) : Bool :=
  match Instr.decode code ip with
  | .instr i => i.op.isTacit
  | _ => true

/-- No instruction of the two lines can fail. -/
theorem tacit_of_from {c : Chunk Value} {ip n : Nat} {i : Instr} (h : c.From "nil\nnil")
    (hr : c.Records ip i n) : i.op.isTacit = true := by
  obtain ⟨c₁, hc₁, htacit⟩ := Compiled.exists_of_any "nil\nnil" (fun c =>
    c.chunks.all fun q => (List.range q.code.size).all (tacitAt q.code)) (by decide +kernel)
  obtain ⟨c₂, hc₂, q, hq, f, rfl⟩ := h
  obtain rfl := Except.ok.inj (hc₁.symm.trans hc₂)
  have hdecode : Instr.decode q.code ip = .instr i := hr.decode
  have hlt : ip < q.code.size := by
    by_contra hge
    rw [Instr.decode, Array.getElem?_eq_none (Nat.le_of_not_lt hge)] at hdecode
    cases hdecode
  have hall := List.all_eq_true.1 (List.all_eq_true.1 htacit q hq) ip (List.mem_range.2 hlt)
  simpa only [tacitAt, hdecode] using hall

/-- **Behind another script** the same call fails with a line of that, where the source of the function has
another one, and there is no other source that the failure is in. -/
theorem excerpt_of_another_script : ∃ (sources : List String) (s : Session Unit) (e : ScriptError) (n : Nat)
    (source : String), Loaded sources s ∧ s.failure? callFailing = some (.failedScript e) ∧
      source ∈ sources ∧ s.FailsIn callFailing e n source ∧
      (∀ other ∈ sources, s.FailsIn callFailing e n other → other = source) ∧
      e.excerpt = some "nil" ∧ (sourceLines source)[n - 1]? = some " return nil.x" := by
  have hplace : behindTwo.failedAt? callFailing = some (.ofLine 2) := by decide +kernel
  obtain ⟨e, he, hspan⟩ := of_failedAt? hplace
  have hnot : ∀ n, ¬ behindTwo.FailsIn callFailing e n "nil\nnil" := by
    rintro n ⟨⟨m₀, m, f, callers, -, -, ⟨g, _, i, _, m', hg, hrecords, hraise, -⟩, hf, hfrom⟩, -, -⟩
    obtain ⟨rfl, rfl⟩ := List.cons.inj (hf.symm.trans hg)
    exact Machine.step_tacit hf hrecords.decode (tacit_of_from hfrom hrecords) hraise
  have honly : ∀ n, ∀ other ∈ ["nil\nnil", failingSource], behindTwo.FailsIn callFailing e n other →
      other = failingSource := by
    intro n other hmem hin
    simp only [List.mem_cons, List.not_mem_nil, or_false] at hmem
    exact hmem.resolve_left fun h => hnot n (h ▸ hin)
  rcases loaded_behindTwo.traced.1.call_fails he with
    ⟨hnone, -⟩ | ⟨_, n, source, hsources, hmem, hin, hexcerpt⟩
  · rw [hspan] at hnone
    cases hnone
  · obtain rfl := honly n source hmem hin
    obtain rfl := hin.line_eq hspan
    obtain ⟨hlast, -⟩ := List.cons.inj hsources
    rw [← hlast] at hexcerpt
    exact ⟨_, _, e, 2, failingSource, loaded_behindTwo, he, hmem, hin, honly 2,
      hexcerpt.trans second_lines.2, second_lines.1⟩

end Session

end DeployScript
