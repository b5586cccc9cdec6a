import DeployScript.Host.Standard
import DeployScript.Proofs.Files.Trees
import Mathlib.Data.List.Infix

/-!
# Replacing every occurrence

Bytes are cut at the occurrences of a pattern, from left to right, and other bytes are put in the place of
each of them. Everything between two occurrences stays.

* `Cuts` — bytes in pieces, with the pattern between two of them: it occurs behind a piece and not before
  that, and does not occur in the last piece.
* `exists_cuts` — all bytes can be cut, for a pattern that is not empty.
* `Cuts.replaceAll_eq` — however they are cut, replacing puts the new bytes where the pattern was.
-/

namespace DeployScript

variable {old new bytes after piece last : List UInt8} {pieces : List (List UInt8)}

/-! ### Cutting bytes -/

/-- **A pattern occurs behind a piece for the first time:** where it occurs in the two together, the whole
piece is in front of it. -/
def FirstBehind (old piece : List UInt8) : Prop :=
  ∀ before after, piece ++ old = before ++ old ++ after → piece.length ≤ before.length

/-- **Bytes cut at the occurrences of a pattern.** -/
structure Cuts (old bytes : List UInt8) (pieces : List (List UInt8)) (last : List UInt8) : Prop where
  whole : old.intercalate (pieces ++ [last]) = bytes
  first : ∀ piece ∈ pieces, FirstBehind old piece
  last : ¬ old <:+: last

theorem FirstBehind.nil (old : List UInt8) : FirstBehind old [] :=
  fun _ _ _ => Nat.zero_le _

theorem FirstBehind.tail {b : UInt8} (h : FirstBehind old (b :: piece)) : FirstBehind old piece := by
  intro before after heq
  have hcons : b :: piece ++ old = b :: before ++ old ++ after := congrArg (b :: ·) heq
  exact Nat.le_of_succ_le_succ (h _ _ hcons)

/-- The pattern does not begin where a piece does. -/
theorem FirstBehind.not_prefix {b : UInt8} (h : FirstBehind old (b :: piece)) (after : List UInt8) :
    ¬ old <+: b :: piece ++ old ++ after := by
  intro hp
  -- Such an occurrence would end in front of the end of the piece and the pattern.
  have hlength : old.length ≤ (b :: piece ++ old).length := by
    rw [List.length_append]
    exact Nat.le_add_left _ _
  have hshort : old <+: b :: piece ++ old :=
    List.prefix_of_prefix_length_le hp (List.prefix_append _ _) hlength
  obtain ⟨rest, hrest⟩ := hshort
  exact absurd (h [] rest hrest.symm) (Nat.not_succ_le_zero _)

/-- **What occurs somewhere** occurs somewhere first. -/
theorem exists_firstBehind (h : old <:+: bytes) :
    ∃ piece after, bytes = piece ++ old ++ after ∧ FirstBehind old piece := by
  induction bytes with
  | nil =>
    obtain rfl := List.infix_nil.1 h
    exact ⟨[], [], rfl, .nil _⟩
  | cons b bytes ih =>
    by_cases hp : old <+: b :: bytes
    · obtain ⟨after, hafter⟩ := hp
      exact ⟨[], after, hafter.symm, .nil _⟩
    · obtain ⟨piece, after, rfl, hfirst⟩ := ih ((List.infix_cons_iff.1 h).resolve_left hp)
      refine ⟨b :: piece, after, rfl, fun before rest heq => ?_⟩
      cases before with
      | nil =>
        refine absurd ?_ hp
        have hprefix : old <+: b :: piece ++ old := ⟨rest, heq.symm⟩
        exact hprefix.trans (List.prefix_append (b :: piece ++ old) after)
      | cons c before =>
        have htail := (List.cons.inj heq).2
        exact Nat.succ_le_succ (hfirst _ _ htail)

theorem intercalate_cons (old piece : List UInt8) (pieces : List (List UInt8)) (last : List UInt8) :
    old.intercalate (piece :: pieces ++ [last])
      = piece ++ old ++ old.intercalate (pieces ++ [last]) := by
  have hne : pieces ++ [last] ≠ [] := List.append_ne_nil_of_right_ne_nil _ (List.cons_ne_nil _ _)
  rw [List.cons_append, List.intercalate_cons_of_ne_nil hne, List.append_assoc]

/-- **All bytes can be cut.** -/
theorem exists_cuts (hold : old ≠ []) (bytes : List UInt8) :
    ∃ pieces last, Cuts old bytes pieces last := by
  induction hn : bytes.length using Nat.strong_induction_on generalizing bytes with
  | _ n ih =>
    by_cases h : old <:+: bytes
    · obtain ⟨piece, after, rfl, hfirst⟩ := exists_firstBehind h
      have hpos : 0 < old.length := List.length_pos_iff.2 hold
      have hless : after.length < n := by
        rw [← hn, List.length_append, List.length_append]
        omega
      obtain ⟨pieces, last, hcuts⟩ := ih _ hless after rfl
      refine ⟨piece :: pieces, last, ?_, List.forall_mem_cons.2 ⟨hfirst, hcuts.first⟩, hcuts.last⟩
      rw [intercalate_cons, hcuts.whole]
    · exact ⟨[], bytes, List.intercalate_singleton, List.forall_mem_nil _, h⟩

/-! ### Replacing -/

theorem afterPattern?_eq_some {rest : List UInt8} :
    afterPattern? old bytes = some rest ↔ bytes = old ++ rest := by
  fun_induction afterPattern? old bytes with
  | case1 rest => simp [eq_comm]
  | case2 => simp
  | case3 o old bytes ih => simp [ih]
  | case4 o old b bytes hne => simp [Ne.symm hne]

variable {o : UInt8} {reversed : List UInt8}

/-- Where a pattern begins, the new bytes come. -/
theorem replaceFrom_pattern (o : UInt8) (old new after reversed : List UInt8) :
    replaceFrom o old new (o :: old ++ after) reversed
      = replaceFrom o old new after (new.reverse ++ reversed) := by
  have hsome : afterPattern? (o :: old) (o :: (old ++ after)) = some after :=
    afterPattern?_eq_some.2 rfl
  rw [List.cons_append, replaceFrom]
  split
  case h_1 after' h =>
    rw [hsome] at h
    rw [Option.some.inj h]
  case h_2 h =>
    rw [hsome] at h
    cases h

/-- Where it does not begin, a byte stays. -/
theorem replaceFrom_cons {b : UInt8} (h : ¬ o :: old <+: b :: bytes) :
    replaceFrom o old new (b :: bytes) reversed = replaceFrom o old new bytes (b :: reversed) := by
  rw [replaceFrom]
  split
  case h_1 after hsome => exact absurd ⟨after, (afterPattern?_eq_some.1 hsome).symm⟩ h
  case h_2 => rfl

/-- **A piece stays,** and the new bytes come behind it. -/
theorem replaceFrom_piece (h : FirstBehind (o :: old) piece) (reversed : List UInt8) :
    replaceFrom o old new (piece ++ (o :: old) ++ after) reversed
      = replaceFrom o old new after (new.reverse ++ (piece.reverse ++ reversed)) := by
  induction piece generalizing reversed with
  | nil => exact replaceFrom_pattern o old new after reversed
  | cons b piece ih =>
    have hnot := h.not_prefix after
    rw [List.cons_append, List.cons_append] at hnot ⊢
    rw [replaceFrom_cons hnot, ih h.tail, List.reverse_cons, List.append_assoc]
    rfl

/-- **Bytes without the pattern stay.** -/
theorem replaceFrom_of_not_infix (h : ¬ o :: old <:+: bytes) (reversed : List UInt8) :
    replaceFrom o old new bytes reversed = reversed.reverse ++ bytes := by
  induction bytes generalizing reversed with
  | nil => rw [replaceFrom, List.append_nil]
  | cons b bytes ih =>
    rw [List.infix_cons_iff, not_or] at h
    rw [replaceFrom_cons h.1, ih h.2, List.reverse_cons, List.append_assoc]
    rfl

theorem replaceFrom_cuts (h : Cuts (o :: old) bytes pieces last) (reversed : List UInt8) :
    replaceFrom o old new bytes reversed
      = reversed.reverse ++ new.intercalate (pieces ++ [last]) := by
  obtain ⟨rfl, hfirst, hlast⟩ := h
  induction pieces generalizing reversed with
  | nil =>
    rw [List.nil_append, List.intercalate_singleton, List.intercalate_singleton]
    exact replaceFrom_of_not_infix hlast reversed
  | cons piece pieces ih =>
    obtain ⟨hpiece, hfirst⟩ := List.forall_mem_cons.1 hfirst
    rw [intercalate_cons, replaceFrom_piece hpiece, ih _ hfirst, intercalate_cons]
    simp only [List.reverse_append, List.reverse_reverse, List.append_assoc]

/-- **Replacing puts the new bytes between the pieces.** -/
theorem Cuts.replaceAll_eq (h : Cuts old bytes pieces last) (new : List UInt8) :
    replaceAll old new bytes = new.intercalate (pieces ++ [last]) := by
  cases old with
  | nil => exact absurd (List.nil_infix) h.last
  | cons o old => exact replaceFrom_cuts h []

/-- **What replacing makes of bytes:** the new bytes in the place of each occurrence of the pattern, and all
else as it was. -/
structure Replaced (old new bytes result : List UInt8) : Prop where
  cut : old ≠ [] → ∃ pieces last, Cuts old bytes pieces last ∧
    result = new.intercalate (pieces ++ [last])
  absent : ¬ old <:+: bytes → result = bytes
  same : old = new → result = bytes
  empty : old = [] → result = bytes

theorem replaced (old new bytes : List UInt8) : Replaced old new bytes (replaceAll old new bytes) := by
  have hempty : old = [] → replaceAll old new bytes = bytes := by
    rintro rfl
    rfl
  refine ⟨fun hold => ?_, fun habsent => ?_, fun hsame => ?_, hempty⟩
  · obtain ⟨pieces, last, hcuts⟩ := exists_cuts hold bytes
    exact ⟨pieces, last, hcuts, hcuts.replaceAll_eq new⟩
  · have hcuts : Cuts old bytes [] bytes :=
      ⟨List.intercalate_singleton, List.forall_mem_nil _, habsent⟩
    rw [hcuts.replaceAll_eq, List.nil_append, List.intercalate_singleton]
  · by_cases hold : old = []
    · exact hempty hold
    · obtain ⟨pieces, last, hcuts⟩ := exists_cuts hold bytes
      rw [hcuts.replaceAll_eq, ← hsame, hcuts.whole]

/-! ### Replacing in a file -/

/-- A file that a path leads to is written. -/
theorem Files.write_file {files : Files} {path : String} {place : Location} {bytes : List UInt8}
    (h : files.locate path = .ok ⟨place, some (.file bytes)⟩) (bytes' : List UInt8) :
    files.read path = .ok bytes ∧ files.write path bytes' = .ok (files.put place (.file bytes')) := by
  unfold read write change
  rw [h]
  exact ⟨rfl, rfl⟩

/-- **Every occurrence is replaced, and nothing else:** in bytes, and hence in a file of the host. -/
theorem occurrences_replaced :
    (∀ old new bytes, Replaced old new bytes (replaceAll old new bytes)) ∧
      ∀ (context : CallContext) (world : World) (path old new : String) (place : Location)
        (bytes : List UInt8), world.files.locate path = .ok ⟨place, some (.file bytes)⟩ →
        Builtin.replaceInFile.run context [.text path, .text old, .text new] world
          = (.ok (.bool true), { world with
              files := world.files.put place
                (.file (replaceAll (Text.encode old) (Text.encode new) bytes)) }) := by
  refine ⟨replaced, fun context world path old new place bytes hfile => ?_⟩
  obtain ⟨hread, hwrite⟩ := Files.write_file hfile
    (replaceAll (Text.encode old) (Text.encode new) bytes)
  -- Nothing is refused, so both requests come to what they do to the tree.
  simp only [Builtin.replaceInFile, Builtin.of, System.readThen, System.read, System.write, System.answer,
    System.change, System.willing, hread, hwrite, atomic, Builtin.report, Except.isOk, Except.toBool]

/-- A host with one file. -/
def threeLetters : World where
  files := Files.empty.put ["tmp", "work", "f"] (.file (Text.encode "aaa"))
  clock := 0

/-- Of two occurrences that overlap, the first is replaced. -/
theorem overlapping_replaced :
    threeLetters.files.locate "f" = .ok ⟨["tmp", "work", "f"], some (.file (Text.encode "aaa"))⟩ ∧
      Builtin.replaceInFile.run ⟨"", ∅⟩ [.text "f", .text "aa", .text "b"] threeLetters
        = (.ok (.bool true), { threeLetters with
            files := threeLetters.files.put ["tmp", "work", "f"] (.file (Text.encode "ba")) }) := by
  have hfile : threeLetters.files.locate "f"
      = .ok ⟨["tmp", "work", "f"], some (.file (Text.encode "aaa"))⟩ := by
    have hspot : (threeLetters.files.locate "f").toOption.map (fun spot => (spot.place, spot.entry))
        = some (["tmp", "work", "f"], some (.file (Text.encode "aaa"))) := by
      decide +kernel
    cases h : threeLetters.files.locate "f" with
    | error e =>
      rw [h] at hspot
      cases hspot
    | ok spot =>
      rw [h] at hspot
      obtain ⟨place, entry⟩ := spot
      cases hspot
      rfl
  -- The pattern occurs in front of everything, and not in what is left.
  have hcuts : Cuts (Text.encode "aa") (Text.encode "aaa") [[]] (Text.encode "a") := by
    refine ⟨by decide +kernel, ?_, fun hin => absurd hin.length_le (by decide +kernel)⟩
    exact List.forall_mem_singleton.2 (.nil _)
  have hresult : replaceAll (Text.encode "aa") (Text.encode "b") (Text.encode "aaa")
      = Text.encode "ba" := by
    rw [hcuts.replaceAll_eq]
    decide +kernel
  refine ⟨hfile, ?_⟩
  rw [← hresult]
  exact occurrences_replaced.2 ⟨"", ∅⟩ threeLetters "f" "aa" "b" _ _ hfile

end DeployScript
