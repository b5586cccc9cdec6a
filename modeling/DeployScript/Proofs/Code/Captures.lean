import DeployScript.Code.Scope
import Mathlib

/-!
# Captured variables

While a function is compiled, the functions around it only get notes: a variable becomes captured,
and a function captures more. Each capture stands for one variable further out.

* `Scope.Noted` — a scope with more notes.
* `CapturedAs` — a capture stands for the variable that a name means in the functions around.
* `Linked` — every capture stands for a variable, and the slot of that variable is noted.
* `resolveCapture_spec` — looking for a variable further out keeps all of this, and what it finds
  stands for the name.
-/

namespace DeployScript

/-- The same variable, at most with a note that it is captured. -/
structure Local.Noted (l l' : Local) : Prop where
  name : l'.name = l.name
  depth : l'.depth = l.depth
  isMutable : l'.isMutable = l.isMutable
  isCaptured : l.isCaptured = true → l'.isCaptured = true

theorem Local.Noted.refl (l : Local) : l.Noted l := ⟨rfl, rfl, rfl, id⟩

theorem Local.Noted.trans {l l' l'' : Local} (h : l.Noted l') (h' : l'.Noted l'') : l.Noted l'' :=
  ⟨h'.name.trans h.name, h'.depth.trans h.depth, h'.isMutable.trans h.isMutable,
    fun hl => h'.isCaptured (h.isCaptured hl)⟩

namespace Scope

/-! ### Variables by name and by slot -/

section Find

variable {name : String} {ls ls' : List Local} {slot : Nat} {l : Local}

theorem find?_lt (h : find? name ls = some (slot, l)) : slot < ls.length := by
  induction ls with
  | nil => cases h
  | cons a ls ih =>
    rw [find?] at h
    split at h
    · cases h
      exact Nat.lt_succ_self _
    · exact Nat.lt_succ_of_lt (ih h)

/-- A variable that is found has its name and stands in its slot. -/
theorem find?_slot (h : find? name ls = some (slot, l)) :
    l.name = name ∧ ls.reverse[slot]? = some l := by
  induction ls with
  | nil => cases h
  | cons a ls ih =>
    rw [find?] at h
    rw [List.reverse_cons]
    split at h
    case isTrue hname =>
      cases h
      refine ⟨hname, ?_⟩
      rw [List.getElem?_append_right (by simp)]
      simp
    case isFalse =>
      obtain ⟨hname, hslot⟩ := ih h
      refine ⟨hname, ?_⟩
      rw [List.getElem?_append_left (by simpa using find?_lt h)]
      exact hslot

/-- Notes do not change which variable is found. -/
theorem find?_noted (h : List.Forall₂ Local.Noted ls ls') :
    (find? name ls = none → find? name ls' = none) ∧
      ∀ slot l, find? name ls = some (slot, l) →
        ∃ l', find? name ls' = some (slot, l') ∧ l.Noted l' := by
  induction h with
  | nil => exact ⟨id, fun _ _ h => by cases h⟩
  | @cons a a' ls ls' ha hls ih =>
    simp only [find?, ha.name]
    split
    case isTrue =>
      refine ⟨fun h => (by cases h), fun slot l h => ?_⟩
      cases h
      exact ⟨a', by rw [hls.length_eq], ha⟩
    case isFalse => exact ih

theorem noted_refl (ls : List Local) : List.Forall₂ Local.Noted ls ls :=
  List.forall₂_same.2 fun l _ => Local.Noted.refl l

theorem noted_trans {ls'' : List Local} (h : List.Forall₂ Local.Noted ls ls')
    (h' : List.Forall₂ Local.Noted ls' ls'') : List.Forall₂ Local.Noted ls ls'' := by
  induction h generalizing ls'' with
  | nil => exact h'
  | cons ha _ ih =>
    cases h' with
    | cons hb h' => exact .cons (ha.trans hb) (ih h')

theorem noted_mark : List.Forall₂ Local.Noted ls (markCaptured.mark name ls) := by
  induction ls with
  | nil => exact .nil
  | cons a ls ih =>
    rw [markCaptured.mark]
    split
    · exact .cons ⟨rfl, rfl, rfl, fun _ => rfl⟩ (noted_refl ls)
    · exact .cons (Local.Noted.refl a) ih

theorem find?_mark (h : find? name ls = some (slot, l)) :
    find? name (markCaptured.mark name ls) = some (slot, { l with isCaptured := true }) := by
  induction ls with
  | nil => cases h
  | cons a ls ih =>
    rw [find?] at h
    rw [markCaptured.mark]
    split at h
    case isTrue hname =>
      cases h
      rw [if_pos hname, find?, if_pos hname]
    case isFalse hname =>
      rw [if_neg hname, find?, if_neg hname]
      exact ih h

end Find

/-- A slot holds a variable that is captured. -/
def Flagged (c : Scope) (slot : Nat) : Prop :=
  ∃ l, c.locals.reverse[slot]? = some l ∧ l.isCaptured = true

theorem Flagged.lt {c : Scope} {slot : Nat} (h : c.Flagged slot) : slot < c.locals.length := by
  obtain ⟨l, hl, _⟩ := h
  simpa using (List.getElem?_eq_some_iff.1 hl).1

/-- **A scope with more notes:** variables that are captured now, and captures. -/
structure Noted (c c' : Scope) : Prop where
  locals : List.Forall₂ Local.Noted c.locals c'.locals
  captures : c.captures.toList <+: c'.captures.toList
  depth : c'.depth = c.depth
  loops : c'.loops = c.loops
  constants : c'.constants = c.constants
  names : c'.names = c.names
  offset : c'.offset = c.offset

theorem Noted.refl (c : Scope) : c.Noted c :=
  ⟨noted_refl c.locals, List.prefix_rfl, rfl, rfl, rfl, rfl, rfl⟩

theorem Noted.trans {c c' c'' : Scope} (h : c.Noted c') (h' : c'.Noted c'') : c.Noted c'' :=
  ⟨noted_trans h.locals h'.locals, h.captures.trans h'.captures, h'.depth.trans h.depth,
    h'.loops.trans h.loops, h'.constants.trans h.constants, h'.names.trans h.names,
    h'.offset.trans h.offset⟩

theorem notedAll_refl (cs : List Scope) : List.Forall₂ Noted cs cs :=
  List.forall₂_same.2 fun c _ => Noted.refl c

theorem notedAll_trans {cs cs' cs'' : List Scope} (h : List.Forall₂ Noted cs cs')
    (h' : List.Forall₂ Noted cs' cs'') : List.Forall₂ Noted cs cs'' := by
  induction h generalizing cs'' with
  | nil => exact h'
  | cons ha _ ih =>
    cases h' with
    | cons hb h' => exact .cons (ha.trans hb) (ih h')

theorem Noted.lookup_none {c c' : Scope} {name : String} (h : c.Noted c')
    (hl : c.lookup? name = none) : c'.lookup? name = none :=
  (find?_noted h.locals).1 hl

theorem Noted.lookup_some {c c' : Scope} {name : String} {slot : Nat} {l : Local} (h : c.Noted c')
    (hl : c.lookup? name = some (slot, l)) :
    ∃ l', c'.lookup? name = some (slot, l') ∧ l.Noted l' :=
  (find?_noted h.locals).2 slot l hl

theorem flagged_noted {ls ls' : List Local} (h : List.Forall₂ Local.Noted ls ls') {slot : Nat}
    (hl : ∃ l, ls.reverse[slot]? = some l ∧ l.isCaptured = true) :
    ∃ l, ls'.reverse[slot]? = some l ∧ l.isCaptured = true := by
  obtain ⟨l, hl, hcap⟩ := hl
  have hr : List.Forall₂ Local.Noted ls.reverse ls'.reverse := List.rel_reverse h
  obtain ⟨hlt, rfl⟩ := List.getElem?_eq_some_iff.1 hl
  have hlt' : slot < ls'.reverse.length := hr.length_eq ▸ hlt
  exact ⟨ls'.reverse[slot], List.getElem?_eq_getElem hlt', (hr.get hlt hlt').isCaptured hcap⟩

end Scope

/-! ### What a capture stands for -/

/-- A capture stands for the variable that a name means in the functions around: a slot of the next
one, which is noted there, or a capture of that one. -/
inductive CapturedAs (name : String) : (captures : Array Capture) → (enclosing : List Scope) →
    (index : Nat) → Prop
  | slot {captures : Array Capture} {parent : Scope} {outer : List Scope} {index : Nat}
      {k : Capture} {l : Local} (hk : captures[index]? = some k) (hlocal : k.source.isLocal = true)
      (hl : parent.lookup? name = some (k.source.index.toNat, l)) (hcap : l.isCaptured = true) :
      CapturedAs name captures (parent :: outer) index
  | outer {captures : Array Capture} {parent : Scope} {outer : List Scope} {index : Nat}
      {k : Capture} (hk : captures[index]? = some k) (hlocal : k.source.isLocal = false)
      (hl : parent.lookup? name = none)
      (h : CapturedAs name parent.captures outer k.source.index.toNat) :
      CapturedAs name captures (parent :: outer) index

/-- Every capture of a function stands for a variable, and so do those of the functions around. -/
def Linked : (captures : Array Capture) → (enclosing : List Scope) → Prop
  | captures, [] => captures.size = 0
  | captures, parent :: outer => captures.size ≤ Scope.maxCaptures ∧
      (∀ i < captures.size, ∃ name, CapturedAs name captures (parent :: outer) i) ∧
      Linked parent.captures outer

theorem getElem?_of_extends {α : Type} {as bs : Array α} (h : as.toList <+: bs.toList) {i : Nat}
    {a : α} (ha : as[i]? = some a) : bs[i]? = some a := by
  rw [← Array.getElem?_toList] at ha ⊢
  obtain ⟨rest, hrest⟩ := h
  rw [← hrest, List.getElem?_append_left (List.getElem?_eq_some_iff.1 ha).1]
  exact ha

theorem size_le_of_extends {α : Type} {as bs : Array α} (h : as.toList <+: bs.toList) :
    as.size ≤ bs.size := h.length_le

theorem CapturedAs.lt {name : String} {captures : Array Capture} {enclosing : List Scope}
    {index : Nat} (h : CapturedAs name captures enclosing index) : index < captures.size := by
  cases h with
  | slot hk | outer hk => exact (Array.getElem?_eq_some_iff.1 hk).1

theorem CapturedAs.noted {name : String} {captures captures' : Array Capture}
    {enclosing enclosing' : List Scope} {index : Nat} (h : CapturedAs name captures enclosing index)
    (hc : captures.toList <+: captures'.toList)
    (he : List.Forall₂ Scope.Noted enclosing enclosing') :
    CapturedAs name captures' enclosing' index := by
  induction h generalizing captures' enclosing' with
  | slot hk hlocal hl hcap =>
    cases he with
    | cons hp he =>
      obtain ⟨l', hl', hnoted⟩ := hp.lookup_some hl
      exact .slot (getElem?_of_extends hc hk) hlocal hl' (hnoted.isCaptured hcap)
  | outer hk hlocal hl _ ih =>
    cases he with
    | cons hp he =>
      exact .outer (getElem?_of_extends hc hk) hlocal (hp.lookup_none hl) (ih hp.captures he)

theorem Linked.size_le {captures : Array Capture} {enclosing : List Scope}
    (h : Linked captures enclosing) : captures.size ≤ Scope.maxCaptures := by
  cases enclosing with
  | nil => exact Nat.le_trans (Nat.le_of_eq h) (Nat.zero_le _)
  | cons parent outer => exact h.1

/-- What a function captures stays linked when the functions around get notes, as long as these stay
linked themselves. -/
theorem Linked.noted {captures : Array Capture} {parent parent' : Scope} {outer outer' : List Scope}
    (h : Linked captures (parent :: outer)) (hp : parent.Noted parent')
    (ho : List.Forall₂ Scope.Noted outer outer') (hlinked : Linked parent'.captures outer') :
    Linked captures (parent' :: outer') := by
  refine ⟨h.1, fun i hi => ?_, hlinked⟩
  obtain ⟨name, hname⟩ := h.2.1 i hi
  exact ⟨name, hname.noted List.prefix_rfl (.cons hp ho)⟩

/-! ### Finding a variable further out -/

namespace Scope

variable {c c' : Scope} {capture : Capture} {line index : Nat} {name : String}

/-- A capture that is added has its index, and nothing else is new. -/
theorem addCapture_spec (h : c.addCapture capture line = .ok (index, c'))
    (hsize : c.captures.size ≤ maxCaptures) :
    ∃ captures, c' = { c with captures } ∧ c.captures.toList <+: captures.toList ∧
      captures.size ≤ maxCaptures ∧
      (∃ k, captures[index]? = some k ∧ k.source = capture.source) ∧
      ∀ i, i < captures.size → i < c.captures.size ∨ i = index := by
  unfold addCapture at h
  split at h
  case h_1 found hfound =>
    obtain ⟨rfl, rfl⟩ := Prod.mk.inj (Except.ok.inj h)
    obtain ⟨hlt, hsource, _⟩ := Array.findIdx?_eq_some_iff_getElem.1 hfound
    exact ⟨c.captures, rfl, List.prefix_rfl, hsize,
      ⟨c.captures[found], Array.getElem?_eq_getElem hlt, of_decide_eq_true hsource⟩,
      fun i hi => Or.inl hi⟩
  case h_2 =>
    split at h
    case isTrue hlt =>
      obtain ⟨rfl, rfl⟩ := Prod.mk.inj (Except.ok.inj h)
      refine ⟨c.captures.push capture, rfl, by simp, by rw [Array.size_push]; exact hlt,
        ⟨capture, by simp, rfl⟩,
        fun i hi => ?_⟩
      rw [Array.size_push] at hi
      omega
    case isFalse => cases h

/-- **Finding a variable further out** gives the functions notes and nothing else; they stay linked,
and the capture that is found stands for the name. -/
theorem resolveCapture_spec {enclosing enclosing' : List Scope}
    (hlinked : Linked c.captures enclosing)
    (h : resolveCapture name line c enclosing = .ok (some (index, c', enclosing'))) :
    (∃ captures, c' = { c with captures }) ∧ c.captures.toList <+: c'.captures.toList ∧
      List.Forall₂ Noted enclosing enclosing' ∧ Linked c'.captures enclosing' ∧
      CapturedAs name c'.captures enclosing' index := by
  -- Each function further out asks the next one in its own place, so `c` varies as well.
  induction enclosing generalizing c c' enclosing' index with
  | nil => cases h
  | cons parent outer ih =>
    rw [resolveCapture] at h
    split at h
    case h_1 slot l hl =>
      split at h
      case isFalse => cases h
      case isTrue hslot =>
        have hindex : (UInt8.ofNat slot).toNat = slot := by
          rw [UInt8.toNat_ofNat']
          exact Nat.mod_eq_of_lt hslot
        simp only [bind, Except.bind] at h
        split at h
        case h_1 => cases h
        case h_2 r hadd =>
          obtain ⟨found, c₁⟩ := r
          cases h
          obtain ⟨captures, rfl, hpre, hsize, ⟨k, hk, hsource⟩, hnew⟩ :=
            addCapture_spec hadd hlinked.size_le
          -- The variable is the parent's: its local gets the mark, and nothing else changes.
          have hp : parent.Noted (parent.markCaptured name) :=
            ⟨noted_mark, List.prefix_rfl, rfl, rfl, rfl, rfl, rfl⟩
          have he : List.Forall₂ Noted (parent :: outer) (parent.markCaptured name :: outer) :=
            .cons hp (notedAll_refl outer)
          have hfound : CapturedAs name captures (parent.markCaptured name :: outer) found :=
            .slot hk (by rw [hsource]) (by rw [hsource, hindex]; exact find?_mark hl) rfl
          refine ⟨⟨captures, rfl⟩, hpre, he, ⟨hsize, fun i hi => ?_, hlinked.2.2⟩, hfound⟩
          rcases hnew i hi with hold | rfl
          · obtain ⟨n, hn⟩ := hlinked.2.1 i hold
            exact ⟨n, hn.noted hpre he⟩
          · exact ⟨name, hfound⟩
    case h_2 hl =>
      simp only [bind, Except.bind] at h
      split at h
      case h_1 => cases h
      case h_2 r hr =>
        cases r with
        | none => cases h
        | some r =>
          obtain ⟨inner, parent', outer'⟩ := r
          simp only at h
          split at h
          case h_1 => cases h
          case h_2 r hadd =>
            obtain ⟨found, c₁⟩ := r
            cases h
            -- The parent captures the variable itself, and `c` takes it from there.
            obtain ⟨⟨captures', rfl⟩, hpre', houter, hlinked', hinner⟩ := ih hlinked.2.2 hr
            obtain ⟨captures, rfl, hpre, hsize, ⟨k, hk, hsource⟩, hnew⟩ :=
              addCapture_spec hadd hlinked.size_le
            have hlt : inner < UInt8.size :=
              Nat.lt_trans (Nat.lt_of_lt_of_le hinner.lt hlinked'.size_le) (by decide)
            have hindex : (UInt8.ofNat inner).toNat = inner := by
              rw [UInt8.toNat_ofNat']
              exact Nat.mod_eq_of_lt hlt
            have hp : parent.Noted { parent with captures := captures' } :=
              ⟨noted_refl parent.locals, hpre', rfl, rfl, rfl, rfl, rfl⟩
            have he := List.Forall₂.cons hp houter
            have hfound : CapturedAs name captures ({ parent with captures := captures' } :: outer')
                found :=
              .outer hk (by rw [hsource]) hl (by rw [hsource, hindex]; exact hinner)
            refine ⟨⟨captures, rfl⟩, hpre, he, ⟨hsize, fun i hi => ?_, hlinked'⟩, hfound⟩
            rcases hnew i hi with hold | rfl
            · obtain ⟨n, hn⟩ := hlinked.2.1 i hold
              exact ⟨n, hn.noted hpre he⟩
            · exact ⟨name, hfound⟩

/-- A name that is not found further out is that of no variable there. -/
theorem resolveCapture_none {enclosing : List Scope}
    (h : resolveCapture name line c enclosing = .ok none) :
    ∀ parent ∈ enclosing, parent.lookup? name = none := by
  induction enclosing generalizing c with
  | nil => exact fun _ hp => nomatch hp
  | cons parent outer ih =>
    rw [resolveCapture] at h
    split at h
    case h_1 slot l hl =>
      split at h
      case isFalse => cases h
      case isTrue =>
        simp only [bind, Except.bind] at h
        split at h <;> cases h
    case h_2 hl =>
      simp only [bind, Except.bind] at h
      split at h
      case h_1 => cases h
      case h_2 r hr =>
        cases r with
        | none =>
          intro p hp
          rcases List.mem_cons.1 hp with rfl | hp
          · exact hl
          · exact ih hr p hp
        | some r =>
          simp only at h
          split at h <;> cases h

end Scope

end DeployScript
