import DeployScript.Heap.Exchange
import DeployScript.Heap.Operator
import DeployScript.Proofs.Heap.Objects

/-!
# Heaps that differ in where their objects lie

Two heaps are twins under links between their handles when linked handles stand for like objects.
No operation that reads can tell them apart.

* `Link` — which handle of one heap stands for which of the other, and for what kind of object.
* `Value.Similar` — values that are equal up to the links of their handles.
* `Heap.Twin` — linked arrays and records have similar entries, linked functions have one name,
  and no handle has two partners.
* `Twin.display`, `Twin.toHost`, `Twin.binary` and the like — what is read from twins is the same.
-/

namespace DeployScript

/-- What a handle stands for. -/
inductive Kind
  | array | record | function | closure | cell

/-- **Links** between the handles of two heaps, and the names that stand for builtins. -/
structure Link where
  handle : Kind → Handle → Handle → Prop
  builtin : String → Prop

instance : CoeFun Link fun _ => Kind → Handle → Handle → Prop := ⟨Link.handle⟩

/-- **Values up to the links of their handles.** -/
inductive Value.Similar (β : Link) : Value → Value → Prop
  | number (n : Float) : Similar β (.number n) (.number n)
  | text (s : String) : Similar β (.text s) (.text s)
  | bool (b : Bool) : Similar β (.bool b) (.bool b)
  | nil : Similar β .nil .nil
  | intrinsic (f : Intrinsic) : Similar β (.intrinsic f) (.intrinsic f)
  | builtin {name : String} (hname : β.builtin name) : Similar β (.builtin name) (.builtin name)
  | function {h h' : Handle} (hh : β .function h h') : Similar β (.function h) (.function h')
  | closure {h h' : Handle} (hh : β .closure h h') : Similar β (.closure h) (.closure h')
  | array {h h' : Handle} (hh : β .array h h') : Similar β (.array h) (.array h')
  | record {h h' : Handle} (hh : β .record h h') : Similar β (.record h) (.record h')

/-- More links keep all that were there, and the builtins are the same. -/
structure Link.Le (β γ : Link) : Prop where
  handle : ∀ k h h', β k h h' → γ k h h'
  builtin : γ.builtin = β.builtin

theorem Link.Le.refl (β : Link) : β.Le β := ⟨fun _ _ _ hh => hh, rfl⟩

theorem Link.Le.trans {β γ δ : Link} (h : β.Le γ) (h' : γ.Le δ) : β.Le δ :=
  ⟨fun k a b hh => h'.handle k a b (h.handle k a b hh), h'.builtin.trans h.builtin⟩

/-! ### Maps with like entries -/

section Matching

variable {κ ι : Type} {r s : κ → ι → Prop} {t : Std.TreeMap String κ} {t' : Std.TreeMap String ι}

/-- **Maps with the same keys** and related entries. -/
def Matching (r : κ → ι → Prop) (t : Std.TreeMap String κ) (t' : Std.TreeMap String ι) : Prop :=
  ∀ key : String, Option.Rel r t[key]? t'[key]?

theorem Matching.mono (hm : Matching r t t') (hrs : ∀ a b, r a b → s a b) : Matching s t t' := by
  intro key
  have hk := hm key
  revert hk
  generalize t[key]? = a
  generalize t'[key]? = b
  intro hk
  cases hk with
  | none => exact .none
  | some hr => exact .some (hrs _ _ hr)

theorem matching_empty : Matching r ({} : Std.TreeMap String κ) {} := by
  intro key
  rw [Std.TreeMap.getElem?_emptyc, Std.TreeMap.getElem?_emptyc]
  exact .none

theorem Matching.insert (hm : Matching r t t') (key : String) {a : κ} {b : ι} (hab : r a b) :
    Matching r (t.insert key a) (t'.insert key b) := by
  intro other
  rw [Std.TreeMap.getElem?_insert, Std.TreeMap.getElem?_insert]
  split
  · exact .some hab
  · exact hm other

theorem Matching.mem (hm : Matching r t t') (key : String) : key ∈ t.keys ↔ key ∈ t'.keys := by
  rw [Std.TreeMap.mem_keys, Std.TreeMap.mem_keys, Std.TreeMap.mem_iff_isSome_getElem?,
    Std.TreeMap.mem_iff_isSome_getElem?]
  have hk := hm key
  revert hk
  generalize t[key]? = a
  generalize t'[key]? = b
  rintro (_ | _) <;> simp

/-- The keys are the same, and so is their order. -/
theorem Matching.keys (hm : Matching r t t') : t.keys = t'.keys := by
  have hperm : t.keys.Perm t'.keys :=
    (List.perm_ext_iff_of_nodup t.nodup_keys t'.nodup_keys).2 hm.mem
  refine hperm.eq_of_pairwise (fun a b _ _ hab hba => ?_) t.ordered_keys t'.ordered_keys
  exact absurd hba (Std.OrientedCmp.not_lt_of_lt hab)

theorem Matching.size (hm : Matching r t t') : t.size = t'.size := by
  rw [← Std.TreeMap.length_keys, ← Std.TreeMap.length_keys, hm.keys]

/-- Entries are listed in step. -/
theorem Matching.toList (hm : Matching r t t') :
    List.Forall₂ (fun a b => a.1 = b.1 ∧ r a.2 b.2) t.toList t'.toList := by
  have hfst : t.toList.map Prod.fst = t'.toList.map Prod.fst := by
    rw [Std.TreeMap.map_fst_toList_eq_keys, Std.TreeMap.map_fst_toList_eq_keys, hm.keys]
  have hkeys : List.Forall₂ (fun a b => a.1 = b.1) t.toList t'.toList := by
    rw [← List.forall₂_eq_eq_eq, List.forall₂_map_left_iff, List.forall₂_map_right_iff] at hfst
    exact hfst
  rw [List.forall₂_iff_get] at hkeys ⊢
  refine ⟨hkeys.1, fun i hi hi' => ⟨hkeys.2 i hi hi', ?_⟩⟩
  have hkey := hkeys.2 i hi hi'
  have ha := Std.TreeMap.mem_toList_iff_getElem?_eq_some.1 (List.get_mem t.toList ⟨i, hi⟩)
  have hb := Std.TreeMap.mem_toList_iff_getElem?_eq_some.1 (List.get_mem t'.toList ⟨i, hi'⟩)
  have hk := hm (t.toList.get ⟨i, hi⟩).1
  rw [ha, hkey, hb] at hk
  cases hk with
  | some hr => exact hr

/-- The values of a map are those of its entries. -/
theorem values_eq (t : Std.TreeMap String κ) : t.values = t.toList.map Prod.snd := by
  change t.foldr (fun _ a values => a :: values) [] = _
  rw [Std.TreeMap.foldr_eq_foldr_toList]
  induction t.toList with
  | nil => rfl
  | cons entry entries ih =>
    rw [List.foldr_cons, ih]
    rfl

theorem mem_values {a : κ} : a ∈ t.values ↔ ∃ key : String, t[key]? = some a := by
  simp [values_eq]

theorem Matching.values (hm : Matching r t t') : List.Forall₂ r t.values t'.values := by
  rw [values_eq, values_eq, List.forall₂_map_left_iff, List.forall₂_map_right_iff]
  exact hm.toList.imp fun _ _ hab => hab.2

end Matching

/-! ### Similar values -/

namespace Value.Similar

variable {β γ : Link} {v v' w w' : Value}

theorem mono (hv : Similar β v v') (hle : β.Le γ) : Similar γ v v' := by
  cases hv with
  | function hh => exact .function (hle.handle _ _ _ hh)
  | closure hh => exact .closure (hle.handle _ _ _ hh)
  | array hh => exact .array (hle.handle _ _ _ hh)
  | record hh => exact .record (hle.handle _ _ _ hh)
  | builtin hname => exact .builtin (hle.builtin ▸ hname)
  | _ => constructor

theorem typeName (hv : Similar β v v') : v.typeName = v'.typeName := by
  cases hv <;> rfl

theorem isTruthy (hv : Similar β v v') : v.isTruthy = v'.isTruthy := by
  cases hv <;> rfl

theorem isCallable (hv : Similar β v v') : v.isCallable = v'.isCallable := by
  cases hv <;> rfl

theorem shown (hv : Similar β v v') : v.shown = v'.shown := by
  cases hv <;> rfl

/-- Equality sees handles only as far as they are equal. -/
theorem equals (hone : ∀ k l h h' g g', β k h h' → β l g g' → (h = g ↔ h' = g'))
    (hv : Similar β v v') (hw : Similar β w w') : v.equals w = v'.equals w' := by
  have hsame : ∀ {k l h h' g g'}, β k h h' → β l g g' → (h == g) = (h' == g') := by
    intro k l h h' g g' hh hg
    rw [Bool.eq_iff_iff, beq_iff_eq, beq_iff_eq]
    exact hone k l h h' g g' hh hg
  cases hv <;> cases hw <;> first | rfl | exact hsame ‹_› ‹_›

end Value.Similar

theorem similar_getD {β : Link} {a b : Option Value} (h : Option.Rel (Value.Similar β) a b) :
    Value.Similar β (a.getD .nil) (b.getD .nil) := by
  cases h with
  | none => exact .nil
  | some h => exact h

/-- Elements at one place of related arrays are related. -/
theorem rel_getElem? {κ ι : Type} {r : κ → ι → Prop} {items : Array κ} {items' : Array ι}
    (h : List.Forall₂ r items.toList items'.toList) (i : Nat) :
    Option.Rel r items[i]? items'[i]? := by
  rw [← Array.getElem?_toList, ← Array.getElem?_toList]
  generalize items.toList = l at h
  generalize items'.toList = l' at h
  induction h generalizing i with
  | nil => exact .none
  | cons hv _ ih =>
    cases i with
    | zero => exact .some hv
    | succ i => exact ih i

/-- Whatever is in one of two related lists has a partner in the other. -/
theorem forall₂_exists {α ι : Type} {r : α → ι → Prop} {l : List α} {l' : List ι}
    (h : List.Forall₂ r l l') :
    (∀ a ∈ l, ∃ b ∈ l', r a b) ∧ ∀ b ∈ l', ∃ a ∈ l, r a b := by
  induction h with
  | nil => exact ⟨fun _ ha => (nomatch ha), fun _ hb => (nomatch hb)⟩
  | cons hab _ ih =>
    refine ⟨List.forall_mem_cons.2 ⟨⟨_, List.mem_cons_self, hab⟩, fun a ha => ?_⟩,
      List.forall_mem_cons.2 ⟨⟨_, List.mem_cons_self, hab⟩, fun b hb => ?_⟩⟩
    · obtain ⟨b, hb, hr⟩ := ih.1 a ha
      exact ⟨b, List.mem_cons_of_mem _ hb, hr⟩
    · obtain ⟨a, ha, hr⟩ := ih.2 b hb
      exact ⟨a, List.mem_cons_of_mem _ ha, hr⟩

/-! ### Twins -/

namespace Heap

/-- **Heaps that differ in where objects lie.** Handles are linked in pairs and for one kind of
object, linked arrays and records have similar entries, and linked functions have the same name. -/
structure Twin (β : Link) (heap heap' : Heap) : Prop where
  wf : heap.Wf
  wf' : heap'.Wf
  one : ∀ k l h h' g g', β k h h' → β l g g' → (h = g ↔ h' = g')
  kind : ∀ k l h h' g', β k h h' → β l h g' → k = l
  live : ∀ k h h', β k h h' → (heap.get? h).isSome ∧ (heap'.get? h').isSome
  array : ∀ h h', β .array h h' → ∃ items items', heap.array? h = some items ∧
    heap'.array? h' = some items' ∧
    List.Forall₂ (Value.Similar β) items.toList items'.toList
  record : ∀ h h', β .record h h' → ∃ fields fields', heap.record? h = some fields ∧
    heap'.record? h' = some fields' ∧ Matching (Value.Similar β) fields fields'
  named : ∀ h h', β .function h h' ∨ β .closure h h' → ∃ name,
    heap.functionName? h = some name ∧ heap'.functionName? h' = some name

namespace Twin

variable {β : Link} {heap heap' : Heap} {v v' w w' : Value}

/-! #### Reading -/

theorem equals (ht : Twin β heap heap') (hv : v.Similar β v') (hw : w.Similar β w') :
    v.equals w = v'.equals w' :=
  hv.equals ht.one hw

/-- **Twins are displayed alike.** -/
theorem displayWithin (ht : Twin β heap heap') (levels : Nat) (hv : v.Similar β v') :
    heap.displayWithin levels v = heap'.displayWithin levels v' := by
  induction levels generalizing v v' with
  | zero => rfl
  | succ levels ih =>
    cases hv with
    | array hh =>
      obtain ⟨items, items', hi, hi', hs⟩ := ht.array _ _ hh
      have htexts : items.toList.map (heap.displayWithin levels)
          = items'.toList.map (heap'.displayWithin levels) := by
        rw [← List.forall₂_eq_eq_eq, List.forall₂_map_left_iff, List.forall₂_map_right_iff]
        exact hs.imp fun _ _ hv => ih hv
      simp only [Heap.displayWithin, hi, hi', htexts]
    | record hh =>
      obtain ⟨fields, fields', hf, hf', hs⟩ := ht.record _ _ hh
      have htexts : fields.toList.map (fun e => e.1 ++ ": " ++ heap.displayWithin levels e.2)
          = fields'.toList.map (fun e => e.1 ++ ": " ++ heap'.displayWithin levels e.2) := by
        rw [← List.forall₂_eq_eq_eq, List.forall₂_map_left_iff, List.forall₂_map_right_iff]
        refine hs.toList.imp fun a b hab => ?_
        rw [hab.1, ih hab.2]
      simp only [Heap.displayWithin, hf, hf', htexts]
    | function hh =>
      obtain ⟨name, hn, hn'⟩ := ht.named _ _ (.inl hh)
      simp only [Heap.displayWithin, displayFunction, hn, hn']
    | closure hh =>
      obtain ⟨name, hn, hn'⟩ := ht.named _ _ (.inr hh)
      simp only [Heap.displayWithin, displayFunction, hn, hn']
    | _ => rfl

theorem display (ht : Twin β heap heap') (hv : v.Similar β v') :
    heap.display v = heap'.display v' :=
  ht.displayWithin _ hv

/-- **Twins are copied out alike.** -/
theorem toHostWithin (ht : Twin β heap heap') (levels : Nat) (hv : v.Similar β v') :
    heap.toHostWithin levels v = heap'.toHostWithin levels v' := by
  induction levels generalizing v v' with
  | zero => rfl
  | succ levels ih =>
    cases hv with
    | array hh =>
      obtain ⟨items, items', hi, hi', hs⟩ := ht.array _ _ hh
      have hcopies : items.toList.map (heap.toHostWithin levels)
          = items'.toList.map (heap'.toHostWithin levels) := by
        rw [← List.forall₂_eq_eq_eq, List.forall₂_map_left_iff, List.forall₂_map_right_iff]
        exact hs.imp fun _ _ hv => ih hv
      simp only [Heap.toHostWithin, hi, hi', hcopies]
    | record hh =>
      obtain ⟨fields, fields', hf, hf', hs⟩ := ht.record _ _ hh
      have hcopies : fields.toList.map (fun e => (e.1, heap.toHostWithin levels e.2))
          = fields'.toList.map (fun e => (e.1, heap'.toHostWithin levels e.2)) := by
        rw [← List.forall₂_eq_eq_eq, List.forall₂_map_left_iff, List.forall₂_map_right_iff]
        refine hs.toList.imp fun a b hab => ?_
        rw [hab.1, ih hab.2]
      simp only [Heap.toHostWithin, hf, hf', hcopies]
    | function hh =>
      obtain ⟨name, hn, hn'⟩ := ht.named _ _ (.inl hh)
      simp only [Heap.toHostWithin, hn, hn']
    | closure hh =>
      obtain ⟨name, hn, hn'⟩ := ht.named _ _ (.inr hh)
      simp only [Heap.toHostWithin, hn, hn']
    | _ => rfl

theorem toHost (ht : Twin β heap heap') (hv : v.Similar β v') :
    heap.toHost v = heap'.toHost v' :=
  ht.toHostWithin _ hv

theorem length? (ht : Twin β heap heap') (hv : v.Similar β v') :
    heap.length? v = heap'.length? v' := by
  cases hv with
  | array hh =>
    obtain ⟨items, items', hi, hi', hs⟩ := ht.array _ _ hh
    have hsize : items.size = items'.size := hs.length_eq
    simp only [Heap.length?, hi, hi', Option.map_some, hsize]
  | record hh =>
    obtain ⟨fields, fields', hf, hf', hs⟩ := ht.record _ _ hh
    simp only [Heap.length?, hf, hf', Option.map_some, hs.size]
  | _ => rfl

end Twin

/-- What two reads give: values that are similar, or the same failure. -/
inductive Agrees {ε κ ι : Type} (r : κ → ι → Prop) : Except ε κ → Except ε ι → Prop
  | ok {a : κ} {b : ι} (h : r a b) : Agrees r (.ok a) (.ok b)
  | error (e : ε) : Agrees r (.error e) (.error e)

namespace Twin

variable {β : Link} {heap heap' : Heap} {v v' w w' : Value}

/-- **An entry** of similar containers is similar. -/
theorem index (ht : Twin β heap heap') (hv : v.Similar β v') (hw : w.Similar β w') :
    Agrees (Value.Similar β) (heap.index v w) (heap'.index v' w') := by
  cases hv with
  | array hh =>
    obtain ⟨items, items', hi, hi', hs⟩ := ht.array _ _ hh
    cases hw with
    | number n =>
      simp only [Heap.index, hi, hi', Option.bind_some]
      refine .ok (similar_getD ?_)
      cases Number.toNat? n with
      | none => exact .none
      | some i => exact rel_getElem? hs i
    | _ => exact .error _
  | record hh =>
    obtain ⟨fields, fields', hf, hf', hs⟩ := ht.record _ _ hh
    cases hw with
    | text key =>
      simp only [Heap.index, hf, hf', Option.bind_some]
      exact .ok (similar_getD (hs key))
    | _ => exact .error _
  | text s =>
    cases hw with
    | number n =>
      refine .ok (similar_getD ?_)
      cases Number.toNat? n with
      | none => exact .none
      | some i =>
        rw [Option.bind_some]
        cases charAt? s i with
        | none => exact .none
        | some c => exact .some (.text _)
    | _ => exact .error _
  | _ => exact .error _

theorem property (ht : Twin β heap heap') (name : String) (hv : v.Similar β v') :
    Agrees (Value.Similar β) (heap.property name v) (heap'.property name v') := by
  cases hv with
  | array hh =>
    have hlength := ht.length? (.array hh)
    simp only [Heap.property, hlength]
    split
    · exact .ok (.number _)
    · exact .error _
  | record hh =>
    obtain ⟨fields, fields', hf, hf', hs⟩ := ht.record _ _ hh
    simp only [Heap.property, hf, hf', Option.bind_some]
    exact .ok (similar_getD (hs name))
  | text s =>
    simp only [Heap.property]
    split
    · exact .ok (.number _)
    · exact .error _
  | _ => exact .error _

/-! #### Operators -/

theorem wrongTypes (expected : String) (hv : v.Similar β v') (hw : w.Similar β w') :
    Agrees (Value.Similar β) (.error (DeployScript.wrongTypes expected v w))
      (.error (DeployScript.wrongTypes expected v' w')) := by
  unfold DeployScript.wrongTypes
  rw [hv.typeName, hw.typeName]
  exact .error _

theorem wrongType {r : Value → Value → Prop} (expected : String) (hv : v.Similar β v') :
    Agrees r (.error (DeployScript.wrongType expected v))
      (.error (DeployScript.wrongType expected v')) := by
  unfold DeployScript.wrongType
  rw [hv.typeName]
  exact .error _

theorem ordered (byNumber : Float → Float → Bool) (byText : Ordering → Bool)
    (hv : v.Similar β v') (hw : w.Similar β w') :
    Agrees (Value.Similar β) (Heap.ordered byNumber byText v w)
      (Heap.ordered byNumber byText v' w') := by
  have hv' := hv
  cases hv with
  | number x =>
    cases hw with
    | number y => exact .ok (.bool _)
    | _ => exact .error _
  | text x =>
    cases hw with
    | text y => exact .ok (.bool _)
    | _ => exact .error _
  | _ => exact wrongTypes _ hv' hw

theorem add (ht : Twin β heap heap') (hv : v.Similar β v') (hw : w.Similar β w') :
    Agrees (Value.Similar β) (heap.binary .add v w) (heap'.binary .add v' w') := by
  have hshown := ht.display hv
  have hshown' := ht.display hw
  cases hv with
  | number x =>
    cases hw with
    | number y => exact .ok (.number _)
    | text y =>
      simp only [Heap.binary, hshown]
      exact .ok (.text _)
    | _ => exact .error _
  | text x =>
    have htext : ∀ heap w, Heap.binary heap .add (.text x) w
        = .ok (.text (x ++ heap.display w)) := by
      intro heap w
      cases w <;> rfl
    rw [htext, htext, hshown']
    exact .ok (.text _)
  | _ =>
    cases hw with
    | text y =>
      simp only [Heap.binary, hshown]
      exact .ok (.text _)
    | _ => exact .error _

theorem repeatText (s : String) (times : Float) :
    Agrees (Value.Similar β) (DeployScript.repeatText s times)
      (DeployScript.repeatText s times) := by
  unfold DeployScript.repeatText
  split
  · exact .error _
  · split
    · exact .ok (.text _)
    · exact .error _

/-- **An operator** gives similar values on similar operands, or fails alike. -/
theorem binary (ht : Twin β heap heap') (op : BinaryOp) (hv : v.Similar β v')
    (hw : w.Similar β w') :
    Agrees (Value.Similar β) (heap.binary op v w) (heap'.binary op v' w') := by
  have hv' := hv
  cases op with
  | add => exact ht.add hv hw
  | eq =>
    simp only [Heap.binary, ht.equals hv hw]
    exact .ok (.bool _)
  | ne =>
    simp only [Heap.binary, ht.equals hv hw]
    exact .ok (.bool _)
  | lt => exact ordered _ _ hv hw
  | le => exact ordered _ _ hv hw
  | gt => exact ordered _ _ hv hw
  | ge => exact ordered _ _ hv hw
  | sub =>
    cases hv with
    | number x =>
      cases hw with
      | number y => exact .ok (.number _)
      | _ => exact .error _
    | _ => exact wrongTypes _ hv' hw
  | mod =>
    cases hv with
    | number x =>
      cases hw with
      | number y => exact .ok (.number _)
      | _ => exact .error _
    | _ => exact wrongTypes _ hv' hw
  | div =>
    cases hv with
    | number x =>
      cases hw with
      | number y =>
        simp only [Heap.binary]
        split
        · exact .error _
        · exact .ok (.number _)
      | _ => exact .error _
    | _ => exact wrongTypes _ hv' hw
  | mul =>
    cases hv with
    | number x =>
      cases hw with
      | number y => exact .ok (.number _)
      | _ => exact .error _
    | text x =>
      cases hw with
      | number y =>
        simp only [Heap.binary]
        split
        · exact repeatText x y
        · exact .error _
      | _ => exact .error _
    | _ => exact wrongTypes _ hv' hw

theorem unary (op : UnaryOp) (hv : v.Similar β v') :
    Agrees (Value.Similar β) (Heap.unary op v) (Heap.unary op v') := by
  cases op with
  | neg =>
    have hv' := hv
    cases hv with
    | number n => exact .ok (.number _)
    | _ => exact wrongType _ hv'
  | not =>
    simp only [Heap.unary, hv.isTruthy]
    exact .ok (.bool _)

/-! #### Arguments -/

theorem itemByte (hv : v.Similar β v') : Heap.itemByte v = Heap.itemByte v' := by
  cases hv <;> rfl

theorem itemText (hv : v.Similar β v') : Heap.itemText v = Heap.itemText v' := by
  cases hv <;> rfl

/-- Similar items are read alike, one after another. -/
theorem mapM_items {ε α : Type} {read : Value → Except ε α}
    (hread : ∀ {v v' : Value}, v.Similar β v' → read v = read v') {items items' : List Value}
    (hs : List.Forall₂ (Value.Similar β) items items') : items.mapM read = items'.mapM read := by
  induction hs with
  | nil => rfl
  | cons hv _ ih => rw [List.mapM_cons, List.mapM_cons, hread hv, ih]

theorem convert (ht : Twin β heap heap') (shape : Shape) (hv : v.Similar β v') :
    heap.convert shape v = heap'.convert shape v' := by
  cases hv with
  | array hh =>
    obtain ⟨items, items', hi, hi', hs⟩ := ht.array _ _ hh
    cases shape with
    | bytes => simp only [Heap.convert, itemsOf, hi, hi', Option.getD_some, mapM_items itemByte hs]
    | texts => simp only [Heap.convert, itemsOf, hi, hi', Option.getD_some, mapM_items itemText hs]
    | _ => rfl
  | _ => cases shape <;> rfl

/-- **Arguments** are read alike. -/
theorem convertFrom (ht : Twin β heap heap') (builtin : String) (position : Nat)
    (shapes : List Shape) {values values' : List Value}
    (hs : List.Forall₂ (Value.Similar β) values values') :
    heap.convertFrom builtin position shapes values
      = heap'.convertFrom builtin position shapes values' := by
  induction shapes generalizing position values values' with
  | nil => cases hs <;> rfl
  | cons shape shapes ih =>
    cases hs with
    | nil => rfl
    | cons hv hs => simp only [Heap.convertFrom, ht.convert shape hv, ih (position + 1) hs]

theorem unpack (ht : Twin β heap heap') (builtin : String) (shapes : List Shape)
    {values values' : List Value} (hs : List.Forall₂ (Value.Similar β) values values') :
    heap.unpack builtin shapes values = heap'.unpack builtin shapes values' := by
  unfold Heap.unpack
  rw [hs.length_eq, ht.convertFrom builtin 1 shapes hs]

end Twin

/-! ### Writes -/

/-- Places that a write means alike. -/
inductive Target.Similar (β : Link) : Target → Target → Prop
  | item {h h' : Handle} (hh : β .array h h') (index : Nat) :
    Similar β (.item h index) (.item h' index)
  | append {h h' : Handle} (hh : β .array h h') : Similar β (.append h) (.append h')
  | field {h h' : Handle} (hh : β .record h h') (key : String) :
    Similar β (.field h key) (.field h' key)

namespace Twin

variable {β : Link} {heap heap' : Heap} {v v' w w' : Value}

theorem target (ht : Twin β heap heap') (hv : v.Similar β v') (hw : w.Similar β w') :
    Agrees (Target.Similar β) (heap.target v w) (heap'.target v' w') := by
  have hwrong : ∀ {expected}, Agrees (Target.Similar β) (.error (DeployScript.wrongType expected w))
      (.error (DeployScript.wrongType expected w')) := by
    intro expected
    unfold DeployScript.wrongType
    rw [hw.typeName]
    exact .error _
  cases hv with
  | array hh =>
    obtain ⟨items, items', hi, hi', hs⟩ := ht.array _ _ hh
    have hsize : items.size = items'.size := hs.length_eq
    cases hw with
    | number n =>
      simp only [Heap.target, hi, hi', hsize]
      split
      · split
        · exact .ok (.item hh _)
        · split
          · exact .ok (.append hh)
          · exact .error _
      · exact .error _
    | _ => exact hwrong
  | record hh =>
    cases hw with
    | text key => exact .ok (.field hh key)
    | _ => exact hwrong
  | _ => exact .error _

theorem propertyTarget (name : String) (hv : v.Similar β v') :
    Agrees (Target.Similar β) (Heap.propertyTarget name v) (Heap.propertyTarget name v') := by
  cases hv with
  | record hh => exact .ok (.field hh name)
  | _ => exact .error _

end Twin

end Heap

end DeployScript
