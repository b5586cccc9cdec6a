import DeployScript.Proofs.Bindings.Painted

/-!
# Code of programs is painted

The code of an expression leaves the variables as they are, and that of a statement brings those into
scope that it declares. By induction over the program, with one case for each kind of node.

* `find?_of_slot?`, `captured?_of_captured` — the variables that are found by slots and captures are
  those that the names mean.
* `painted_expr`, `painted_stmt` — expressions and statements.
* `Routine.Codes.painted` — whole scripts and functions.
-/

namespace DeployScript

open Compile

/-! ### Variables that names mean -/

/-- The variable in the slot of a name is the one that the name means. -/
theorem find?_of_slot? {name : String} {vars : List Variable} {slot : Nat}
    (h : slot? name (vars.map Variable.name) = some slot) :
    ∃ x, vars.reverse[slot]? = some x ∧ Variable.find? name vars = some x := by
  induction vars with
  | nil => cases h
  | cons x vars ih =>
    rw [List.map_cons, slot?] at h
    rw [List.reverse_cons, Variable.find?, List.find?_cons]
    split at h
    case isTrue hname =>
      cases h
      refine ⟨x, ?_, by simp [hname]⟩
      rw [List.getElem?_append_right (by simp)]
      simp
    case isFalse hname =>
      obtain ⟨y, hy, hfind⟩ := ih h
      have hlt := slot?_lt h
      rw [List.length_map] at hlt
      refine ⟨y, ?_, ?_⟩
      · rw [List.getElem?_append_left (by rwa [List.length_reverse])]
        exact hy
      · simp only [hname, decide_false]
        exact hfind

theorem find?_of_slot?_none {name : String} {vars : List Variable}
    (h : slot? name (vars.map Variable.name) = none) : Variable.find? name vars = none := by
  induction vars with
  | nil => rfl
  | cons x vars ih =>
    rw [List.map_cons, slot?] at h
    rw [Variable.find?, List.find?_cons]
    split at h
    case isTrue => cases h
    case isFalse hname =>
      simp only [hname, decide_false]
      exact ih h

/-- **The variable that a capture stands for** is the one that the name means. -/
theorem capturedVariable?_of_captured {name : String} {outer : List Environment}
    {captures : List CaptureSource} {index : Nat}
    (h : Captured name captures (outer.map Environment.names) index) :
    ∃ x, capturedVariable? captures outer index = some x ∧
      Variable.find? name (outer.flatMap Environment.vars) = some x := by
  induction outer generalizing captures index with
  | nil => cases h
  | cons parent outer ih =>
    rw [List.map_cons] at h
    rw [List.flatMap_cons, Variable.find?, List.find?_append]
    cases h with
    | @slot _ _ _ _ slot hk hl =>
      obtain ⟨x, hx, hfind⟩ := find?_of_slot? hl
      refine ⟨x, ?_, ?_⟩
      · simp only [capturedVariable?, hk, if_true]
        exact hx
      · rw [show List.find? _ parent.vars = some x from hfind]
        rfl
    | @outer _ _ _ _ inner hk hl h =>
      obtain ⟨x, hx, hfind⟩ := ih h
      refine ⟨x, ?_, ?_⟩
      · simp only [capturedVariable?, hk, Bool.false_eq_true, if_false]
        exact hx
      · rw [show List.find? _ parent.vars = none from find?_of_slot?_none hl]
        exact hfind

/-- **Tables of a routine:** its captures, and the names of the functions around. -/
structure Tables.Around (T : Tables) (r : Routine) : Prop where
  captures : T.captures = r.captures
  enclosing : T.enclosing = r.outer.map Environment.names

variable {r : Routine} {T : Tables} {E : Nat → Paint → Prop} {start temps : Nat}
  {code code' : Written} {scopes : List (List Variable)} {vars : List Variable} {p q : Paint} {i : Instr}
  {line : Nat}

/-! ### Expressions -/

namespace Painted

/-- An instruction that puts a value in the place of others. -/
theorem compute (n : Nat) (hi : i.op.isPlain = true)
    (htargets : i.targets (start + i.size) = [start + i.size]) (hgiven : i.given = 1)
    (htaken : i.taken = n) (hq : Paint.Settles vars temps q) :
    Painted r T E start [(i, line)] [vars] ⟨vars, temps + n⟩ q := by
  subst htaken
  refine instr (Instr.sits_of_isPlain hi) htargets (Instr.leads_of_moves (fun hop => ?_)
    (.gives hgiven hq))
  rw [hop] at hi
  cases hi

/-- A value that belongs to no variable is taken off the stack. -/
theorem pop : Painted r T E start [(⟨.pop, ()⟩, line)] [vars] ⟨vars, temps + 1⟩ ⟨vars, temps⟩ :=
  instr (Instr.sits_of_isPlain rfl) rfl
    (Instr.leads_of_moves (i := ⟨.pop, ()⟩) nofun (.keeps rfl))

/-- A value is written to where the name of a variable is found. -/
theorem write {name : String} {place : Place} {w : UInt16} (hT : T.Around r)
    (hfinds : T.Finds (vars.map Variable.name) name place w)
    (hallowed : ∀ x, Variable.find? name (vars ++ r.visible) = some x → x.isMutable = true)
    (hq : Paint.Settles vars temps q) :
    Painted r T E start [(writeInstr place w, line)] [vars] ⟨vars, temps + 1⟩ q := by
  have hvisible : Variable.find? name (vars ++ r.visible)
      = (Variable.find? name vars).or (Variable.find? name r.visible) := List.find?_append
  rw [hvisible] at hallowed
  cases hfinds with
  | slot h =>
    obtain ⟨x, hx, hfind⟩ := find?_of_slot? h
    rw [hfind] at hallowed
    exact instr (Instr.sits_setLocal hx (hallowed x rfl)) rfl (Instr.leads_of_moves nofun (.gives rfl hq))
  | capture hl h =>
    rw [hT.captures, hT.enclosing] at h
    obtain ⟨x, hx, hfind⟩ := capturedVariable?_of_captured h
    rw [find?_of_slot?_none hl, Routine.visible, hfind] at hallowed
    exact instr (Instr.sits_setCapture hx (hallowed x rfl)) rfl
      (Instr.leads_of_moves nofun (.gives rfl hq))
  | global hl ho h => exact compute 1 rfl rfl rfl rfl hq

/-- **A jump over code** in front of which a value is taken off the stack. -/
theorem skip (line : Nat) {w : UInt16} (hi : i = ⟨.jumpIfFalse, w⟩ ∨ i = ⟨.jumpIfTrue, w⟩)
    (hw : w.toNat = 1 + Written.size code) (hq : Paint.Settles vars temps q)
    (h : Painted r T E (start + 4) code scopes ⟨vars, temps⟩ q) :
    Painted r T E start ((i, line) :: (⟨.pop, ()⟩, line) :: code) (vars :: vars :: scopes)
      ⟨vars, temps + 1⟩ q := by
  have hjump : i.op.isPlain = true ∧ i.op ≠ .closure ∧ i.size = 3 ∧ i.given = 1 ∧ i.taken = 1 ∧
      ∀ behind, i.targets behind = [behind, behind + w.toNat] := by
    rcases hi with rfl | rfl <;> exact ⟨rfl, nofun, rfl, rfl, rfl, fun _ => rfl⟩
  obtain ⟨hplain, hop, hsize, hgiven, htaken, htargets⟩ := hjump
  have hmoves : ∀ {q}, Paint.Settles vars temps q → i.Moves ⟨vars, temps + 1⟩ q :=
    fun hq => htaken ▸ .gives hgiven hq
  let F : Nat → Paint → Prop := fun place s => E place s ∨
    (place = start + (4 + Written.size code) ∧ s = q)
  have hfirst : Painted r T F start [(i, line)] [vars] ⟨vars, temps + 1⟩ ⟨vars, temps + 1⟩ := by
    refine single (p := ⟨vars, temps + 1⟩) (Instr.sits_of_isPlain hplain) fun place hplace => ?_
    rw [htargets, List.mem_cons, List.mem_singleton] at hplace
    rcases hplace with rfl | rfl
    · exact .inl ⟨rfl, Instr.leads_of_moves hop (hmoves (Paint.settles vars temps))⟩
    · refine .inr ⟨q, Instr.leads_of_moves hop (hmoves hq), .inr ⟨?_, rfl⟩⟩
      rw [hsize, hw]
      omega
  have hplace : start + Written.size [(i, line)] + Written.size [((⟨.pop, ()⟩ : Instr), line)]
      = start + 4 := by
    rw [Written.size_cons, hsize]
    rfl
  have hall := hfirst.append (pop.append (hplace ▸ h.mono fun _ _ => Or.inl))
  refine closeEnd (hall.mono fun place s => Or.imp_right fun hs => ?_)
  rw [Written.size_cons, Written.size_cons, hsize]
  change place = start + (3 + (1 + Written.size code)) ∧ s = q
  rwa [← Nat.add_assoc 3 1]

end Painted

mutual

/-- **The code of an expression** puts one value above the variables. -/
theorem painted_expr (hT : T.Around r) : (e : Expr) → {vars : List Variable} → {temps : Nat} →
    {E : Nat → Paint → Prop} → {start : Nat} → {code : Written} → {q : Paint} →
    e.Coded T (vars.map Variable.name) code → e.Allowed (vars ++ r.visible) →
    Paint.Settles vars temps q →
    Painted r T E start code (List.replicate e.count vars) ⟨vars, temps⟩ q
  | .number value span, vars, temps, E, start, code, q, h, _, hq => by
    obtain ⟨w, -, rfl⟩ := h
    exact .compute 0 rfl rfl rfl rfl hq
  | .text value span, vars, temps, E, start, code, q, h, _, hq => by
    obtain ⟨w, -, rfl⟩ := h
    exact .compute 0 rfl rfl rfl rfl hq
  | .bool true span, vars, temps, E, start, code, q, h, _, hq => by
    rw [Expr.Coded] at h
    subst h
    exact .compute 0 rfl rfl rfl rfl hq
  | .bool false span, vars, temps, E, start, code, q, h, _, hq => by
    rw [Expr.Coded] at h
    subst h
    exact .compute 0 rfl rfl rfl rfl hq
  | .nil span, vars, temps, E, start, code, q, h, _, hq => by
    rw [Expr.Coded] at h
    subst h
    exact .compute 0 rfl rfl rfl rfl hq
  | .name x span, vars, temps, E, start, code, q, h, _, hq => by
    obtain ⟨place, w, -, rfl⟩ := h
    cases place <;> exact .compute 0 rfl rfl rfl rfl hq
  | .array elements span, vars, temps, E, start, code, q, h, ha, hq => by
    obtain ⟨values, w, hvalues, hw, rfl⟩ := h
    rw [Expr.Allowed] at ha
    simp only [Expr.count, List.replicate_add]
    exact (painted_exprs hT elements hvalues ha).append (.compute _ rfl rfl rfl hw hq)
  | .record fields span, vars, temps, E, start, code, q, h, ha, hq => by
    obtain ⟨values, w, hvalues, hw, rfl⟩ := h
    rw [Expr.Allowed] at ha
    simp only [Expr.count, List.replicate_add]
    exact (painted_fields hT fields hvalues ha).append
      (.compute _ rfl rfl rfl (congrArg (2 * ·) hw) hq)
  | .binary left op right span, vars, temps, E, start, code, q, h, ha, hq => by
    obtain ⟨l, r', hl, hr, rfl⟩ := h
    rw [Expr.Allowed] at ha
    simp only [Expr.count, List.replicate_add, List.append_assoc]
    refine (painted_expr hT left hl ha.1 (Paint.settles vars temps)).append
      ((painted_expr hT right hr ha.2 (Paint.settles vars _)).append ?_)
    cases op <;> exact .compute 2 rfl rfl rfl rfl hq
  | .logical left op right span, vars, temps, E, start, code, q, h, ha, hq => by
    obtain ⟨l, r', w, hl, hr, hw, rfl⟩ := h
    rw [Expr.Allowed] at ha
    -- Either the left value is the result, and the jump skips the rest, or the right one takes its
    -- place: both ways meet at one height.
    have hjump : logicalJump op w = ⟨.jumpIfFalse, w⟩ ∨ logicalJump op w = ⟨.jumpIfTrue, w⟩ := by
      cases op
      · exact .inl rfl
      · exact .inr rfl
    rw [Expr.count, Nat.add_assoc, List.replicate_add, Nat.add_comm 2]
    exact (painted_expr hT left hl ha.1 (Paint.settles vars temps)).append
      (.skip _ hjump hw hq (painted_expr hT right hr ha.2 hq))
  | .unary op operand span, vars, temps, E, start, code, q, h, ha, hq => by
    obtain ⟨o, ho, rfl⟩ := h
    rw [Expr.Allowed] at ha
    simp only [Expr.count, List.replicate_add]
    refine (painted_expr hT operand ho ha (Paint.settles vars temps)).append ?_
    cases op <;> exact .compute 1 rfl rfl rfl rfl hq
  | .call callee args span, vars, temps, E, start, code, q, h, ha, hq => by
    obtain ⟨f, values, n, hvalues, hn, ⟨hp, rfl⟩ | ⟨hp, hf, rfl⟩⟩ := h
    · rw [Expr.Allowed] at ha
      simp only [Expr.count, hp, if_true, Nat.zero_add, List.replicate_add]
      exact (painted_exprs hT args hvalues ha.2).append (.compute _ rfl rfl rfl hn hq)
    · rw [Expr.Allowed] at ha
      simp only [Expr.count, hp, Bool.false_eq_true, if_false, List.replicate_add, List.append_assoc]
      refine (painted_expr hT callee hf ha.1 (Paint.settles vars temps)).append
        ((painted_exprs hT args hvalues ha.2).append ?_)
      rw [show temps + 1 + args.length = temps + (args.length + 1) by omega]
      exact .compute _ rfl rfl rfl (congrArg (· + 1) hn) hq
  | .group inner span, vars, temps, E, start, code, q, h, ha, hq => by
    rw [Expr.Coded] at h
    rw [Expr.Allowed] at ha
    exact painted_expr hT inner h ha hq
  | .assign x value span, vars, temps, E, start, code, q, h, ha, hq => by
    obtain ⟨v, place, w, hv, hfinds, rfl⟩ := h
    rw [Expr.Allowed] at ha
    simp only [Expr.count, List.replicate_add]
    exact (painted_expr hT value hv ha.1 (Paint.settles vars temps)).append (.write hT hfinds ha.2 hq)
  | .get object name span, vars, temps, E, start, code, q, h, ha, hq => by
    obtain ⟨o, w, ho, -, rfl⟩ := h
    rw [Expr.Allowed] at ha
    simp only [Expr.count, List.replicate_add]
    exact (painted_expr hT object ho ha (Paint.settles vars temps)).append (.compute 1 rfl rfl rfl rfl hq)
  | .set object name value span, vars, temps, E, start, code, q, h, ha, hq => by
    obtain ⟨o, v, w, ho, hv, -, rfl⟩ := h
    rw [Expr.Allowed] at ha
    simp only [Expr.count, List.replicate_add, List.append_assoc]
    exact (painted_expr hT object ho ha.1 (Paint.settles vars temps)).append
      ((painted_expr hT value hv ha.2 (Paint.settles vars _)).append (.compute 2 rfl rfl rfl rfl hq))
  | .index object key span, vars, temps, E, start, code, q, h, ha, hq => by
    obtain ⟨o, k, ho, hk, rfl⟩ := h
    rw [Expr.Allowed] at ha
    simp only [Expr.count, List.replicate_add, List.append_assoc]
    exact (painted_expr hT object ho ha.1 (Paint.settles vars temps)).append
      ((painted_expr hT key hk ha.2 (Paint.settles vars _)).append (.compute 2 rfl rfl rfl rfl hq))
  | .setIndex object key value span, vars, temps, E, start, code, q, h, ha, hq => by
    obtain ⟨o, k, v, ho, hk, hv, rfl⟩ := h
    rw [Expr.Allowed] at ha
    simp only [Expr.count, List.replicate_add, List.append_assoc]
    exact (painted_expr hT object ho ha.1 (Paint.settles vars temps)).append
      ((painted_expr hT key hk ha.2.1 (Paint.settles vars _)).append
        ((painted_expr hT value hv ha.2.2 (Paint.settles vars _)).append (.compute 3 rfl rfl rfl rfl hq)))

/-- Expressions one behind another put as many values there. -/
theorem painted_exprs (hT : T.Around r) : (es : List Expr) → {vars : List Variable} → {temps : Nat} →
    {E : Nat → Paint → Prop} → {start : Nat} → {code : Written} →
    Expr.CodedAll es T (vars.map Variable.name) code → Expr.AllAllowed (vars ++ r.visible) es →
    Painted r T E start code (List.replicate (Expr.countAll es) vars) ⟨vars, temps⟩
      ⟨vars, temps + es.length⟩
  | [], vars, temps, E, start, code, h, _ => by
    rw [Expr.CodedAll] at h
    subst h
    exact .nil
  | e :: es, vars, temps, E, start, code, h, ha => by
    obtain ⟨first, rest, hfirst, hrest, rfl⟩ := h
    rw [Expr.AllAllowed] at ha
    rw [Expr.countAll, List.replicate_add, List.length_cons, Nat.add_comm es.length, ← Nat.add_assoc]
    exact (painted_expr hT e hfirst ha.1 (Paint.settles vars temps)).append
      (painted_exprs hT es hrest ha.2)

/-- Fields put their keys and their values there. -/
theorem painted_fields (hT : T.Around r) : (es : List (String × Expr)) → {vars : List Variable} →
    {temps line : Nat} → {E : Nat → Paint → Prop} → {start : Nat} → {code : Written} →
    Expr.CodedFields es T (vars.map Variable.name) line code →
    Expr.FieldsAllowed (vars ++ r.visible) es →
    Painted r T E start code (List.replicate (Expr.countFields es) vars) ⟨vars, temps⟩
      ⟨vars, temps + 2 * es.length⟩
  | [], vars, temps, line, E, start, code, h, _ => by
    rw [Expr.CodedFields] at h
    subst h
    exact .nil
  | (key, e) :: es, vars, temps, line, E, start, code, h, ha => by
    obtain ⟨w, value, rest, -, hvalue, hrest, rfl⟩ := h
    rw [Expr.FieldsAllowed] at ha
    rw [Expr.countFields, List.replicate_add, List.replicate_add, List.append_assoc, List.length_cons,
      Nat.mul_succ, Nat.add_comm (2 * es.length), ← Nat.add_assoc]
    exact .append (.compute 0 rfl rfl rfl rfl (Paint.settles vars temps))
      ((painted_expr hT e hvalue ha.1 (Paint.settles vars _)).append (painted_fields hT es hrest ha.2))

end

/-! ### Parts of statements -/

theorem painted_valueOrNil (hT : T.Around r) {value : Option Expr}
    (h : CodedOrNil T (vars.map Variable.name) line value code)
    (ha : ∀ e ∈ value, e.Allowed (vars ++ r.visible)) (hq : Paint.Settles vars temps q) :
    Painted r T E start code (List.replicate (Expr.countOrNil value) vars) ⟨vars, temps⟩ q := by
  cases value with
  | some value => exact painted_expr hT value h (ha value rfl) hq
  | none =>
    obtain rfl : code = _ := h
    exact .compute 0 rfl rfl rfl rfl hq

/-- The innermost variables are taken off the stack. -/
theorem painted_unwinds (start : Nat) {count : Nat} (h : Unwinds count line code)
    (hcount : count ≤ vars.length) :
    Painted r T E start code (Variable.closing count vars) ⟨vars, 0⟩ ⟨vars.drop count, 0⟩ := by
  obtain ⟨hlength, hcode⟩ := h
  induction count generalizing start code vars with
  | zero =>
    obtain rfl : code = [] := List.length_eq_zero_iff.1 hlength
    exact .nil
  | succ count ih =>
    obtain ⟨e, code, rfl⟩ : ∃ e rest, code = e :: rest := List.exists_cons_of_length_eq_add_one hlength
    obtain ⟨x, vars, rfl⟩ : ∃ x rest, vars = x :: rest := List.exists_cons_of_length_pos (by omega)
    have hrest := @ih code vars (start + e.1.size) (Nat.le_of_succ_le_succ hcount)
      (Nat.succ.inj hlength) fun e' he' => hcode e' (List.mem_cons_of_mem _ he')
    rcases hcode e List.mem_cons_self with rfl | rfl
    · exact .cons (Instr.sits_of_isPlain rfl) rfl
        (Instr.leads_of_moves (i := ⟨.pop, ()⟩) nofun (.drops (.inl rfl))) hrest
    · exact .cons (Instr.sits_of_isPlain rfl) rfl
        (Instr.leads_of_moves (i := ⟨.closeCapture, ()⟩) nofun (.drops (.inr rfl))) hrest

/-- A declaration brings its variable into scope, or defines a global. -/
theorem painted_binding {name : String} {isMutable : Bool} {x : Spot} {value code : Written} {n : Nat}
    (hvalue : ∀ {q : Paint}, Paint.Settles vars 0 q →
      Painted r T E start value (List.replicate n vars) ⟨vars, 0⟩ q)
    (h : Binds T name isMutable line x code) (hname : x.inBlock = false → r.Declares name) :
    Painted r T E start (value ++ code) (List.replicate (n + if x.inBlock then 0 else 1) vars)
      ⟨vars, 0⟩ ⟨if x.inBlock then ⟨name, isMutable⟩ :: vars else vars, 0⟩ := by
  rcases h with ⟨hblock, rfl⟩ | ⟨hblock, w, hw, rfl⟩
  · simp only [hblock, if_true, Nat.add_zero, List.append_nil]
    exact hvalue (Paint.settles_variable _ vars)
  · simp only [hblock, Bool.false_eq_true, if_false, List.replicate_add]
    refine (hvalue (Paint.settles vars 0)).append ?_
    refine .instr (p := ⟨vars, 1⟩) (Instr.sits_define isMutable hw (hname hblock)) ?_ ?_
    · cases isMutable <;> rfl
    · cases isMutable
      · exact Instr.leads_of_moves (i := ⟨.defineLet, w⟩) nofun (.keeps rfl)
      · exact Instr.leads_of_moves (i := ⟨.defineVar, w⟩) nofun (.keeps rfl)

/-- **A spot with its variables:** the names are theirs, and those `around` the innermost loop are in
scope at its start and behind it. -/
structure Spot.Matches (x : Spot) (vars around : List Variable) (E : Nat → Paint → Prop) : Prop where
  locals : x.locals = vars.map Variable.name
  loop : ∀ l, x.loop = some l → l.kept = around.length ∧ around <:+ vars ∧ E l.start ⟨around, 0⟩ ∧
    E l.stop ⟨around, 0⟩

section Matches

variable {x : Spot} {around : List Variable} {F : Nat → Paint → Prop}

theorem Spot.Matches.mono (h : x.Matches vars around E) (hE : ∀ place p, E place p → F place p) :
    x.Matches vars around F := by
  refine ⟨h.locals, fun l hl => ?_⟩
  obtain ⟨hkept, hsuffix, hstart, hstop⟩ := h.loop l hl
  exact ⟨hkept, hsuffix, hE _ _ hstart, hE _ _ hstop⟩

theorem Spot.Matches.past (h : x.Matches vars around E) (n : Nat) : (x.past n).Matches vars around E :=
  ⟨h.locals, h.loop⟩

theorem Spot.Matches.enter (h : x.Matches vars around E) :
    Spot.Matches { x with inBlock := true } vars around E := ⟨h.locals, h.loop⟩

/-- Behind a statement its variable is in scope. -/
theorem Spot.Matches.after (h : x.Matches vars around E) (p : Stmt) (n : Nat) :
    (x.after p n).Matches (p.declare x.inBlock vars) around E ∧ (x.after p n).inBlock = x.inBlock ∧
      (x.after p n).offset = x.offset + n := by
  have hdeclared : ∀ {name : String} {isMutable : Bool}, p.declaredName? = some name →
      p.declared? = some ⟨name, isMutable⟩ → (x.after p n).Matches (p.declare x.inBlock vars) around E ∧
        (x.after p n).inBlock = x.inBlock ∧ (x.after p n).offset = x.offset + n := by
    intro name isMutable hname hvariable
    unfold Spot.after Spot.declare Stmt.declare Spot.past
    rw [hname, hvariable]
    dsimp only [Option.elim]
    cases hblock : x.inBlock
    · exact ⟨⟨h.locals, h.loop⟩, hblock, rfl⟩
    · refine ⟨⟨congrArg (name :: ·) h.locals, fun l hl => ?_⟩, rfl, rfl⟩
      obtain ⟨hkept, hsuffix, hplaces⟩ := h.loop l hl
      exact ⟨hkept, hsuffix.trans (List.suffix_cons _ _), hplaces⟩
  cases p with
  | var | let_ | function => exact hdeclared rfl rfl
  | _ =>
    rw [Stmt.declare_of_none rfl]
    exact ⟨h.past n, rfl, rfl⟩

/-- **A conditional.** -/
theorem painted_conditional {condition body orElse : Coding} {scopes₁ scopes₂ scopes₃ : List (List Variable)}
    (h : Conditional condition body orElse line x code)
    (hcondition : ∀ {E : Nat → Paint → Prop} {c : Written}, condition x c →
      Painted r T E x.offset c scopes₁ ⟨vars, 0⟩ ⟨vars, 1⟩)
    (hbody : ∀ {F : Nat → Paint → Prop} {b : Written} {n : Nat}, (∀ place p, E place p → F place p) →
      body (x.past n) b → Painted r T F (x.offset + n) b scopes₂ ⟨vars, 0⟩ ⟨vars, 0⟩)
    (horElse : ∀ {F : Nat → Paint → Prop} {b : Written} {n : Nat}, (∀ place p, E place p → F place p) →
      orElse (x.past n) b → Painted r T F (x.offset + n) b scopes₃ ⟨vars, 0⟩ ⟨vars, 0⟩) :
    Painted r T E x.offset code
      (scopes₁ ++ ((vars :: vars :: (scopes₂ ++ [vars])) ++ ([vars] ++ scopes₃))) ⟨vars, 0⟩ ⟨vars, 0⟩ := by
  obtain ⟨c, b, e, toElse, toEnd, hc, hb, htoElse, he, htoEnd, rfl⟩ := h
  let F : Nat → Paint → Prop := fun place s => E place s ∨
    (place = x.offset + (Written.size c + 4 + Written.size b + 4 + Written.size e) ∧ s = ⟨vars, 0⟩)
  have hEF : ∀ place s, E place s → F place s := fun _ _ => Or.inl
  have hjump : Painted r T F (x.offset + (Written.size c + 4) + Written.size b)
      [(⟨.jump, toEnd⟩, line)] [vars] ⟨vars, 0⟩ ⟨vars, 1⟩ := by
    refine .single (p := ⟨vars, 0⟩) (Instr.sits_of_isPlain rfl) fun place hplace => .inr
      ⟨⟨vars, 0⟩, Instr.leads_of_moves (i := ⟨.jump, toEnd⟩) nofun (.keeps rfl), .inr ⟨?_, rfl⟩⟩
    rw [List.mem_singleton.1 hplace, htoEnd, show (⟨.jump, toEnd⟩ : Instr).size = 3 from rfl]
    omega
  have hskip := Painted.skip line (q := ⟨vars, 1⟩) (.inl rfl)
    (by rw [htoElse, Written.size_append, ← Nat.add_assoc]; rfl) (Paint.settles vars 0)
    (((hbody hEF hb).append hjump).cast (Nat.add_assoc _ _ 4).symm)
  have hother : Painted r T F (x.offset + (Written.size c + 4 + Written.size b + 3))
      ([(⟨.pop, ()⟩, line)] ++ e) ([vars] ++ scopes₃) ⟨vars, 1⟩ ⟨vars, 0⟩ :=
    Painted.pop.append ((horElse hEF he).cast (by
      simp only [Written.size_cons, Written.size_nil, Instr.size, Layout.size]
      omega))
  have hall := (hcondition hc).append (hskip.append (hother.cast (by
    simp only [Written.size_append, Written.size_cons, Written.size_nil, Instr.size, Layout.size]
    omega)))
  have hcode : c ++ ((⟨.jumpIfFalse, toElse⟩, line) :: (⟨.pop, ()⟩, line) ::
        (b ++ ((⟨.jump, toEnd⟩, line) :: (⟨.pop, ()⟩, line) :: e)))
      = c ++ (((⟨.jumpIfFalse, toElse⟩, line) :: (⟨.pop, ()⟩, line) ::
        (b ++ [(⟨.jump, toEnd⟩, line)])) ++ ([(⟨.pop, ()⟩, line)] ++ e)) := by simp
  rw [hcode]
  refine .closeEnd (hall.mono fun place s => Or.imp_right fun hs => ?_)
  simp only [Written.size_append, Written.size_cons, Written.size_nil, Instr.size, Layout.size]
  exact ⟨hs.1.trans (by omega), hs.2⟩

/-- **A loop.** In its body all variables that are in scope in front of it are around. -/
theorem painted_looping {condition body : Coding} {scopes₁ scopes₂ : List (List Variable)}
    (h : Looping condition body line x code) (hx : x.locals = vars.map Variable.name)
    (hcondition : ∀ {E : Nat → Paint → Prop} {c : Written}, condition x c →
      Painted r T E x.offset c scopes₁ ⟨vars, 0⟩ ⟨vars, 1⟩)
    (hbody : ∀ {E : Nat → Paint → Prop} {b : Written} {y : Spot}, y.inBlock = x.inBlock →
      y.Matches vars vars E → body y b → Painted r T E y.offset b scopes₂ ⟨vars, 0⟩ ⟨vars, 0⟩) :
    Painted r T E x.offset code (scopes₁ ++ ((vars :: vars :: (scopes₂ ++ [vars])) ++ [vars]))
      ⟨vars, 0⟩ ⟨vars, 0⟩ := by
  obtain ⟨c, b, exit, back, hc, hb, hexit, hback, rfl⟩ := h
  have hcode : c ++ ((⟨.jumpIfFalse, exit⟩, line) :: (⟨.pop, ()⟩, line) ::
        (b ++ Written.of [⟨.loop, back⟩, ⟨.pop, ()⟩] line))
      = c ++ (((⟨.jumpIfFalse, exit⟩, line) :: (⟨.pop, ()⟩, line) ::
        (b ++ [(⟨.loop, back⟩, line)])) ++ [(⟨.pop, ()⟩, line)]) := by simp [Written.of]
  rw [hcode] at hb ⊢
  generalize hsize : Written.size (c ++ (((⟨.jumpIfFalse, exit⟩, line) :: (⟨.pop, ()⟩, line) ::
    (b ++ [(⟨.loop, back⟩, line)])) ++ [(⟨.pop, ()⟩, line)])) = size at hb
  let F : Nat → Paint → Prop := fun place s => E place s ∨ (place = x.offset ∧ s = ⟨vars, 0⟩) ∨
    (place = x.offset + size ∧ s = ⟨vars, 0⟩)
  have hinside : Painted r T F (x.offset + Written.size c + 4) b scopes₂ ⟨vars, 0⟩ ⟨vars, 0⟩ := by
    let y : Spot := { x.past (Written.size c + 4) with
      loop := some { start := x.offset, stop := x.offset + size, kept := x.locals.length } }
    have hy : y.Matches vars vars F := by
      refine ⟨hx, fun l hl => ?_⟩
      obtain rfl : _ = l := Option.some.inj hl
      refine ⟨?_, List.suffix_rfl, .inr (.inl ⟨rfl, rfl⟩), .inr (.inr ⟨rfl, rfl⟩)⟩
      change x.locals.length = _
      rw [hx, List.length_map]
    exact (hbody (y := y) rfl hy hb).cast (Nat.add_assoc _ _ 4).symm
  have hloop : Painted r T F (x.offset + Written.size c + 4 + Written.size b)
      [(⟨.loop, back⟩, line)] [vars] ⟨vars, 0⟩ ⟨vars, 1⟩ := by
    refine .single (p := ⟨vars, 0⟩) (Instr.sits_of_isPlain rfl) fun place hplace => .inr
      ⟨⟨vars, 0⟩, Instr.leads_of_moves (i := ⟨.loop, back⟩) nofun (.keeps rfl), .inr (.inl ⟨?_, rfl⟩)⟩
    rw [List.mem_singleton.1 hplace, hback, show (⟨.loop, back⟩ : Instr).size = 3 from rfl]
    omega
  have hskip := Painted.skip line (q := ⟨vars, 1⟩) (.inl rfl)
    (by rw [hexit, Written.size_append, ← Nat.add_assoc]; rfl) (Paint.settles vars 0)
    (hinside.append hloop)
  subst hsize
  exact .close ((hcondition hc).append (hskip.append .pop))

/-- The instructions that start a round of a loop over a container. -/
theorem painted_nextRound {container : Nat} {y : Variable} (h : NextRound T container line x code)
    (hy : vars.reverse[container + 1]? = some y) (hm : y.isMutable = true) :
    Painted r T E start code (List.replicate 9 vars) ⟨vars, 0⟩ ⟨vars, 1⟩ := by
  obtain ⟨c, i, one, -, hi, -, rfl⟩ := h
  have hset : Painted r T E (start + 3 + 3 + 1) [(⟨.setLocal, i⟩, line)] [vars] ⟨vars, 1⟩ ⟨vars, 1⟩ :=
    .instr (Instr.sits_setLocal (hi ▸ hy) hm) rfl
      (Instr.leads_of_moves (i := ⟨.setLocal, i⟩) nofun (.gives rfl (Paint.settles vars 0)))
  exact (Painted.compute 0 rfl rfl rfl rfl (Paint.settles vars 0)).append
    ((Painted.compute 0 rfl rfl rfl rfl (Paint.settles vars 1)).append
    ((Painted.compute 2 rfl rfl rfl rfl (Paint.settles vars 0)).append
    (hset.append (Painted.pop.append
    ((Painted.compute 0 rfl rfl rfl rfl (Paint.settles vars 0)).append
    ((Painted.compute 1 rfl rfl rfl rfl (Paint.settles vars 0)).append
    ((Painted.compute 0 rfl rfl rfl rfl (Paint.settles vars 1)).append
    (Painted.compute 2 rfl rfl rfl rfl (Paint.settles vars 0)))))))))

/-- The instructions that move an element to the variable of a loop. -/
theorem painted_takeElement {c i v : UInt16} {y : Variable} (hy : vars.reverse[v.toNat]? = some y)
    (hm : y.isMutable = true) :
    Painted r T E start (Written.of [⟨.getLocal, c⟩, ⟨.getLocal, i⟩, ⟨.index, ()⟩, ⟨.setLocal, v⟩,
      ⟨.pop, ()⟩] line) (List.replicate 5 vars) ⟨vars, 0⟩ ⟨vars, 0⟩ := by
  have hset : Painted r T E (start + 3 + 3 + 1) [(⟨.setLocal, v⟩, line)] [vars] ⟨vars, 1⟩ ⟨vars, 1⟩ :=
    .instr (Instr.sits_setLocal hy hm) rfl
      (Instr.leads_of_moves (i := ⟨.setLocal, v⟩) nofun (.gives rfl (Paint.settles vars 0)))
  exact (Painted.compute 0 rfl rfl rfl rfl (Paint.settles vars 0)).append
    ((Painted.compute 0 rfl rfl rfl rfl (Paint.settles vars 1)).append
    ((Painted.compute 2 rfl rfl rfl rfl (Paint.settles vars 0)).append
    (hset.append Painted.pop)))

end Matches

/-! ### Statements -/

/-- **A statement in a routine:** what it assigns, defines and declares, the routine lets it. -/
structure Stmt.Belongs (r : Routine) (inBlock : Bool) (vars : List Variable) (p : Stmt) : Prop where
  regular : p.Regular
  allowed : p.Allowed inBlock (vars ++ r.visible)
  declares : inBlock = false → ∀ name, p.declaredName? = some name → r.Declares name
  functions : ∀ f ∈ p.functions, f ∈ r.functions

/-- The same of statements one behind another. -/
structure Stmt.AllBelong (r : Routine) (inBlock : Bool) (vars : List Variable) (ps : List Stmt) :
    Prop where
  regular : Stmt.AllRegular ps
  allowed : Stmt.AllAllowed inBlock (vars ++ r.visible) ps
  declares : inBlock = false → ∀ p ∈ ps, ∀ name, p.declaredName? = some name → r.Declares name
  functions : ∀ f ∈ Stmt.functionsAll ps, f ∈ r.functions

theorem Stmt.AllBelong.cons {inBlock : Bool} {p : Stmt} {ps : List Stmt}
    (h : Stmt.AllBelong r inBlock vars (p :: ps)) :
    p.Belongs r inBlock vars ∧ Stmt.AllBelong r inBlock (p.declare inBlock vars) ps := by
  have hregular := h.regular
  have hallowed := h.allowed
  rw [Stmt.AllRegular] at hregular
  rw [Stmt.AllAllowed] at hallowed
  have hfunctions : ∀ f ∈ p.functions ++ Stmt.functionsAll ps, f ∈ r.functions := by
    have h' := h.functions
    rwa [Stmt.functionsAll] at h'
  have hdeclare : p.declare inBlock (vars ++ r.visible) = p.declare inBlock vars ++ r.visible := by
    cases inBlock <;> simp [Stmt.declare]
  rw [hdeclare] at hallowed
  exact ⟨⟨hregular.1, hallowed.1, fun hb => h.declares hb p List.mem_cons_self,
      fun f hf => hfunctions f (List.mem_append_left _ hf)⟩,
    ⟨hregular.2, hallowed.2, fun hb q hq => h.declares hb q (List.mem_cons_of_mem _ hq),
      fun f hf => hfunctions f (List.mem_append_right _ hf)⟩⟩

/-- What belongs to a statement with a body. -/
theorem Stmt.Belongs.block {inBlock : Bool} {body : List Stmt} {span : Span}
    (h : (Stmt.block body span).Belongs r inBlock vars) : Stmt.AllBelong r true vars body := by
  have hregular := h.regular
  have hallowed := h.allowed
  rw [Stmt.Regular] at hregular
  rw [Stmt.Allowed] at hallowed
  exact ⟨hregular, hallowed, nofun, h.functions⟩

/-- Behind statements there are the variables in front of them, under those that they declare. -/
theorem drop_declareAll (vars : List Variable) (ps : List Stmt) :
    Stmt.declared ps ≤ (Stmt.declareAll true vars ps).length ∧
      (Stmt.declareAll true vars ps).drop (Stmt.declared ps) = vars := by
  induction ps generalizing vars with
  | nil => exact ⟨Nat.zero_le _, rfl⟩
  | cons p ps ih =>
    obtain ⟨hle, hdrop⟩ := ih (p.declare true vars)
    have hcount : (Stmt.declared (p :: ps) = Stmt.declared ps + 1 ∧ ∃ x, p.declare true vars = x :: vars) ∨
        (Stmt.declared (p :: ps) = Stmt.declared ps ∧ p.declare true vars = vars) := by
      cases p with
      | var name | let_ name | function name => exact .inl ⟨rfl, _, rfl⟩
      | _ => exact .inr ⟨rfl, rfl⟩
    change Stmt.declared (p :: ps) ≤ (Stmt.declareAll true (p.declare true vars) ps).length ∧
      (Stmt.declareAll true (p.declare true vars) ps).drop (Stmt.declared (p :: ps)) = vars
    rcases hcount with ⟨hcount, x, hx⟩ | ⟨hcount, hx⟩
    · rw [hx] at hdrop
      rw [hcount]
      refine ⟨?_, ?_⟩
      · have hlength := congrArg List.length hdrop
        rw [List.length_drop, List.length_cons] at hlength
        rw [hx]
        omega
      · rw [hx, ← List.tail_drop, hdrop]
        rfl
    · rw [hcount]
      exact ⟨hle, hdrop.trans hx⟩

/-- **A function declaration** makes a closure of a function of the routine. -/
theorem painted_function (hT : T.Around r) {x : Spot} {around : List Variable} {name : String}
    {params : List String} {body : List Stmt} {span : Span}
    (h : Stmt.Coded (.function name params body span) T x code)
    (hbelongs : (Stmt.function name params body span).Belongs r x.inBlock vars)
    (hx : x.Matches vars around E) :
    Painted r T E x.offset code (List.replicate (if x.inBlock then 1 else 2) vars) ⟨vars, 0⟩
      ⟨if x.inBlock then ⟨name, false⟩ :: vars else vars, 0⟩ := by
  obtain ⟨f, d, ⟨w, k, q, sources, inner, rfl, hw, hk, -, hparams, hcaptures, -, -, hinner, hreads⟩, hbinds,
    rfl⟩ := h
  have hregular := hbelongs.regular
  have hallowed := hbelongs.allowed
  rw [Stmt.Regular] at hregular
  rw [Stmt.Allowed] at hallowed
  -- The function around the new one, with the variables that are in scope where it is made.
  have hmakes : ∀ vars', (x.declare name).locals = vars'.map Variable.name →
      (if x.inBlock then ⟨name, false⟩ :: (vars ++ r.visible) else vars ++ r.visible)
        = vars' ++ r.visible → r.Makes T vars' w sources := by
    intro vars' hlocals hvars
    refine ⟨k, q, params, body, hw, hk, hcaptures, hbelongs.functions _ (by simp),
      ⟨hparams, hregular, ?_, _, ⟨inner, span.line, ?_, rfl⟩, hreads⟩⟩
    · change Stmt.AllAllowed true (Variable.entry params ++ (vars' ++ r.visible)) body
      rwa [← hvars]
    · rw [hlocals, hT.captures, hT.enclosing] at hinner
      exact hinner
  have hvalue : ∀ {p : Paint}, Paint.Settles vars 0 p → r.Makes T p.vars w sources →
      Painted r T E x.offset [(⟨.closure, (w, sources)⟩, span.line)] (List.replicate 1 vars) ⟨vars, 0⟩ p := by
    intro p hp hmakes
    refine .instr (p := ⟨vars, 0⟩) Instr.sits_closure rfl
      ⟨.gives (i := ⟨.closure, (w, sources)⟩) rfl hp, fun w' sources' he => ?_⟩
    cases he
    exact hmakes
  rcases hbinds with ⟨hblock, rfl⟩ | ⟨hblock, w', hw', rfl⟩
  · have hmade := hmakes (⟨name, false⟩ :: vars)
      (by simp only [Spot.declare, hblock, if_true, hx.locals]; rfl) (by rw [if_pos hblock]; rfl)
    rw [if_pos hblock, if_pos hblock]
    exact hvalue (Paint.settles_variable _ vars) hmade
  · have hmade := hmakes vars (by simp only [Spot.declare, hblock, Bool.false_eq_true, if_false, hx.locals])
      (by rw [if_neg (by simp [hblock])])
    rw [if_neg (by simp [hblock]), if_neg (by simp [hblock])]
    exact (hvalue (Paint.settles vars 0) hmade).append
      (.instr (p := ⟨vars, 1⟩) (Instr.sits_define false hw'
        (hbelongs.declares hblock name rfl)) rfl
        (Instr.leads_of_moves (i := ⟨.defineLet, w'⟩) nofun (.keeps rfl)))

/-- **A jump out of a loop,** or to its start: in front of it the variables are taken off the stack that
are only in scope inside. -/
theorem painted_leave {x : Spot} {around : List Variable} {l : LoopSpan} {off : Written} {place : Nat}
    {w : UInt16} (hx : x.Matches vars around E) (hl : x.loop = some l)
    (hoff : Unwinds (x.locals.length - l.kept) line off) (hi : i = ⟨.jump, w⟩ ∨ i = ⟨.loop, w⟩)
    (htargets : i.targets (x.offset + Written.size off + 3) = [place]) (hplace : E place ⟨around, 0⟩) :
    Painted r T E x.offset (off ++ [(i, line)])
      (Variable.closing (vars.length - around.length) vars ++ [around]) ⟨vars, 0⟩ p := by
  obtain ⟨hkept, hsuffix, -⟩ := hx.loop l hl
  rw [hx.locals, List.length_map, hkept] at hoff
  have hdrop := List.suffix_iff_eq_drop.1 hsuffix
  have hunwinds := painted_unwinds (r := r) (T := T) (E := E) x.offset hoff (Nat.sub_le _ _)
  rw [← hdrop] at hunwinds
  have hjump : i.op.isPlain = true ∧ i.op ≠ .closure ∧ i.size = 3 ∧ i.Moves ⟨around, 0⟩ ⟨around, 0⟩ := by
    rcases hi with rfl | rfl <;> exact ⟨rfl, nofun, rfl, .keeps rfl⟩
  refine hunwinds.append (.single (p := ⟨around, 0⟩) (Instr.sits_of_isPlain hjump.1) fun place' hp => ?_)
  rw [hjump.2.2.1, htargets, List.mem_singleton] at hp
  exact .inr ⟨⟨around, 0⟩, Instr.leads_of_moves hjump.2.1 hjump.2.2.2, hp ▸ hplace⟩

/-- **A block** leaves the variables as they are. -/
theorem painted_block {x : Spot} {around : List Variable} {body : List Stmt}
    (h : InBlock (Stmt.CodedAll body T) (Stmt.declared body) x code)
    (hbody : ∀ {inner : Written}, Stmt.CodedAll body T { x with inBlock := true } inner →
      Painted r T E x.offset inner (Stmt.scopesAll true around vars body) ⟨vars, 0⟩
        ⟨Stmt.declareAll true vars body, 0⟩) :
    Painted r T E x.offset code (Stmt.scopesAll true around vars body ++ Stmt.leaving vars body)
      ⟨vars, 0⟩ ⟨vars, 0⟩ := by
  obtain ⟨inner, off, hinner, hoff, rfl⟩ := h
  obtain ⟨hle, hdrop⟩ := drop_declareAll vars body
  have hunwinds := painted_unwinds (r := r) (T := T) (E := E) (x.offset + Written.size inner) hoff hle
  rw [hdrop] at hunwinds
  exact (hbody hinner).append hunwinds

/-- A round of a loop over a container. -/
theorem painted_round {container : Nat} {x : Spot} {around : List Variable} {body : List Stmt} {y : Variable}
    (h : Round (InBlock (Stmt.CodedAll body T) (Stmt.declared body)) container line x code)
    (hy : vars.reverse[container + 2]? = some y) (hm : y.isMutable = true)
    (hbody : ∀ {inner : Written}, Stmt.CodedAll body T { x.past 11 with inBlock := true } inner →
      Painted r T E (x.offset + 11) inner (Stmt.scopesAll true around vars body) ⟨vars, 0⟩
        ⟨Stmt.declareAll true vars body, 0⟩) :
    Painted r T E x.offset code (List.replicate 5 vars ++
      (Stmt.scopesAll true around vars body ++ Stmt.leaving vars body)) ⟨vars, 0⟩ ⟨vars, 0⟩ := by
  obtain ⟨c, i, v, b, -, -, hv, hb, rfl⟩ := h
  exact (painted_takeElement (hv ▸ hy) hm).append (painted_block hb hbody)

/-- **A loop over a container.** -/
theorem painted_iterating (hT : T.Around r) {x : Spot} {around : List Variable} {name : String}
    {iterable : Expr} {body : List Stmt} {span : Span}
    (h : Iterating T name (fun x => iterable.Coded T x.locals)
      (InBlock (Stmt.CodedAll body T) (Stmt.declared body)) line x code)
    (hiterable : iterable.Allowed (vars ++ r.visible)) (hx : x.Matches vars around E)
    (hbody : ∀ {F : Nat → Paint → Prop} {inner : Written} {y : Spot}, y.inBlock = true →
      y.Matches (Variable.ofLoop name vars) (Variable.ofLoop name vars) F →
      Stmt.CodedAll body T y inner → Painted r T F y.offset inner
        (Stmt.scopesAll true (Variable.ofLoop name vars) (Variable.ofLoop name vars) body)
        ⟨Variable.ofLoop name vars, 0⟩ ⟨Stmt.declareAll true (Variable.ofLoop name vars) body, 0⟩) :
    Painted r T E x.offset code (Stmt.scopes x.inBlock around vars (.for_ name iterable body span))
      ⟨vars, 0⟩ ⟨vars, 0⟩ := by
  obtain ⟨inner, off, ⟨it, first, loop, hit, -, hloop, rfl⟩, hoff, rfl⟩ := h
  have hlocals : name :: "__idx__" :: "__iter__" :: x.locals
      = (Variable.ofLoop name vars).map Variable.name := by
    rw [hx.locals]
    rfl
  have hlength : x.locals.length = vars.length := by rw [hx.locals, List.length_map]
  -- The slots of the index and of the element.
  have hslot : ∀ n, (Variable.ofLoop name vars).reverse[vars.length + n]?
      = [⟨"__iter__", false⟩, ⟨"__idx__", true⟩, ⟨name, true⟩][n]? := by
    intro n
    rw [Variable.ofLoop, List.reverse_cons, List.reverse_cons, List.reverse_cons, List.append_assoc,
      List.append_assoc, List.getElem?_append_right (by simp)]
    simp
  have hround := painted_looping (r := r) (T := T) (E := E) hloop hlocals
    (fun hc => painted_nextRound hc (by rw [hlength]; exact hslot 1) rfl)
    fun {F b y} _ hy hb => painted_round hb (by rw [hlength]; exact hslot 2) rfl
      fun hinner => hbody (y := { y.past 11 with inBlock := true }) rfl ⟨hy.locals, hy.loop⟩ hinner
  have hcontainer : Painted r T E x.offset it _ _ _ := painted_expr hT iterable
    (by rw [← hx.locals]; exact hit) hiterable (Paint.settles_variable ⟨"__iter__", false⟩ vars)
  have hindex : Painted r T E (x.offset + Written.size it) [(⟨.constant, first⟩, line)] _ _ _ :=
    .compute 0 rfl rfl rfl rfl (Paint.settles_variable ⟨"__idx__", true⟩ (⟨"__iter__", false⟩ :: vars))
  have helement : Painted r T E (x.offset + Written.size it + 3) [(⟨.nil, ()⟩, line)] _ _ _ :=
    .compute 0 rfl rfl rfl rfl
      (Paint.settles_variable ⟨name, true⟩ (⟨"__idx__", true⟩ :: ⟨"__iter__", false⟩ :: vars))
  have hall := (hcontainer.append (hindex.append (helement.append (hround.cast
    (Nat.add_assoc x.offset (Written.size it) 4).symm)))).append
    (painted_unwinds _ hoff (by simp [Variable.ofLoop]))
  convert hall using 1
  · simp
  · simp [List.replicate_succ, Variable.ofLoop]
  · rfl

mutual

/-- **The code of a statement** brings the variable into scope that it declares. -/
theorem painted_stmt (hT : T.Around r) : (p : Stmt) → {x : Spot} → {vars around : List Variable} →
    {E : Nat → Paint → Prop} → {code : Written} → p.Coded T x code → p.Belongs r x.inBlock vars →
    x.Matches vars around E → Painted r T E x.offset code (p.scopes x.inBlock around vars) ⟨vars, 0⟩
      ⟨p.declare x.inBlock vars, 0⟩
  | .expr value, x, vars, around, E, code, h, hb, hx => by
    obtain ⟨v, hv, rfl⟩ := h
    rw [hx.locals] at hv
    have hallowed := hb.allowed
    rw [Stmt.Allowed] at hallowed
    rw [Stmt.scopes, List.replicate_add, Stmt.declare_of_none rfl]
    exact (painted_expr hT value hv hallowed (Paint.settles vars 0)).append .pop
  | .var name value span, x, vars, around, E, code, h, hb, hx => by
    obtain ⟨v, d, hv, hd, rfl⟩ := h
    rw [hx.locals] at hv
    have hallowed := hb.allowed
    rw [Stmt.Allowed] at hallowed
    rw [Stmt.scopes]
    exact painted_binding (fun hq => painted_valueOrNil hT hv hallowed hq) hd
      fun hblock => hb.declares hblock name rfl
  | .let_ name value span, x, vars, around, E, code, h, hb, hx => by
    obtain ⟨v, d, hv, hd, rfl⟩ := h
    rw [hx.locals] at hv
    have hallowed := hb.allowed
    rw [Stmt.Allowed] at hallowed
    rw [Stmt.scopes]
    exact painted_binding (fun hq => painted_expr hT value hv hallowed hq) hd
      fun hblock => hb.declares hblock name rfl
  | .block body span, x, vars, around, E, code, h, hb, hx => by
    rw [Stmt.scopes, Stmt.declare_of_none rfl]
    exact painted_block h fun hinner => painted_stmts hT body hinner hb.block hx.enter
  | .if_ condition body none span, x, vars, around, E, code, h, hb, hx => by
    have hregular := hb.regular
    have hallowed := hb.allowed
    rw [Stmt.Regular] at hregular
    rw [Stmt.Allowed] at hallowed
    have hbody : Stmt.AllBelong r true vars body := ⟨hregular, hallowed.2, nofun, hb.functions⟩
    have hall := painted_conditional (r := r) (T := T) (E := E) h
      (fun hc => painted_expr hT condition (hx.locals ▸ hc) hallowed.1 (Paint.settles vars 0))
      (fun hE hb => painted_block hb fun hinner => painted_stmts hT body hinner hbody
        ((hx.mono hE).past _).enter)
      (fun _ he => by
        obtain rfl := he
        exact .nil)
    rw [Stmt.declare_of_none rfl]
    convert hall using 1
    simp only [Stmt.scopes, List.replicate_add, List.append_assoc, List.cons_append]
    rfl
  | .if_ condition body (some orElse) span, x, vars, around, E, code, h, hb, hx => by
    have hregular := hb.regular
    have hallowed := hb.allowed
    have hfunctions := hb.functions
    rw [Stmt.Regular] at hregular
    rw [Stmt.Allowed] at hallowed
    rw [Stmt.functions] at hfunctions
    have hnone : orElse.declared? = none ∧ orElse.declaredName? = none := by
      have hbranch := hregular.2.1
      cases orElse <;> first | exact ⟨rfl, rfl⟩ | cases hbranch
    have hbody : Stmt.AllBelong r true vars body := ⟨hregular.1, hallowed.2.1, nofun,
      fun f hf => hfunctions f (List.mem_append_left _ hf)⟩
    have hother : orElse.Belongs r x.inBlock vars := ⟨hregular.2.2, hallowed.2.2,
      (fun _ name hname => by rw [hnone.2] at hname; cases hname),
      fun f hf => hfunctions f (List.mem_append_right _ hf)⟩
    -- The second branch stands further on, and may leave for all places that the conditional may.
    have hsecond : ∀ {F : Nat → Paint → Prop} {b : Written} {n : Nat}, (∀ place p, E place p → F place p) →
        orElse.Coded T (x.past n) b → Painted r T F (x.offset + n) b
          (orElse.scopes x.inBlock around vars) ⟨vars, 0⟩ ⟨vars, 0⟩ := by
      intro F b n hE he
      have hcode := painted_stmt hT orElse he hother ((hx.past n).mono hE)
      rwa [Stmt.declare_of_none hnone.1] at hcode
    have hall := painted_conditional (r := r) (T := T) (E := E) h
      (fun hc => painted_expr hT condition (hx.locals ▸ hc) hallowed.1 (Paint.settles vars 0))
      (fun hE hb => painted_block hb fun hinner => painted_stmts hT body hinner hbody
        ((hx.mono hE).past _).enter)
      hsecond
    rw [Stmt.declare_of_none rfl]
    convert hall using 1
    simp only [Stmt.scopes, List.replicate_add, List.append_assoc, List.cons_append]
    rfl
  | .while_ condition body span, x, vars, around, E, code, h, hb, hx => by
    have hregular := hb.regular
    have hallowed := hb.allowed
    rw [Stmt.Regular] at hregular
    rw [Stmt.Allowed] at hallowed
    have hbody : Stmt.AllBelong r true vars body := ⟨hregular, hallowed.2, nofun, hb.functions⟩
    have hall := painted_looping (r := r) (T := T) (E := E) h hx.locals
      (fun hc => painted_expr hT condition (hx.locals ▸ hc) hallowed.1 (Paint.settles vars 0))
      fun _ hy hb => painted_block hb fun hinner => painted_stmts hT body hinner hbody
        ⟨hy.locals, hy.loop⟩
    rw [Stmt.declare_of_none rfl]
    convert hall using 1
    simp only [Stmt.scopes, List.replicate_add, List.append_assoc, List.cons_append]
    rfl
  | .for_ name iterable body span, x, vars, around, E, code, h, hb, hx => by
    have hregular := hb.regular
    have hallowed := hb.allowed
    rw [Stmt.Regular] at hregular
    rw [Stmt.Allowed] at hallowed
    have hbody : Stmt.AllBelong r true (Variable.ofLoop name vars) body :=
      ⟨hregular, hallowed.2, nofun, hb.functions⟩
    rw [Stmt.declare_of_none rfl]
    exact painted_iterating hT h hallowed.1 hx fun {F inner y} hblock hy hinner => by
      have hcode := painted_stmts hT body hinner (hblock ▸ hbody) hy
      rwa [hblock] at hcode
  | .function name params body span, x, vars, around, E, code, h, hb, hx => by
    rw [Stmt.scopes]
    exact painted_function hT h hb hx
  | .return_ value span, x, vars, around, E, code, h, hb, hx => by
    obtain ⟨v, hv, rfl⟩ := h
    rw [hx.locals] at hv
    have hallowed := hb.allowed
    rw [Stmt.Allowed] at hallowed
    rw [Stmt.scopes, List.replicate_add]
    refine (painted_valueOrNil hT hv hallowed (Paint.settles vars 0)).append ?_
    exact .single (p := ⟨vars, 1⟩) (Instr.sits_return Nat.one_pos) nofun
  | .break_ span, x, vars, around, E, code, h, hb, hx => by
    obtain ⟨l, off, w, hl, hoff, hw, rfl⟩ := h
    rw [Stmt.scopes]
    refine painted_leave hx hl hoff (.inl rfl) ?_ (hx.loop l hl).2.2.2
    rw [← hw]
    rfl
  | .continue_ span, x, vars, around, E, code, h, hb, hx => by
    obtain ⟨l, off, w, hl, hoff, hw, rfl⟩ := h
    rw [Stmt.scopes]
    refine painted_leave hx hl hoff (.inr rfl) ?_ (hx.loop l hl).2.2.1
    rw [← hw]
    exact congrArg ([·]) (Nat.add_sub_cancel _ _)

/-- **The code of statements** brings the variables into scope that they declare. -/
theorem painted_stmts (hT : T.Around r) : (ps : List Stmt) → {x : Spot} → {vars around : List Variable} →
    {E : Nat → Paint → Prop} → {code : Written} → Stmt.CodedAll ps T x code →
    Stmt.AllBelong r x.inBlock vars ps → x.Matches vars around E →
    Painted r T E x.offset code (Stmt.scopesAll x.inBlock around vars ps) ⟨vars, 0⟩
      ⟨Stmt.declareAll x.inBlock vars ps, 0⟩
  | [], x, vars, around, E, code, h, _, _ => by
    rw [Stmt.CodedAll] at h
    subst h
    rw [Stmt.scopesAll]
    exact .nil
  | p :: ps, x, vars, around, E, code, h, hb, hx => by
    obtain ⟨first, rest, hfirst, hrest, rfl⟩ := h
    obtain ⟨hp, hps⟩ := hb.cons
    obtain ⟨hafter, hblock, hoffset⟩ := hx.after p (Written.size first)
    have hcode := painted_stmts hT ps hrest (hblock ▸ hps) hafter
    rw [hblock, hoffset] at hcode
    rw [Stmt.scopesAll]
    exact (painted_stmt hT p hfirst hp hx).append hcode

end

/-! ### Whole routines -/

open Painting in
/-- **A painting of a routine:** it starts with the parameters, and leads nowhere but to its own places. -/
structure Painting.Of (r : Routine) (T : Tables) (l : Painting) : Prop where
  scopes : l.map (·.2.vars) = r.scopes
  entry : Shows 0 l 0 ⟨r.entry, 0⟩
  checked : Checked r T (Shows 0 l) 0 l

open Painting in
/-- Code is sealed by a return of a value that belongs to no variable. -/
theorem Painted.sealed (h : Painted r T (fun _ _ => False) 0 code scopes p q) (hq : 0 < q.temps)
    (line : Nat) : ∃ l : Painting, l.map Prod.fst = code ++ [(⟨.return_, ()⟩, line)] ∧
      l.map (·.2.vars) = scopes ++ [q.vars] ∧ Shows 0 l 0 p ∧ Checked r T (Shows 0 l) 0 l := by
  obtain ⟨l, rfl, rfl, henter, hcheck⟩ := h
  have hlast : Shows (0 + size l) [((⟨.return_, ()⟩, line), q)] (0 + size l) q := .inl ⟨rfl, rfl⟩
  refine ⟨l ++ [((⟨.return_, ()⟩, line), q)], by simp, by simp, ?_, checked_append.2
    ⟨hcheck.mono ?_, Instr.sits_return hq, nofun, trivial⟩⟩
  · cases l with
    | nil =>
      obtain rfl : p = q := henter
      exact hlast
    | cons a l => exact shows_append.2 (.inl (henter.shows (List.cons_ne_nil a l)))
  · rintro place s (hs | hs | ⟨rfl, rfl⟩)
    · exact hs.elim
    · exact shows_append.2 (.inl hs)
    · exact shows_append.2 (.inr hlast)

theorem mem_of_mem_splitLast {p : Stmt} {ps : List Stmt} (h : p ∈ (splitLast ps).1) : p ∈ ps := by
  induction ps using splitLast.induct with
  | case1 => exact h
  | case2 value => exact absurd h List.not_mem_nil
  | case3 q ps hlast ih =>
    rw [splitLast] at h
    · rcases List.mem_cons.1 h with rfl | h
      · exact List.mem_cons_self
      · exact List.mem_cons_of_mem _ (ih h)
    · exact hlast

/-- **The code of a routine** has a painting. -/
theorem Routine.Codes.painting {functions : Array (Prototype Literal)} {f : Prototype Literal}
    (h : r.Codes functions f) : ∃ l : Painting, f.chunk.Reads 0 (l.map Prod.fst) ∧
      l.Of r (r.tables functions f.chunk) := by
  obtain ⟨code, hcode, hreads⟩ := h.code
  have hregular := h.regular
  have hallowed := h.allowed
  have hT : (r.tables functions f.chunk).Around r := ⟨rfl, rfl⟩
  obtain ⟨text, captures, outer⟩ := r
  cases text with
  | script p =>
    obtain ⟨body, value, hbody, hvalue, rfl⟩ := hcode
    have hbelongs : Stmt.AllBelong ⟨.script p, captures, outer⟩ false [⟨"", false⟩]
        (splitLast p.statements).1 :=
      ⟨hregular, hallowed.1, fun _ s hs name hname => ⟨s, mem_of_mem_splitLast hs, hname⟩, fun _ hf => hf⟩
    have hx : Spot.Matches { inBlock := false, loop := none, locals := [""], offset := 0 }
        [⟨"", false⟩] [] fun _ _ => False := ⟨rfl, nofun⟩
    have hfirst := painted_stmts hT _ hbody hbelongs hx
    rw [Stmt.declareAll_global] at hfirst
    obtain ⟨l, hl, hscopes, hentry, hcheck⟩ := (hfirst.append (painted_valueOrNil hT hvalue hallowed.2
      (Paint.settles [⟨"", false⟩] 0))).sealed Nat.one_pos 0
    refine ⟨l, ?_, ?_, hentry, hcheck⟩
    · rwa [hl, List.append_assoc]
    · rw [hscopes, List.append_assoc]
      exact congrArg (Stmt.scopesAll false [] _ _ ++ ·) (List.replicate_succ' (n := _) (a := _)).symm
  | function params body =>
    obtain ⟨inner, line, hinner, rfl⟩ := hcode
    have hbelongs : Stmt.AllBelong ⟨.function params body, captures, outer⟩ true (Variable.entry params) body :=
      ⟨hregular, hallowed, nofun, fun _ hf => hf⟩
    have hlocals : (Spot.entry params).locals = (Variable.entry params).map Variable.name := by
      rw [Variable.entry, List.map_append, List.map_map]
      exact congrArg (· ++ [""]) (List.map_id _).symm
    have hx : (Spot.entry params).Matches (Variable.entry params) [] fun _ _ => False := ⟨hlocals, nofun⟩
    have hfirst := painted_stmts hT body hinner hbelongs hx
    let T := Routine.tables ⟨.function params body, captures, outer⟩ functions f.chunk
    have hnil : CodedOrNil T ((Stmt.declareAll true (Variable.entry params) body).map Variable.name) line
        none [(⟨.nil, ()⟩, line)] := rfl
    obtain ⟨l, hl, hscopes, hentry, hcheck⟩ := (hfirst.append (painted_valueOrNil hT hnil nofun
      (Paint.settles _ 0))).sealed Nat.one_pos line
    refine ⟨l, ?_, ?_, hentry, hcheck⟩
    · rwa [hl, List.append_assoc]
    · rw [hscopes, List.append_assoc]
      rfl

end DeployScript
