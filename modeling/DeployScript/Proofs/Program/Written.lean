import DeployScript.Program.Parser
import Mathlib

/-!
# Programs written back as tokens

A program determines its tokens up to those that a reader may leave out.

* `Program.written` — the tokens of a program in the order of the source, with nothing that could be
  left out.
* `TokenKind.essentials` — the tokens of a source without those that may be left out: ends of lines
  and statements, a comma behind the last item of a list, and the parentheses and the keyword of a
  loop's clause. A key of a record counts as a word, however it is quoted.
* `Expr.paired` — parentheses come in pairs in everything that is written back.
-/

namespace DeployScript

/-! ### What counts of the tokens of a source -/

namespace TokenKind

/-- The first of the tokens closes a bracket. -/
def closes : List TokenKind → Bool
  | .symbol .rightParen :: _ | .symbol .rightBracket :: _ | .symbol .rightBrace :: _ => true
  | _ => false

/-- Without a `var` or `let` in front. -/
def undeclared : List TokenKind → List TokenKind
  | .symbol .var :: ts | .symbol .let_ :: ts => ts
  | ts => ts

/-- Without the parenthesis that closes one more than the tokens open, behind `depth` others. -/
def dropClosing : (depth : Nat) → List TokenKind → List TokenKind
  | _, [] => []
  | depth, .symbol .leftParen :: ts => .symbol .leftParen :: dropClosing (depth + 1) ts
  | 0, .symbol .rightParen :: ts => ts
  | depth + 1, .symbol .rightParen :: ts => .symbol .rightParen :: dropClosing depth ts
  | depth, t :: ts => t :: dropClosing depth ts

/-- The clause of a loop without its parentheses and without the keyword before its variable. -/
def plainClause : List TokenKind → List TokenKind
  | .symbol .leftParen :: ts => dropClosing 0 (undeclared ts)
  | ts => undeclared ts

/-- A token in front of what counts of the tokens behind it. -/
def before : TokenKind → List TokenKind → List TokenKind
  | .newline, ts | .symbol .semicolon, ts => ts
  | .symbol .comma, ts => if closes ts then ts else .symbol .comma :: ts
  | .symbol .for_, ts => .symbol .for_ :: plainClause ts
  | .text key, .symbol .colon :: ts => .word key :: .symbol .colon :: ts
  | t, ts => t :: ts

/-- **What counts of the tokens of a source.** -/
def essentials (ts : List TokenKind) : List TokenKind := ts.foldr before []

end TokenKind

/-! ### Writing back -/

/-- The symbol of the operator. -/
def BinaryOp.symbol : BinaryOp → Symbol
  | add => .plus
  | sub => .minus
  | mul => .star
  | div => .slash
  | mod => .percent
  | eq => .equalEqual
  | ne => .bangEqual
  | lt => .less
  | le => .lessEqual
  | gt => .greater
  | ge => .greaterEqual

@[inherit_doc BinaryOp.symbol]
def LogicalOp.symbol : LogicalOp → Symbol
  | and => .and
  | or => .or

@[inherit_doc BinaryOp.symbol]
def UnaryOp.symbol : UnaryOp → Symbol
  | neg => .minus
  | not => .bang

/-- Items with commas between them. -/
def TokenKind.separated (items : List (List TokenKind)) : List TokenKind :=
  [TokenKind.symbol .comma].intercalate items

open TokenKind (separated)

mutual

/-- **The tokens of an expression.** -/
def Expr.written : Expr → List TokenKind
  | .number value _ => [.number value]
  | .text value _ => [.text value]
  | .bool true _ => [.symbol .true_]
  | .bool false _ => [.symbol .false_]
  | .nil _ => [.symbol .nil]
  | .name n _ => [.word n]
  | .array elements _ =>
    .symbol .leftBracket :: separated (Expr.writtenEach elements) ++ [.symbol .rightBracket]
  | .record fields _ =>
    .symbol .leftBrace :: separated (Expr.writtenFields fields) ++ [.symbol .rightBrace]
  | .binary left op right _ => left.written ++ .symbol op.symbol :: right.written
  | .logical left op right _ => left.written ++ .symbol op.symbol :: right.written
  | .unary op operand _ => .symbol op.symbol :: operand.written
  | .call callee args _ => callee.written ++
    .symbol .leftParen :: separated (Expr.writtenEach args) ++ [.symbol .rightParen]
  | .group inner _ => .symbol .leftParen :: inner.written ++ [.symbol .rightParen]
  | .assign n value _ => .word n :: .symbol .equal :: value.written
  | .get object n _ => object.written ++ [.symbol .dot, .word n]
  | .set object n value _ =>
    object.written ++ .symbol .dot :: .word n :: .symbol .equal :: value.written
  | .index object key _ =>
    object.written ++ .symbol .leftBracket :: key.written ++ [.symbol .rightBracket]
  | .setIndex object key value _ =>
    object.written ++ .symbol .leftBracket :: key.written ++
      .symbol .rightBracket :: .symbol .equal :: value.written

/-- The tokens of each of some expressions. -/
def Expr.writtenEach : List Expr → List (List TokenKind)
  | [] => []
  | e :: es => e.written :: Expr.writtenEach es

/-- The tokens of each of some fields. -/
def Expr.writtenFields : List (String × Expr) → List (List TokenKind)
  | [] => []
  | (key, e) :: es => (.word key :: .symbol .colon :: e.written) :: Expr.writtenFields es

end

/-- The tokens of an expression that may be left out, behind a symbol. -/
def Expr.writtenBehind (ts : List TokenKind) : Option Expr → List TokenKind
  | none => []
  | some e => ts ++ e.written

mutual

/-- **The tokens of a statement.** -/
def Stmt.written : Stmt → List TokenKind
  | .expr value => value.written
  | .var name value _ =>
    .symbol .var :: .word name :: Expr.writtenBehind [.symbol .equal] value
  | .let_ name value _ => .symbol .let_ :: .word name :: .symbol .equal :: value.written
  | .block body _ => .symbol .leftBrace :: Stmt.writtenAll body ++ [.symbol .rightBrace]
  | .if_ condition body none _ => .symbol .if_ :: condition.written ++
    .symbol .leftBrace :: Stmt.writtenAll body ++ [.symbol .rightBrace]
  | .if_ condition body (some orElse) _ => .symbol .if_ :: condition.written ++
    .symbol .leftBrace :: Stmt.writtenAll body ++
      .symbol .rightBrace :: .symbol .else_ :: orElse.written
  | .while_ condition body _ => .symbol .while_ :: condition.written ++
    .symbol .leftBrace :: Stmt.writtenAll body ++ [.symbol .rightBrace]
  | .for_ name iterable body _ =>
    .symbol .for_ :: .word name :: .symbol .in_ :: iterable.written ++
      .symbol .leftBrace :: Stmt.writtenAll body ++ [.symbol .rightBrace]
  | .function name params body _ =>
    .symbol .fn :: .word name :: .symbol .leftParen ::
      separated (params.map fun n => [.word n]) ++
      .symbol .rightParen :: .symbol .leftBrace :: Stmt.writtenAll body ++ [.symbol .rightBrace]
  | .return_ value _ => .symbol .return_ :: Expr.writtenBehind [] value
  | .break_ _ => [.symbol .break_]
  | .continue_ _ => [.symbol .continue_]

/-- The tokens of statements one after another. -/
def Stmt.writtenAll : List Stmt → List TokenKind
  | [] => []
  | p :: ps => p.written ++ Stmt.writtenAll ps

end

/-- **The tokens of a program** without any that could be left out. -/
def Program.written (p : Program) : List TokenKind := Stmt.writtenAll p.statements

/-! ### Lists with commas -/

theorem TokenKind.separated_nil : separated [] = [] := List.intercalate_nil

theorem TokenKind.separated_singleton (ts : List TokenKind) : separated [ts] = ts :=
  List.intercalate_singleton

theorem TokenKind.separated_cons_cons (ts us : List TokenKind) (items : List (List TokenKind)) :
    separated (ts :: us :: items) = ts ++ .symbol .comma :: separated (us :: items) := by
  rw [separated, List.intercalate_cons_cons, List.append_assoc]
  rfl

theorem Expr.writtenEach_eq (es : List Expr) : Expr.writtenEach es = es.map Expr.written := by
  induction es with
  | nil => rfl
  | cons e es ih => rw [Expr.writtenEach, ih, List.map_cons]

/-- The tokens of a field. -/
def Expr.writtenField (field : String × Expr) : List TokenKind :=
  .word field.1 :: .symbol .colon :: field.2.written

theorem Expr.writtenFields_eq (fields : List (String × Expr)) :
    Expr.writtenFields fields = fields.map Expr.writtenField := by
  induction fields with
  | nil => rfl
  | cons f fields ih => rw [Expr.writtenFields, ih, List.map_cons, Expr.writtenField]

/-! ### What tokens begin with -/

namespace TokenKind

/-- No colon is next. -/
def Apart : List TokenKind → Prop
  | .symbol .colon :: _ => False
  | _ => True

/-- A token that a colon, a comma or the end of a list is not. -/
def leads : TokenKind → Bool
  | .symbol .colon | .symbol .comma => false
  | .symbol .rightParen | .symbol .rightBracket | .symbol .rightBrace => false
  | _ => true

/-- The first of the tokens begins something. -/
def Leading (ts : List TokenKind) : Prop := ∃ t us, ts = t :: us ∧ t.leads = true

variable {ts us : List TokenKind}

theorem Leading.append (h : Leading ts) (us : List TokenKind) : Leading (ts ++ us) := by
  obtain ⟨t, rest, rfl, ht⟩ := h
  exact ⟨t, rest ++ us, rfl, ht⟩

theorem Leading.apart (h : Leading ts) : Apart ts := by
  obtain ⟨t, rest, rfl, ht⟩ := h
  cases t with
  | symbol s => cases s <;> trivial
  | _ => trivial

theorem Leading.closes_eq (h : Leading ts) : closes ts = false := by
  obtain ⟨t, rest, rfl, ht⟩ := h
  cases t with
  | symbol s => cases s <;> first | rfl | cases ht
  | _ => rfl

theorem Leading.ne_nil (h : Leading ts) : ts ≠ [] := by
  obtain ⟨t, rest, rfl, _⟩ := h
  exact List.cons_ne_nil _ _

theorem Leading.separated (h : Leading ts) (items : List (List TokenKind)) :
    Leading (separated (ts :: items)) := by
  cases items with
  | nil => rwa [separated_singleton]
  | cons us items =>
    rw [separated_cons_cons]
    exact h.append _

theorem apart_of_closes (h : closes ts = true) : Apart ts := by
  unfold closes at h
  split at h
  case h_4 => cases h
  all_goals trivial

/-- A text that is no key stands for itself. -/
theorem before_text (value : String) (h : Apart ts) : before (.text value) ts = .text value :: ts := by
  cases ts with
  | nil => rfl
  | cons t ts =>
    cases t with
    | symbol s => cases s <;> first | rfl | exact h.elim
    | _ => rfl

/-- A comma in front of an item separates it from the one before. -/
theorem before_comma (h : Leading ts) : before (.symbol .comma) ts = .symbol .comma :: ts := by
  rw [before, if_neg (by rw [h.closes_eq]; exact Bool.false_ne_true)]

/-- A comma at the end of a list is left out. -/
theorem before_comma_of_closes (h : closes ts = true) : before (.symbol .comma) ts = ts := by
  rw [before, if_pos h]

/-! ### Parentheses in pairs -/

/-- Every parenthesis that the tokens open they close. -/
def Paired (ts : List TokenKind) : Prop :=
  ∀ depth us, dropClosing depth (ts ++ us) = ts ++ dropClosing depth us

theorem paired_nil : Paired [] := fun _ _ => rfl

theorem Paired.append (h : Paired ts) (h' : Paired us) : Paired (ts ++ us) := by
  intro depth rest
  rw [List.append_assoc, h, h', List.append_assoc]

/-- Neither parenthesis. -/
def isPlain : TokenKind → Bool
  | .symbol .leftParen | .symbol .rightParen => false
  | _ => true

theorem Paired.cons (h : Paired ts) {t : TokenKind} (ht : t.isPlain = true) : Paired (t :: ts) := by
  intro depth rest
  have hstep : dropClosing depth (t :: (ts ++ rest)) = t :: dropClosing depth (ts ++ rest) := by
    cases t with
    | symbol s => cases s <;> first | rfl | cases ht
    | _ => rfl
  rw [List.cons_append, hstep, h, List.cons_append]

theorem Paired.parens (h : Paired ts) :
    Paired (.symbol .leftParen :: ts ++ [.symbol .rightParen]) := by
  intro depth rest
  simp only [List.cons_append, List.append_assoc]
  rw [dropClosing, h]
  rfl

theorem paired_separated {items : List (List TokenKind)} (h : ∀ ts ∈ items, Paired ts) :
    Paired (separated items) := by
  induction items with
  | nil => exact paired_nil
  | cons ts items ih =>
    have hts := h ts List.mem_cons_self
    have hrest := ih fun us hus => h us (List.mem_cons_of_mem _ hus)
    cases items with
    | nil => rwa [separated_singleton]
    | cons us items =>
      rw [separated_cons_cons]
      exact hts.append (hrest.cons rfl)

end TokenKind

open TokenKind

/-- An operator is no parenthesis. -/
theorem BinaryOp.isPlain_symbol (op : BinaryOp) : (TokenKind.symbol op.symbol).isPlain = true := by
  cases op <;> rfl

@[inherit_doc BinaryOp.isPlain_symbol]
theorem LogicalOp.isPlain_symbol (op : LogicalOp) : (TokenKind.symbol op.symbol).isPlain = true := by
  cases op <;> rfl

@[inherit_doc BinaryOp.isPlain_symbol]
theorem UnaryOp.isPlain_symbol (op : UnaryOp) : (TokenKind.symbol op.symbol).isPlain = true := by
  cases op <;> rfl

mutual

/-- **Parentheses come in pairs** in what is written back. -/
theorem Expr.paired : (e : Expr) → Paired e.written
  | .number _ _ | .text _ _ | .bool true _ | .bool false _ | .nil _ | .name _ _ => paired_nil.cons rfl
  | .array elements _ => by
    rw [Expr.written]
    exact ((paired_separated (Expr.pairedEach elements)).cons rfl).append (paired_nil.cons rfl)
  | .record fields _ => by
    rw [Expr.written]
    exact ((paired_separated (Expr.pairedFields fields)).cons rfl).append (paired_nil.cons rfl)
  | .binary left op right _ => by
    rw [Expr.written]
    exact left.paired.append (right.paired.cons op.isPlain_symbol)
  | .logical left op right _ => by
    rw [Expr.written]
    exact left.paired.append (right.paired.cons op.isPlain_symbol)
  | .unary op operand _ => by
    rw [Expr.written]
    exact operand.paired.cons op.isPlain_symbol
  | .call callee args _ => by
    rw [Expr.written, List.append_assoc]
    exact callee.paired.append (paired_separated (Expr.pairedEach args)).parens
  | .group inner _ => by
    rw [Expr.written]
    exact inner.paired.parens
  | .assign _ value _ => by
    rw [Expr.written]
    exact (value.paired.cons rfl).cons rfl
  | .get object _ _ => by
    rw [Expr.written]
    exact object.paired.append ((paired_nil.cons rfl).cons rfl)
  | .set object _ value _ => by
    rw [Expr.written]
    exact object.paired.append (((value.paired.cons rfl).cons rfl).cons rfl)
  | .index object key _ => by
    rw [Expr.written, List.append_assoc]
    exact object.paired.append ((key.paired.cons rfl).append (paired_nil.cons rfl))
  | .setIndex object key value _ => by
    rw [Expr.written, List.append_assoc]
    exact object.paired.append ((key.paired.cons rfl).append ((value.paired.cons rfl).cons rfl))

@[inherit_doc Expr.paired]
theorem Expr.pairedEach : (es : List Expr) → ∀ ts ∈ Expr.writtenEach es, Paired ts
  | [], _, h => nomatch h
  | e :: es, ts, h => by
    rw [Expr.writtenEach] at h
    rcases List.mem_cons.1 h with rfl | h
    · exact e.paired
    · exact Expr.pairedEach es ts h

@[inherit_doc Expr.paired]
theorem Expr.pairedFields : (fields : List (String × Expr)) →
    ∀ ts ∈ Expr.writtenFields fields, Paired ts
  | [], _, h => nomatch h
  | (key, e) :: fields, ts, h => by
    rw [Expr.writtenFields] at h
    rcases List.mem_cons.1 h with rfl | h
    · exact (e.paired.cons rfl).cons rfl
    · exact Expr.pairedFields fields ts h

end

/-- An expression begins with a token that ends nothing. -/
theorem Expr.leading : (e : Expr) → Leading e.written
  | .number _ _ | .text _ _ | .bool true _ | .bool false _ | .nil _ | .name _ _ => ⟨_, _, rfl, rfl⟩
  | .array .. | .record .. | .group .. | .assign .. => by
    rw [Expr.written]
    exact ⟨_, _, rfl, rfl⟩
  | .unary op .. => by
    rw [Expr.written]
    exact ⟨_, _, rfl, by cases op <;> rfl⟩
  | .binary left .. | .logical left .. => by
    rw [Expr.written]
    exact left.leading.append _
  | .call callee .. => by
    rw [Expr.written, List.append_assoc]
    exact callee.leading.append _
  | .get object .. | .set object .. => by
    rw [Expr.written]
    exact object.leading.append _
  | .index object .. | .setIndex object .. => by
    rw [Expr.written, List.append_assoc]
    exact object.leading.append _

/-- A statement begins with a token that ends nothing. -/
theorem Stmt.leading : (p : Stmt) → Leading p.written
  | .expr value => by
    rw [Stmt.written]
    exact value.leading
  | .var .. | .let_ .. | .block .. | .if_ _ _ none _ | .if_ _ _ (some _) _ | .while_ .. | .for_ ..
  | .function .. | .return_ .. | .break_ _ | .continue_ _ => by
    rw [Stmt.written]
    exact ⟨_, _, rfl, rfl⟩

end DeployScript
