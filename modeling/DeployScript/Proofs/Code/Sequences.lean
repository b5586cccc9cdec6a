import DeployScript.Code.Writer

/-!
# Nodes one after another

The code of nodes that stand one after another is put behind the code that there is already. It does not depend on
that: it is a block of its own, and the block of the first node comes first in it.

* `behind_of`, `cons_of` — for nodes of any kind.
* `exprs_cons`, `fields_cons`, `stmts_cons` — for expressions, the fields of records, and statements.
-/

namespace DeployScript.Compile

variable {σ ι : Type}

section Nodes

variable (go : List ι → (before : Block) → StepIn σ Block) {one : ι → StepIn σ Block}

/-- What comes behind a block is a block of its own. -/
theorem behind_of (hnil : ∀ before, go [] before = pure before)
    (hcons : ∀ a as before, go (a :: as) before = do go as (before ++ (← one a))) (as : List ι)
    (before : Block) : go as before = do return before ++ (← go as #[]) := by
  induction as generalizing before with
  | nil => simp only [hnil, pure_bind, Array.append_empty]
  | cons a as ih =>
    have hfirst (b : Block) : go as (#[] ++ b) = do return b ++ (← go as #[]) := by
      rw [Array.empty_append, ih]
    rw [hcons, hcons]
    simp only [ih (before ++ _), hfirst, bind_assoc, pure_bind, Array.append_assoc]

/-- The block of the first node comes first. -/
theorem cons_of (hnil : ∀ before, go [] before = pure before)
    (hcons : ∀ a as before, go (a :: as) before = do go as (before ++ (← one a))) (a : ι) (as : List ι) :
    go (a :: as) #[] = do return (← one a) ++ (← go as #[]) := by
  rw [hcons]
  exact bind_congr fun b => by rw [Array.empty_append, behind_of go hnil hcons]

end Nodes

/-! ### Expressions -/

theorem exprs_nil (before : Block) : (exprs [] before : StepIn σ Block) = pure before := by
  rw [exprs]

theorem exprs_step (e : Expr) (es : List Expr) (before : Block) :
    (exprs (e :: es) before : StepIn σ Block) = (do exprs es (before ++ (← expr e))) := by
  rw [exprs]

theorem exprs_behind (es : List Expr) (before : Block) :
    (exprs es before : StepIn σ Block) = do return before ++ (← exprs es #[]) :=
  behind_of exprs exprs_nil exprs_step es before

theorem exprs_cons (e : Expr) (es : List Expr) :
    (exprs (e :: es) #[] : StepIn σ Block) = do return (← expr e) ++ (← exprs es #[]) :=
  cons_of exprs exprs_nil exprs_step e es

/-- The arguments of a call come behind its callee. -/
theorem callee_args (callee : Expr) (args : List Expr) :
    (do exprs args (← expr callee) : StepIn σ Block) = do return (← expr callee) ++ (← exprs args #[]) :=
  bind_congr fun b => exprs_behind args b

/-! ### Fields -/

/-- The code of a key and its value. -/
def field (line : Nat) (entry : String × Expr) : StepIn σ Block := do
  return (← emitConstant (.text entry.1) line) ++ (← expr entry.2)

theorem fields_nil (line : Nat) (before : Block) : (fields [] line before : StepIn σ Block) = pure before := by
  rw [fields]

theorem fields_step (line : Nat) (entry : String × Expr) (es : List (String × Expr)) (before : Block) :
    (fields (entry :: es) line before : StepIn σ Block) =
      (do fields es line (before ++ (← field line entry))) := by
  obtain ⟨key, e⟩ := entry
  rw [fields]
  simp only [field, bind_assoc, pure_bind]

theorem fields_behind (es : List (String × Expr)) (line : Nat) (before : Block) :
    (fields es line before : StepIn σ Block) = do return before ++ (← fields es line #[]) :=
  behind_of (fun es => fields es line) (fields_nil line) (fields_step line) es before

theorem fields_cons (line : Nat) (entry : String × Expr) (es : List (String × Expr)) :
    (fields (entry :: es) line #[] : StepIn σ Block) = do
      return (← field line entry) ++ (← fields es line #[]) :=
  cons_of (fun es => fields es line) (fields_nil line) (fields_step line) entry es

/-! ### Statements -/

section Statements

variable [Store σ]

theorem stmts_nil (before : Block) : (stmts [] before : StepIn σ Block) = pure before := by
  rw [stmts]

theorem stmts_step (p : Stmt) (ps : List Stmt) (before : Block) :
    (stmts (p :: ps) before : StepIn σ Block) = (do stmts ps (before ++ (← stmt p))) := by
  rw [stmts]

theorem stmts_behind (ps : List Stmt) (before : Block) :
    (stmts ps before : StepIn σ Block) = do return before ++ (← stmts ps #[]) :=
  behind_of stmts stmts_nil stmts_step ps before

theorem stmts_cons (p : Stmt) (ps : List Stmt) :
    (stmts (p :: ps) #[] : StepIn σ Block) = do return (← stmt p) ++ (← stmts ps #[]) :=
  cons_of stmts stmts_nil stmts_step p ps

/-- A script whose first statement is not its value goes on behind it. -/
theorem script_step {p : Stmt} {ps : List Stmt} (hp : ∀ value, p = .expr value → ps = [] → False)
    (before : Block) : (script (p :: ps) before : StepIn σ Block) = (do script ps (before ++ (← stmt p))) := by
  rw [script]
  exact hp

/-- The code of a script behind a block comes behind it. -/
theorem script_behind (ps : List Stmt) (before : Block) :
    (script ps before : StepIn σ Block) = do return before ++ (← script ps #[]) := by
  induction ps using writeScript.induct generalizing before with
  | case1 | case2 value => simp only [script, bind_assoc, pure_bind, Array.empty_append]
  | case3 p ps hlast ih =>
    have hfirst (b : Block) : (script ps (#[] ++ b) : StepIn σ Block) = do return b ++ (← script ps #[]) := by
      rw [Array.empty_append, ih]
    rw [script_step hlast, script_step hlast]
    simp only [ih (before ++ _), hfirst, bind_assoc, pure_bind, Array.append_assoc]

theorem script_cons {p : Stmt} {ps : List Stmt} (hp : ∀ value, p = .expr value → ps = [] → False) :
    (script (p :: ps) #[] : StepIn σ Block) = do return (← stmt p) ++ (← script ps #[]) := by
  rw [script_step hp]
  exact bind_congr fun b => by rw [Array.empty_append, script_behind]

end Statements

end DeployScript.Compile
