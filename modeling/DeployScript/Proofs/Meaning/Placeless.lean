import DeployScript.Proofs.Meaning.Evaluate
import DeployScript.Proofs.Program.Bare

/-!
# Places do not matter

The places of a program are there for the messages of errors. What the program does is the same without
them: two programs that differ in nothing else come to the same results, in memories whose functions
differ in nothing else.

* `Memory.bare`, `Result.bare` — what is left of a memory without places, and of a result.
* `Eval.Matches` — evaluations that do the same up to places; `Matches.bind` puts two of them together.
* `Expr.matches_eval`, `Stmt.matches_eval`, `Eval.matches_apply` — expressions, statements and calls.
* `Program.eval_eq_of_bare` — programs that are the same up to places.
-/

namespace DeployScript

variable {ω α β : Type}

/-- A function without places. -/
def Lambda.bare (f : Lambda) : Lambda := { f with body := Stmt.bareAll f.body }

/-- A memory whose functions have no places. -/
def Memory.bare (μ : Memory ω) : Memory ω :=
  { μ with lambdas := fun h => (μ.lambdas h).map Lambda.bare }

/-- A result in such a memory. -/
def Result.bare : Result ω α → Result ω α
  | .ok a μ => .ok a μ.bare
  | .error cause μ => .error cause μ.bare
  | .unfinished => .unfinished

namespace Eval

/-- **Two evaluations match:** from memories that are the same up to places they come to results that
are. -/
def Matches (x y : Eval ω α) : Prop := ∀ μ, (x μ).bare = y μ.bare

/-- Two ways to call match. -/
abbrev CallsMatch (call call' : Calling ω) : Prop := ∀ f args, Matches (call f args) (call' f args)

theorem matches_pure (a : α) : Matches (pure a : Eval ω α) (pure a) := fun _ => rfl

theorem Matches.bind {x y : Eval ω α} {f g : α → Eval ω β} (h : Matches x y)
    (hf : ∀ a, Matches (f a) (g a)) : Matches (x >>= f) (y >>= g) := by
  intro μ
  change (andThen x f μ).bare = andThen y g μ.bare
  unfold andThen
  rw [← h μ]
  cases x μ with
  | ok a μ => exact hf a μ
  | error cause μ => rfl
  | unfinished => rfl

/-! ### Evaluations without functions -/

theorem matches_endless : Matches (endless : Eval ω α) endless := fun _ => rfl

theorem matches_fail (cause : Cause) : Matches (fail cause : Eval ω α) (fail cause) := fun _ => rfl

theorem matches_given (result : Heap → Except Cause α) :
    Matches (given result : Eval ω α) (given result) := by
  intro μ
  unfold given
  dsimp only [Memory.bare]
  cases result μ.heap <;> rfl

theorem matches_change (f : Heap → α × Heap) : Matches (change f : Eval ω α) (change f) := fun _ => rfl

theorem matches_readCell (h : Handle) : Matches (readCell h : Eval ω Value) (readCell h) := by
  intro μ
  unfold readCell
  dsimp only [Memory.bare]
  match μ.heap.cell? h with
  | none | some (.opened _) | some (.closed _) => rfl

theorem matches_read (env : Env) (name : String) :
    Matches (read env name : Eval ω Value) (read env name) := by
  unfold read
  cases env.lookup name with
  | some h => exact matches_readCell h
  | none =>
    intro μ
    dsimp only [Memory.bare]
    cases μ.globals[name]? <;> rfl

theorem matches_assign (env : Env) (name : String) (v : Value) :
    Matches (assign env name v : Eval ω Unit) (assign env name v) := by
  unfold assign
  cases env.lookup name with
  | some h => exact matches_change _
  | none =>
    intro μ
    dsimp only [Memory.bare]
    cases μ.globals[name]? with
    | none => rfl
    | some b =>
      dsimp only
      split <;> rfl

theorem matches_define (name : String) (v : Value) (isMutable : Bool) :
    Matches (define name v isMutable : Eval ω Unit) (define name v isMutable) := by
  intro μ
  unfold define
  dsimp only [Memory.bare]
  cases μ.globals[name]? with
  | none => rfl
  | some b =>
    dsimp only
    split <;> rfl

theorem matches_declare (inBlock : Bool) (env : Env) (name : String) (v : Value) (isMutable : Bool) :
    Matches (declare inBlock env name v isMutable : Eval ω Env)
      (declare inBlock env name v isMutable) := by
  unfold declare
  cases inBlock with
  | true => exact (matches_change _).bind fun h => matches_pure _
  | false => exact (matches_define name v isMutable).bind fun _ => matches_pure _

theorem matches_declareAll (params : List String) (args : List Value) (env : Env) :
    Matches (declareAll params args env : Eval ω Env) (declareAll params args env) := by
  induction params generalizing args env with
  | nil => exact matches_pure env
  | cons p params ih =>
    cases args with
    | nil => exact matches_pure env
    | cons v args => exact (matches_change _).bind fun h => ih args _

theorem matches_write (target : Heap → Except Cause Heap.Target) (v : Value) :
    Matches (write target v : Eval ω Value) (write target v) :=
  (matches_given target).bind fun _ => matches_change _

theorem matches_intrinsic (f : Intrinsic) (args : List Value) :
    Matches (intrinsic f args : Eval ω Value) (intrinsic f args) := by
  unfold intrinsic
  have hrest : Matches (do
      let effect ← given fun heap => (f.effect? heap args).mapError Cause.failure
      change (·.perform effect) : Eval ω Value) (do
      let effect ← given fun heap => (f.effect? heap args).mapError Cause.failure
      change (·.perform effect)) :=
    (matches_given _).bind fun _ => matches_change _
  cases f.arity? with
  | none => exact hrest
  | some arity =>
    dsimp only
    split
    · exact Matches.bind (matches_fail _) fun _ => hrest
    · exact hrest

theorem matches_builtin (caller name : String) (args : List Value) :
    Matches (builtin caller name args : Eval ω Value) (builtin caller name args) := by
  intro μ
  unfold builtin
  dsimp only [Memory.bare]
  cases μ.library.get? name with
  | none => rfl
  | some b =>
    dsimp only
    cases μ.heap.unpack b.name b.params args with
    | error cause => rfl
    | ok given =>
      dsimp only
      obtain ⟨result, world⟩ := b.run { caller, assets := μ.assets } given μ.world
      cases result <;> rfl

/-! ### Functions -/

theorem matches_closure (name : String) (f : Lambda) :
    Matches (closure name f : Eval ω Value) (closure name f.bare) := by
  intro μ
  unfold closure
  dsimp only [Memory.bare, Result.bare]
  congr 2
  funext k
  split <;> rfl

end Eval

open Eval

/-! ### Expressions -/

theorem isPrint_bare (e : Expr) : Compile.isPrint e.bare = Compile.isPrint e := by
  cases e <;> rfl

section Calling

variable {call call' : Calling ω}

mutual

/-- **The value of an expression** does not depend on places. -/
theorem Expr.matches_eval (hcall : CallsMatch call call') : (e : Expr) → (env : Env) →
    Matches (e.eval call env) (e.bare.eval call' env)
  | .number _ _, _ | .text _ _, _ | .bool _ _, _ | .nil _, _ => fun _ => rfl
  | .name x _, env => matches_read env x
  | .array elements _, env => (Expr.matches_evalAll hcall elements env).bind fun _ => matches_change _
  | .record fields _, env => (Expr.matches_evalFields hcall fields env).bind fun _ => matches_change _
  | .binary left _ right _, env =>
    (Expr.matches_eval hcall left env).bind fun _ => (Expr.matches_eval hcall right env).bind fun _ =>
      matches_given _
  | .logical left op right _, env => (Expr.matches_eval hcall left env).bind fun a => by
    cases op.decides a with
    | true => exact matches_pure a
    | false => exact Expr.matches_eval hcall right env
  | .unary _ operand _, env => (Expr.matches_eval hcall operand env).bind fun _ => matches_given _
  | .call callee args _, env => by
    simp only [Expr.bare, Expr.eval, isPrint_bare]
    split
    · exact (Expr.matches_evalAll hcall args env).bind fun _ => fun _ => rfl
    · exact (Expr.matches_eval hcall callee env).bind fun f =>
        (Expr.matches_evalAll hcall args env).bind fun values => hcall f values
  | .group inner _, env => Expr.matches_eval hcall inner env
  | .assign x value _, env =>
    (Expr.matches_eval hcall value env).bind fun v => (matches_assign env x v).bind fun _ => matches_pure v
  | .get object _ _, env => (Expr.matches_eval hcall object env).bind fun _ => matches_given _
  | .set object _ value _, env =>
    (Expr.matches_eval hcall object env).bind fun _ => (Expr.matches_eval hcall value env).bind fun v =>
      matches_write _ v
  | .index object key _, env =>
    (Expr.matches_eval hcall object env).bind fun _ => (Expr.matches_eval hcall key env).bind fun _ =>
      matches_given _
  | .setIndex object key value _, env =>
    (Expr.matches_eval hcall object env).bind fun _ => (Expr.matches_eval hcall key env).bind fun _ =>
      (Expr.matches_eval hcall value env).bind fun v => matches_write _ v

@[inherit_doc Expr.matches_eval]
theorem Expr.matches_evalAll (hcall : CallsMatch call call') : (es : List Expr) → (env : Env) →
    Matches (Expr.evalAll call es env) (Expr.evalAll call' (Expr.bareAll es) env)
  | [], _ => matches_pure _
  | e :: es, env => (Expr.matches_eval hcall e env).bind fun _ =>
    (Expr.matches_evalAll hcall es env).bind fun _ => matches_pure _

@[inherit_doc Expr.matches_eval]
theorem Expr.matches_evalFields (hcall : CallsMatch call call') :
    (fields : List (String × Expr)) → (env : Env) →
    Matches (Expr.evalFields call fields env) (Expr.evalFields call' (Expr.bareFields fields) env)
  | [], _ => matches_pure _
  | (_, e) :: fields, env => (Expr.matches_eval hcall e env).bind fun _ =>
    (Expr.matches_evalFields hcall fields env).bind fun _ => matches_pure _

end

theorem Expr.matches_evalOrNil (hcall : CallsMatch call call') (value : Option Expr) (env : Env) :
    Matches (Expr.evalOrNil call value env) (Expr.evalOrNil call' (value.map Expr.bare) env) := by
  cases value with
  | none => exact matches_pure _
  | some e => exact Expr.matches_eval hcall e env

end Calling

/-! ### Statements -/

theorem Eval.matches_repeating {test test' : Eval ω Value} {body body' : Eval ω Flow}
    (htest : Matches test test') (hbody : Matches body body') (env : Env) (rounds : Nat) :
    Matches (repeating env test body rounds) (repeating env test' body' rounds) := by
  induction rounds with
  | zero => exact matches_endless
  | succ rounds ih =>
    rw [repeating, repeating]
    refine htest.bind fun v => ?_
    split
    · refine hbody.bind fun flow => ?_
      cases flow with
      | next env | continue_ => exact ih
      | break_ | return_ => exact matches_pure _
    · exact matches_pure _

theorem Eval.matches_iterate (container : Value) : Matches (iterate container : Eval ω Cursor)
    (iterate container) :=
  (matches_change _).bind fun _ => (matches_change _).bind fun _ => (matches_change _).bind fun _ =>
    matches_pure _

theorem Eval.matches_nextIndex (c : Cursor) : Matches (nextIndex c : Eval ω Value) (nextIndex c) :=
  (matches_readCell _).bind fun _ => (matches_given _).bind fun _ => (matches_change _).bind fun _ =>
    (matches_readCell _).bind fun _ => (matches_given _).bind fun _ => (matches_readCell _).bind fun _ =>
      matches_given _

theorem Eval.matches_take (c : Cursor) : Matches (take c : Eval ω Unit) (take c) :=
  (matches_readCell _).bind fun _ => (matches_readCell _).bind fun _ => (matches_given _).bind fun _ =>
    matches_change _

section Calling

variable {call call' : Calling ω}

mutual

/-- **What a statement does** does not depend on places. -/
theorem Stmt.matches_eval (hcall : CallsMatch call call')
    (rounds : Nat) : (p : Stmt) → (inBlock : Bool) → (env : Env) →
    Matches (p.eval call rounds inBlock env) (p.bare.eval call' rounds inBlock env)
  | .expr value, _, env => (Expr.matches_eval hcall value env).bind fun _ => matches_pure _
  | .var name value _, inBlock, env => (Expr.matches_evalOrNil hcall value env).bind fun v =>
    (matches_declare inBlock env name v true).bind fun _ => matches_pure _
  | .let_ name value _, inBlock, env => (Expr.matches_eval hcall value env).bind fun v =>
    (matches_declare inBlock env name v false).bind fun _ => matches_pure _
  | .block body _, _, env => (Stmt.matches_evalAll hcall rounds body true env).bind fun _ => matches_pure _
  | .if_ condition body none _, _, env => (Expr.matches_eval hcall condition env).bind fun c => by
    cases c.isTruthy with
    | true => exact (Stmt.matches_evalAll hcall rounds body true env).bind fun _ => matches_pure _
    | false => exact matches_pure _
  | .if_ condition body (some orElse) _, inBlock, env =>
    (Expr.matches_eval hcall condition env).bind fun c => by
      cases c.isTruthy with
      | true => exact (Stmt.matches_evalAll hcall rounds body true env).bind fun _ => matches_pure _
      | false => exact (Stmt.matches_eval hcall rounds orElse inBlock env).bind fun _ => matches_pure _
  | .while_ condition body _, _, env =>
    matches_repeating (Expr.matches_eval hcall condition env)
      (Stmt.matches_evalAll hcall rounds body true env) env rounds
  | .for_ name iterable body _, _, env => (Expr.matches_eval hcall iterable env).bind fun container =>
    (matches_iterate container).bind fun cursor => matches_repeating (matches_nextIndex cursor)
      ((matches_take cursor).bind fun _ =>
        Stmt.matches_evalAll hcall rounds body true (cursor.scope name env)) env rounds
  | .function name params body _, inBlock, env => by
    cases inBlock with
    | true =>
      exact (matches_change _).bind fun h => (matches_closure name _).bind fun f =>
        (matches_change _).bind fun _ => matches_pure _
    | false =>
      exact (matches_closure name _).bind fun f => (matches_define name f false).bind fun _ => matches_pure _
  | .return_ value _, _, env => (Expr.matches_evalOrNil hcall value env).bind fun _ => matches_pure _
  | .break_ _, _, _ | .continue_ _, _, _ => matches_pure _

@[inherit_doc Stmt.matches_eval]
theorem Stmt.matches_evalAll (hcall : CallsMatch call call')
    (rounds : Nat) : (ps : List Stmt) → (inBlock : Bool) → (env : Env) →
    Matches (Stmt.evalAll call rounds ps inBlock env) (Stmt.evalAll call' rounds (Stmt.bareAll ps) inBlock env)
  | [], _, _ => matches_pure _
  | p :: ps, inBlock, env => (Stmt.matches_eval hcall rounds p inBlock env).bind fun flow => by
    cases flow with
    | next env => exact Stmt.matches_evalAll hcall rounds ps inBlock env
    | break_ | continue_ | return_ => exact matches_pure _

end

end Calling

/-! ### Calls and scripts -/

/-- **What a call does** does not depend on places. -/
theorem Eval.matches_apply (fuel depth : Nat) (caller : String) (callee : Value) (args : List Value) :
    Matches (apply fuel depth caller callee args : Eval ω Value) (apply fuel depth caller callee args) := by
  induction fuel generalizing depth caller callee args with
  | zero => exact matches_endless
  | succ fuel ih =>
    unfold apply
    cases callee with
    | intrinsic f => exact matches_intrinsic f args
    | builtin name => exact matches_builtin caller name args
    | closure h =>
      intro μ
      have hbare : μ.bare.lambdas h = (μ.lambdas h).map Lambda.bare := rfl
      dsimp only
      rw [hbare]
      cases μ.lambdas h with
      | none => rfl
      | some f =>
        -- What is asked of a call does not look at the body.
        have hparams : f.bare.params = f.params := rfl
        simp only [Option.map_some, hparams]
        split
        · rfl
        split
        · rfl
        · exact ((matches_declareAll f.params args f.env).bind fun env =>
            (Stmt.matches_evalAll (ih _ _) fuel f.body true env).bind fun flow => matches_pure _) μ
    | _ => exact matches_fail _

theorem Compile.splitLast_bare (ps : List Stmt) :
    Compile.splitLast (Stmt.bareAll ps)
      = (Stmt.bareAll (Compile.splitLast ps).1, (Compile.splitLast ps).2.map Expr.bare) := by
  induction ps using Compile.splitLast.induct with
  | case1 => rfl
  | case2 value => rfl
  | case3 p ps hlast ih =>
    have hbare : ∀ value, p.bare = .expr value → Stmt.bareAll ps = [] → False := by
      intro value hp hps
      obtain rfl : ps = [] := by
        cases ps with
        | nil => rfl
        | cons q qs => cases hps
      cases p with
      | expr value => exact hlast value rfl rfl
      | if_ condition body orElse => cases orElse <;> cases hp
      | _ => cases hp
    rw [Stmt.bareAll, Compile.splitLast, Compile.splitLast, ih]
    · rfl
    · exact hlast
    · exact hbare

/-- **What a script does** does not depend on places. -/
theorem Program.eval_bare (p : Program) (fuel : Nat) (μ : Memory ω) :
    (p.eval fuel μ).bare = ({ statements := Stmt.bareAll p.statements } : Program).eval fuel μ.bare := by
  have hcall : CallsMatch (apply fuel 1 scriptName : Calling ω) (apply fuel 1 scriptName) :=
    matches_apply fuel 1 scriptName
  unfold Program.eval
  rw [Compile.splitLast_bare]
  refine ((Stmt.matches_evalAll hcall fuel _ false []).bind fun flow => ?_) μ
  cases flow with
  | return_ v => exact matches_pure v
  | next | break_ | continue_ => exact Expr.matches_evalOrNil hcall _ []

/-- **Programs that are the same up to places** do the same. -/
theorem Program.eval_eq_of_bare {p q : Program} (h : Stmt.bareAll p.statements = Stmt.bareAll q.statements)
    (fuel : Nat) (μ : Memory ω) : (p.eval fuel μ).bare = (q.eval fuel μ).bare := by
  rw [Program.eval_bare, Program.eval_bare, h]

end DeployScript
