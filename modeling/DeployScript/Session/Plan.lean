import DeployScript.Session.Basic

/-!
# Plans

Scripts take part in a deployment by declaring functions with reserved names. A plan is what a
session has declared of them: it calls the hooks in a fixed order, stops at the first that fails,
and then reports that to the error hook.

* `Plan.discover` finds the hooks, `Plan.execute` calls them.
-/

namespace DeployScript

/-- The reserved names in the order of their calls. -/
def hookNames : List String := ["BeforeDeploy", "Deploy", "AfterDeploy"]

/-- The reserved name of the function that is told about a failure. -/
def errorHookName : String := "OnError"

/-- The hooks that a session has declared. -/
structure Plan where
  hooks : List String
  hasErrorHook : Bool
  deriving Repr, DecidableEq, Inhabited

namespace Plan

variable {ω : Type}

/-- Whether a reserved name is bound to a function. It may not be bound to anything else. -/
def isDeclared (s : Session ω) (name : String) : Except SessionError Bool :=
  match s.get name with
  | .ok value =>
    if value.isFunction then .ok true
    else .error (.failedHook name ("reserved name is bound to a " ++ value.typeName))
  | .error (.notFound _) => .ok false
  | .error e => .error e

/-- Those of some reserved names that are declared. -/
def declared (s : Session ω) (names : List String) : Except SessionError (List String) :=
  names.filterM (isDeclared s)

/-- **Finds the hooks** of a session whose script has run to its end. -/
def discover (s : Session ω) : Except SessionError Plan :=
  match s.phase with
  | .executed => do
    let hooks ← declared s hookNames
    let hasErrorHook ← isDeclared s errorHookName
    return { hooks, hasErrorHook }
  | _ => .error (s.refusal "discover hooks")

/-- Why a hook counts as failed, if it does: it returned false, or there was an error. -/
def failure? : Except SessionError HostValue → Option String
  | .ok (.bool false) => some "returned false"
  | .ok _ => none
  | .error e => some e.message

/-- Whether a run did not end as runs should. -/
def isAbnormal : Except SessionError HostValue → Bool
  | .error .stuck | .error .unfinished => true
  | _ => false

/-- Calls hooks one after another, up to the first that fails. `completed` are the hooks before them. -/
def callHooks (hasErrorHook : Bool) (fuel : Nat) : (hooks completed : List String) → Session ω →
    Except SessionError (List String) × Session ω
  | [], completed, s => (.ok completed, s)
  | hook :: hooks, completed, s =>
    let (result, s) := s.call hook [] fuel
    if isAbnormal result then (result.map fun _ => completed, s)
    else
      match failure? result with
      | none => callHooks hasErrorHook fuel hooks (completed ++ [hook]) s
      | some reason =>
        let failed : Except SessionError (List String) := .error (.failedHook hook reason)
        if hasErrorHook then
          let (reported, s) := s.call errorHookName [.text hook] fuel
          if isAbnormal reported then (reported.map fun _ => completed, s) else (failed, s)
        else (failed, s)

/-- **Calls the hooks,** and reports those that have completed if none failed. -/
def execute (p : Plan) (s : Session ω) (fuel : Nat) :
    Except SessionError (List String) × Session ω :=
  callHooks p.hasErrorHook fuel p.hooks [] s

end Plan

end DeployScript
