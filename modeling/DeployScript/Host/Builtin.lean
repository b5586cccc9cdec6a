import DeployScript.Heap.Exchange
import DeployScript.Program.Basic
import DeployScript.Program.Mentions

/-!
# Builtins

What a host offers to scripts: functions with declared parameters, which act on a state of the
host. The type of that state is a parameter, so nothing here depends on what the host is.

* `Builtin` is one function, `Library` a list of them with different names.
* `Library.subset` cuts a library to some names, and `Library.mentioned` are the names that a
  program mentions.
-/

namespace DeployScript

/-- Named resources. -/
abbrev Assets := Std.TreeMap String (List UInt8)

/-- What a builtin can see of its caller: the name of the function that calls it, and the
resources of the script. -/
structure CallContext where
  caller : String
  assets : Assets

/-- A function of the host, on a state of type `ω`. -/
structure Builtin (ω : Type) where
  name : String
  params : List Shape
  run : CallContext → List Arg → ω → Except Cause HostValue × ω

namespace Builtin

variable {ω : Type}

/-- The name with the shapes of the parameters. -/
def signature (b : Builtin ω) : String :=
  b.name ++ "(" ++ ", ".intercalate (b.params.map Shape.name) ++ ")"

end Builtin

/-- Builtins in an order, with different names. -/
structure Library (ω : Type) where
  builtins : List (Builtin ω)

namespace Library

variable {ω : Type}

/-- A library without builtins. -/
def empty : Library ω := { builtins := [] }

/-- The names of the builtins, in order. -/
def names (l : Library ω) : List String := l.builtins.map (·.name)

/-- The builtin of a name. -/
def get? (l : Library ω) (name : String) : Option (Builtin ω) :=
  l.builtins.find? fun b => b.name = name

/-- The library with one more builtin, unless it has one of that name. -/
def register? (l : Library ω) (b : Builtin ω) : Option (Library ω) :=
  match l.get? b.name with
  | some _ => none
  | none => some { builtins := l.builtins ++ [b] }

/-- The builtins with certain names, in the order of the library. -/
def subset (l : Library ω) (names : List String) : Library ω :=
  { builtins := l.builtins.filter fun b => names.contains b.name }

/-- The names of the builtins that a program mentions, in the order of the library. -/
def mentioned (l : Library ω) (p : Program) : List String :=
  let mentions := p.mentions
  l.names.filter mentions.contains

end Library

end DeployScript
