/-!
# Replacing bytes

`replaceAll` puts other bytes in the place of each occurrence of some bytes, from left to right
and without overlap.
-/

namespace DeployScript

/-- What follows `old` at the beginning of bytes, if they begin with it. -/
def afterPattern? : (old bytes : List UInt8) → Option (List UInt8)
  | [], rest => some rest
  | _ :: _, [] => none
  | o :: old, b :: bytes => if o = b then afterPattern? old bytes else none

/-- What follows `old` is not longer than the bytes. -/
theorem length_of_afterPattern? {old bytes rest : List UInt8}
    (h : afterPattern? old bytes = some rest) : bytes.length = old.length + rest.length := by
  fun_induction afterPattern? old bytes with
  | case1 => simp_all
  | case2 => simp at h
  | case3 o old bytes ih => simp [ih h, Nat.add_comm, Nat.add_assoc]
  | case4 => simp at h

/-- Replaces the occurrences of `o :: old` in bytes, behind others in reverse order. -/
def replaceFrom (o : UInt8) (old new : List UInt8) (bytes reversed : List UInt8) : List UInt8 :=
  match bytes with
  | [] => reversed.reverse
  | b :: rest =>
    match _h : afterPattern? (o :: old) (b :: rest) with
    | some after => replaceFrom o old new after (new.reverse ++ reversed)
    | none => replaceFrom o old new rest (b :: reversed)
termination_by bytes.length
decreasing_by
  · have := length_of_afterPattern? _h
    simp at this ⊢
    omega
  · simp

/-- **Replaces every occurrence.** Nothing occurs nowhere. -/
def replaceAll (old new bytes : List UInt8) : List UInt8 :=
  match old with
  | [] => bytes
  | o :: old => replaceFrom o old new bytes []

end DeployScript
