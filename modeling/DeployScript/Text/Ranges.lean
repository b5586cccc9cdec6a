/-!
# Runs of code points

Unicode gives a property of characters as runs of code points. The tables beside this module hold
such runs, and `Text.inRanges` looks a character up in one.
-/

namespace DeployScript

namespace Text

/-- Whether the code point of a character lies in one of the runs. -/
def inRanges (ranges : Array (Nat × Nat)) (c : Char) : Bool :=
  128 ≤ c.toNat && ranges.any fun (first, last) => first ≤ c.toNat && c.toNat ≤ last

/-- ASCII is never looked up: the tables start above it. -/
theorem inRanges_of_ascii (ranges : Array (Nat × Nat)) {c : Char} (h : c.toNat < 128) :
    inRanges ranges c = false := by
  simp [inRanges, Nat.not_le.2 h]

end Text

end DeployScript
