/-!
# Character classes

A class of characters, given by the ranges of code points that belong to it.
-/

namespace PagePartials

/-- A class of characters: the closed ranges of code points that it holds. -/
structure CharClass where
  ranges : List (Nat × Nat)

namespace CharClass

/-- Whether the class holds the character. -/
def contains (k : CharClass) (c : Char) : Bool :=
  k.ranges.any fun r => r.1 ≤ c.toNat && c.toNat ≤ r.2

theorem contains_iff {k : CharClass} {c : Char} :
    k.contains c = true ↔ ∃ r ∈ k.ranges, r.1 ≤ c.toNat ∧ c.toNat ≤ r.2 := by
  simp [contains]

end CharClass

end PagePartials
