import Mathlib.Tactic.Common

/-!
# Signed machine words

* `long`: the value that an integer has in a signed word of 32 bits.
-/

namespace NixMark.Lib

/-- The value of a 32-bit `long`. -/
def long (x : Int) : Int := (x + 2147483648) % 4294967296 - 2147483648

theorem long_range (x : Int) : -2147483648 ≤ long x ∧ long x < 2147483648 := by
  unfold long
  omega

theorem long_eq {x : Int} (h : -2147483648 ≤ x) (h' : x < 2147483648) : long x = x := by
  unfold long
  omega

/-- Only multiples of the size of a word are lost. -/
theorem long_spec (x : Int) : ∃ k, long x = x + 4294967296 * k :=
  ⟨-((x + 2147483648) / 4294967296), by unfold long; omega⟩

end NixMark.Lib
