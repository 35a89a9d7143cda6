import Mathlib.Tactic.Ring
import Mathlib.Tactic.Linarith

/-!
# Nested ranges and aligned blocks

Ranges of a linear order, given by their two ends, and the families in which any two ranges are
apart or one lies in the other. The aligned power-of-two blocks of the natural numbers are such a
family; an address and a contiguous mask give one of its members, and a bit field of an address
is monotone on a block, or covers all its values there.

* `Laminar r s`: the two ranges are apart, or nested.
* `IsBlock lo hi`: `lo .. hi` is an aligned block of `2 ^ s` numbers.
* `IsBlock.laminar`: two blocks are apart or nested.
* `IsBlock.field_le`: a block's numbers have their field between the fields of its ends.
* `mask_block`: the ends that a contiguous mask gives are a block.
* `mask_of_ends`: the mask of a block, from its ends.
-/

namespace NixMark.Lib

section Ranges

variable {α : Type} [LinearOrder α]

/-- The range `lo .. hi` lies in the range `lo' .. hi'`. -/
def Within (lo hi lo' hi' : α) : Prop := lo' ≤ lo ∧ hi ≤ hi'

instance (lo hi lo' hi' : α) : Decidable (Within lo hi lo' hi') :=
  inferInstanceAs (Decidable (_ ∧ _))

/-- Two ranges are apart or one lies in the other. -/
def Laminar (lo hi lo' hi' : α) : Prop :=
  hi < lo' ∨ hi' < lo ∨ Within lo hi lo' hi' ∨ Within lo' hi' lo hi

theorem Within.refl (lo hi : α) : Within lo hi lo hi := ⟨le_refl _, le_refl _⟩

theorem Within.trans {a b c d e f : α} (h : Within a b c d) (h' : Within c d e f) :
    Within a b e f := ⟨h'.1.trans h.1, h.2.trans h'.2⟩

theorem Within.antisymm {a b c d : α} (h : Within a b c d) (h' : Within c d a b) :
    a = c ∧ b = d := ⟨le_antisymm h'.1 h.1, le_antisymm h.2 h'.2⟩

/-- A point of the inner range is a point of the outer one. -/
theorem Within.mem {a b c d x : α} (h : Within a b c d) (hx : a ≤ x ∧ x ≤ b) : c ≤ x ∧ x ≤ d :=
  ⟨h.1.trans hx.1, hx.2.trans h.2⟩

theorem Laminar.symm {a b c d : α} (h : Laminar a b c d) : Laminar c d a b := by
  rcases h with h | h | h | h
  · exact .inr (.inl h)
  · exact .inl h
  · exact .inr (.inr (.inr h))
  · exact .inr (.inr (.inl h))

end Ranges

/-! ## Aligned blocks -/

/-- `lo .. hi` is an aligned block of a power of two numbers. -/
def IsBlock (lo hi : Nat) : Prop := ∃ k s, lo = k * 2 ^ s ∧ hi + 1 = k * 2 ^ s + 2 ^ s

theorem IsBlock.le {lo hi : Nat} (h : IsBlock lo hi) : lo ≤ hi := by
  obtain ⟨k, s, rfl, h⟩ := h
  have := Nat.two_pow_pos s
  omega

/-- Multiples of `a`: the block of `k₁` is before, in, or after the block of `k₂` of `c` times the
size. -/
theorem block_cases (k₁ k₂ a c : Nat) :
    k₁ * a + a ≤ k₂ * (c * a) ∨ k₂ * (c * a) + c * a ≤ k₁ * a ∨
      (k₂ * (c * a) ≤ k₁ * a ∧ k₁ * a + a ≤ k₂ * (c * a) + c * a) := by
  rcases lt_or_ge k₁ (k₂ * c) with h | h
  · left
    calc k₁ * a + a = (k₁ + 1) * a := by ring
      _ ≤ (k₂ * c) * a := Nat.mul_le_mul_right _ h
      _ = k₂ * (c * a) := by ring
  rcases lt_or_ge k₁ (k₂ * c + c) with h' | h'
  · right; right
    constructor
    · calc k₂ * (c * a) = (k₂ * c) * a := by ring
        _ ≤ k₁ * a := Nat.mul_le_mul_right _ h
    · calc k₁ * a + a = (k₁ + 1) * a := by ring
        _ ≤ (k₂ * c + c) * a := Nat.mul_le_mul_right _ h'
        _ = k₂ * (c * a) + c * a := by ring
  · right; left
    calc k₂ * (c * a) + c * a = (k₂ * c + c) * a := by ring
      _ ≤ k₁ * a := Nat.mul_le_mul_right _ h'

theorem laminar_of_le {k₁ s₁ k₂ s₂ hi₁ hi₂ : Nat} (hs : s₁ ≤ s₂)
    (h₁ : hi₁ + 1 = k₁ * 2 ^ s₁ + 2 ^ s₁) (h₂ : hi₂ + 1 = k₂ * 2 ^ s₂ + 2 ^ s₂) :
    Laminar (k₁ * 2 ^ s₁) hi₁ (k₂ * 2 ^ s₂) hi₂ := by
  have hp : 2 ^ s₂ = 2 ^ (s₂ - s₁) * 2 ^ s₁ := by rw [← pow_add]; congr 1; omega
  rw [hp] at h₂ ⊢
  have h0 := Nat.two_pow_pos s₁
  rcases block_cases k₁ k₂ (2 ^ s₁) (2 ^ (s₂ - s₁)) with h | h | ⟨h, h'⟩
  · left; omega
  · right; left; omega
  · right; right; left; exact ⟨h, by omega⟩

/-- Two aligned blocks are apart or nested. -/
theorem IsBlock.laminar {a b c d : Nat} (h : IsBlock a b) (h' : IsBlock c d) : Laminar a b c d := by
  obtain ⟨k₁, s₁, rfl, h₁⟩ := h
  obtain ⟨k₂, s₂, rfl, h₂⟩ := h'
  rcases le_total s₁ s₂ with hs | hs
  · exact laminar_of_le hs h₁ h₂
  · exact (laminar_of_le hs h₂ h₁).symm

/-! ## A bit field of the numbers of a block -/

/-- The bits of `x` from bit `lo` to below bit `lo + n`, by mask and shift. -/
def field (hi lo x : Nat) : Nat := x % 2 ^ hi / 2 ^ lo

/-- In a block smaller than `2 ^ hi` the high bits of all numbers agree. -/
theorem mod_of_small {k s hi j : Nat} (hs : s ≤ hi) (hj : j < 2 ^ s) :
    (k * 2 ^ s + j) % 2 ^ hi = k % 2 ^ (hi - s) * 2 ^ s + j := by
  have hp : 2 ^ hi = 2 ^ s * 2 ^ (hi - s) := by rw [← pow_add]; congr 1; omega
  have hm : (k * 2 ^ s + j) % 2 ^ s = j := by
    rw [Nat.add_comm, Nat.add_mul_mod_self_right, Nat.mod_eq_of_lt hj]
  have hd : (k * 2 ^ s + j) / 2 ^ s = k := by
    rw [Nat.add_comm, Nat.add_mul_div_right _ _ (Nat.two_pow_pos s), Nat.div_eq_of_lt hj,
      Nat.zero_add]
  rw [hp, Nat.mod_mul, hm, hd]
  ring

/-- The field of a number of a block lies between the fields of the block's ends. -/
theorem IsBlock.field_le {lo hi x : Nat} (h : IsBlock lo hi) (hx : lo ≤ x ∧ x ≤ hi) (u v : Nat) :
    field u v lo ≤ field u v x ∧ field u v x ≤ field u v hi := by
  obtain ⟨k, s, rfl, h⟩ := h
  have h0 := Nat.two_pow_pos s
  obtain ⟨j, rfl⟩ := Nat.exists_eq_add_of_le hx.1
  obtain rfl : hi = k * 2 ^ s + (2 ^ s - 1) := by omega
  have hj : j < 2 ^ s := by omega
  unfold field
  rcases le_total s u with hs | hs
  · have e := mod_of_small (k := k) hs h0
    rw [Nat.add_zero, Nat.add_zero] at e
    rw [e, mod_of_small hs hj, mod_of_small hs (Nat.sub_lt h0 one_pos)]
    exact ⟨Nat.div_le_div_right (by omega), Nat.div_le_div_right (by omega)⟩
  · -- a block of at least `2 ^ u` numbers: its ends have fields zero and the largest
    have hp : 2 ^ s = 2 ^ (s - u) * 2 ^ u := by rw [← pow_add]; congr 1; omega
    have hu := Nat.two_pow_pos u
    have hc := Nat.two_pow_pos (s - u)
    have e₁ : k * 2 ^ s % 2 ^ u = 0 := by
      rw [hp, ← mul_assoc]; exact Nat.mul_mod_left _ _
    have e₂ : (k * 2 ^ s + (2 ^ s - 1)) % 2 ^ u = 2 ^ u - 1 := by
      have : k * 2 ^ s + (2 ^ s - 1) = (k * 2 ^ (s - u) + 2 ^ (s - u) - 1) * 2 ^ u + (2 ^ u - 1) := by
        have h3 : (k * 2 ^ (s - u) + 2 ^ (s - u) - 1) * 2 ^ u + 2 ^ u
            = k * 2 ^ s + 2 ^ s := by
          rw [hp, ← Nat.succ_mul, Nat.succ_eq_add_one, Nat.sub_add_cancel (by omega)]
          ring
        omega
      rw [this, Nat.add_comm, Nat.add_mul_mod_self_right, Nat.mod_eq_of_lt (by omega)]
    rw [e₁, e₂]
    exact ⟨by simp, Nat.div_le_div_right (Nat.le_pred_of_lt (Nat.mod_lt _ hu))⟩

/-! ## Contiguous masks -/

/-- A mask of `n` leading ones. -/
def prefixMask (w n : Nat) : BitVec w := BitVec.allOnes w <<< (w - n)

theorem shift_mod {w s : Nat} (hs : s ≤ w) : (2 ^ w - 1) * 2 ^ s % 2 ^ w = 2 ^ w - 2 ^ s := by
  obtain ⟨d, rfl⟩ := Nat.exists_eq_add_of_le hs
  have hd := Nat.two_pow_pos d
  have h0 := Nat.two_pow_pos s
  rw [pow_add, mul_comm (2 ^ s * 2 ^ d - 1), Nat.mul_mod_mul_left]
  have e : 2 ^ s * 2 ^ d - 1 = (2 ^ s - 1) * 2 ^ d + (2 ^ d - 1) := by
    have : (2 ^ s - 1) * 2 ^ d + 2 ^ d = 2 ^ s * 2 ^ d := by
      rw [← Nat.succ_mul, Nat.succ_eq_add_one, Nat.sub_add_cancel h0]
    omega
  rw [e, Nat.add_comm, Nat.add_mul_mod_self_right, Nat.mod_eq_of_lt (by omega), Nat.mul_sub,
    mul_one]

theorem prefixMask_toNat {w n : Nat} : (prefixMask w n).toNat = 2 ^ w - 2 ^ (w - n) := by
  unfold prefixMask
  rw [BitVec.toNat_shiftLeft, BitVec.toNat_allOnes, Nat.shiftLeft_eq, shift_mod (Nat.sub_le _ _)]

theorem not_prefixMask_toNat {w n : Nat} : (~~~ prefixMask w n).toNat = 2 ^ (w - n) - 1 := by
  have h : 2 ^ (w - n) ≤ 2 ^ w := Nat.pow_le_pow_right (by omega) (Nat.sub_le _ _)
  have h0 := Nat.two_pow_pos (w - n)
  rw [BitVec.toNat_not, prefixMask_toNat]
  omega

theorem and_prefixMask (w n : Nat) (x : BitVec w) :
    (x &&& prefixMask w n).toNat = x.toNat / 2 ^ (w - n) * 2 ^ (w - n) := by
  have e : x &&& prefixMask w n = (x >>> (w - n)) <<< (w - n) := by
    apply BitVec.eq_of_getLsbD_eq
    intro i hi
    simp only [prefixMask, BitVec.getLsbD_and, BitVec.getLsbD_shiftLeft, BitVec.getLsbD_allOnes,
      BitVec.getLsbD_ushiftRight]
    by_cases h : i < w - n
    · simp [h]
    · simp [h, hi, show i - (w - n) < w by omega, show w - n + (i - (w - n)) = i by omega]
  rw [e, BitVec.toNat_shiftLeft, BitVec.toNat_ushiftRight, Nat.shiftLeft_eq,
    Nat.shiftRight_eq_div_pow]
  exact Nat.mod_eq_of_lt (lt_of_le_of_lt (Nat.div_mul_le_self _ _) x.isLt)

/-- The address part and the rest of a mask have no bit in common. -/
theorem or_not_mask {w : Nat} (x m : BitVec w) :
    ((x &&& m) ||| ~~~ m).toNat = (x &&& m).toNat + (~~~ m).toNat := by
  have h : (x &&& m) &&& ~~~ m = 0#w := by
    apply BitVec.eq_of_getLsbD_eq
    intro i hi
    simp [hi]
  rw [← BitVec.add_eq_or_of_and_eq_zero _ _ h, BitVec.toNat_add_of_and_eq_zero h]

theorem or_not_mask' {w : Nat} (x m : BitVec w) : x ||| ~~~ m = (x &&& m) ||| ~~~ m := by
  apply BitVec.eq_of_getLsbD_eq
  intro i hi
  simp only [BitVec.getLsbD_or, BitVec.getLsbD_and, BitVec.getLsbD_not, hi, decide_true,
    Bool.true_and]
  cases x.getLsbD i <;> cases m.getLsbD i <;> rfl

/-- The first and the last address of a contiguous mask are the ends of a block. -/
theorem mask_block (w n : Nat) (x : BitVec w) :
    IsBlock (x &&& prefixMask w n).toNat ((x &&& prefixMask w n) ||| ~~~ prefixMask w n).toNat := by
  refine ⟨x.toNat / 2 ^ (w - n), w - n, and_prefixMask w n x, ?_⟩
  have h0 := Nat.two_pow_pos (w - n)
  rw [or_not_mask, not_prefixMask_toNat, and_prefixMask]
  omega

/-! ## The mask of a block -/

/-- The bits of a block's first number are bits of its last one. -/
theorem IsBlock.and_eq {w : Nat} {x y : BitVec w} (h : IsBlock x.toNat y.toNat) : x &&& y = x := by
  obtain ⟨k, s, hx, hy⟩ := h
  have h0 := Nat.two_pow_pos s
  have hx : x.toNat = 2 ^ s * k + 0 := by rw [hx, mul_comm, Nat.add_zero]
  have hy : y.toNat = 2 ^ s * k + (2 ^ s - 1) := by rw [mul_comm]; omega
  apply BitVec.eq_of_getLsbD_eq
  intro i hi
  rw [BitVec.getLsbD_and, BitVec.getLsbD, BitVec.getLsbD, hx, hy,
    Nat.testBit_two_pow_mul_add k h0, Nat.testBit_two_pow_mul_add k (Nat.sub_lt h0 one_pos)]
  by_cases hs : i < s
  · simp [hs]
  · simp [hs]

/-- A block's ends give its mask, and the mask gives the ends. -/
theorem mask_of_ends {w : Nat} {x y : BitVec w} (h : x &&& y = x) :
    x &&& ~~~(y ^^^ x) = x ∧ x ||| ~~~ ~~~(y ^^^ x) = y := by
  have hbit : ∀ i, (x.getLsbD i && y.getLsbD i) = x.getLsbD i := fun i => by
    rw [← BitVec.getLsbD_and, h]
  constructor
  · apply BitVec.eq_of_getLsbD_eq
    intro i hi
    have := hbit i
    simp only [BitVec.getLsbD_and, BitVec.getLsbD_not, BitVec.getLsbD_xor, hi, decide_true,
      Bool.true_and]
    cases hx : x.getLsbD i <;> cases hy : y.getLsbD i <;> simp_all
  · apply BitVec.eq_of_getLsbD_eq
    intro i hi
    have := hbit i
    simp only [BitVec.getLsbD_or, BitVec.not_not, BitVec.getLsbD_xor]
    cases hx : x.getLsbD i <;> cases hy : y.getLsbD i <;> simp_all

end NixMark.Lib
