import Mathlib.Tactic.Common

/-!
# Address space cut into ranges

A map `B` gives for an address the length and the label of the range that starts there.

* `Carved B`: the ranges are not empty and do not overlap.
* `Carved.put`: a range may replace the one at its address, or be added, if it does not overlap the
  others; `Carved.shrink`, `Carved.erase`, `Carved.split` and `Carved.merge` are the changes that an
  allocator makes.
-/

namespace NixMark.Lib

open Function (update update_of_ne update_self)

universe u

variable {κ : Type u}

/-- The range of `s` from `p` and the range of `t` from `q` do not overlap. -/
def Apart (p s q t : Nat) : Prop := p + s ≤ q ∨ q + t ≤ p

theorem Apart.symm {p s q t : Nat} (h : Apart p s q t) : Apart q t p s := Or.symm h

/-- The ranges in use: length and label, by address. -/
abbrev Ranges (κ : Type u) := Nat → Option (Nat × κ)

/-- What holds of a new range and of the other ranges. -/
theorem Ranges.of_put {B : Ranges κ} {p s : Nat} {k : κ} {Q : Nat → Nat → κ → Prop} (hp : Q p s k)
    (h : ∀ q t j, q ≠ p → B q = some (t, j) → Q q t j) {q t : Nat} {j : κ}
    (hq : update B p (some (s, k)) q = some (t, j)) : Q q t j := by
  by_cases hqp : q = p
  · subst hqp
    rw [update_self] at hq
    cases hq
    exact hp
  · rw [update_of_ne hqp] at hq
    exact h q t j hqp hq

/-- What holds of the ranges that are left. -/
theorem Ranges.of_erase {B : Ranges κ} {p : Nat} {Q : Nat → Nat → κ → Prop}
    (h : ∀ q t j, q ≠ p → B q = some (t, j) → Q q t j) {q t : Nat} {j : κ}
    (hq : update B p none q = some (t, j)) : Q q t j := by
  by_cases hqp : q = p
  · subst hqp
    rw [update_self] at hq
    cases hq
  · rw [update_of_ne hqp] at hq
    exact h q t j hqp hq

/-- The ranges are not empty and do not overlap. -/
structure Carved (B : Ranges κ) : Prop where
  pos : ∀ {p s k}, B p = some (s, k) → 0 < s
  apart : ∀ {p s k q t j}, B p = some (s, k) → B q = some (t, j) → p ≠ q → Apart p s q t

namespace Carved

variable {B : Ranges κ} {p s : Nat} {k : κ}

/-- A range for an address, apart from all others. -/
theorem put (h : Carved B) (hs : 0 < s)
    (hf : ∀ q t j, q ≠ p → B q = some (t, j) → Apart p s q t) :
    Carved (update B p (some (s, k))) where
  pos hq := Ranges.of_put (Q := fun _ t _ => 0 < t) hs (fun _ _ _ _ hB => h.pos hB) hq
  apart {q t j q' t' j'} hq hq' hne := by
    by_cases h1 : q = p
    · subst h1
      rw [update_self] at hq
      rw [update_of_ne (Ne.symm hne)] at hq'
      cases hq
      exact hf _ _ _ (Ne.symm hne) hq'
    · rw [update_of_ne h1] at hq
      by_cases h2 : q' = p
      · subst h2
        rw [update_self] at hq'
        cases hq'
        exact (hf _ _ _ h1 hq).symm
      · rw [update_of_ne h2] at hq'
        exact h.apart hq hq' hne

/-- A range gets a new label and keeps at most its length. -/
theorem shrink (h : Carved B) {s' : Nat} {k' : κ} (hp : B p = some (s, k)) (hs : 0 < s')
    (hle : s' ≤ s) : Carved (update B p (some (s', k'))) := by
  apply h.put hs
  intro q t j hq hB
  have := h.apart hp hB (Ne.symm hq)
  unfold Apart at this ⊢
  omega

theorem erase (h : Carved B) : Carved (update B p none) := by
  have hB : ∀ {q t j}, update B p none q = some (t, j) → B q = some (t, j) :=
    fun hq => Ranges.of_erase (fun _ _ _ _ hB => hB) hq
  exact ⟨fun hq => h.pos (hB hq), fun hq hq' => h.apart (hB hq) (hB hq')⟩

/-- Nothing starts inside of a range. -/
theorem none_inside (h : Carved B) (hp : B p = some (s, k)) {q : Nat} (hlo : p < q)
    (hhi : q < p + s) : B q = none := by
  cases hq : B q with
  | none => rfl
  | some r =>
    obtain ⟨t, j⟩ := r
    have ht := h.pos hq
    have := h.apart hp hq (by omega)
    unfold Apart at this
    omega

/-- A range is cut in two. -/
theorem split (h : Carved B) {a : Nat} {k₁ k₂ : κ} (hp : B p = some (s, k)) (ha : 0 < a)
    (has : a < s) :
    Carved (update (update B p (some (a, k₁))) (p + a) (some (s - a, k₂))) := by
  apply (h.shrink hp ha (Nat.le_of_lt has)).put (by omega)
  intro q t j hq hB
  by_cases hqp : q = p
  · subst hqp
    rw [update_self] at hB
    cases hB
    exact .inr (Nat.le_refl _)
  · rw [update_of_ne hqp] at hB
    have := h.apart hp hB (Ne.symm hqp)
    have ht := h.pos hB
    unfold Apart at this ⊢
    omega

/-- A range takes in the one that starts at its end. -/
theorem merge (h : Carved B) {t : Nat} {j k' : κ} (hp : B p = some (s, k))
    (hq : B (p + s) = some (t, j)) :
    Carved (update (update B (p + s) none) p (some (s + t, k'))) := by
  have hs := h.pos hp
  apply h.erase.put (by omega)
  intro q t' j' hqp hB
  have hne : q ≠ p + s := by
    rintro rfl
    rw [update_self] at hB
    cases hB
  rw [update_of_ne hne] at hB
  have h1 := h.apart hp hB (Ne.symm hqp)
  have h2 := h.apart hq hB (Ne.symm hne)
  have ht := h.pos hB
  have ht' := h.pos hq
  unfold Apart at h1 h2 ⊢
  omega

end Carved

end NixMark.Lib
