import Mathlib.Algebra.BigOperators.Fin
import Mathlib.Algebra.Order.BigOperators.Group.Finset

/-!
# Sums over a family

What changes in a sum when one of the members changes: `sum_update` over a finite type,
`list_sum_update` over a list without duplicates, `countP_of_off` for the number of members that meet
a condition. `sum_le_of_off`, `sum_le_of_off₂`: members but one
or two grow.
-/

namespace NixMark.Lib

open Function (update update_of_ne update_self)

universe u v w

variable {ι : Type u} {α : Type v} {M : Type w} [Fintype ι] [DecidableEq ι] [AddCommMonoid M]

/-- The sum after one member has changed: its old value is to be added where its new one is not. -/
theorem sum_update (g : α → M) (f : ι → α) (i : ι) (a : α) :
    (∑ j, g (update f i a j)) + g (f i) = (∑ j, g (f j)) + g a := by
  have hf : (fun j => g (update f i a j)) =
      update (fun j => g (f j)) i (g a) := by
    funext j
    by_cases hj : j = i
    · rw [hj, update_self, update_self]
    · rw [update_of_ne hj, update_of_ne hj]
  have h1 := Finset.sum_update_of_mem (Finset.mem_univ i) (fun j => g (f j)) (g a)
  have h2 := Finset.add_sum_erase Finset.univ (fun j => g (f j)) (Finset.mem_univ i)
  rw [hf, h1, ← h2, ← Finset.erase_eq]
  calc g a + ∑ x ∈ Finset.univ.erase i, g (f x) + g (f i)
      = g a + (g (f i) + ∑ x ∈ Finset.univ.erase i, g (f x)) := by rw [add_assoc, add_comm (g (f i))]
    _ = g (f i) + ∑ x ∈ Finset.univ.erase i, g (f x) + g a := add_comm _ _

variable {i : ι}

section
omit [DecidableEq ι] [AddCommMonoid M]

/-- All members but one grow. -/
theorem sum_le_of_off {f g : ι → Nat} {m k : Nat} (h : ∀ j ≠ i, f j ≤ g j) (hi : f i + m ≤ g i + k) :
    ∑ j, f j + m ≤ ∑ j, g j + k := by
  classical
  rw [← Finset.add_sum_erase _ f (Finset.mem_univ i), ← Finset.add_sum_erase _ g (Finset.mem_univ i)]
  have hrest : ∑ j ∈ Finset.univ.erase i, f j ≤ ∑ j ∈ Finset.univ.erase i, g j :=
    Finset.sum_le_sum fun j hj => h j (Finset.ne_of_mem_erase hj)
  omega

/-- All members but two grow, and those two do together. -/
theorem sum_le_of_off₂ {f g : ι → Nat} {k : ι} (hne : i ≠ k) (h : ∀ j, j ≠ i → j ≠ k → f j ≤ g j)
    (hik : f i + f k ≤ g i + g k) : ∑ j, f j ≤ ∑ j, g j := by
  classical
  have hk : k ∈ Finset.univ.erase i := Finset.mem_erase.mpr ⟨hne.symm, Finset.mem_univ k⟩
  rw [← Finset.add_sum_erase _ f (Finset.mem_univ i), ← Finset.add_sum_erase _ g (Finset.mem_univ i),
    ← Finset.add_sum_erase _ f hk, ← Finset.add_sum_erase _ g hk]
  have hrest : ∑ j ∈ (Finset.univ.erase i).erase k, f j ≤ ∑ j ∈ (Finset.univ.erase i).erase k, g j :=
    Finset.sum_le_sum fun j hj => h j (Finset.ne_of_mem_erase (Finset.mem_of_mem_erase hj))
      (Finset.ne_of_mem_erase hj)
  omega

end

omit [Fintype ι]

variable {l : List ι}

omit [AddCommMonoid M] in
theorem list_sum_update_notin (hi : i ∉ l) (g : α → M) (f : ι → α) (a : α) :
    (l.map fun j => g (update f i a j)) = l.map fun j => g (f j) := by
  apply List.map_congr_left
  intro j hj
  rw [update_of_ne (ne_of_mem_of_not_mem hj hi)]

theorem list_sum_update (hn : l.Nodup) (hi : i ∈ l) (g : α → M) (f : ι → α) (a : α) :
    (l.map fun j => g (update f i a j)).sum + g (f i) = (l.map fun j => g (f j)).sum + g a := by
  induction l with
  | nil => cases hi
  | cons b l ih =>
    obtain ⟨hb, hn⟩ := List.nodup_cons.mp hn
    rw [List.map_cons, List.map_cons, List.sum_cons, List.sum_cons]
    by_cases hbi : b = i
    · subst hbi
      rw [list_sum_update_notin hb, update_self, add_comm (g a), add_comm (g (f b)),
        add_assoc, add_assoc, add_comm (g a)]
    · rw [update_of_ne hbi, add_assoc, add_assoc,
        ih hn ((List.mem_cons.mp hi).resolve_left (Ne.symm hbi))]

omit [DecidableEq ι] in
/-- How many meet the condition, when it changes for one member. -/
theorem countP_of_off (hn : l.Nodup) (hi : i ∈ l) {p q : ι → Bool} (h : ∀ j ≠ i, q j = p j) :
    l.countP q + (p i).toNat = l.countP p + (q i).toNat := by
  induction l with
  | nil => cases hi
  | cons b l ih =>
    obtain ⟨hb, hn⟩ := List.nodup_cons.mp hn
    rw [List.countP_cons, List.countP_cons]
    rcases List.mem_cons.mp hi with rfl | hi
    · have hrest : l.countP q = l.countP p :=
        List.countP_congr fun j hj => by rw [h j (ne_of_mem_of_not_mem hj hb)]
      rw [hrest]
      cases p i <;> cases q i <;> simp
    · have hrest := ih hn hi
      rw [h b (ne_of_mem_of_not_mem hi hb).symm]
      omega

end NixMark.Lib
