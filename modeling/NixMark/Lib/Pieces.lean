import Mathlib.Data.List.Basic
import Mathlib.Algebra.Order.Ring.Nat

/-!
# Pieces of a stream

A list of things that stand for the ranges `[lo a, hi a)` of a stream, in the order of the ranges.

* `Apart`: each piece ends before the next one begins; `Covers`: a place of the stream is in one.
* `Apart.sum_le`: the lengths of pieces that are apart fit between the bounds of the list.
* `Apart.head_of_covers`: where the pieces leave no gap, the first of them begins at the place where
  the stream does, and the rest leaves no gap behind it.
-/

namespace NixMark.Lib
namespace Pieces

universe u

variable {α : Type u} {lo hi : α → Nat} {l l' : List α} {a : α} {x b t : Nat}

def Apart (lo hi : α → Nat) (l : List α) : Prop := l.Pairwise fun a b => hi a ≤ lo b

def Covers (lo hi : α → Nat) (l : List α) (x : Nat) : Prop := ∃ a ∈ l, lo a ≤ x ∧ x < hi a

theorem covers_cons : Covers lo hi (a :: l) x ↔ (lo a ≤ x ∧ x < hi a) ∨ Covers lo hi l x := by
  simp only [Covers, List.mem_cons, exists_eq_or_imp]

theorem covers_append : Covers lo hi (l ++ l') x ↔ Covers lo hi l x ∨ Covers lo hi l' x := by
  simp only [Covers, List.mem_append, or_and_right, exists_or]

theorem not_covers_nil : ¬ Covers lo hi [] x := fun ⟨_, h, _⟩ => nomatch h

/-- The pieces fit between `b` and `t`. -/
theorem Apart.sum_le (h : Apart lo hi l) (hle : ∀ a ∈ l, lo a ≤ hi a) (hb : ∀ a ∈ l, b ≤ lo a)
    (ht : ∀ a ∈ l, hi a ≤ t) (hbt : b ≤ t) : b + (l.map fun a => hi a - lo a).sum ≤ t := by
  induction l generalizing b with
  | nil => exact hbt
  | cons a l ih =>
    have ⟨h₁, h₂⟩ := List.pairwise_cons.mp h
    have hrest := ih h₂ (fun c hc => hle c (List.mem_cons_of_mem a hc)) h₁
      (fun c hc => ht c (List.mem_cons_of_mem a hc)) (ht a List.mem_cons_self)
    have h₃ := hb a List.mem_cons_self
    have h₄ := hle a List.mem_cons_self
    rw [List.map_cons, List.sum_cons]
    omega

/-- A stream from `b` to `t` without a gap. -/
theorem Apart.head_of_covers (h : Apart lo hi l) (hle : ∀ a ∈ l, lo a ≤ hi a)
    (hb : ∀ a ∈ l, b ≤ lo a) (hbt : b < t) (hc : ∀ x, b ≤ x → x < t → Covers lo hi l x) :
    ∃ a r, l = a :: r ∧ lo a = b ∧ ∀ x, hi a ≤ x → x < t → Covers lo hi r x := by
  cases l with
  | nil => exact absurd (hc b (Nat.le_refl b) hbt) not_covers_nil
  | cons a l =>
    have ⟨h₁, _⟩ := List.pairwise_cons.mp h
    have hba := hb a List.mem_cons_self
    refine ⟨a, l, rfl, ?_, fun x hx hxt => ?_⟩
    · -- a piece behind `a` that covers `b` begins behind `a`
      rcases covers_cons.mp (hc b (Nat.le_refl b) hbt) with ⟨hab, -⟩ | ⟨c, hcl, hcb, -⟩
      · omega
      · have h₂ := h₁ c hcl
        have h₃ := hle a List.mem_cons_self
        omega
    · have hax := hle a List.mem_cons_self
      rcases covers_cons.mp (hc x (by omega) hxt) with ⟨-, hxa⟩ | hr
      · omega
      · exact hr

end Pieces
end NixMark.Lib
