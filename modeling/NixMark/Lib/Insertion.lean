import Mathlib.Order.Lattice

/-!
# Insertion by another key

A list in the order of `due` gets an element, at a place that is found by comparing `key`. Elements
that are due at one time have one key; otherwise the two need not agree.

* `inorder_insert_iff`: the list stays in order exactly when the element `Fits`.
* `InOrder.first`: what comes first is due first.
-/

namespace NixMark.Lib

universe u v w

variable {α : Type u} {β : Type v} {γ : Type w} [LinearOrder β] [LinearOrder γ] {due : α → β}
  {key : α → γ} {a : α} {l l₁ l₂ : List α}

def InOrder (due : α → β) (l : List α) : Prop := l.Pairwise fun a b => due a ≤ due b

/-- What is due earlier has no larger key. What is due later has a larger one, or something that is
due in between has. -/
def Fits (due : α → β) (key : α → γ) (a : α) (l : List α) : Prop :=
  ∀ q ∈ l, (due q < due a → key q ≤ key a) ∧ (due a < due q → key a < key q ∨
    ∃ p ∈ l, due a < due p ∧ due p < due q ∧ key a < key p)

theorem inorder_insert (h : InOrder due (l₁ ++ l₂)) : InOrder due (l₁ ++ a :: l₂) ↔
    (∀ x ∈ l₁, due x ≤ due a) ∧ ∀ y ∈ l₂, due a ≤ due y := by
  obtain ⟨h₁, h₂, h₁₂⟩ := List.pairwise_append.mp h
  constructor
  · intro hi
    obtain ⟨-, ha, hx⟩ := List.pairwise_append.mp hi
    exact ⟨fun x hx₁ => hx x hx₁ a List.mem_cons_self, (List.pairwise_cons.mp ha).1⟩
  · rintro ⟨hx, hy⟩
    refine List.pairwise_append.mpr ⟨h₁, List.pairwise_cons.mpr ⟨hy, h₂⟩, fun x hx₁ y hy₂ => ?_⟩
    obtain rfl | hy₂ := List.mem_cons.mp hy₂
    · exact hx x hx₁
    · exact h₁₂ x hx₁ y hy₂

/-- The element was put before the first one with a larger key. -/
theorem inorder_insert_iff (hkey : ∀ x y, due x = due y → key x = key y)
    (h : InOrder due (l₁ ++ l₂)) (h₁ : ∀ x ∈ l₁, key x ≤ key a)
    (h₂ : ∀ y, l₂.head? = some y → key a < key y) :
    InOrder due (l₁ ++ a :: l₂) ↔ Fits due key a (l₁ ++ l₂) := by
  obtain ⟨-, ho₂, ho⟩ := List.pairwise_append.mp h
  rw [inorder_insert h]
  constructor
  · rintro ⟨hx, hy⟩ q hq
    obtain hq | hq := List.mem_append.mp hq
    · exact ⟨fun _ => h₁ q hq, fun hlt => absurd hlt (hx q hq).not_gt⟩
    · refine ⟨fun hlt => absurd hlt (hy q hq).not_gt, fun _ => ?_⟩
      cases l₂ with
      | nil => cases hq
      | cons y l₂ =>
        have hay := h₂ y rfl
        obtain rfl | hq := List.mem_cons.mp hq
        · exact .inl hay
        · obtain hlt | heq := ((List.pairwise_cons.mp ho₂).1 q hq).lt_or_eq
          · refine .inr ⟨y, List.mem_append_right _ List.mem_cons_self, ?_, hlt, hay⟩
            exact (hy y List.mem_cons_self).lt_of_ne fun e => hay.ne (hkey _ _ e)
          · exact .inl (hkey _ _ heq ▸ hay)
  · intro hf
    refine ⟨fun x hx => ?_, fun y hy => ?_⟩
    · by_contra hlt
      obtain hk | ⟨p, hp, -, hpx, hk⟩ :=
        (hf x (List.mem_append_left _ hx)).2 (lt_of_not_ge hlt)
      · exact (h₁ x hx).not_gt hk
      · obtain hp | hp := List.mem_append.mp hp
        · exact (h₁ p hp).not_gt hk
        · exact (ho x hx p hp).not_gt hpx
    · cases l₂ with
      | nil => cases hy
      | cons z l₂ =>
        have hz : due a ≤ due z := by
          by_contra hlt
          exact ((hf z (List.mem_append_right _ List.mem_cons_self)).1
            (lt_of_not_ge hlt)).not_gt (h₂ z rfl)
        obtain rfl | hy := List.mem_cons.mp hy
        · exact hz
        · exact hz.trans ((List.pairwise_cons.mp ho₂).1 y hy)

theorem InOrder.remove (h : InOrder due (l₁ ++ a :: l₂)) : InOrder due (l₁ ++ l₂) :=
  h.sublist ((List.sublist_cons_self a l₂).append_left l₁)

/-- What comes before the first element that passes a test does not pass it. -/
theorem InOrder.first (h : InOrder due (l₁ ++ a :: l₂)) {test : α → Bool}
    (h₁ : ∀ x ∈ l₁, test x = false) {q : α} (hq : q ∈ l₁ ++ a :: l₂) (ht : test q = true) :
    due a ≤ due q := by
  obtain hq | hq := List.mem_append.mp hq
  · rw [h₁ q hq] at ht
    cases ht
  · obtain rfl | hq := List.mem_cons.mp hq
    · exact le_refl _
    · exact (List.pairwise_cons.mp (List.pairwise_append.mp h).2.1).1 q hq

end NixMark.Lib
