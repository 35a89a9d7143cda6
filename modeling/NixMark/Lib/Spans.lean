import Mathlib.Data.List.Chain
import Mathlib.Algebra.Order.Ring.Nat

/-!
# Sorted lists of labelled ranges

* `Tidy l`: the ranges are not empty, they are sorted, and adjacent ranges of one kind do not touch.
* `Tidy.glue`, `Tidy.drop`: put a range between two lists, and take one out.
* `Tidy.before`, `Tidy.pairwise`: any two ranges of the list are apart.
* `Span.At`: the numbers of a range, with its kind.
-/

namespace NixMark.Lib

universe u

/-- The numbers `lo ≤ x < hi`, of some kind. -/
structure Span (κ : Type u) where
  lo : Nat
  hi : Nat
  kind : κ

variable {κ : Type u} {s t : Span κ} {l l₁ l₂ : List (Span κ)}

/-- `s` ends before `t`, and they cannot be joined. -/
def Span.Before (s t : Span κ) : Prop := s.hi ≤ t.lo ∧ (s.kind = t.kind → s.hi ≠ t.lo)

structure Tidy (l : List (Span κ)) : Prop where
  chain : l.IsChain Span.Before
  pos : ∀ s ∈ l, s.lo < s.hi

theorem Tidy.nil : Tidy ([] : List (Span κ)) := ⟨.nil, by simp⟩

theorem tidy_append : Tidy (l₁ ++ l₂) ↔ Tidy l₁ ∧ Tidy l₂ ∧
    ∀ s ∈ l₁.getLast?, ∀ t ∈ l₂.head?, s.Before t := by
  constructor
  · rintro ⟨hc, hp⟩
    obtain ⟨h₁, h₂, h⟩ := List.isChain_append.mp hc
    exact ⟨⟨h₁, fun s hs => hp s (List.mem_append_left _ hs)⟩,
      ⟨h₂, fun s hs => hp s (List.mem_append_right _ hs)⟩, h⟩
  · rintro ⟨⟨h₁, hp₁⟩, ⟨h₂, hp₂⟩, h⟩
    refine ⟨List.isChain_append.mpr ⟨h₁, h₂, h⟩, fun s hs => ?_⟩
    exact (List.mem_append.mp hs).elim (hp₁ s) (hp₂ s)

theorem tidy_cons : Tidy (s :: l) ↔ s.lo < s.hi ∧ Tidy l ∧ ∀ t ∈ l.head?, s.Before t := by
  constructor
  · rintro ⟨hc, hp⟩
    obtain ⟨h, hl⟩ := List.isChain_cons.mp hc
    exact ⟨hp s List.mem_cons_self, ⟨hl, fun t ht => hp t (List.mem_cons_of_mem _ ht)⟩, h⟩
  · rintro ⟨hs, ⟨hc, hp⟩, h⟩
    exact ⟨List.isChain_cons.mpr ⟨h, hc⟩, List.forall_mem_cons.mpr ⟨hs, hp⟩⟩

/-- A range between the last of `l₁` and the first of `l₂`. -/
theorem Tidy.glue (h₁ : Tidy l₁) (h₂ : Tidy l₂) (hs : s.lo < s.hi)
    (hp : ∀ p ∈ l₁.getLast?, p.Before s) (hq : ∀ q ∈ l₂.head?, s.Before q) :
    Tidy (l₁ ++ s :: l₂) := by
  refine tidy_append.mpr ⟨h₁, tidy_cons.mpr ⟨hs, h₂, hq⟩, fun p hp' t ht => ?_⟩
  cases ht
  exact hp p hp'

/-- A range is taken out. -/
theorem Tidy.drop (h : Tidy (l₁ ++ s :: l₂)) : Tidy (l₁ ++ l₂) := by
  obtain ⟨h₁, h, hp⟩ := tidy_append.mp h
  obtain ⟨hs, h₂, hq⟩ := tidy_cons.mp h
  refine tidy_append.mpr ⟨h₁, h₂, fun p hp' t ht => ?_⟩
  have hps := (hp p hp' s rfl).1
  have hst := (hq t ht).1
  refine ⟨by omega, fun _ => by omega⟩

/-- Every range is before the later ones. -/
theorem Tidy.before (h : Tidy l) : l.Pairwise Span.Before := by
  induction l with
  | nil => exact .nil
  | cons s l ih =>
    obtain ⟨hs, hl, hb⟩ := tidy_cons.mp h
    have hp := ih hl
    refine List.pairwise_cons.mpr ⟨fun t ht => ?_, hp⟩
    cases l with
    | nil => cases ht
    | cons u l =>
      have hsu := hb u rfl
      rcases List.mem_cons.mp ht with rfl | ht
      · exact hsu
      · -- `u` is between the two, and it is not empty
        have hut := (List.pairwise_cons.mp hp).1 t ht
        have hu := hl.pos u List.mem_cons_self
        have hsu := hsu.1
        have hut := hut.1
        exact ⟨by omega, fun _ => by omega⟩

/-- Every range ends before the later ones. -/
theorem Tidy.pairwise (h : Tidy l) : l.Pairwise (·.hi ≤ ·.lo) := h.before.imp fun hb => hb.1

theorem Tidy.before_mid (h : Tidy (l₁ ++ s :: l₂)) :
    (∀ t ∈ l₁, t.Before s) ∧ ∀ t ∈ l₂, s.Before t := by
  obtain ⟨-, h₂, h₁⟩ := List.pairwise_append.mp h.before
  exact ⟨fun t ht => h₁ t ht s List.mem_cons_self, (List.pairwise_cons.mp h₂).1⟩

/-- The range is of the kind and has the number. -/
def Span.At (s : Span κ) (k : κ) (n : Nat) : Prop := s.kind = k ∧ s.lo ≤ n ∧ n < s.hi

end NixMark.Lib
