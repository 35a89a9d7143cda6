import Mathlib.Logic.Function.Basic

/-!
# Who is inside a critical section

Any number of parties, each at a place of its code; a lock records its holder.

* `Guarded sec place holder`: a party whose place is in the section `sec` holds the lock.
* `Guarded.acquire`, `Guarded.release`, `Guarded.stay`: the steps that keep it. One party moves: it
  takes the free lock, it unlocks the lock that it holds and leaves the section, or it does not
  enter the section.
* `Moves`: what one statement of the code does to the section; `Guarded.move`: a lock that follows
  such a statement stays guarded.
* `Guarded.unique`: two parties are not inside at once.
* `Owned`: a family of locks of which each party holds at most one, told by its place; `acquire`,
  `release` and `stay` keep it.
-/

namespace NixMark.Lib

open Function (update update_of_ne update_self)

universe u v w

variable {P : Type u} {L : Type v}

/-- A party that is inside the section holds the lock. -/
def Guarded (sec : L → Prop) (place : P → L) (holder : Option P) : Prop :=
  ∀ i, sec (place i) → holder = some i

namespace Guarded

variable {sec : L → Prop} {place : P → L} {holder : Option P} {i j : P} {l : L}

theorem unique (h : Guarded sec place holder) (hi : sec (place i)) (hj : sec (place j)) : i = j :=
  Option.some.inj ((h i hi).symm.trans (h j hj))

/-- No party is inside while the lock is free. -/
theorem outside (h : Guarded sec place none) : ¬ sec (place i) := by
  intro hi
  cases h i hi

theorem start (h : ∀ i, ¬ sec (place i)) : Guarded sec place holder := by
  intro i hi
  exact absurd hi (h i)

variable [DecidableEq P]

/-- A party takes the free lock. -/
theorem acquire (h : Guarded sec place none) : Guarded sec (update place i l) (some i) := by
  intro j hj
  by_cases hji : j = i
  · rw [hji]
  · rw [update_of_ne hji] at hj
    exact absurd hj h.outside

/-- The party inside leaves the section and unlocks. -/
theorem release (h : Guarded sec place holder) (hi : sec (place i)) (hl : ¬ sec l) :
    Guarded sec (update place i l) none := by
  apply start
  intro j hj
  by_cases hji : j = i
  · rw [hji, update_self] at hj
    exact hl hj
  · rw [update_of_ne hji] at hj
    exact hji (h.unique hj hi)

/-- A party moves and does not enter the section. -/
theorem stay (h : Guarded sec place holder) (hl : sec l → sec (place i)) :
    Guarded sec (update place i l) holder := by
  intro j hj
  by_cases hji : j = i
  · rw [hji, update_self] at hj
    rw [hji]
    exact h i (hl hj)
  · rw [update_of_ne hji] at hj
    exact h j hj

end Guarded

/-- A statement from `l` to `l'` locks, it unlocks from inside, or it does not enter. -/
structure Moves (sec : L → Prop) (locks unlocks : Prop) (l l' : L) : Prop where
  enter : sec l' → sec l ∨ locks
  leave : unlocks → sec l ∧ ¬ sec l'

/-- A party takes a step: the lock is taken when it is free, it is cleared, or it stays. -/
theorem Guarded.move [DecidableEq P] {sec : L → Prop} {place : P → L} {holder holder' : Option P}
    {locks unlocks : Prop} {i : P} {l : L} (h : Guarded sec place holder)
    (hm : Moves sec locks unlocks (place i) l)
    (hh : (locks ∧ holder = none ∧ holder' = some i) ∨ (unlocks ∧ holder' = none) ∨
      (¬ locks ∧ holder' = holder)) :
    Guarded sec (update place i l) holder' := by
  obtain ⟨-, rfl, rfl⟩ | ⟨hu, rfl⟩ | ⟨hl, rfl⟩ := hh
  · exact h.acquire
  · exact h.release (hm.leave hu).1 (hm.leave hu).2
  · exact h.stay fun hs => (hm.enter hs).resolve_right hl

/-- The locks `K` and the one that each party holds. -/
def Owned {K : Type w} (held : P → L → Option K) (place : P → L) (holder : K → Option P) : Prop :=
  ∀ k i, holder k = some i ↔ held i (place i) = some k

namespace Owned

variable {K : Type w} {held : P → L → Option K} {place : P → L} {holder : K → Option P} {i j : P}
  {l : L} {k : K}

theorem unique (h : Owned held place holder) (hi : held i (place i) = some k)
    (hj : held j (place j) = some k) : i = j :=
  Option.some.inj (((h k i).mpr hi).symm.trans ((h k j).mpr hj))

variable [DecidableEq P]

theorem stay (h : Owned held place holder) (hl : held i l = held i (place i)) :
    Owned held (update place i l) holder := by
  intro k j
  by_cases hji : j = i
  · rw [hji, update_self, hl]
    exact h k i
  · rw [update_of_ne hji]
    exact h k j

variable [DecidableEq K]

theorem acquire (h : Owned held place holder) (hk : holder k = none)
    (hi : held i (place i) = none) (hl : held i l = some k) :
    Owned held (update place i l) (update holder k (some i)) := by
  intro k' j
  by_cases hkk : k' = k
  · rw [hkk, update_self]
    by_cases hji : j = i
    · rw [hji, update_self, hl]
      exact iff_of_true rfl rfl
    · rw [update_of_ne hji, ← h k j, hk]
      exact iff_of_false (fun hij => hji (Option.some.inj hij).symm) (Option.some_ne_none j).symm
  · rw [update_of_ne hkk, h k' j]
    by_cases hji : j = i
    · rw [hji, update_self, hi, hl]
      exact iff_of_false (Option.some_ne_none k').symm fun h => hkk (Option.some.inj h).symm
    · rw [update_of_ne hji]

theorem release (h : Owned held place holder) (hi : held i (place i) = some k)
    (hl : held i l = none) :
    Owned held (update place i l) (update holder k none) := by
  intro k' j
  by_cases hji : j = i
  · rw [hji, update_self, hl]
    by_cases hkk : k' = k
    · rw [hkk, update_self]
      exact iff_of_false (Option.some_ne_none i).symm (Option.some_ne_none k).symm
    · rw [update_of_ne hkk, h k' i, hi]
      exact iff_of_false (fun h => hkk (Option.some.inj h).symm) (Option.some_ne_none k').symm
  · rw [update_of_ne hji, ← h k' j]
    by_cases hkk : k' = k
    · rw [hkk, update_self, h k j]
      exact iff_of_false (Option.some_ne_none j).symm fun hj => hji (h.unique hj hi)
    · rw [update_of_ne hkk]

end Owned

end NixMark.Lib
