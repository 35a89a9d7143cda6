import Mathlib.Data.List.Basic

/-!
# Lists in circular stores

The entries of a list go round a store of `n` cells: the `j`th one is put into the cell `j % n`, over
an older one.

* `Wound n cell w l`: the entries from the `w`th on are still there.
* `Wound.push`: one more entry, as long as no more than `n` are kept.
-/

namespace NixMark.Lib

universe u

variable {α : Type u} {n w : Nat} {cell cell' : Nat → α} {l : List α}

def Wound (n : Nat) (cell : Nat → α) (w : Nat) (l : List α) : Prop :=
  ∀ j, w ≤ j → j < l.length → l[j]? = some (cell (j % n))

/-- Fewer entries are kept. -/
theorem Wound.weaken (h : Wound n cell w l) {w' : Nat} (hw : w ≤ w') : Wound n cell w' l :=
  fun j hj => h j (Nat.le_trans hw hj)

theorem Wound.congr (h : Wound n cell w l) (hn : 0 < n) (hc : ∀ i < n, cell' i = cell i) :
    Wound n cell' w l := by
  intro j hj hlt
  rw [hc _ (Nat.mod_lt j hn)]
  exact h j hj hlt

/-- Two of the entries that are kept do not share a cell. -/
theorem mod_ne_of_lt {i j : Nat} (hij : i < j) (hn : j < i + n) : i % n ≠ j % n := by
  intro he
  have hdvd : n ∣ j - i := Nat.dvd_of_mod_eq_zero (Nat.sub_mod_eq_zero_of_mod_eq he.symm)
  have := Nat.le_of_dvd (Nat.sub_pos_of_lt hij) hdvd
  omega

theorem Wound.push (h : Wound n cell w l) {a : α} (hw : l.length < w + n)
    (ha : cell' (l.length % n) = a) (hc : ∀ i < n, i ≠ l.length % n → cell' i = cell i) :
    Wound n cell' w (l ++ [a]) := by
  intro j hj hlt
  rw [List.length_append, List.length_singleton] at hlt
  rcases Nat.lt_or_eq_of_le (Nat.le_of_lt_succ hlt) with hlt | rfl
  · have hn : 0 < n := by omega
    rw [List.getElem?_append_left hlt,
      hc _ (Nat.mod_lt j hn) (mod_ne_of_lt hlt (Nat.lt_of_lt_of_le hw (Nat.add_le_add_right hj n)))]
    exact h j hj hlt
  · rw [List.getElem?_concat_length, ha]

end NixMark.Lib
