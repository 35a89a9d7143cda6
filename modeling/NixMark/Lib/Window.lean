import Mathlib.Data.List.Basic

/-!
# Windows of a memory

A memory is a byte for each address.

* `window`: so many bytes from an address on; how it is cut, and that what changes elsewhere leaves
  it alone.
* `memmove`, `store`: bytes that are copied, however the two ranges lie, and bytes that are written.
-/

namespace NixMark.Lib

/-- `n` bytes of the memory. -/
def window (mem : Nat → UInt8) (a n : Nat) : List UInt8 :=
  (List.range n).map fun k => mem (a + k)

/-- `memmove` of `n` bytes from `src` to `dst` -/
def memmove (mem : Nat → UInt8) (dst src n : Nat) : Nat → UInt8 := fun a =>
  if dst ≤ a ∧ a < dst + n then mem (src + (a - dst)) else mem a

/-- The bytes are written from `a` on. -/
def store (mem : Nat → UInt8) (a : Nat) (bs : List UInt8) : Nat → UInt8 := fun x =>
  if a ≤ x then bs[x - a]?.getD (mem x) else mem x

variable {m m' : Nat → UInt8} {a a' n k : Nat}

@[simp] theorem window_length (m : Nat → UInt8) (a n : Nat) : (window m a n).length = n := by
  simp [window]

@[simp] theorem window_zero (m : Nat → UInt8) (a : Nat) : window m a 0 = [] := rfl

theorem window_congr (h : ∀ k < n, m (a + k) = m' (a' + k)) : window m a n = window m' a' n :=
  List.map_congr_left fun k hk => h k (List.mem_range.mp hk)

theorem window_add (m : Nat → UInt8) (a n k : Nat) :
    window m a (n + k) = window m a n ++ window m (a + n) k := by
  simp only [window, List.range_add, List.map_append, List.map_map]
  congr 1
  exact List.map_congr_left fun j _ => by simp only [Function.comp_apply, Nat.add_assoc]

theorem window_take (h : k ≤ n) : (window m a n).take k = window m a k := by
  obtain ⟨j, rfl⟩ := Nat.exists_eq_add_of_le h
  rw [window_add, List.take_left' (window_length _ _ _)]

theorem window_drop (h : k ≤ n) : (window m a n).drop k = window m (a + k) (n - k) := by
  obtain ⟨j, rfl⟩ := Nat.exists_eq_add_of_le h
  rw [window_add, List.drop_left' (window_length _ _ _), Nat.add_sub_cancel_left]

/-- A memory that is changed outside the window. -/
theorem window_frame (h : ∀ x, a ≤ x → x < a + n → m' x = m x) : window m' a n = window m a n :=
  window_congr fun k hk => h (a + k) (Nat.le_add_right _ _) (Nat.add_lt_add_left hk a)

theorem memmove_frame {dst src x : Nat} (h : x < dst ∨ dst + n ≤ x) : memmove m dst src n x = m x :=
  if_neg (by omega)

theorem window_memmove (m : Nat → UInt8) (dst src n : Nat) :
    window (memmove m dst src n) dst n = window m src n := by
  refine window_congr fun k hk => ?_
  have hin : dst ≤ dst + k ∧ dst + k < dst + n := by omega
  rw [memmove, if_pos hin, Nat.add_sub_cancel_left]

theorem store_frame {bs : List UInt8} {x : Nat} (h : x < a ∨ a + bs.length ≤ x) :
    store m a bs x = m x := by
  unfold store
  split
  · rw [List.getElem?_eq_none (by omega), Option.getD_none]
  · rfl

theorem window_store (m : Nat → UInt8) (a : Nat) (bs : List UInt8) :
    window (store m a bs) a bs.length = bs := by
  refine List.ext_getElem (window_length _ _ _) fun k hk hk' => ?_
  simp only [window, List.getElem_map, List.getElem_range, store]
  rw [if_pos (Nat.le_add_right a k), Nat.add_sub_cancel_left, List.getElem?_eq_getElem hk',
    Option.getD_some]

end NixMark.Lib
