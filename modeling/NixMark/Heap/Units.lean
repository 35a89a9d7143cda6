import Mathlib.Algebra.Order.Ring.Nat

/-!
# Allocation units

The heap hands out units of `Unitsz` bytes, one for the `Header` and the rest for the user. `uint`
is a number modulo `2^32`, `usize` and `uintptr` are numbers modulo `2^64`.

* `NUNITS`: the units for a request. `NUNITS_room`: a request below `2^32 - Unitsz` gets its bytes
  and one more for the end tag.
-/

namespace NixMark.Heap

/-- A `uint`: what does not fit is cut off. -/
def uint (n : Nat) : Nat := n % 2 ^ 32

/-- A `usize`. -/
def usize (n : Nat) : Nat := n % 2 ^ 64

def HOWMANY (x y : Nat) : Nat := usize (x + (y - 1)) / y

/-- `sizeof(Header)`. -/
def Unitsz : Nat := 32

def Mult : Nat := 4

def ATAG : Nat := 0x99

def FTAG : Nat := 0x66

/-- The size of the segments that `morecore` adds. -/
def mallocpgsz : Nat := 1 <<< 21

/-- `IOHDRSZ` is defined by the 9P headers of the system. -/
def NQUICK (IOHDRSZ : Nat) : Nat := HOWMANY (8192 + IOHDRSZ + 1) (Unitsz * Mult) * Mult + 1

def ROUNDUP (x y : Nat) : Nat := HOWMANY x y * y

/-- The units to allocate `nbytes` bytes and one byte that holds the end tag. -/
def NUNITS (nbytes : Nat) : Nat :=
  let nu := uint (HOWMANY (nbytes + 1) Unitsz)
  if nu < Mult then uint (nu + 1) else uint (ROUNDUP nu Mult + 1)

variable {n : Nat}

theorem uint_of_lt (h : n < 2 ^ 32) : uint n = n := Nat.mod_eq_of_lt h

theorem usize_of_lt (h : n < 2 ^ 64) : usize n = n := Nat.mod_eq_of_lt h

theorem HOWMANY_of_lt {x y : Nat} (h : x + (y - 1) < 2 ^ 64) : HOWMANY x y = (x + (y - 1)) / y := by
  rw [HOWMANY, usize_of_lt h]

/-- The units, for a request that does not overflow. -/
theorem NUNITS_eq (h : n + Unitsz < 2 ^ 32) :
    NUNITS n = if (n + 32) / 32 < 4 then (n + 32) / 32 + 1 else ((n + 32) / 32 + 3) / 4 * 4 + 1 := by
  have hn : n + 32 < 2 ^ 32 := h
  have hu : HOWMANY (n + 1) Unitsz = (n + 32) / 32 := by
    rw [HOWMANY_of_lt (by simp only [Unitsz]; omega)]
    rfl
  have hr : ROUNDUP ((n + 32) / 32) Mult = ((n + 32) / 32 + 3) / 4 * 4 := by
    rw [ROUNDUP, HOWMANY_of_lt (by simp only [Mult]; omega)]
    rfl
  simp only [NUNITS, hu, uint_of_lt (show (n + 32) / 32 < 2 ^ 32 by omega)]
  rw [hr]
  have hm : Mult = 4 := rfl
  rw [hm]
  split
  · exact uint_of_lt (by omega)
  · exact uint_of_lt (by omega)

/-- A request gets its bytes, one more for the end tag, and a header. -/
theorem NUNITS_room (h : n + Unitsz < 2 ^ 32) : n + 1 ≤ (NUNITS n - 1) * Unitsz := by
  rw [NUNITS_eq h]
  simp only [Unitsz]
  split <;> omega

theorem two_le_NUNITS (h : n + Unitsz < 2 ^ 32) : 2 ≤ NUNITS n := by
  rw [NUNITS_eq h]
  split <;> omega

theorem NUNITS_lt (h : n + Unitsz < 2 ^ 32) : NUNITS n < 2 ^ 28 := by
  have hn : n + 32 < 2 ^ 32 := h
  rw [NUNITS_eq h]
  split <;> omega

end NixMark.Heap
