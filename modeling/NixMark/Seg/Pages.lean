import NixMark.Lib.Round
import NixMark.Seg.Overlap

/-!
# The pages of a segment (`port/segment.c`)

A segment has a map of `Pte`s, and a `Pte` has places for `PTEPERTAB` pages. A page is found by its
number, counted from the base of the segment.

* `Paged`: a segment with its pages; `Paged.page`, the page with a number.
* `Paged.Fits`: what `newseg` and `segmapsize` see to.
* `pgsize_toNat` and the lemmas after it: the addresses of the source as numbers of pages.
* `Segment.Sound`: what the callers of `newseg` see to. `Proc.lookup`, the segment of an address.
-/

namespace NixMark.Seg

open Lib

variable {Page : Type}

def PTEPERTAB : Nat := 256

/-- A `Pte`: `first` and `last` are places, `PTEPERTAB` and 0 when there was no page yet. -/
structure Pte (Page : Type) where
  pages : Nat → Option Page
  first : Nat
  last : Nat

/-- A segment and its pages: `mapsize` is the length of the map, and `first` and `last` are places in
it. -/
structure Paged (Page : Type) extends Segment where
  map : List (Option (Pte Page))
  first : Nat
  last : Nat

/-- `s->ptemapmem`, which is computed in an `int`. -/
def Segment.ptemapmem (s : Segment) : Uintptr := ((256 : BitVec 32) <<< s.pgszlg2).signExtend 64

/-- The page with the number `k` in a map. -/
def pageat (map : List (Option (Pte Page))) (k : Nat) : Option Page :=
  (map[k / PTEPERTAB]?.join).bind fun pte => pte.pages (k % PTEPERTAB)

/-- The number of the page that holds `x`. -/
def Segment.number (s : Segment) (x : Nat) : Nat := (x - s.base.toNat) / 2 ^ s.pgszlg2

namespace Paged

def page (s : Paged Page) (k : Nat) : Option Page := pageat s.map k

/-- `page.c` has pages of these sizes; the map has a place for every page. -/
structure Fits (s : Paged Page) : Prop where
  pgszlg2 : s.pgszlg2 ∈ [12, 14, 21, 30]
  base : 2 ^ s.pgszlg2 ∣ s.base.toNat
  top : 2 ^ s.pgszlg2 ∣ s.top.toNat
  le : s.base ≤ s.top
  user : s.base < KSEG2
  size : s.top - s.base ≤ SEGMAXSIZE
  room : s.number s.top.toNat ≤ s.map.length * PTEPERTAB
  mapsize : s.map.length < 2 ^ 31

end Paged

/-! ## Addresses and numbers of pages -/

theorem pgsize_toNat {s : Segment} (h : s.pgszlg2 < 64) : s.pgsize.toNat = 2 ^ s.pgszlg2 := by
  have hlt : 2 ^ s.pgszlg2 < 2 ^ 64 := Nat.pow_lt_pow_right (by decide) h
  simpa [Segment.pgsize, Nat.shiftLeft_eq] using hlt

theorem ROUNDUP_toNat {x y : Uintptr} (hy : 0 < y.toNat) (h : x.toNat + y.toNat ≤ 2 ^ 64) :
    (ROUNDUP x y).toNat = up y.toNat x.toNat := by
  have hadd : (x + (y - 1)).toNat = x.toNat + (y.toNat - 1) := by bv_omega
  have hle := Nat.div_mul_le_self (x.toNat + (y.toNat - 1)) y.toNat
  unfold ROUNDUP up
  rw [BitVec.toNat_mul, BitVec.toNat_udiv, hadd, Nat.mod_eq_of_lt (by omega)]

theorem ptemapmem_toNat {s : Segment} (h : s.pgszlg2 ∈ [12, 14, 21, 30]) :
    s.ptemapmem.toNat = if s.pgszlg2 = 30 then 0 else PTEPERTAB * 2 ^ s.pgszlg2 := by
  simp only [List.mem_cons, List.not_mem_nil, or_false] at h
  unfold Segment.ptemapmem
  rcases h with h | h | h | h <;> rw [h] <;> decide

/-- In a segment at a multiple of the page size, pages are counted from the page of the base. -/
theorem number_eq {s : Segment} (h : 2 ^ s.pgszlg2 ∣ s.base.toNat) (x : Nat) :
    s.number x = x / 2 ^ s.pgszlg2 - s.base.toNat / 2 ^ s.pgszlg2 := by
  obtain ⟨b, hb⟩ := h
  unfold Segment.number
  rw [hb, Nat.sub_mul_div, Nat.mul_div_cancel_left _ (Nat.two_pow_pos _)]

theorem number_mono {s : Segment} {x y : Nat} (h : x ≤ y) : s.number x ≤ s.number y :=
  Nat.div_le_div_right (Nat.sub_le_sub_right h _)

/-- Some address of the page `k` is from `lo` up to `hi`. -/
def Segment.Touches (s : Segment) (lo hi k : Nat) : Prop :=
  ∃ x, lo ≤ x ∧ x < hi ∧ s.base.toNat ≤ x ∧ s.number x = k

theorem touches_iff {s : Segment} (h : 2 ^ s.pgszlg2 ∣ s.base.toNat) {lo hi k : Nat}
    (hlo : 2 ^ s.pgszlg2 ∣ lo) (hbase : s.base.toNat ≤ lo) :
    s.Touches lo (down (2 ^ s.pgszlg2) hi) k ↔ s.number lo ≤ k ∧ k < s.number hi := by
  have hpos := Nat.two_pow_pos s.pgszlg2
  obtain ⟨b, hb⟩ := h
  constructor
  · rintro ⟨x, hx, hx', hbx, rfl⟩
    refine ⟨number_mono hx, ?_⟩
    rw [number_eq ⟨b, hb⟩, number_eq ⟨b, hb⟩]
    have h₁ : s.base.toNat / 2 ^ s.pgszlg2 ≤ x / 2 ^ s.pgszlg2 := Nat.div_le_div_right hbx
    have h₂ : x / 2 ^ s.pgszlg2 < hi / 2 ^ s.pgszlg2 := (Nat.div_lt_iff_lt_mul hpos).mpr hx'
    omega
  · rintro ⟨h₁, h₂⟩
    obtain ⟨f, rfl⟩ := hlo
    rw [number_eq ⟨b, hb⟩, hb, Nat.mul_div_cancel_left _ hpos, Nat.mul_div_cancel_left _ hpos] at h₁
    rw [number_eq ⟨b, hb⟩, hb, Nat.mul_div_cancel_left _ hpos] at h₂
    have hf : b ≤ f := Nat.le_of_mul_le_mul_left (hb ▸ hbase) hpos
    refine ⟨2 ^ s.pgszlg2 * (b + k), Nat.mul_le_mul_left _ (by omega), ?_, ?_, ?_⟩
    · rw [down, Nat.mul_comm]
      exact Nat.mul_lt_mul_of_pos_right (by omega) hpos
    · rw [hb]
      exact Nat.mul_le_mul_left _ (Nat.le_add_right ..)
    · rw [number_eq ⟨b, hb⟩, hb, Nat.mul_div_cancel_left _ hpos, Nat.mul_div_cancel_left _ hpos,
        Nat.add_sub_cancel_left]

/-! ## The segments of a process -/

/-- What the callers of `newseg` see to. -/
structure Segment.Sound (s : Segment) : Prop where
  pgszlg2 : s.pgszlg2 ∈ [12, 14, 21]
  base : 2 ^ s.pgszlg2 ∣ s.base.toNat
  top : 2 ^ s.pgszlg2 ∣ s.top.toNat
  le : s.base ≤ s.top
  user : s.base < KSEG2
  size : s.top - s.base ≤ SEGMAXSIZE

/-- The segments of a process are sound. -/
def Proc.Sound (p : Proc) : Prop := ∀ i s, p.seg i = some s → s.Sound

/-- `seg` -/
def Proc.lookup (p : Proc) (addr : Uintptr) : Option Segment := (p.inside addr).bind p.seg

namespace Segment

variable {s : Segment}

theorem Sound.pgsize (h : s.Sound) : s.pgsize.toNat = 2 ^ s.pgszlg2 := by
  have := h.pgszlg2
  simp only [List.mem_cons, List.not_mem_nil, or_false] at this
  exact pgsize_toNat (by omega)

theorem Sound.pgsize_le (h : s.Sound) : 2 ^ s.pgszlg2 ≤ 2 ^ 21 := by
  have := h.pgszlg2
  simp only [List.mem_cons, List.not_mem_nil, or_false] at this
  exact Nat.pow_le_pow_right (by decide) (by omega)

theorem Sound.ptemapmem (h : s.Sound) : s.ptemapmem.toNat = 2 ^ (8 + s.pgszlg2) := by
  have := h.pgszlg2
  have hlg : s.pgszlg2 ∈ [12, 14, 21, 30] := by
    simp only [List.mem_cons, List.not_mem_nil, or_false] at this ⊢
    omega
  simp only [List.mem_cons, List.not_mem_nil, or_false] at this
  rw [ptemapmem_toNat hlg, if_neg (by omega), Nat.pow_add]
  rfl

theorem Sound.top_lt (h : s.Sound) : s.top.toNat + 2 ^ 32 < 2 ^ 64 := by
  have hu := h.user
  have hs := h.size
  have hl := h.le
  simp only [KSEG2, SEGMAXSIZE] at hu hs
  bv_omega

end Segment

theorem lookup_some {p : Proc} {addr : Uintptr} {s : Segment} (h : p.lookup addr = some s) :
    (∃ i, p.seg i = some s) ∧ s.base ≤ addr ∧ addr < s.top := by
  obtain ⟨i, hi, hs⟩ := Option.bind_eq_some_iff.mp h
  have hin := List.find?_some hi
  rw [hs, Option.any_some, Bool.and_eq_true, decide_eq_true_eq, decide_eq_true_eq] at hin
  exact ⟨⟨i, hs⟩, hin⟩

theorem lookup_of_inside {p : Proc} {addr : Uintptr} (h : (p.inside addr).isSome) :
    ∃ s, p.lookup addr = some s := by
  obtain ⟨i, hi⟩ := Option.isSome_iff_exists.mp h
  have hin := List.find?_some hi
  obtain ⟨s, hs, -⟩ := (Option.any_eq_true _ _).mp hin
  exact ⟨s, by rw [Proc.lookup, hi, Option.bind_some, hs]⟩

end NixMark.Seg
