import Mathlib.Algebra.Order.Ring.Int
import NixMark.Lib.While
import NixMark.Lib.Words
import NixMark.Seg.Overlap

/-!
# Searching the memory of the user (`port/fault.c`, `vmemchr`)

The string is searched page by page, and a page of the user is validated before it is searched. The
test for the last page is made of addresses that are rounded up.

* `vmemchr`: the function, with its reads and validations; `n` is an `int`, and `~0` means that there
  is no bound.
* `Safe`: every read is of a byte of the string, in the first page, in the kernel or in a page that
  was validated.
* `OnePage`, `Walk`: when the first test ends the loop, and what holds at the start of a page.
-/

namespace NixMark.Seg

open Lib

/-- What `vmemchr` does to the memory. -/
inductive Access where
  | read (x : Uintptr)
  | validated (x : Uintptr)

/-- How `vmemchr` ends: it returns, or `validaddr` ends the process. -/
inductive Found where
  | returned (x : Option Uintptr)
  | killed (x : Uintptr)

variable (mem : Uintptr → UInt8) (valid : Uintptr → Bool) (c : UInt8)

/-- `memchr`, with its reads before those that were made; the last is the first in the list. -/
def memchr : Nat → Uintptr → List Access → Option Uintptr × List Access
  | 0, _, t => (none, t)
  | k + 1, x, t =>
    if mem x = c then (some x, .read x :: t) else memchr k (x + 1) (.read x :: t)

structure Vmemchr where
  a : Uintptr
  n : Int
  trace : List Access

/-- A round of the loop of `vmemchr`, and the return behind it. -/
def vmround (v : Vmemchr) : Round Vmemchr (Found × List Access) :=
  if ROUNDUP v.a PGSZ ≠ ROUNDUP (v.a + BitVec.ofInt 64 v.n - 1) PGSZ then
    let r := (PGSZ - (v.a &&& (PGSZ - 1))).toNat
    match memchr mem c r v.a v.trace with
    | (some t, trace) => .done (.returned (some t), trace)
    | (none, trace) =>
      let a := v.a + BitVec.ofNat 64 r
      let n := long (v.n - r)
      if ISKADDR a then .next ⟨a, n, trace⟩
      else if valid a then .next ⟨a, n, .validated a :: trace⟩
      else .done (.killed a, trace)
  else
    let r := memchr mem c (v.n % 2 ^ 32).toNat v.a v.trace
    .done (.returned r.1, r.2)

def vmemchr (a : Uintptr) (n : Int) (r : Found × List Access) : Prop :=
  Ends (vmround mem valid c) ⟨a, n, []⟩ r

/-! ## What the reads may be -/

/-- The byte `i` is in a string of `n` bytes. -/
def InString (n : Int) (i : Nat) : Prop := n = -1 ∨ (i : Int) < n

/-- The number of the page of an address. -/
def pageof (x : Uintptr) : Nat := x.toNat / PGSZ.toNat

/-- A byte of the string that is in the first page, in the kernel, or in a page that was validated. -/
def Readable (a : Uintptr) (n : Int) (t : List Access) (x : Uintptr) : Prop :=
  (∃ i, InString n i ∧ x = a + BitVec.ofNat 64 i) ∧
    (pageof x = pageof a ∨ ISKADDR x ∨ ∃ y, .validated y ∈ t ∧ pageof y = pageof x)

/-- Every read was of a byte that was readable then. -/
def Safe (a : Uintptr) (n : Int) : List Access → Prop
  | [] => True
  | .read x :: t => Readable a n t x ∧ Safe a n t
  | .validated _ :: t => Safe a n t

variable {mem valid c} {a x : Uintptr} {n : Int} {t : List Access}

/-- Reads do not make other bytes readable. -/
theorem readable_read {y : Uintptr} : Readable a n (.read y :: t) x ↔ Readable a n t x := by
  unfold Readable
  refine and_congr_right' (or_congr_right (or_congr_right (exists_congr fun z => ?_)))
  rw [List.mem_cons, or_iff_right (by rintro h; cases h)]

/-- `memchr` finds the first occurrence, and reads what is before it. -/
theorem memchr_spec (mem : Uintptr → UInt8) (c : UInt8) : ∀ (k : Nat) (x : Uintptr) (t : List Access),
    (Safe a n (memchr mem c k x t).2 ↔ Safe a n t ∧ ∀ i, i < k →
      (∀ j, j < i → mem (x + BitVec.ofNat 64 j) ≠ c) → Readable a n t (x + BitVec.ofNat 64 i)) ∧
    (∀ y, .validated y ∈ (memchr mem c k x t).2 ↔ .validated y ∈ t) ∧
    ((∃ i, i < k ∧ mem (x + BitVec.ofNat 64 i) = c ∧
        (∀ j, j < i → mem (x + BitVec.ofNat 64 j) ≠ c) ∧
        (memchr mem c k x t).1 = some (x + BitVec.ofNat 64 i)) ∨
      (∀ i, i < k → mem (x + BitVec.ofNat 64 i) ≠ c) ∧ (memchr mem c k x t).1 = none) := by
  intro k
  induction k with
  | zero =>
    intro x t
    exact ⟨⟨fun h => ⟨h, fun i hi => absurd hi (Nat.not_lt_zero i)⟩, And.left⟩, fun y => Iff.rfl,
      .inr ⟨fun i hi => absurd hi (Nat.not_lt_zero i), rfl⟩⟩
  | succ k ih =>
    intro x t
    have hzero : x + BitVec.ofNat 64 0 = x := BitVec.add_zero x
    have hsucc (i : Nat) : x + BitVec.ofNat 64 (i + 1) = x + 1 + BitVec.ofNat 64 i := by bv_omega
    rw [memchr]
    by_cases hx : mem x = c
    · rw [if_pos hx]
      refine ⟨⟨fun h => ⟨h.2, fun i _ hbefore => ?_⟩, fun h => ⟨?_, h.1⟩⟩, fun y => ?_, ?_⟩
      · cases i with
        | zero => rw [hzero]; exact h.1
        | succ i => exact absurd (by rw [hzero, hx]) (hbefore 0 (Nat.succ_pos i))
      · have hfirst := h.2 0 (Nat.succ_pos k) fun j hj => absurd hj (Nat.not_lt_zero j)
        rw [hzero] at hfirst
        exact hfirst
      · rw [List.mem_cons, or_iff_right (by rintro h; cases h)]
      · exact .inl ⟨0, Nat.succ_pos k, by rw [hzero, hx],
          fun j hj => absurd hj (Nat.not_lt_zero j), by rw [hzero]⟩
    · rw [if_neg hx]
      obtain ⟨hsafe, hval, hfound⟩ := ih (x + 1) (.read x :: t)
      -- the reads behind the first
      have hcases {P : Nat → Prop} : (∀ i, i < k + 1 → P i) ↔ P 0 ∧ ∀ i, i < k → P (i + 1) := by
        refine ⟨fun h => ⟨h 0 (Nat.succ_pos k), fun i hi => h (i + 1) (Nat.succ_lt_succ hi)⟩, ?_⟩
        rintro ⟨h0, h⟩ i hi
        cases i with
        | zero => exact h0
        | succ i => exact h i (Nat.lt_of_succ_lt_succ hi)
      have hbefore (i : Nat) : (∀ j, j < i + 1 → mem (x + BitVec.ofNat 64 j) ≠ c) ↔
          ∀ j, j < i → mem (x + 1 + BitVec.ofNat 64 j) ≠ c := by
        constructor
        · intro h j hj
          rw [← hsucc]
          exact h (j + 1) (Nat.succ_lt_succ hj)
        · intro h j hj
          cases j with
          | zero => rw [hzero]; exact hx
          | succ j => rw [hsucc]; exact h j (Nat.lt_of_succ_lt_succ hj)
      refine ⟨?_, fun y => ?_, ?_⟩
      · rw [hsafe, hcases, Safe]
        simp only [hbefore, hsucc, hzero, readable_read]
        constructor
        · rintro ⟨⟨h₁, h₂⟩, h₃⟩
          exact ⟨h₂, fun _ => h₁, h₃⟩
        · rintro ⟨h₁, h₂, h₃⟩
          exact ⟨⟨h₂ fun j hj => absurd hj (Nat.not_lt_zero j), h₁⟩, h₃⟩
      · rw [hval, List.mem_cons, or_iff_right (by rintro h; cases h)]
      · rcases hfound with ⟨i, hi, hc, hb, hr⟩ | ⟨hno, hr⟩
        · refine .inl ⟨i + 1, Nat.succ_lt_succ hi, by rw [hsucc, hc], (hbefore i).mpr hb, ?_⟩
          rw [hr, hsucc]
        · refine .inr ⟨hcases.mpr ⟨by rw [hzero]; exact hx, fun i hi => ?_⟩, hr⟩
          rw [hsucc]
          exact hno i hi

/-! ## The claim -/

/-- The number that `memchr` takes `n` for: `~0` is the largest. -/
def count (n : Int) : Nat := (n % 2 ^ 32).toNat

/-- The byte `i` of the string is a `c`. -/
def Occurs (mem : Uintptr → UInt8) (c : UInt8) (a : Uintptr) (i : Nat) : Prop :=
  mem (a + BitVec.ofNat 64 i) = c

/-- `validaddr` does not accept the byte `i`. -/
def Refused (valid : Uintptr → Bool) (a : Uintptr) (i : Nat) : Prop :=
  ¬ ISKADDR (a + BitVec.ofNat 64 i) ∧ ¬ valid (a + BitVec.ofNat 64 i)

/-- The byte `i` is the first of a page, but not of the string. -/
def Boundary (a : Uintptr) (i : Nat) : Prop := 0 < i ∧ (a.toNat + i) % 4096 = 0

/-- The right end of a call: the first occurrence in the string, nothing if there is none, or a page
of the string before that was not accepted. -/
def Right (mem : Uintptr → UInt8) (valid : Uintptr → Bool) (c : UInt8) (a : Uintptr) (n : Int) :
    Found → Prop
  | .returned (some x) => ∃ i, InString n i ∧ x = a + BitVec.ofNat 64 i ∧ Occurs mem c a i ∧
    ∀ j, j < i → ¬ Occurs mem c a j
  | .returned none => ∀ i, InString n i → ¬ Occurs mem c a i
  | .killed x => ∃ i, InString n i ∧ x = a + BitVec.ofNat 64 i ∧ Refused valid a i ∧
    ∀ j, j < i → ¬ Occurs mem c a j

/-- The first test ends the loop. -/
def OnePage (a : Uintptr) (n : Int) : Prop :=
  0 ≤ (((a.toNat + 4095) % 4096 : Nat) : Int) + n - 1 ∧
    (((a.toNat + 4095) % 4096 : Nat) : Int) + n - 1 < 4096

/-- When `vmemchr` is right. In the string as a whole: a page that is reached is the kernel's, and
without a bound there is an occurrence in what is searched, or none at all. Page by page: there is an
occurrence, a page of the string is refused, or the string ends where no page is read or validated
that is not its own. -/
def Fine (mem : Uintptr → UInt8) (valid : Uintptr → Bool) (c : UInt8) (a : Uintptr) (n : Int) : Prop :=
  (OnePage a n →
    (∀ b, Boundary a b → b < count n → (∀ j, j < b → ¬ Occurs mem c a j) →
      ISKADDR (a + BitVec.ofNat 64 b)) ∧
    (n = -1 → (∃ i, i < count n ∧ Occurs mem c a i) ∨ ∀ i, ¬ Occurs mem c a i)) ∧
  (¬ OnePage a n →
    (∃ i, i < count n ∧ Occurs mem c a i) ∨
    (∃ b, Boundary a b ∧ InString n b ∧ b ≤ count n ∧ Refused valid a b) ∨
    (n = -1 ∧ ∀ i, ¬ Occurs mem c a i) ∨
    (n ≠ -1 ∧ ((a.toNat + count n) % 4096 = 1 ∨
      (a.toNat + count n) % 4096 = 0 ∧ ¬ Refused valid a (count n))))

/-! ## Addresses -/

theorem PGSZ_toNat : PGSZ.toNat = 4096 := by decide

theorem roundup_page (x : Uintptr) :
    (ROUNDUP x PGSZ).toNat = (x.toNat + 4095) % 2 ^ 64 / 4096 * 4096 := by
  have hadd : (x + (PGSZ - 1)).toNat = (x.toNat + 4095) % 2 ^ 64 := by
    rw [BitVec.toNat_add]
    rfl
  unfold ROUNDUP
  rw [BitVec.toNat_mul, BitVec.toNat_udiv, hadd, PGSZ_toNat]
  omega

/-- The test of the loop. -/
theorem roundup_eq_iff (x : Uintptr) {m : Int} (h : -2 ^ 31 ≤ m) (h' : m < 2 ^ 31) :
    ROUNDUP x PGSZ = ROUNDUP (x + BitVec.ofInt 64 m - 1) PGSZ ↔ OnePage x m := by
  have hend : (x + BitVec.ofInt 64 m - 1).toNat = ((x.toNat + m - 1) % 2 ^ 64).toNat := by
    rw [BitVec.toNat_sub, BitVec.toNat_add, BitVec.toNat_ofInt]
    have hone : (1 : Uintptr).toNat = 1 := rfl
    rw [hone]
    omega
  rw [← BitVec.toNat_inj, roundup_page, roundup_page, hend]
  unfold OnePage
  have hx := x.isLt
  omega

/-- What is left of the page of `x`. -/
theorem step_toNat (x : Uintptr) : (PGSZ - (x &&& (PGSZ - 1))).toNat = 4096 - x.toNat % 4096 := by
  have hmask : (x &&& (PGSZ - 1)).toNat = x.toNat % 2 ^ 12 := by
    rw [BitVec.toNat_and]
    exact Nat.and_two_pow_sub_one_eq_mod x.toNat 12
  have hP := PGSZ_toNat
  bv_omega

theorem count_pos (h : 0 < n) (h' : n < 2 ^ 31) : (count n : Int) = n := by
  unfold count
  omega

theorem count_none : count (-1) = 2 ^ 32 - 1 := by decide

/-! ## The rounds -/

/-- The lengths that the callers pass. -/
def Length (n : Int) : Prop := n = -1 ∨ 0 < n ∧ n < 2 ^ 31

theorem Length.count (h : Length n) : n = -1 ∧ count n = 2 ^ 32 - 1 ∨
    n ≠ -1 ∧ (count n : Int) = n ∧ 0 < n ∧ n < 2 ^ 31 := by
  rcases h with rfl | ⟨h, h'⟩
  · exact .inl ⟨rfl, count_none⟩
  · exact .inr ⟨by omega, count_pos h h', h, h'⟩

theorem Length.inString (h : Length n) {i : Nat} : InString n i ↔ n = -1 ∨ i < Seg.count n := by
  unfold InString
  rcases h.count with ⟨hn, hc⟩ | ⟨hn, hc, -⟩ <;> omega

/-- At the start of the string or of a page of it: what is before was searched, and the page was
validated. -/
structure Walk (mem : Uintptr → UInt8) (valid : Uintptr → Bool) (c : UInt8) (a : Uintptr) (n : Int)
    (v : Vmemchr) (T : Nat) : Prop where
  le : T ≤ count n
  addr : v.a = a + BitVec.ofNat 64 T
  len : v.n = long (count n - T)
  start : T = 0 ∨ Boundary a T ∧ ¬ OnePage a n
  none : ∀ j, j < T → ¬ Occurs mem c a j
  ok : ∀ b, Boundary a b → b ≤ T → ¬ Refused valid a b
  safe : Safe a n v.trace
  first : T = 0 → v.trace = []
  page : T = 0 ∨ ISKADDR (a + BitVec.ofNat 64 T) ∨ .validated (a + BitVec.ofNat 64 T) ∈ v.trace

namespace Walk

variable {v : Vmemchr} {T : Nat}

/-- The bytes that are left of the page. -/
def rest (a : Uintptr) (T : Nat) : Nat := 4096 - (a.toNat + T) % 4096

theorem mod_eq (a : Uintptr) (i : Nat) : (a + BitVec.ofNat 64 i).toNat % 4096 = (a.toNat + i) % 4096 := by
  bv_omega

theorem rest_eq (h : Walk mem valid c a n v T) :
    (PGSZ - (v.a &&& (PGSZ - 1))).toNat = rest a T := by
  rw [step_toNat, h.addr, mod_eq]
  rfl

theorem count_eq (h : Walk mem valid c a n v T) : (v.n % 2 ^ 32).toNat = count n - T := by
  have hle := h.le
  have hlt : count n < 2 ^ 32 := by unfold count; omega
  rw [h.len]
  unfold long
  omega

/-- The test at the start of a page: at most a byte is left. -/
theorem onePage (h : Walk mem valid c a n v T) (hn : Length n) :
    OnePage v.a v.n ↔ T = 0 ∧ OnePage a n ∨ T ≠ 0 ∧ count n ≤ T + 1 := by
  have hle := h.le
  have hlen := h.len
  have hcount := hn.count
  by_cases h0 : T = 0
  · have ha : v.a = a := by rw [h.addr, h0]; exact BitVec.add_zero a
    have hvn : v.n = n := by
      rw [hlen, h0]
      unfold long
      omega
    rw [ha, hvn]
    simp only [h0, ne_eq, not_true_eq_false, false_and, true_and, or_false]
  · obtain ⟨⟨hpos, hmod⟩, hnot⟩ := h.start.resolve_left h0
    have hva : v.a.toNat % 4096 = 0 := by rw [h.addr, mod_eq, hmod]
    simp only [h0, ne_eq, not_false_eq_true, false_and, true_and, false_or]
    unfold OnePage at hnot ⊢
    unfold long at hlen
    omega

/-- When the loop goes on, the string goes on to the end of the page, or it ends in the page and has
two bytes there. -/
theorem goes_on (h : Walk mem valid c a n v T) (hn : Length n) (hone : ¬ OnePage v.a v.n) :
    ¬ OnePage a n ∧ (T + rest a T ≤ count n ∨
      n ≠ -1 ∧ T + 2 ≤ count n ∧ count n < T + rest a T ∧ 2 ≤ (a.toNat + count n) % 4096) := by
  have hle := h.le
  have hcount := hn.count
  rw [h.onePage hn] at hone
  unfold rest
  by_cases h0 : T = 0
  · have hnot : ¬ OnePage a n := fun hc => hone (.inl ⟨h0, hc⟩)
    refine ⟨hnot, ?_⟩
    unfold OnePage at hnot
    omega
  · obtain ⟨⟨hpos, hmod⟩, hnot⟩ := h.start.resolve_left h0
    have hmore : T + 2 ≤ count n := by omega
    refine ⟨hnot, ?_⟩
    unfold OnePage at hnot
    omega

theorem add_ofNat (a : Uintptr) (i j : Nat) :
    a + BitVec.ofNat 64 i + BitVec.ofNat 64 j = a + BitVec.ofNat 64 (i + j) := by bv_omega

/-- The bytes of the page can be read. -/
theorem readable (h : Walk mem valid c a n v T) {i : Nat} (hi : i < rest a T)
    (hin : InString n (T + i)) : Readable a n v.trace (v.a + BitVec.ofNat 64 i) := by
  rw [h.addr, add_ofNat]
  unfold rest at hi
  have hpage : (a + BitVec.ofNat 64 (T + i)).toNat / 4096 = (a + BitVec.ofNat 64 T).toNat / 4096 ∧
      (a + BitVec.ofNat 64 T).toNat ≤ (a + BitVec.ofNat 64 (T + i)).toNat := by bv_omega
  refine ⟨⟨T + i, hin, rfl⟩, ?_⟩
  unfold pageof
  rw [PGSZ_toNat, hpage.1]
  rcases h.page with h0 | hk | hv
  · exact .inl (by rw [h0]; exact congrArg (fun x : Uintptr => x.toNat / 4096) (BitVec.add_zero a))
  · exact .inr (.inl (Nat.le_trans hk hpage.2))
  · exact .inr (.inr ⟨_, hv, rfl⟩)

/-- A string that ends in the page, without an occurrence, is not searched well. -/
theorem not_fine (h : Walk mem valid c a n v T) (hone : ¬ OnePage a n)
    (hne : n ≠ -1) (hend : count n < T + rest a T) (hmod : 2 ≤ (a.toNat + count n) % 4096)
    (hno : ∀ i, i < count n → ¬ Occurs mem c a i) : ¬ Fine mem valid c a n := by
  intro hf
  rcases hf.2 hone with ⟨i, hi, ho⟩ | ⟨b, hb, hin, hle, hr⟩ | ⟨hc, -⟩ | ⟨-, hm | ⟨hm, -⟩⟩
  · exact hno i hi ho
  · by_cases hbt : b ≤ T
    · exact h.ok b hb hbt hr
    · have hmodb := hb.2
      unfold rest at hend
      rcases h.start with h0 | ⟨⟨-, hmodT⟩, -⟩ <;> omega
  · exact hne hc
  · omega
  · omega

/-- In the whole string: a byte is readable when the pages up to it are the kernel's. -/
theorem whole (h : Walk mem valid c a n v 0) (hn : Length n) :
    (∀ i, i < count n → (∀ j, j < i → ¬ Occurs mem c a j) →
      Readable a n v.trace (v.a + BitVec.ofNat 64 i)) ↔
    ∀ b, Boundary a b → b < count n → (∀ j, j < b → ¬ Occurs mem c a j) →
      ISKADDR (a + BitVec.ofNat 64 b) := by
  have hva : v.a = a := by rw [h.addr]; exact BitVec.add_zero a
  have hlt : count n < 2 ^ 32 := by unfold count; omega
  constructor
  · intro hall b hb hbn hno
    obtain ⟨-, hp | hk | ⟨y, hy, -⟩⟩ := hall b hbn hno
    · obtain ⟨hb0, hmod⟩ := hb
      rw [hva] at hp
      unfold pageof at hp
      rw [PGSZ_toNat] at hp
      bv_omega
    · rw [hva] at hk
      exact hk
    · rw [h.first rfl] at hy
      cases hy
  · intro hall i hi hno
    have hin : InString n (0 + i) := hn.inString.mpr (by omega)
    by_cases hir : i < rest a 0
    · exact h.readable hir hin
    · unfold rest at hir
      -- the page of the byte starts in the kernel
      have hk := hall (i - (a.toNat + i) % 4096) ⟨by omega, by omega⟩ (by omega)
        fun j hj => hno j (by omega)
      have hle : (a + BitVec.ofNat 64 (i - (a.toNat + i) % 4096)).toNat ≤
          (a + BitVec.ofNat 64 i).toNat := by bv_omega
      rw [hva]
      exact ⟨⟨i, hn.inString.mpr (.inr hi), rfl⟩, .inr (.inl (Nat.le_trans hk hle))⟩

/-- A round that ends the loop. -/
theorem last (h : Walk mem valid c a n v T) (hn : Length n) (hone : OnePage v.a v.n) :
    Right mem valid c a n (.returned (memchr mem c (v.n % 2 ^ 32).toNat v.a v.trace).1) ∧
      Safe a n (memchr mem c (v.n % 2 ^ 32).toNat v.a v.trace).2 ↔ Fine mem valid c a n := by
  have hTle := h.le
  obtain ⟨hsafe, -, hfound⟩ := memchr_spec (a := a) (n := n) mem c (count n - T) v.a v.trace
  rw [h.count_eq]
  have hat (i : Nat) : mem (v.a + BitVec.ofNat 64 i) = c ↔ Occurs mem c a (T + i) := by
    rw [h.addr, add_ofNat]
    rfl
  simp only [ne_eq, hat] at hsafe hfound
  rw [hsafe]
  -- the value is right, unless there is no bound and there is an occurrence behind
  have hright : Right mem valid c a n (.returned (memchr mem c (count n - T) v.a v.trace).1) ↔
      (∃ i, i < count n ∧ Occurs mem c a i) ∨ ∀ i, InString n i → ¬ Occurs mem c a i := by
    rcases hfound with ⟨i, hi, ho, hb, hres⟩ | ⟨hno, hres⟩
    · rw [hres]
      refine iff_of_true ⟨T + i, hn.inString.mpr (by omega), by rw [h.addr, add_ofNat], ho, ?_⟩
        (.inl ⟨T + i, by omega, ho⟩)
      intro j hj
      by_cases hjT : j < T
      · exact h.none j hjT
      · rw [← Nat.add_sub_cancel' (Nat.le_of_not_lt hjT)]
        exact hb (j - T) (by omega)
    · rw [hres]
      refine (or_iff_right ?_).symm
      rintro ⟨i, hi, ho⟩
      by_cases hiT : i < T
      · exact h.none i hiT ho
      · rw [← Nat.add_sub_cancel' (Nat.le_of_not_lt hiT)] at ho
        exact hno (i - T) (by omega) ho
  rw [hright]
  -- with a bound, one of the two holds
  have hbounded (h1 : n ≠ -1) : (∃ i, i < count n ∧ Occurs mem c a i) ∨
      ∀ i, InString n i → ¬ Occurs mem c a i := by
    by_cases ho : ∃ i, i < count n ∧ Occurs mem c a i
    · exact .inl ho
    · exact .inr fun i hi hoi => ho ⟨i, (hn.inString.mp hi).resolve_left h1, hoi⟩
  rcases (h.onePage hn).mp hone with ⟨rfl, hone⟩ | ⟨h0, hend⟩
  · have hwhole := h.whole hn
    simp only [Nat.sub_zero, Nat.zero_add]
    rw [hwhole]
    constructor
    · rintro ⟨hr, -, hk⟩
      exact ⟨fun _ => ⟨hk, fun h1 => hr.imp id fun hall i => hall i (.inl h1)⟩,
        fun hc => absurd hone hc⟩
    · intro hf
      obtain ⟨hk, hun⟩ := hf.1 hone
      refine ⟨?_, h.safe, hk⟩
      by_cases h1 : n = -1
      · exact (hun h1).imp id fun hall i _ => hall i
      · exact hbounded h1
  · obtain ⟨⟨hpos, hmod⟩, hnot⟩ := h.start.resolve_left h0
    have hread : Safe a n v.trace ∧ ∀ i, i < count n - T → (∀ j, j < i → ¬ Occurs mem c a (T + j)) →
        Readable a n v.trace (v.a + BitVec.ofNat 64 i) := by
      refine ⟨h.safe, fun i hi _ => h.readable ?_ (hn.inString.mpr (by omega))⟩
      unfold rest
      omega
    rw [and_iff_left hread]
    constructor
    · intro hr
      refine ⟨fun hc => absurd hc hnot, fun _ => hr.imp id fun hall => .inr ?_⟩
      by_cases h1 : n = -1
      · exact .inl ⟨h1, fun i => hall i (.inl h1)⟩
      · refine .inr ⟨h1, ?_⟩
        by_cases hcT : count n = T
        · rw [hcT]
          exact .inr ⟨hmod, h.ok T ⟨hpos, hmod⟩ (Nat.le_refl T)⟩
        · exact .inl (by omega)
    · intro hf
      rcases hf.2 hnot with ho | ⟨b, hb, -, hbn, hr⟩ | ⟨-, hall⟩ | ⟨h1, -⟩
      · exact .inl ho
      · by_cases hbT : b ≤ T
        · exact absurd hr (h.ok b hb hbT)
        · have hmodb := hb.2
          omega
      · exact .inr fun i _ => hall i
      · exact hbounded h1

/-- The start of the next page. -/
theorem onward (h : Walk mem valid c a n v T) (hone : ¬ OnePage a n) (hle : T + rest a T ≤ count n)
    (hno : ∀ i, i < rest a T → mem (v.a + BitVec.ofNat 64 i) ≠ c) {trace : List Access}
    (hsafe : Safe a n trace) (hok : ¬ Refused valid a (T + rest a T))
    (hpage : ISKADDR (v.a + BitVec.ofNat 64 (rest a T)) ∨
      .validated (v.a + BitVec.ofNat 64 (rest a T)) ∈ trace) :
    Walk mem valid c a n ⟨v.a + BitVec.ofNat 64 (rest a T), long (v.n - rest a T), trace⟩
      (T + rest a T) where
  le := hle
  addr := by rw [h.addr, add_ofNat]
  len := by
    have hlen := h.len
    dsimp only
    unfold long at hlen ⊢
    omega
  start := .inr ⟨⟨by unfold rest; omega, by unfold rest; omega⟩, hone⟩
  none j hj := by
    by_cases hjT : j < T
    · exact h.none j hjT
    · have hj' := hno (j - T) (by omega)
      rw [h.addr, add_ofNat, Nat.add_sub_cancel' (Nat.le_of_not_lt hjT)] at hj'
      exact hj'
  ok b hb hbT := by
    by_cases hbt : b ≤ T
    · exact h.ok b hb hbt
    · have hbeq : b = T + rest a T := by
        have hmod := hb.2
        unfold rest at hbT ⊢
        omega
      rw [hbeq]
      exact hok
  safe := hsafe
  first h0 := by unfold rest at h0; omega
  page := .inr (by rw [← add_ofNat, ← h.addr]; exact hpage)

/-- A round that searches a page. -/
theorem next (h : Walk mem valid c a n v T) (hn : Length n) (hone : ¬ OnePage v.a v.n) :
    (vmround mem valid c v).All
      (fun v' => (∃ T', T < T' ∧ Walk mem valid c a n v' T') ∨
        ¬ Safe a n v'.trace ∧ ¬ Fine mem valid c a n)
      (fun r => Right mem valid c a n r.1 ∧ Safe a n r.2 ↔ Fine mem valid c a n) := by
  obtain ⟨hnot, hrest⟩ := h.goes_on hn hone
  have hTle := h.le
  have hRpos : 0 < rest a T := by unfold rest; omega
  have hrange := long_range (count n - T)
  rw [← h.len] at hrange
  have htest := (roundup_eq_iff v.a hrange.1 hrange.2).not.mpr hone
  obtain ⟨hsafe, -, hfound⟩ := memchr_spec (a := a) (n := n) mem c (rest a T) v.a v.trace
  unfold vmround
  simp only [ne_eq, htest, not_false_eq_true, if_true, h.rest_eq]
  generalize memchr mem c (rest a T) v.a v.trace = m at hsafe hfound ⊢
  obtain ⟨res, trace⟩ := m
  rcases hfound with ⟨i, hi, hc, hb, hres⟩ | ⟨hno, hres⟩
  · -- an occurrence, in the string or behind it
    dsimp only at hres hsafe
    subst hres
    have hocc : Occurs mem c a (T + i) := by
      rw [h.addr, add_ofNat] at hc
      exact hc
    have hbefore : ∀ j, j < T + i → ¬ Occurs mem c a j := by
      intro j hj
      by_cases hjT : j < T
      · exact h.none j hjT
      · have hj' := hb (j - T) (by omega)
        rw [h.addr, add_ofNat, Nat.add_sub_cancel' (Nat.le_of_not_lt hjT)] at hj'
        exact hj'
    by_cases hin : InString n (T + i)
    · have hin' := hn.inString.mp hin
      refine iff_of_true ⟨⟨T + i, hin, by rw [h.addr, add_ofNat], hocc, hbefore⟩, ?_⟩
        ⟨fun hc => absurd hc hnot, fun _ => .inl ⟨T + i, by omega, hocc⟩⟩
      refine hsafe.mpr ⟨h.safe, fun i' hi' hb' => h.readable hi' (hn.inString.mpr ?_)⟩
      have hle : i' ≤ i := Nat.le_of_not_lt fun hlt => hb' i hlt hc
      omega
    · rw [hn.inString] at hin
      refine iff_of_false ?_ ?_
      · rintro ⟨⟨k, hk, -, hkocc, -⟩, -⟩
        have hk' := hn.inString.mp hk
        exact hbefore k (by omega) hkocc
      · rcases hrest with hle | ⟨hne, -, hend, hmod⟩
        · omega
        · exact h.not_fine hnot hne hend hmod fun k hk => hbefore k (by omega)
  · dsimp only at hres hsafe
    subst hres
    have hnone : ∀ j, j < T + rest a T → ¬ Occurs mem c a j := by
      intro j hj
      by_cases hjT : j < T
      · exact h.none j hjT
      · have hj' := hno (j - T) (by omega)
        rw [h.addr, add_ofNat, Nat.add_sub_cancel' (Nat.le_of_not_lt hjT)] at hj'
        exact hj'
    simp only
    by_cases hle : T + rest a T ≤ count n
    · have hsafe' : Safe a n trace := hsafe.mpr ⟨h.safe, fun i hi _ =>
        h.readable hi (hn.inString.mpr (by omega))⟩
      have haddr : v.a + BitVec.ofNat 64 (rest a T) = a + BitVec.ofNat 64 (T + rest a T) := by
        rw [h.addr, add_ofNat]
      by_cases hk : ISKADDR (v.a + BitVec.ofNat 64 (rest a T))
      · rw [if_pos hk]
        refine .inl ⟨_, Nat.lt_add_of_pos_right hRpos, h.onward hnot hle hno hsafe' ?_ (.inl hk)⟩
        exact fun hr => hr.1 (haddr ▸ hk)
      rw [if_neg hk]
      by_cases hv : valid (v.a + BitVec.ofNat 64 (rest a T)) = true
      · rw [if_pos hv]
        refine .inl ⟨_, Nat.lt_add_of_pos_right hRpos,
          h.onward hnot hle hno hsafe' ?_ (.inr (List.mem_cons_self ..))⟩
        exact fun hr => hr.2 (haddr ▸ hv)
      rw [if_neg hv]
      have hrefused : Refused valid a (T + rest a T) := ⟨haddr ▸ hk, haddr ▸ hv⟩
      have hbound : Boundary a (T + rest a T) := ⟨by omega, by unfold rest; omega⟩
      by_cases hin : InString n (T + rest a T)
      · exact iff_of_true ⟨⟨_, hin, haddr, hrefused, hnone⟩, hsafe'⟩
          ⟨fun hc => absurd hc hnot, fun _ => .inr (.inl ⟨_, hbound, hin, hle, hrefused⟩)⟩
      · rw [hn.inString] at hin
        have hend : count n = T + rest a T := by omega
        refine iff_of_false ?_ fun hf => ?_
        · rintro ⟨⟨k, hk', hka, -⟩, -⟩
          have hk' := hn.inString.mp hk'
          have hlt : count n < 2 ^ 32 := by unfold count; omega
          rw [haddr] at hka
          bv_omega
        · rcases hf.2 hnot with ⟨i, hi, ho⟩ | ⟨b, hb, hbin, -, hr⟩ | ⟨hc, -⟩ | ⟨-, hm | ⟨-, hnr⟩⟩
          · exact hnone i (by omega) ho
          · have hbin' := hn.inString.mp hbin
            by_cases hbt : b ≤ T
            · exact h.ok b hb hbt hr
            · have hmodb := hb.2
              unfold rest at hend
              omega
          · omega
          · have := hbound.2
            omega
          · exact hnr (hend ▸ hrefused)
    · obtain ⟨hne, hmore, hend, hmod⟩ := hrest.resolve_left hle
      -- the byte behind the string was read
      have hbad : ¬ Safe a n trace := by
        intro hs
        obtain ⟨⟨k, hk, hka⟩, -⟩ := (hsafe.mp hs).2 (count n - T) (by omega)
          fun j hj => hno j (by omega)
        have hk' := hn.inString.mp hk
        have hlt : count n < 2 ^ 32 := by unfold count; omega
        rw [h.addr, add_ofNat] at hka
        bv_omega
      have hnf := h.not_fine hnot hne hend hmod fun k hk => hnone k (by omega)
      split
      · exact .inr ⟨hbad, hnf⟩
      · split
        · exact .inr ⟨hbad, hnf⟩
        · exact iff_of_false (fun hc => hbad hc.2) hnf

theorem round (h : Walk mem valid c a n v T) (hn : Length n) :
    (vmround mem valid c v).All
      (fun v' => (∃ T', T < T' ∧ Walk mem valid c a n v' T') ∨
        ¬ Safe a n v'.trace ∧ ¬ Fine mem valid c a n)
      (fun r => Right mem valid c a n r.1 ∧ Safe a n r.2 ↔ Fine mem valid c a n) := by
  by_cases hone : OnePage v.a v.n
  · have hrange := long_range (count n - T)
    rw [← h.len] at hrange
    have htest := (roundup_eq_iff v.a hrange.1 hrange.2).mpr hone
    rw [vmround, if_neg (Classical.not_not.mpr htest)]
    exact h.last hn hone
  · exact h.next hn hone

end Walk

/-- What was read stays read. -/
theorem unsafe_round {v : Vmemchr} (h : ¬ Safe a n v.trace) :
    (vmround mem valid c v).All (fun v' => ¬ Safe a n v'.trace) (fun r => ¬ Safe a n r.2) := by
  have hmem (k : Nat) (x : Uintptr) : ¬ Safe a n (memchr mem c k x v.trace).2 := fun hs =>
    h ((memchr_spec mem c k x v.trace).1.mp hs).1
  unfold vmround
  generalize (PGSZ - (v.a &&& (PGSZ - 1))).toNat = k
  split
  · have hm := hmem k v.a
    simp only
    generalize memchr mem c k v.a v.trace = m at hm ⊢
    obtain ⟨res, trace⟩ := m
    cases res with
    | some x => exact hm
    | none =>
      simp only
      split
      · exact hm
      · split <;> exact hm
  · exact hmem _ _

theorem Length.start (hn : Length n) : Walk mem valid c a n ⟨a, n, []⟩ 0 where
  le := Nat.zero_le _
  addr := (BitVec.add_zero a).symm
  len := by
    have hcount := hn.count
    dsimp only
    unfold long
    omega
  start := .inl rfl
  none j hj := absurd hj (Nat.not_lt_zero j)
  ok b hb hb0 := absurd hb.1 (Nat.not_lt.mpr hb0)
  safe := trivial
  first _ := rfl
  page := .inl rfl

/-- `vmemchr` ends with the first occurrence, with nothing where there is none, or at a page of the
string that is refused, and every read was of a byte of the string in the first page, in the kernel
or in a page that was validated. -/
def Finds (mem : Uintptr → UInt8) (valid : Uintptr → Bool) (c : UInt8) (a : Uintptr) (n : Int) : Prop :=
  ∃ r, vmemchr mem valid c a n r ∧ Right mem valid c a n r.1 ∧ Safe a n r.2

/-- `vmemchr` is `memchr` on validated memory exactly when `Fine` holds. -/
theorem vmemchr_exact (mem : Uintptr → UInt8) (valid : Uintptr → Bool) (c : UInt8) (a : Uintptr)
    (n : Int) (hn : Length n) : Finds mem valid c a n ↔ Fine mem valid c a n := by
  constructor
  · rintro ⟨r, hr, hright⟩
    refine (hr.holds (P := fun v => (∃ T, Walk mem valid c a n v T) ∨
      ¬ Safe a n v.trace ∧ ¬ Fine mem valid c a n)
      (Q := fun r => Right mem valid c a n r.1 ∧ Safe a n r.2 ↔ Fine mem valid c a n)
      (fun v hv => ?_) (.inl ⟨0, hn.start⟩)).mp hright
    rcases hv with ⟨T, hv⟩ | ⟨hbad, hnf⟩
    · have hround := hv.round hn
      cases hs : vmround mem valid c v with
      | done r =>
        rw [hs] at hround
        exact hround
      | next v' =>
        rw [hs] at hround
        exact hround.imp (fun ⟨T', _, hw⟩ => ⟨T', hw⟩) id
    · have hround : (vmround mem valid c v).All (fun v' => ¬ Safe a n v'.trace)
          (fun r => ¬ Safe a n r.2) := unsafe_round hbad
      cases hs : vmround mem valid c v with
      | done r =>
        rw [hs] at hround
        exact iff_of_false (fun hc => hround hc.2) hnf
      | next v' =>
        rw [hs] at hround
        exact .inr ⟨hround, hnf⟩
  · intro hf
    refine ends_of (P := fun v => ∃ T, Walk mem valid c a n v T)
      (fun v => 2 ^ 64 - (v.a - a).toNat) (fun v ⟨T, hv⟩ => ?_) ⟨0, hn.start⟩
    have hround := hv.round hn
    cases hs : vmround mem valid c v with
    | done r =>
      rw [hs] at hround
      exact hround.mpr hf
    | next v' =>
      rw [hs] at hround
      obtain ⟨T', hlt, hw⟩ := hround.resolve_right fun hc => hc.2 hf
      have hle := hw.le
      have hcount : count n < 2 ^ 32 := by unfold count; omega
      refine ⟨⟨T', hw⟩, ?_⟩
      rw [hv.addr, hw.addr]
      bv_omega

/-! ## Memory with a single one -/

private def one (x y : Uintptr) : UInt8 := if y = x then 1 else 0

private def answer : Found → Option Uintptr
  | .returned x => x
  | .killed _ => none

/-- The occurrence is in the second page. -/
theorem vmemchr_exact_second : Finds (one 0x401008) (fun _ => true) 1 0x400ff0 0x20 := by
  refine (vmemchr_exact (one 0x401008) (fun _ => true) 1 0x400ff0 0x20
    (.inr ⟨by decide, by decide⟩)).mpr ⟨fun hc => ?_, fun _ => .inl ⟨0x18, by decide, by rw [Occurs]; decide⟩⟩
  unfold OnePage at hc
  exact absurd hc (by decide)

theorem one_behind : (loop (vmround (one 0x400010) (fun _ => true) 1) 1
    ⟨0x400000, 10, []⟩).map (fun r => answer r.1) = some (some 0x400010) := by
  decide +kernel

/-- A string of ten bytes at the start of a page: what is found is behind it. -/
theorem vmemchr_reads_on : ∃ mem valid c a n, Length n ∧ valid a = true ∧
    ¬ Finds mem valid c a n := by
  refine ⟨one 0x400010, fun _ => true, 1, 0x400000, 10, .inr ⟨by decide, by decide⟩, rfl, ?_⟩
  rintro ⟨r, hr, hright, -⟩
  obtain ⟨r', hr', hans⟩ := Option.map_eq_some_iff.mp one_behind
  cases hr.unique ⟨1, hr'⟩
  obtain ⟨f, t⟩ := r
  cases f with
  | killed x => cases hans
  | returned x =>
    have hx : x = some 0x400010 := hans
    subst hx
    obtain ⟨i, hi, hxi, -⟩ := hright
    rcases hi with hi | hi
    · exact absurd hi (by decide)
    · bv_omega

end NixMark.Seg
