import NixMark.Runq.Queue

/-!
# The share of the cpu (`updatecpu`, `reprioritize`, `yield` of `port/proc.c`)

`cpu` is a decaying average in thousandths. An `int` and a `ulong` have 32 bits, and arithmetic on
them wraps; `/` rounds toward zero.

* `decay`: the arithmetic that both branches of `updatecpu` share.
* `Bounded`: when the product in it stays in range, or comes back into it.
* `shares_exact`: exactly then the share stays between 0 and 1000. No share makes `reprioritize` panic.

In `Runq.Queue` the same two functions compute with unbounded numbers.
-/

namespace NixMark.Runq
namespace Share

open Lib

/-- What the two functions read and write of a process; `edf`: it has real-time parameters. -/
structure Proc where
  edf : Bool
  priority : Int
  basepri : BitVec 32
  cpu : BitVec 32
  lastupdate : BitVec 32
  /-- `procpriority` sees to it. -/
  basepri_lt : basepri.toNat < Npriq

def D : Int := Schedgain * HZ * Scaling

/-- `(s*(D-n))/D` -/
def decay (s n : Int) : Int := long ((long (s * long (D - n))).tdiv D)

/-- `ticks` is `sys->ticks`; `isup`: the process is `up`. -/
def updatecpu (ticks : BitVec 32) (isup : Bool) (p : Proc) : Proc :=
  if p.edf then p
  else
    let t := long (ticks.toNat * Scaling + Scaling / 2)
    let n := long (t - p.lastupdate.toNat)
    let p := { p with lastupdate := BitVec.ofInt 32 t }
    if n = 0 then p
    else
      let n := if D < n then D else n
      let ocpu := p.cpu.toInt
      if isup then { p with cpu := BitVec.ofInt 32 (long (1000 - decay (long (1000 - ocpu)) n)) }
      else { p with cpu := BitVec.ofInt 32 (decay ocpu n) }

/-- `none` is the panic. `ratio > p->basepri` compares without a sign. -/
def reprioritize (load nonline : Int) (p : Proc) : Option Int :=
  if p.edf then some p.priority
  else if load = 0 then some p.basepri.toInt
  else
    let fairshare := long ((long (long (nonline * 1000) * 1000)).tdiv load)
    let n := if p.cpu.toInt = 0 then 1 else p.cpu.toInt
    let ratio := long ((long (fairshare + n.tdiv 2)).tdiv n)
    let ratio := if p.basepri.toNat < (BitVec.ofInt 32 ratio).toNat then p.basepri.toInt else ratio
    if ratio < 0 then none else some ratio

/-- What `yield` does before it calls `sched`: half a tick is charged. -/
def yield (p : Proc) : Proc :=
  { p with lastupdate := p.lastupdate - BitVec.ofNat 32 (Scaling / 2) }

/-! ## Words -/

theorem ulong_le {x : Int} {k : Nat} (hx : -2147483648 ≤ x ∧ x < 2147483648) (hk : k < 2147483648) :
    (BitVec.ofInt 32 x).toNat ≤ k ↔ 0 ≤ x ∧ x ≤ k := by
  rw [BitVec.toNat_ofInt]
  omega

theorem toInt_of_le {b : BitVec 32} {k : Nat} (h : b.toNat ≤ k) (hk : k < 2147483648) :
    b.toInt = b.toNat :=
  BitVec.toInt_eq_toNat_of_lt (by omega)

/-- The quotient that is rounded toward zero. -/
theorem tdiv_mem {x : Int} : 0 ≤ x.tdiv D ∧ x.tdiv D ≤ 1000 ↔ -6000 < x ∧ x < 6006000 := by
  rw [show D = 6000 from rfl]
  obtain hx | hx := Int.lt_or_le x 0
  · obtain ⟨y, rfl⟩ : ∃ y, x = -y := ⟨-x, (Int.neg_neg x).symm⟩
    rw [Int.neg_tdiv, Int.tdiv_eq_ediv_of_nonneg (by omega)]
    omega
  · rw [Int.tdiv_eq_ediv_of_nonneg hx]
    omega

theorem tdiv_range (x : Int) (hx : -2147483648 ≤ x ∧ x < 2147483648) :
    -2147483648 ≤ x.tdiv D ∧ x.tdiv D < 2147483648 := by
  rw [show D = 6000 from rfl]
  obtain hx | hx := Int.lt_or_le x 0
  · obtain ⟨y, rfl⟩ : ∃ y, x = -y := ⟨-x, (Int.neg_neg x).symm⟩
    rw [Int.neg_tdiv, Int.tdiv_eq_ediv_of_nonneg (by omega)]
    omega
  · rw [Int.tdiv_eq_ediv_of_nonneg hx]
    omega

/-! ## The decay -/

/-- The half ticks since the last update. -/
def elapsed (ticks : BitVec 32) (p : Proc) : Int := long (2 * ticks.toNat + 1 - p.lastupdate.toNat)

/-- What decays: the share of a process that waits, and what is missing from that of `up`. -/
def share (isup : Bool) (p : Proc) : Int := if isup then 1000 - p.cpu.toNat else p.cpu.toNat

/-- No time was counted backward, or the product is near a multiple of 2^32. -/
def Bounded (s n : Int) : Prop :=
  0 ≤ n ∨ ∃ k, 4294967296 * k - 6000 < s * (6000 - n) ∧ s * (6000 - n) < 4294967296 * k + 6006000

variable {s n : Int}

/-- The product wraps by a multiple of 2^32. -/
theorem product_spec (s n : Int) : ∃ k, long (s * long (D - n)) = s * (6000 - n) + 4294967296 * k := by
  obtain ⟨i, hi⟩ := long_spec (D - n)
  obtain ⟨j, hj⟩ := long_spec (s * long (D - n))
  refine ⟨s * i + j, ?_⟩
  rw [hj, hi, show D = 6000 from rfl, Int.mul_add, Int.mul_left_comm]
  omega

theorem decay_mem : 0 ≤ decay s n ∧ decay s n ≤ 1000 ↔
    -6000 < long (s * long (D - n)) ∧ long (s * long (D - n)) < 6006000 := by
  unfold decay
  rw [long_eq (tdiv_range _ (long_range _)).1 (tdiv_range _ (long_range _)).2]
  exact tdiv_mem

theorem product_bounds (hs : 0 ≤ s ∧ s ≤ 1000) (hn : 0 ≤ n ∧ n ≤ 6000) :
    0 ≤ s * (6000 - n) ∧ s * (6000 - n) ≤ 6000000 := by
  refine ⟨Int.mul_nonneg hs.1 (by omega), ?_⟩
  calc s * (6000 - n) ≤ 1000 * (6000 - n) := Int.mul_le_mul_of_nonneg_right hs.2 (by omega)
    _ ≤ 6000000 := by omega

theorem product_eq (hs : 0 ≤ s ∧ s ≤ 1000) (hn : 0 ≤ n ∧ n ≤ 6000) :
    long (s * long (D - n)) = s * (6000 - n) := by
  obtain ⟨hlo, hhi⟩ := product_bounds hs hn
  rw [show D = 6000 from rfl, long_eq (x := 6000 - n) (by omega) (by omega),
    long_eq (by omega) (by omega)]

theorem decay_nonneg (hs : 0 ≤ s ∧ s ≤ 1000) (hn : 0 ≤ n ∧ n ≤ 6000) :
    0 ≤ decay s n ∧ decay s n ≤ 1000 := by
  have hb := product_bounds hs hn
  rw [decay_mem, product_eq hs hn]
  omega

theorem decay_negative (hn : n < 0) : (0 ≤ decay s n ∧ decay s n ≤ 1000) ↔ Bounded s n := by
  obtain ⟨k, hk⟩ := product_spec s n
  have hr := long_range (s * long (D - n))
  rw [decay_mem]
  constructor
  · intro h
    exact .inr ⟨-k, by omega⟩
  · rintro (h | ⟨j, hj⟩)
    · omega
    · -- the two numbers differ by less than 2^32
      have hkj : k + j = 0 := by omega
      omega

/-- The time that counts has no more than `D`. -/
theorem decay_exact (hs : 0 ≤ s ∧ s ≤ 1000) :
    (0 ≤ decay s (if D < n then D else n) ∧ decay s (if D < n then D else n) ≤ 1000) ↔
      Bounded s n := by
  have hD : D = 6000 := rfl
  obtain hn | hn := Int.lt_or_le n 0
  · rw [if_neg (by omega)]
    exact decay_negative hn
  · refine iff_of_true (decay_nonneg hs ?_) (.inl hn)
    split <;> omega

/-- Nothing wraps while the time counts forward. -/
theorem decay_natCast {a k : Nat} (ha : a ≤ 1000) :
    decay a (if D < k then D else k) =
      ((a * (Schedgain * HZ * Scaling - k) / (Schedgain * HZ * Scaling) : Nat) : Int) := by
  have hsub : 6000 - (if D < k then D else (k : Int)) = ((6000 - k : Nat) : Int) := by
    rw [show D = 6000 from rfl]
    split <;> omega
  have hn : 0 ≤ (if D < k then D else (k : Int)) ∧ (if D < k then D else (k : Int)) ≤ 6000 := by
    omega
  have hs : 0 ≤ (a : Int) ∧ (a : Int) ≤ 1000 := by omega
  obtain ⟨hlo, hhi⟩ := product_bounds hs hn
  have hr := tdiv_range _ ⟨Int.le_trans (by decide) hlo, Int.lt_of_le_of_lt hhi (by decide)⟩
  unfold decay
  rw [product_eq hs hn, long_eq hr.1 hr.2, Int.tdiv_eq_ediv_of_nonneg hlo, hsub]
  rfl

theorem div_le {a k : Nat} (ha : a ≤ 1000) :
    a * (Schedgain * HZ * Scaling - k) / (Schedgain * HZ * Scaling) ≤ 1000 := by
  refine Nat.div_le_of_le_mul ?_
  rw [Nat.mul_comm]
  exact Nat.mul_le_mul (Nat.sub_le _ _) ha

theorem ulong_natCast {a : Nat} (ha : a ≤ 1000) : (BitVec.ofInt 32 a).toNat = a := by
  rw [BitVec.toNat_ofInt]
  omega

/-! ## The two functions -/

variable {p : Proc} {ticks : BitVec 32} {isup : Bool} {load nonline : Int}

theorem elapsed_eq (ticks : BitVec 32) (p : Proc) :
    long (long (ticks.toNat * Scaling + Scaling / 2) - p.lastupdate.toNat) = elapsed ticks p := by
  unfold elapsed long
  rw [show (Scaling : Int) = 2 from rfl]
  omega

theorem share_range (h : p.cpu.toNat ≤ 1000) : 0 ≤ share isup p ∧ share isup p ≤ 1000 := by
  unfold share
  split <;> omega

theorem updatecpu_exact (h : p.cpu.toNat ≤ 1000) (he : p.edf = false) :
    (updatecpu ticks isup p).cpu.toNat ≤ 1000 ↔ Bounded (share isup p) (elapsed ticks p) := by
  have hcpu := toInt_of_le h (by decide)
  have hs : 0 ≤ share isup p ∧ share isup p ≤ 1000 := share_range h
  have hdecay (s n : Int) := long_range ((long (s * long (D - n))).tdiv D)
  unfold updatecpu
  rw [if_neg (by simp [he])]
  simp only [elapsed_eq, hcpu]
  rw [← decay_exact hs]
  by_cases hn : elapsed ticks p = 0
  · rw [if_pos hn, decay_exact hs]
    exact iff_of_true h (.inl hn.ge)
  · rw [if_neg hn]
    generalize (if D < elapsed ticks p then D else elapsed ticks p) = n
    have hd : -2147483648 ≤ decay (share isup p) n ∧ decay (share isup p) n < 2147483648 := hdecay _ _
    cases isup with
    | false =>
      rw [if_neg Bool.false_ne_true]
      exact ulong_le hd (by decide)
    | true =>
      have hs' : long (1000 - (p.cpu.toNat : Int)) = share true p :=
        long_eq (by omega) (by omega)
      rw [if_pos rfl, hs', ulong_le (long_range _) (by decide)]
      unfold long
      omega

/-- As long as no word wraps, the model with unbounded numbers computes the same share. -/
theorem updatecpu_queue {nproc : Nat} {q : Runq.Proc nproc} (c : Clock) (isup : Bool)
    (h : p.cpu.toNat ≤ 1000) (he : q.edf.isSome = p.edf) (hcpu : q.cpu = p.cpu.toNat)
    (hlast : q.lastupdate = p.lastupdate.toNat) (ht : 2 * c.systicks + 1 < 2147483648)
    (hle : q.lastupdate ≤ 2 * c.systicks + 1) :
    (Runq.updatecpu c isup q).cpu = (updatecpu (BitVec.ofNat 32 c.systicks) isup p).cpu.toNat := by
  have hs : 0 ≤ share isup p ∧ share isup p ≤ 1000 := share_range h
  have hel : elapsed (BitVec.ofNat 32 c.systicks) p =
      ((c.systicks * Scaling + Scaling / 2 - q.lastupdate : Nat) : Int) := by
    unfold elapsed long
    rw [BitVec.toNat_ofNat, hlast, show Scaling = 2 from rfl]
    omega
  have hword := toInt_of_le h (by decide)
  unfold Runq.updatecpu updatecpu
  rw [he]
  by_cases hedf : p.edf = true
  · rw [if_pos hedf, if_pos hedf, hcpu]
  · rw [if_neg hedf, if_neg hedf]
    simp only [elapsed_eq, hel, hword]
    generalize c.systicks * Scaling + Scaling / 2 - q.lastupdate = k
    by_cases hk : k = 0
    · have hk' : (k : Int) = 0 := by omega
      rw [if_pos hk, if_pos hk']
      exact hcpu
    · have hk' : (k : Int) ≠ 0 := by omega
      rw [if_neg hk, if_neg hk']
      cases isup with
      | false =>
        rw [if_neg Bool.false_ne_true, if_neg Bool.false_ne_true, decay_natCast h, hcpu]
        exact (ulong_natCast (div_le h)).symm
      | true =>
        have hs' : long (1000 - (p.cpu.toNat : Int)) = ((1000 - p.cpu.toNat : Nat) : Int) := by
          rw [long_eq (by omega) (by omega)]
          omega
        rw [if_pos rfl, if_pos rfl, hs', decay_natCast (Nat.sub_le _ _), hcpu]
        have hd := div_le (k := k) (Nat.sub_le 1000 p.cpu.toNat)
        generalize (1000 - p.cpu.toNat) * (Schedgain * HZ * Scaling - k) /
          (Schedgain * HZ * Scaling) = d at hd
        have hd' : long (1000 - (d : Int)) = ((1000 - d : Nat) : Int) := by
          rw [long_eq (by omega) (by omega)]
          omega
        rw [hd']
        exact (ulong_natCast (Nat.sub_le _ _)).symm

/-- A process that ran for a second. -/
theorem updatecpu_queue_second :
    (Runq.updatecpu ⟨0, 100, 0, 0, 0⟩ true
      (⟨none, .Running, ⟨0, by decide⟩, ⟨0, by decide⟩, false, 0, 1, none, none, none, none, 0⟩ :
        Runq.Proc 0)).cpu =
        (updatecpu 100#32 true ⟨false, 0, 0#32, 0#32, 1#32, by decide⟩).cpu.toNat :=
  updatecpu_queue ⟨0, 100, 0, 0, 0⟩ true (by decide) rfl rfl rfl (by decide) (by decide)

/-- `reprioritize` returns, between 0 and the base priority. -/
def Ranked (load nonline : Int) (p : Proc) : Prop :=
  ∃ pri, reprioritize load nonline p = some pri ∧ 0 ≤ pri ∧ pri ≤ p.basepri.toNat

/-- What is negative counts as large. -/
theorem reprioritize_ranked (load nonline : Int) (he : p.edf = false) : Ranked load nonline p := by
  have hb : p.basepri.toInt = p.basepri.toNat :=
    toInt_of_le p.basepri_lt.le (by decide)
  have hlt : p.basepri.toNat < 20 := p.basepri_lt
  unfold Ranked reprioritize
  rw [if_neg (by simp [he])]
  split
  · exact ⟨_, rfl, by omega, by omega⟩
  · simp only []
    have hr := long_range ((long (long ((long (long (nonline * 1000) * 1000)).tdiv load) +
      (if p.cpu.toInt = 0 then 1 else p.cpu.toInt).tdiv 2)).tdiv
        (if p.cpu.toInt = 0 then 1 else p.cpu.toInt))
    revert hr
    generalize long ((long (long ((long (long (nonline * 1000) * 1000)).tdiv load) +
      (if p.cpu.toInt = 0 then 1 else p.cpu.toInt).tdiv 2)).tdiv
        (if p.cpu.toInt = 0 then 1 else p.cpu.toInt)) = ratio
    intro hr
    split
    · rw [if_neg (by omega)]
      exact ⟨_, rfl, by omega, by omega⟩
    · rename_i hle
      obtain ⟨h0, hle⟩ := (ulong_le hr (by omega)).mp (Nat.le_of_not_lt hle)
      rw [if_neg (by omega)]
      exact ⟨_, rfl, h0, hle⟩

theorem updatecpu_edf (ticks : BitVec 32) (isup : Bool) (p : Proc) :
    (updatecpu ticks isup p).edf = p.edf := by
  unfold updatecpu
  split <;> simp only []
  split
  · rfl
  · split <;> rfl

/-- The share stays between 0 and 1000 and the priority between 0 and the base priority, for a
process with real-time parameters if that holds of the priority it has, for another one if the
decay is `Bounded`. -/
theorem shares_exact (ticks : BitVec 32) (isup : Bool) (load nonline : Int) (p : Proc)
    (h : p.cpu.toNat ≤ 1000) :
    ((updatecpu ticks isup p).cpu.toNat ≤ 1000 ∧ Ranked load nonline p ∧
        Ranked load nonline (updatecpu ticks isup p)) ↔
      (p.edf = true ∧ 0 ≤ p.priority ∧ p.priority ≤ p.basepri.toNat) ∨
      (p.edf = false ∧ Bounded (share isup p) (elapsed ticks p)) := by
  cases he : p.edf with
  | false =>
    have hranked := reprioritize_ranked load nonline he
    have hranked' := reprioritize_ranked load nonline ((updatecpu_edf ticks isup p).trans he)
    rw [← updatecpu_exact h he]
    simp [hranked, hranked']
  | true =>
    have hu : updatecpu ticks isup p = p := if_pos he
    have hp : reprioritize load nonline p = some p.priority := if_pos he
    rw [hu]
    simp [Ranked, hp, h]

/-- A process that slept for two days. -/
theorem shares_exact_asleep :
    (updatecpu 17280000#32 false ⟨false, 13, 13#32, 500#32, 1#32, by decide⟩).cpu.toNat ≤ 1000 ∧
      Ranked 4000 8 ⟨false, 13, 13#32, 500#32, 1#32, by decide⟩ ∧
      Ranked 4000 8 (updatecpu 17280000#32 false ⟨false, 13, 13#32, 500#32, 1#32, by decide⟩) :=
  (shares_exact 17280000#32 false 4000 8 ⟨false, 13, 13#32, 500#32, 1#32, by decide⟩
    (by decide)).mpr (.inr ⟨rfl, .inl (by decide)⟩)

/-- After 2^30 ticks the elapsed time is negative. -/
theorem updatecpu_overflows : ∃ (ticks : BitVec 32) (p : Proc), p.edf = false ∧ p.cpu.toNat ≤ 1000 ∧
    1000 < (updatecpu ticks false p).cpu.toNat :=
  ⟨1073741824#32, ⟨false, 13, 13#32, 1#32, 1#32, by decide⟩, rfl, by decide, by decide⟩

end Share
end NixMark.Runq
