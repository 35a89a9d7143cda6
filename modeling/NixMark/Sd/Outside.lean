import NixMark.Sd.Inside

/-!
# Where disk I/O leaves its partition

An offset below zero that passes the bounds check, and an unaligned write whose first request
transfers nothing.

* `read_negative`, `write_negative`, `write_short`: the accesses outside the buffer.
* `attempt_outside`: the result for one attempt.
-/

namespace NixMark.Sd

open Lib

variable {N U : Type} {io : Io N U} {pp : SDpart N U} {bno nb offset off : Int}

theorem not_reaches {n cap : Int} (hn : n ≠ 0) (h : ¬ (0 ≤ offset ∧ offset + n ≤ cap)) :
    reaches offset n cap = false :=
  decide_eq_false fun h' => h'.elim hn h

theorem put_fault {ans : Answer} {cap : Int} {b : Nat → UInt8}
    (h : reaches offset (io.len % 2 ^ 32) cap = false) :
    (io.put ans bno nb offset cap b).2 = .fault := by
  unfold Io.put
  rw [h]
  rfl

variable {s : Int}

/-- What the driver answers, when it does not fail. -/
theorem Answer.l_some (ans : Answer) (hans : ans.sectors ≠ none) (hs : 0 < s) (hnb : 0 ≤ nb)
    (hcap : nb * s ≤ SDmaxio) :
    ans.l nb s = ans.count nb * s ∧ (ans.count nb : Int) ≤ nb ∧ ans.count nb * s ≤ nb * s ∧
      0 ≤ ans.count nb * s := by
  obtain ⟨hl, -⟩ | h := ans.l_spec hs hnb hcap
  · exfalso
    have hmax : SDmaxio = 2097152 := rfl
    have hcount : (ans.count nb : Int) ≤ nb := by
      unfold Answer.count
      omega
    have hle : ans.count nb * s ≤ nb * s := Int.mul_le_mul_of_nonneg_right hcount hs.le
    have hnonneg : 0 ≤ ans.count nb * s := Int.mul_nonneg (by omega) hs.le
    unfold Answer.l at hl
    cases hsec : ans.sectors with
    | none => exact hans hsec
    | some k =>
      rw [hsec] at hl
      dsimp only at hl
      rw [long_eq (by omega) (by omega)] at hl
      omega
  · exact h

theorem read_negative {ans : Answer} (hans : ans.sectors ≠ none) (hs : 0 < io.unit.secsize.toNat)
    (hnb : 0 ≤ nb) (hcap : nb * io.unit.secsize.toNat ≤ SDmaxio) (hoff : offset < 0)
    (hlen : 0 < io.len) (hlt : io.len < 2 ^ 31) : (io.read ans bno nb offset).2 = .fault := by
  obtain ⟨hl, -, -, hl0⟩ := ans.l_some hans (by omega) hnb hcap
  unfold Io.read
  simp only [Io.bio_len, hl]
  generalize (ans.count nb : Int) * io.unit.secsize.toNat = l at *
  have hr : 0 < transferred l offset io.len ∧ transferred l offset io.len ≤ io.len := by
    unfold transferred
    split
    · omega
    · split <;> omega
  generalize transferred l offset io.len = r at *
  rw [if_neg (by omega), not_reaches (by omega) (by omega)]
  rfl

variable {ans : Answer × Answer}

theorem write_negative (hans : ans.1.sectors ≠ none) (hs : 0 < io.unit.secsize.toNat) (hnb : 1 ≤ nb)
    (hcap : nb * io.unit.secsize.toNat ≤ SDmaxio) (hoff : offset < 0) (hlen : 0 < io.len)
    (hlt : io.len < 2 ^ 31) (hsize : -offset < io.unit.secsize.toNat) :
    (io.write ans bno nb offset).2 = .fault := by
  have hmax : SDmaxio = 2097152 := rfl
  obtain ⟨hl, hcount, hle, hl0⟩ := ans.1.l_some hans (by omega) (by omega) hcap
  have hmul : 1 * (io.unit.secsize.toNat : Int) ≤ nb * io.unit.secsize.toNat :=
    Int.mul_le_mul_of_nonneg_right hnb (by omega)
  have hmod : ans.1.l nb io.unit.secsize.toNat % 2 ^ 32 = ans.1.count nb * io.unit.secsize.toNat := by
    rw [hl, Int.emod_eq_of_lt hl0 (by omega)]
  have hnbmax : nb * 1 ≤ nb * io.unit.secsize.toNat :=
    Int.mul_le_mul_of_nonneg_left (by omega) (by omega)
  unfold Io.write
  simp only [Io.bio_len]
  rw [if_pos (.inl (by omega)), if_neg (by omega), hmod,
    Int.mul_ediv_cancel _ (show (io.unit.secsize.toNat : Int) ≠ 0 by omega),
    long_eq (x := (ans.1.count nb : Int)) (by omega) (by omega),
    long_eq (x := (ans.1.count nb : Int) * io.unit.secsize.toNat - offset) (by omega) (by omega)]
  split
  · refine put_fault (not_reaches ?_ (by omega))
    generalize (ans.1.count nb : Int) * io.unit.secsize.toNat = l at *
    have hless : 0 < (if io.len > l - offset then l - offset else io.len) ∧
        (if io.len > l - offset then l - offset else io.len) < 2 ^ 31 := by
      split <;> omega
    dsimp only
    omega
  · exact put_fault (not_reaches (by rw [Io.bio_len]; omega) (by omega))

theorem write_short (hans : ans.1.sectors = some 0) (hnb : 1 ≤ nb)
    (hcap : nb * io.unit.secsize.toNat ≤ SDmaxio) (hoff : 0 < offset)
    (hsize : offset < io.unit.secsize.toNat) (hlen : 0 ≤ io.len) :
    (io.write ans bno nb offset).2 = .fault := by
  have hmax : SDmaxio = 2097152 := rfl
  have hmul : 1 * (io.unit.secsize.toNat : Int) ≤ nb * io.unit.secsize.toNat :=
    Int.mul_le_mul_of_nonneg_right hnb (by omega)
  have hcount : ans.1.count nb = 0 := by
    unfold Answer.count
    rw [hans]
    exact Nat.zero_min _
  have hl : ans.1.l nb io.unit.secsize.toNat = 0 := by
    unfold Answer.l
    rw [hans]
    dsimp only
    rw [hcount]
    simp [long]
  unfold Io.write
  simp only [Io.bio_len]
  have hlong : long (long (0 / (io.unit.secsize.toNat : Int)) * io.unit.secsize.toNat - offset) =
      -offset := by
    rw [Int.zero_ediv, long_eq (x := 0) (by decide) (by decide), Int.zero_mul, Int.zero_sub,
      long_eq (by omega) (by omega)]
  rw [if_pos (.inl (by omega)), if_neg (by omega), hl, Int.zero_emod, hlong, if_pos (by omega)]
  refine put_fault (not_reaches ?_ ?_)
  · dsimp only
    omega
  · dsimp only
    omega

/-- A request at the first sector is made, or the buffer is missed before. -/
theorem first_request {write : Bool} :
    (if write then io.write ans bno nb offset else io.read ans.1 bno nb offset).2 = .fault ∨
      ∃ w n, ⟨w, n, bno % 2 ^ 64⟩ ∈
        (if write then io.write ans bno nb offset else io.read ans.1 bno nb offset).1.reqs := by
  cases write with
  | false =>
    rw [if_neg Bool.false_ne_true]
    refine .inr ⟨false, nb, ?_⟩
    unfold Io.read
    dsimp only
    generalize (⟨false, nb, bno % 2 ^ 64⟩ : Req) = req
    have hmem : req ∈ (io.bio ans.1 req).reqs := List.mem_append_right _ (List.mem_singleton_self _)
    split
    · exact hmem
    · split <;> exact hmem
  | true =>
    rw [if_pos rfl]
    unfold Io.write
    dsimp only
    split
    · refine .inr ⟨false, nb, ?_⟩
      generalize (⟨false, nb, bno % 2 ^ 64⟩ : Req) = req
      have hmem : req ∈ (io.bio ans.1 req).reqs := List.mem_append_right _ (List.mem_singleton_self _)
      split
      · exact hmem
      · split
        · exact put_frame.reqs req hmem
        · exact put_frame.reqs req hmem
    · unfold Io.put
      dsimp only
      split
      · refine .inr ⟨true, nb, ?_⟩
        generalize (⟨true, nb, bno % 2 ^ 64⟩ : Req) = req
        split
        · exact List.mem_append_right _ (List.mem_singleton_self _)
        · exact List.mem_append_right _ (List.mem_singleton_self _)
      · exact .inl rfl

/-! ## Offsets below zero -/

theorem tdiv_neg (hoff : off < 0) : off.tdiv s = -(-off / s) := by
  have h := Int.neg_tdiv (-off) s
  rw [Int.neg_neg, Int.tdiv_eq_ediv_of_nonneg (a := -off) (by omega)] at h
  exact h

theorem tmod_neg (hoff : off < 0) : off.tmod s = -(-off % s) := by
  have h := Int.neg_tmod (-off) s
  rw [Int.neg_neg, Int.tmod_eq_emod_of_nonneg (a := -off) (by omega)] at h
  exact h

variable {unit : SDunit N U} {len : Int}

/-- A sector or more below the partition. -/
theorem blocks_below (hs : 0 < unit.secsize.toNat) (hoff : off ≤ -unit.secsize.toNat)
    (hlow : -2 ^ 62 ≤ off) (hend : pp.end.toNat < 2 ^ 62) (hr : unit.refuses pp len off = false) :
    (unit.blocks pp len off).1 % 2 ^ 64 < pp.start.toNat := by
  have hstart : (pp.start.toNat : Int) < 2 ^ 64 := by exact_mod_cast pp.start.toNat_lt
  unfold SDunit.refuses at hr
  rw [decide_eq_false_iff_not, not_or] at hr
  have hlt := hr.1
  unfold SDunit.blocks at hlt ⊢
  dsimp only at hlt ⊢
  rw [vlong_mod, tdiv_neg (by omega)] at hlt ⊢
  have hq : 1 ≤ -off / unit.secsize.toNat := (Int.le_ediv_iff_mul_le (by omega)).mpr (by omega)
  have hq' : -off / (unit.secsize.toNat : Int) ≤ -off := Int.ediv_le_self _ (by omega)
  omega

/-- Less than a sector below the partition: the buffer's offset is negative. -/
theorem blocks_before (hoff : off < 0) (hlow : -unit.secsize.toNat < off) (hlen0 : 0 ≤ len)
    (hlen : len < 2 ^ 31) (hr : unit.refuses pp len off = false) : ∃ nb len',
      (unit.blocks pp len off).2 = nb ∧ clip unit.secsize.toNat nb len off = (off, len') ∧ 1 ≤ nb ∧
      nb * unit.secsize.toNat ≤ SDmaxio ∧ 0 < len' ∧ len' < 2 ^ 31 := by
  have hslt : (unit.secsize.toNat : Int) < 2 ^ 32 := by exact_mod_cast unit.secsize.toNat_lt
  have hend : (pp.end.toNat : Int) < 2 ^ 64 := by exact_mod_cast pp.end.toNat_lt
  have hstart : (pp.start.toNat : Int) < 2 ^ 64 := by exact_mod_cast pp.start.toNat_lt
  have hpos : 0 < (unit.secsize.toNat : Int) := by omega
  have hst0 : (0 : Int) ≤ pp.start.toNat := Int.natCast_nonneg _
  unfold SDunit.refuses at hr
  rw [decide_eq_false_iff_not, not_or] at hr
  unfold SDunit.blocks at hr ⊢
  generalize (unit.secsize.toNat : Int) = s at *
  generalize (pp.end.toNat : Int) = e at *
  generalize (pp.start.toNat : Int) = st at *
  have hx0 : 0 ≤ off + len + s - 1 := by omega
  have hmax : 0 ≤ SDmaxio / s := Int.ediv_nonneg (by decide) hpos.le
  have hmaxs : SDmaxio / s * s ≤ SDmaxio := Int.ediv_mul_le _ (Int.ne_of_gt hpos)
  have hmaxle : SDmaxio / s ≤ SDmaxio := Int.ediv_le_self _ (by decide)
  have hmaxval : SDmaxio = 2097152 := rfl
  have hdiv : off.tdiv s = 0 := by
    rw [tdiv_neg hoff, Int.ediv_eq_zero_of_lt (by omega) (by omega)]
    rfl
  have hmod : off.tmod s = off := by
    rw [tmod_neg hoff, Int.emod_eq_of_lt (by omega) (by omega), Int.neg_neg]
  simp only [hdiv, vlong_eq (show -2 ^ 63 ≤ off + len + s - 1 by omega)
    (show off + len + s - 1 < 2 ^ 63 by omega), Int.tdiv_eq_ediv_of_nonneg hx0] at hr ⊢
  have hp0 : 0 ≤ (off + len + s - 1) / s := Int.ediv_nonneg hx0 hpos.le
  have hplen : (off + len + s - 1) / s ≤ len := by
    have hlt := Int.ediv_lt_of_lt_mul (c := s) (a := off + len + s - 1) (b := len + 1) hpos (by
      have hle : len * 1 ≤ len * s := Int.mul_le_mul_of_nonneg_left (by omega) hlen0
      rw [Int.add_mul]
      omega)
    omega
  generalize (off + len + s - 1) / s = p at *
  have hbno := vlong_mod (0 + st)
  rw [Int.zero_add, Int.emod_eq_of_lt (a := st) (by omega) (by omega)] at hbno
  rw [Int.zero_add] at hr ⊢
  generalize vlong st = v at *
  have hnb : long (p + st - v) = p := by
    rw [long_congr (y := p) (by omega), long_eq (by omega) (by omega)]
  simp only [hnb] at hr ⊢
  generalize hw : (if p > SDmaxio / s then SDmaxio / s else p) = w at *
  have hw' : w = min p (SDmaxio / s) := by
    rw [← hw]
    split <;> omega
  generalize hb : (if (v + w) % 2 ^ 64 > e then long (e - v) else w) = nb at *
  have hnb' : 1 ≤ nb ∧ nb ≤ w := by
    have hne := hr.2
    rw [← hb] at hne ⊢
    split
    · rw [long_congr (y := e - st) (by omega), long_eq (by omega) (by omega)]
      omega
    · rename_i hle
      rw [if_neg hle] at hne
      omega
  have hnbs : nb * s ≤ SDmaxio :=
    (Int.mul_le_mul_of_nonneg_right (show nb ≤ SDmaxio / s by omega) hpos.le).trans hmaxs
  have hsnb : 1 * s ≤ nb * s := Int.mul_le_mul_of_nonneg_right hnb'.1 hpos.le
  have hclip : clip s nb len off =
      (off, if (off + len) % 2 ^ 32 > nb * s then nb * s - off else len) := by
    simp only [clip, hmod, long_eq (show -2 ^ 31 ≤ off by omega) (show off < 2 ^ 31 by omega),
      Int.emod_eq_of_lt (show 0 ≤ nb * s by omega) (show nb * s < 2 ^ 32 by omega),
      long_eq (show -2 ^ 31 ≤ nb * s - off by omega) (show nb * s - off < 2 ^ 31 by omega)]
  refine ⟨nb, _, rfl, hclip, hnb'.1, hnbs, ?_, ?_⟩
  · split <;> omega
  · split <;> omega

/-- Where the condition of `Safe` fails, though the sums fit the types. -/
theorem attempt_outside {c : Chan} {write : Bool} {ans : Answer × Answer}
    (hpp : io.unit.part[c.part]? = some pp) (hlen : 0 ≤ io.len) (hlt : io.len < 2 ^ 31)
    (hlow : -2 ^ 62 ≤ off) (hlast : off + io.len + io.unit.secsize.toNat - 1 < 2 ^ 63)
    (hend : pp.end.toNat < 2 ^ 62) (hans : ans.1.sectors ≠ none) {room : Bool}
    (h : ¬ io.unit.Safe c write io.len off room ans) :
    (io.attempt c write off room ans).2.1 = .fault ∨
      ∃ q ∈ (io.attempt c write off room ans).1.reqs, ¬ q.Within pp := by
  unfold SDunit.Safe at h
  push Not at h
  obtain ⟨pp', hpp', hvers, hs, hr, hroom, hbad⟩ := h
  obtain rfl : pp = pp' := Option.some.inj (hpp.symm.trans hpp')
  have hpos : 0 < io.unit.secsize.toNat := by
    have hne : io.unit.secsize.toNat ≠ 0 := fun h0 => hs (UInt32.toNat_inj.mp h0)
    omega
  unfold Io.attempt
  simp only [hpp]
  rw [if_neg (not_not.mpr hvers), if_neg hs, if_neg (by rw [hr]; decide), hroom, if_neg (by decide)]
  dsimp only
  by_cases hbelow : (io.unit.blocks pp io.len off).1 % 2 ^ 64 < pp.start.toNat
  · generalize clip io.unit.secsize.toNat (io.unit.blocks pp io.len off).2 io.len off = p
    obtain hfault | ⟨w, n, hq⟩ := @first_request N U { io with len := p.2 }
      (io.unit.blocks pp io.len off).1 (io.unit.blocks pp io.len off).2 p.1 ans write
    · exact .inl hfault
    · exact .inr ⟨_, hq, fun hwithin => absurd hwithin.above (Int.not_le.mpr hbelow)⟩
  refine .inl ?_
  by_cases hoff : 0 ≤ off
  · have hspans : Spans io.unit.secsize pp.start io.len off := by
      refine ⟨hoff, hlen, hlast, ?_⟩
      have hlt' := hr
      unfold SDunit.refuses at hlt'
      rw [decide_eq_false_iff_not, not_or] at hlt'
      have hmod : (io.unit.blocks pp io.len off).1 % 2 ^ 64 =
          (off / io.unit.secsize.toNat + pp.start.toNat) % 2 ^ 64 := by
        unfold SDunit.blocks
        dsimp only
        rw [vlong_mod, Int.tdiv_eq_ediv_of_nonneg hoff]
      have hq : off / (io.unit.secsize.toNat : Int) ≤ off := Int.ediv_le_self _ hoff
      have hq0 : 0 ≤ off / (io.unit.secsize.toNat : Int) := Int.ediv_nonneg hoff (by omega)
      have hmax : SDmaxio / (io.unit.secsize.toNat : Int) ≤ SDmaxio := Int.ediv_le_self _ (by decide)
      have hmaxval : SDmaxio = 2097152 := rfl
      have hstart : (pp.start.toNat : Int) < 2 ^ 64 := by exact_mod_cast pp.start.toNat_lt
      omega
    obtain ⟨hw, hne, hzero⟩ := hbad hspans
    obtain ⟨bno, nb, offset, len', -, hnb, -, hclip, -, hoffset, hshape⟩ := blocks_spec hspans hs hlt hr
    rw [hnb, hclip, hw, if_pos rfl]
    have hpos0 := hshape.low
    exact write_short hzero hshape.pos hshape.cap (by omega) hshape.high hshape.nonneg
  · have habove : -(io.unit.secsize.toNat : Int) < off := by
      by_contra hle
      exact hbelow (blocks_below hpos (by omega) hlow hend hr)
    obtain ⟨nb, len', hnb, hclip, hnb1, hcap, hlen', hlt'⟩ := blocks_before (by omega) habove hlen hlt hr
    rw [hnb, hclip]
    cases write with
    | true =>
      rw [if_pos rfl]
      exact write_negative hans hpos hnb1 hcap (by omega) hlen' hlt'
        (show -off < (io.unit.secsize.toNat : Int) by omega)
    | false =>
      rw [if_neg Bool.false_ne_true]
      exact read_negative hans hpos (by omega) hcap (by omega) hlen' hlt'

end NixMark.Sd
