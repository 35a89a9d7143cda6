import NixMark.Sd.Bio
import Mathlib.Tactic.Ring

/-!
# Disk I/O stays inside its partition

* `Spans`: an offset and a length whose sums fit the types. `blocks_spec`: the bounds check there.
* `Io.read_spec`, `Io.put_spec`, `Io.write_spec`, `attempt_inside`: what an attempt does.
* `Safe`, `Good`: the condition; `sdbio_inside`: the result.
-/

namespace NixMark.Sd

open Lib

variable {N U : Type}

/-! ## Arithmetic -/

theorem vlong_eq {x : Int} (h : -2 ^ 63 ≤ x) (h' : x < 2 ^ 63) : vlong x = x := by
  unfold vlong
  rw [Int.bmod_def]
  omega

theorem long_eq {x : Int} (h : -2 ^ 31 ≤ x) (h' : x < 2 ^ 31) : long x = x := by
  unfold long
  rw [Int.bmod_def]
  omega

theorem vlong_mod (x : Int) : vlong x % 2 ^ 64 = x % 2 ^ 64 := Int.bmod_emod

theorem long_congr {x y : Int} (h : x % 2 ^ 32 = y % 2 ^ 32) : long x = long y := by
  unfold long
  rw [Int.bmod_def, Int.bmod_def]
  omega

/-- An offset and a length that are not negative, and whose sums fit the types. -/
structure Spans (secsize : ulong) (start : uvlong) (len off : Int) : Prop where
  offset : 0 ≤ off
  length : 0 ≤ len
  last : off + len + secsize.toNat - 1 < 2 ^ 63
  sector : off / secsize.toNat + start.toNat + min ((off + len + secsize.toNat - 1) / secsize.toNat -
    off / secsize.toNat) (SDmaxio / secsize.toNat) < 2 ^ 64

/-- The transfer that the bounds check lets through: `nb` sectors from `bno` on, as a `uvlong`, and
the part of them that is asked for. -/
structure Shape (secsize start «end» bno nb offset len : Int) : Prop where
  above : start ≤ bno
  fits : bno + nb ≤ «end»
  pos : 1 ≤ nb
  cap : nb * secsize ≤ SDmaxio
  low : 0 ≤ offset
  high : offset < secsize
  nonneg : 0 ≤ len
  room : offset + len ≤ nb * secsize
  full : offset = 0 → len % secsize = 0 → len = nb * secsize

/-- The quotients of an offset and of its end. -/
theorem sectors_bound {s off len : Int} (hs : 0 < s) (hlen : 0 ≤ len) :
    0 ≤ (off + len + s - 1) / s - off / s ∧
      (off + len + s - 1) / s - off / s ≤ max len 1 ∧
      ((off + len + s - 1) / s - off / s - 1) * s < off % s + len := by
  have hd := Int.emod_add_mul_ediv off s
  have hm := Int.emod_nonneg off (Int.ne_of_gt hs)
  have hm' := Int.emod_lt_of_pos off hs
  have he := Int.emod_add_mul_ediv (off + len + s - 1) s
  have hn := Int.emod_nonneg (off + len + s - 1) (Int.ne_of_gt hs)
  have hn' := Int.emod_lt_of_pos (off + len + s - 1) hs
  generalize off / s = q at *
  generalize (off + len + s - 1) / s = p at *
  have hsub : ((p - q) - 1) * s = s * p - s * q - s := by ring
  have hlow : 0 ≤ p - q := by
    by_contra hneg
    have hle : (p - q + 1) * s ≤ 0 := Int.mul_nonpos_of_nonpos_of_nonneg (by omega) hs.le
    have hle' : (p - q + 1) * s = s * p - s * q + s := by ring
    omega
  refine ⟨hlow, ?_, by omega⟩
  by_contra hbig
  have hge : (p - q - 2) * 1 ≤ (p - q - 2) * s := Int.mul_le_mul_of_nonneg_left (by omega) (by omega)
  have hadd : (p - q - 1) * s = (p - q - 2) * s + s := by ring
  omega

/-- The bounds check lets an offset and a length through only with sectors of the partition. -/
theorem blocks_spec {unit : SDunit N U} {pp : SDpart N U} {len off : Int}
    (h : Spans unit.secsize pp.start len off) (hs : unit.secsize ≠ 0) (hlen : len < 2 ^ 31)
    (hr : unit.refuses pp len off = false) : ∃ bno nb offset len',
      (unit.blocks pp len off).1 % 2 ^ 64 = bno ∧ (unit.blocks pp len off).2 = nb ∧
      bno = off / unit.secsize.toNat + pp.start.toNat ∧
      clip unit.secsize.toNat nb len off = (offset, len') ∧ len' ≤ len ∧
      offset = off % unit.secsize.toNat ∧
      Shape unit.secsize.toNat pp.start.toNat pp.end.toNat bno nb offset len' := by
  have hpos : 0 < (unit.secsize.toNat : Int) := by
    have hne : unit.secsize.toNat ≠ 0 := fun h0 => hs (UInt32.toNat_inj.mp h0)
    omega
  have hslt : (unit.secsize.toNat : Int) < 2 ^ 32 := by exact_mod_cast unit.secsize.toNat_lt
  have hend : (pp.end.toNat : Int) < 2 ^ 64 := by exact_mod_cast pp.end.toNat_lt
  obtain ⟨hoff, hlen0, hlast, hsector⟩ := h
  obtain ⟨hn0, hnlen, hnlow⟩ := @sectors_bound _ off _ hpos hlen0
  unfold SDunit.refuses at hr
  rw [decide_eq_false_iff_not, not_or] at hr
  unfold SDunit.blocks at hr ⊢
  generalize (unit.secsize.toNat : Int) = s at *
  generalize (pp.end.toNat : Int) = e at *
  have hst0 : (0 : Int) ≤ pp.start.toNat := by omega
  generalize (pp.start.toNat : Int) = st at *
  have hq0 : 0 ≤ off / s := Int.ediv_nonneg hoff hpos.le
  have hx0 : 0 ≤ off + len + s - 1 := by omega
  have hmax : 0 ≤ SDmaxio / s := Int.ediv_nonneg (by decide) hpos.le
  have hmaxle : SDmaxio / s ≤ SDmaxio := Int.ediv_le_self _ (by decide)
  have hmaxs : SDmaxio / s * s ≤ SDmaxio := Int.ediv_mul_le _ (Int.ne_of_gt hpos)
  have hmaxval : SDmaxio = 2097152 := rfl
  have hm0 := Int.emod_nonneg off (Int.ne_of_gt hpos)
  have hms := Int.emod_lt_of_pos off hpos
  simp only [Int.tdiv_eq_ediv_of_nonneg hoff, vlong_eq (show -2 ^ 63 ≤ off + len + s - 1 by omega) hlast,
    Int.tdiv_eq_ediv_of_nonneg hx0] at hr ⊢
  generalize hQ : off / s = q at *
  generalize hP : (off + len + s - 1) / s = p at *
  have hbno := vlong_mod (q + st)
  rw [Int.emod_eq_of_lt (a := q + st) (by omega) (by omega)] at hbno
  generalize vlong (q + st) = v at *
  have hnb : long (p + st - v) = p - q := by
    rw [long_congr (y := p - q) (by omega), long_eq (by omega) (by omega)]
  simp only [hnb] at hr ⊢
  generalize hw : (if p - q > SDmaxio / s then SDmaxio / s else p - q) = w at *
  have hw' : w = min (p - q) (SDmaxio / s) := by
    rw [← hw]
    split <;> omega
  generalize hb : (if (v + w) % 2 ^ 64 > e then long (e - v) else w) = nb at *
  have hvw : (v + w) % 2 ^ 64 = q + st + w := by omega
  have hnb' : nb = min w (e - (q + st)) := by
    rw [← hb, hvw]
    split
    · rw [long_congr (y := e - (q + st)) (by omega), long_eq (by omega) (by omega)]
      omega
    · omega
  have hnb1 : 1 ≤ nb := by
    have hne := hr.2
    omega
  have hsmax : s ≤ SDmaxio := by
    by_contra hbig
    have hz : SDmaxio / s = 0 := Int.ediv_eq_zero_of_lt (by decide) (by omega)
    omega
  have hnbs : nb * s ≤ SDmaxio :=
    (Int.mul_le_mul_of_nonneg_right (show nb ≤ SDmaxio / s by omega) hpos.le).trans hmaxs
  have hsnb : 1 * s ≤ nb * s := Int.mul_le_mul_of_nonneg_right hnb1 hpos.le
  have hoffset : long (off.tmod s) = off % s := by
    rw [Int.tmod_eq_emod_of_nonneg hoff, long_eq (by omega) (by omega)]
  have hfull : off % s = 0 → len % s = 0 → nb * s ≤ len := by
    intro h0 hmod
    have hdvd := Int.mul_ediv_cancel' (Int.dvd_of_emod_eq_zero hmod)
    have hlt : (p - q - 1) * s < len / s * s := by
      rw [Int.mul_comm (len / s), hdvd]
      omega
    have hle := Int.lt_of_mul_lt_mul_right hlt hpos.le
    have hmul := Int.mul_le_mul_of_nonneg_right (show nb ≤ len / s by omega) hpos.le
    rw [Int.mul_comm (len / s), hdvd] at hmul
    exact hmul
  have hclip : clip s nb len off =
      (off % s, if off % s + len > nb * s then nb * s - off % s else len) := by
    simp only [clip, hoffset, Int.emod_eq_of_lt (show 0 ≤ off % s + len by omega)
      (show off % s + len < 2 ^ 32 by omega), Int.emod_eq_of_lt (show 0 ≤ nb * s by omega)
      (show nb * s < 2 ^ 32 by omega), long_eq (show -2 ^ 31 ≤ nb * s - off % s by omega)
      (show nb * s - off % s < 2 ^ 31 by omega)]
  refine ⟨q + st, nb, off % s, _, hbno, rfl, rfl, hclip, ?_, rfl, ?_⟩
  · split <;> omega
  · refine ⟨by omega, by omega, hnb1, hnbs, hm0, hms, by split <;> omega, by split <;> omega, ?_⟩
    intro h0 hmod
    split at hmod
    · rw [if_pos ‹_›, h0, Int.sub_zero]
    · rw [if_neg ‹_›]
      have hge := hfull h0 hmod
      omega

/-! ## Transfers -/

/-- The sectors of a request are of the partition. -/
structure Req.Within (q : Req) (pp : SDpart N U) : Prop where
  above : (pp.start.toNat : Int) ≤ q.bno
  nonneg : 0 ≤ q.nb
  below : q.bno + q.nb ≤ pp.end.toNat

/-- Exactly the bytes from `base` on went from the memory to the disk, or to the memory. -/
structure Moved (base r : Int) (write : Bool) (mem disk : Nat → UInt8) (io : Io N U) : Prop where
  nonneg : 0 ≤ r
  wrote : io.disk = fun x : Nat =>
    if write ∧ base ≤ x ∧ (x : Int) < base + r then mem (x - base).toNat else disk x
  received : io.mem = fun j : Nat => if !write ∧ (j : Int) < r then disk (base + j).toNat else mem j

/-- What an attempt may do to the state of the call. -/
structure Does (pp : SDpart N U) (base : Int) (write : Bool) (io : Io N U) (out : Io N U × Res) :
    Prop where
  reqs : ∃ l, out.1.reqs = io.reqs ++ l ∧ ∀ q ∈ l, q.Within pp
  unit : ∃ n, out.1.unit = { io.unit with sectors := n }
  length : out.1.len = io.len ∨ 0 ≤ out.1.len ∧ out.1.len ≤ io.len
  buffer : out.2 ≠ .fault
  failed : (∀ r, out.2 ≠ .ok r) → out.1.disk = io.disk ∧ out.1.mem = io.mem
  moved : ∀ r, out.2 = .ok r → Moved base r write io.mem io.disk out.1

variable {io : Io N U} {pp : SDpart N U} {ans : Answer} {bno B nb offset len base : Int}
  {write : Bool} {out : Io N U × Res}

@[simp] theorem Io.bio_len {req : Req} : (io.bio ans req).len = io.len := rfl

@[simp] theorem Io.bio_disk {req : Req} : (io.bio ans req).disk = io.disk := rfl

@[simp] theorem Io.bio_mem {req : Req} : (io.bio ans req).mem = io.mem := rfl

theorem Io.bio_unit (req : Req) : ∃ n, (io.bio ans req).unit = { io.unit with sectors := n } := by
  unfold Io.bio
  dsimp only
  split
  · exact ⟨0, rfl⟩
  · exact ⟨io.unit.sectors, rfl⟩

@[simp] theorem Io.bio_secsize (req : Req) : (io.bio ans req).unit.secsize = io.unit.secsize := by
  obtain ⟨n, hn⟩ := Io.bio_unit req
  rw [hn]

/-- A request within the partition, before the rest of an attempt. -/
theorem Does.after (ans : Answer) {req : Req} (hw : req.Within pp) (hlen : 0 ≤ len ∧ len ≤ io.len)
    (h : Does pp base write { io.bio ans req with len := len } out) : Does pp base write io out := by
  obtain ⟨l, hl, hwithin⟩ := h.reqs
  refine ⟨⟨req :: l, ?_, ?_⟩, ?_, ?_, h.buffer, h.failed, h.moved⟩
  · rw [hl]
    exact List.append_assoc ..
  · exact List.forall_mem_cons.mpr ⟨hw, hwithin⟩
  · obtain ⟨n, hn⟩ := h.unit
    obtain ⟨m, hm⟩ := Io.bio_unit req
    rw [hm] at hn
    exact ⟨n, hn⟩
  · obtain heq | ⟨h0, hle⟩ := h.length
    · exact .inr ⟨hlen.1.trans_eq heq.symm, heq.le.trans hlen.2⟩
    · exact .inr ⟨h0, hle.trans hlen.2⟩

/-- An attempt that ends with the request. -/
theorem Does.last {req : Req} {d m : Nat → UInt8} {res : Res} (hw : req.Within pp)
    (hlen : 0 ≤ len ∧ len ≤ io.len) (hbuffer : res ≠ .fault)
    (hfailed : (∀ r, res ≠ .ok r) → d = io.disk ∧ m = io.mem)
    (hmoved : ∀ r, res = .ok r → Moved base r write io.mem io.disk
      { io.bio ans req with len := len, disk := d, mem := m }) :
    Does pp base write io ({ io.bio ans req with len := len, disk := d, mem := m }, res) :=
  ⟨⟨[req], rfl, List.forall_mem_singleton.mpr hw⟩, Io.bio_unit req, .inr hlen, hbuffer, hfailed, hmoved⟩

theorem Answer.l_spec (ans : Answer) {s : Int} (hs : 0 < s) (hnb : 0 ≤ nb) (hcap : nb * s ≤ SDmaxio) :
    ans.l nb s = -1 ∧ ans.count nb = 0 ∨
      ans.l nb s = ans.count nb * s ∧ (ans.count nb : Int) ≤ nb ∧ ans.count nb * s ≤ nb * s ∧
        0 ≤ ans.count nb * s := by
  have hmax : SDmaxio = 2097152 := rfl
  have hcount : (ans.count nb : Int) ≤ nb := by
    unfold Answer.count
    omega
  have hle : ans.count nb * s ≤ nb * s := Int.mul_le_mul_of_nonneg_right hcount hs.le
  have hnonneg : 0 ≤ ans.count nb * s := Int.mul_nonneg (by omega) hs.le
  unfold Answer.l
  split
  · rename_i hnone
    refine .inl ⟨rfl, ?_⟩
    unfold Answer.count
    rw [hnone]
    exact Nat.zero_min _
  · exact .inr ⟨long_eq (by omega) (by omega), hcount, hle, hnonneg⟩

theorem transferred_spec (l offset : Int) (hlen : 0 ≤ len) :
    0 ≤ transferred l offset len ∧ transferred l offset len ≤ len ∧
      (0 < transferred l offset len → offset + transferred l offset len ≤ l) ∧
      (transferred l offset len = len ∨ l ≤ offset + transferred l offset len) := by
  unfold transferred
  split
  · omega
  · split <;> omega

theorem reaches_of {n cap : Int} (hoffset : 0 ≤ offset) (hn : offset + n ≤ cap) :
    reaches offset n cap = true := decide_eq_true (.inr ⟨hoffset, hn⟩)

theorem fill_eq {disk : Nat → UInt8} {s : ulong} {t j : Nat} (hB : bno % 2 ^ 64 = B)
    (hj : (j : Int) < t * s.toNat) :
    fill disk bno s.toNat t j = disk (B * s.toNat + j).toNat := by
  obtain ⟨n, rfl⟩ : ∃ n : Nat, B = n := Int.eq_ofNat_of_zero_le (by omega)
  have hj' : j < t * s.toNat := by exact_mod_cast hj
  have hidx : ((n : Int) * s.toNat + j).toNat = n * s.toNat + j := by
    rw [← Int.natCast_mul, ← Int.natCast_add, Int.toNat_natCast]
  unfold fill
  rw [Int.toNat_natCast, if_pos hj', hB, Int.toNat_natCast, hidx]

theorem Io.read_does {s : ulong} (hsec : io.unit.secsize = s)
    (h : Shape s.toNat pp.start.toNat pp.end.toNat B nb offset io.len) (hB : bno % 2 ^ 64 = B) :
    Does pp (B * s.toNat + offset) false io (io.read ans bno nb offset) := by
  subst hsec
  have hmax : SDmaxio = 2097152 := rfl
  have hs : 0 < (io.unit.secsize.toNat : Int) := by have := h.low; have := h.high; omega
  have hB0 : 0 ≤ B := (Int.natCast_nonneg _).trans h.above
  have hwithin : Req.Within ⟨false, nb, B⟩ pp :=
    ⟨h.above, by have := h.pos; dsimp only; omega, h.fits⟩
  have hl := ans.l_spec hs (by have := h.pos; omega) h.cap
  have htr := transferred_spec (ans.l nb io.unit.secsize.toNat) offset h.nonneg
  obtain ⟨-, -, hpos, hcap, hlow, hhigh, hnonneg, hroom, -⟩ := h
  unfold Io.read
  simp only [Io.bio_len, Io.bio_mem, hB]
  generalize hlval : ans.l nb io.unit.secsize.toNat = l at *
  generalize transferred l offset io.len = r at *
  obtain ⟨hr0, hrlen, hrl, -⟩ := htr
  have hmod : r % 2 ^ 32 = r := Int.emod_eq_of_lt hr0 (by omega)
  have hcapmod : nb * io.unit.secsize.toNat % 2 ^ 32 = nb * io.unit.secsize.toNat :=
    Int.emod_eq_of_lt (by omega) (by omega)
  rw [hmod, hcapmod, reaches_of hlow (by omega), if_pos rfl]
  split
  · exact .last hwithin ⟨hnonneg, Int.le_refl _⟩ nofun (fun _ => ⟨rfl, rfl⟩) nofun
  · refine .last hwithin ⟨hr0, hrlen⟩ nofun (fun hno => absurd rfl (hno r)) ?_
    intro r' hr'
    cases hr'
    refine ⟨hr0, ?_, ?_⟩
    · funext x
      rw [if_neg (by simp)]
      rfl
    · funext j
      dsimp only
      by_cases hj : (j : Int) < r
      · have hlpos := hrl (by omega)
        rcases hl with ⟨rfl, -⟩ | ⟨rfl, -, -, -⟩
        · omega
        have hidx : B * io.unit.secsize.toNat + ((offset.toNat + j : Nat) : Int) =
            B * io.unit.secsize.toNat + offset + j := by omega
        rw [if_pos hj, if_pos ⟨by simp, hj⟩, fill_eq hB (by omega), hidx]
      · rw [if_neg hj, if_neg fun h => hj h.2]

theorem drain_eq {disk b : Nat → UInt8} {s : ulong} {t x : Nat} (hB : bno % 2 ^ 64 = B) :
    drain disk bno s.toNat t b x =
      if B * s.toNat ≤ x ∧ (x : Int) < B * s.toNat + t * s.toNat then b (x - (B * s.toNat).toNat)
      else disk x := by
  obtain ⟨n, rfl⟩ : ∃ n : Nat, B = n := Int.eq_ofNat_of_zero_le (by omega)
  unfold drain
  rw [hB, Int.toNat_natCast, Int.toNat_natCast, ← Int.natCast_mul, Int.toNat_natCast]
  refine if_congr ?_ rfl rfl
  rw [← Int.natCast_mul, ← Int.natCast_add, Int.ofNat_le, Int.ofNat_lt]

/-- The write of a buffer that holds what the disk does, apart from what `memmove` changes. -/
theorem Io.put_does {s : ulong} {cap : Int} {b : Nat → UInt8} (hsec : io.unit.secsize = s)
    (hB : bno % 2 ^ 64 = B) (hs : 0 < s.toNat) (hlow : 0 ≤ offset) (hlen : 0 ≤ io.len)
    (hroom : offset + io.len ≤ cap) (hcap : cap < 2 ^ 31) (hnb : 0 ≤ nb)
    (hmax : nb * s.toNat ≤ SDmaxio) (habove : pp.start.toNat ≤ B) (hbelow : B + nb ≤ pp.end.toNat)
    (hb : ∀ j : Nat, (j : Int) < nb * s.toNat → j < offset ∨ offset + io.len ≤ j →
      b j = io.disk (B * s.toNat + j).toNat) :
    Does pp (B * s.toNat + offset) true io (io.put ans bno nb offset cap b) := by
  subst hsec
  have hmaxval : SDmaxio = 2097152 := rfl
  have hs' : 0 < (io.unit.secsize.toNat : Int) := by omega
  have hwithin : Req.Within ⟨true, nb, B⟩ pp := ⟨habove, hnb, hbelow⟩
  have hl := ans.l_spec hs' hnb hmax
  have htr := transferred_spec (ans.l nb io.unit.secsize.toNat) offset hlen
  have hmod : io.len % 2 ^ 32 = io.len := Int.emod_eq_of_lt hlen (by omega)
  unfold Io.put
  simp only [Io.bio_len, Io.bio_mem, hB, hmod, reaches_of hlow hroom, if_true]
  generalize hlval : ans.l nb io.unit.secsize.toNat = l at *
  generalize transferred l offset io.len = r at *
  obtain ⟨hr0, hrlen, hrl, hrfull⟩ := htr
  split
  · rename_i hneg
    rcases hl with ⟨-, hcount⟩ | ⟨rfl, -, -, hl0⟩
    · refine .last hwithin ⟨hlen, Int.le_refl _⟩ nofun (fun _ => ⟨?_, rfl⟩) nofun
      funext x
      dsimp only
      rw [drain_eq hB, hcount, if_neg (by omega)]
    · omega
  · refine .last hwithin ⟨hr0, hrlen⟩ nofun (fun hno => absurd rfl (hno r)) ?_
    intro r' hr'
    cases hr'
    refine ⟨hr0, ?_, ?_⟩
    · funext x
      simp only [Io.bio_disk]
      rw [drain_eq hB]
      rcases hl with ⟨rfl, -⟩ | ⟨rfl, hcount, hle, hl0⟩
      · omega
      have hp0 : 0 ≤ B * (io.unit.secsize.toNat : Int) := Int.mul_nonneg (by omega) hs'.le
      generalize hbase : B * (io.unit.secsize.toNat : Int) = p at *
      generalize hend : (ans.count nb : Int) * io.unit.secsize.toNat = l at *
      split
      · rename_i hx
        have hj : ((x - p.toNat : Nat) : Int) = x - p := by omega
        have hp : p + ((x - p.toNat : Nat) : Int) = x := by omega
        have hbj := hb (x - p.toNat) (by omega)
        rw [hj] at hbj
        unfold place
        rw [hj]
        by_cases hin : offset ≤ x - p ∧ (x : Int) - p < offset + io.len
        · have hidx : x - p.toNat - offset.toNat = ((x : Int) - (p + offset)).toNat := by omega
          rw [if_pos hin, hidx, if_pos ⟨trivial, by omega, by omega⟩]
        · rw [if_neg hin, if_neg (by omega), hbj (by omega)]
          congr 1
          omega
      · rename_i hx
        rw [if_neg]
        rintro ⟨-, hx1, hx2⟩
        by_cases hr : 0 < r
        · have hroom := hrl hr
          omega
        · omega
    · funext j
      rw [if_neg (by simp)]

theorem Io.write_does {s : ulong} {ans : Answer × Answer} (hsec : io.unit.secsize = s)
    (h : Shape s.toNat pp.start.toNat pp.end.toNat B nb offset io.len) (hB : bno % 2 ^ 64 = B)
    (hfirst : offset ≠ 0 → ans.1.sectors ≠ some 0) :
    Does pp (B * s.toNat + offset) true io (io.write ans bno nb offset) := by
  subst hsec
  have hmax : SDmaxio = 2097152 := rfl
  have hs : 0 < (io.unit.secsize.toNat : Int) := by have := h.low; have := h.high; omega
  have hwithin : Req.Within ⟨false, nb, B⟩ pp :=
    ⟨h.above, by have := h.pos; dsimp only; omega, h.fits⟩
  have hl := ans.1.l_spec hs (by have := h.pos; omega) h.cap
  obtain ⟨habove, hfits, hpos, hcap, hlow, hhigh, hnonneg, hroom, hfull⟩ := h
  have hcapmod : nb * io.unit.secsize.toNat % 2 ^ 32 = nb * io.unit.secsize.toNat :=
    Int.emod_eq_of_lt (by omega) (by omega)
  unfold Io.write
  simp only [hB, hcapmod]
  split
  · rcases hl with ⟨hl, -⟩ | ⟨hl, hcount, hle, hl0⟩
    · rw [hl]
      exact .last hwithin ⟨hnonneg, Int.le_refl _⟩ nofun (fun _ => ⟨rfl, rfl⟩) nofun
    · have hmod : ans.1.l nb io.unit.secsize.toNat % 2 ^ 32 =
          ans.1.count nb * io.unit.secsize.toNat := by
        rw [hl, Int.emod_eq_of_lt hl0 (by omega)]
      have hcount1 : offset ≠ 0 → io.unit.secsize.toNat ≤ (ans.1.count nb : Int) * io.unit.secsize.toNat := by
        intro hne
        have hone : 1 ≤ (ans.1.count nb : Int) := by
          have hsome := hfirst hne
          unfold Answer.l at hl
          unfold Answer.count
          cases hsec : ans.1.sectors with
          | none =>
            rw [hsec] at hl
            dsimp only at hl
            omega
          | some k =>
            have hk : k ≠ 0 := fun h0 => hsome (by rw [hsec, h0])
            rw [Option.getD_some]
            omega
        have hmul := Int.mul_le_mul_of_nonneg_right hone hs.le
        omega
      have hput : ∀ n m : Int, 0 ≤ n → n ≤ io.len → 0 ≤ m → m ≤ nb →
          m * io.unit.secsize.toNat ≤ ans.1.count nb * io.unit.secsize.toNat →
          Does pp (B * io.unit.secsize.toNat + offset) true io
            (({ io.bio ans.1 ⟨false, nb, B⟩ with len := n } : Io N U).put ans.2 bno m offset
              (nb * io.unit.secsize.toNat)
              (fill io.disk bno io.unit.secsize.toNat (ans.1.count nb))) := by
        intro n m hn hnlen hm hmnb hms
        refine .after ans.1 hwithin ⟨hn, hnlen⟩ ?_
        exact Io.put_does (Io.bio_secsize ⟨false, nb, B⟩) hB (by omega) hlow hn
          (by dsimp only; omega) (by omega) hm (by omega) habove (by omega)
          fun j hj _ => fill_eq hB (by omega)
      have hnbmax : nb * 1 ≤ nb * io.unit.secsize.toNat :=
        Int.mul_le_mul_of_nonneg_left (by omega) (by omega)
      rw [if_neg (by omega), hmod, Int.mul_ediv_cancel _ (Int.ne_of_gt hs),
        long_eq (x := (ans.1.count nb : Int)) (by omega) (by omega),
        long_eq (x := (ans.1.count nb : Int) * io.unit.secsize.toNat - offset) (by omega) (by omega)]
      split
      · rename_i hshort
        have hroom' : 0 ≤ (ans.1.count nb : Int) * io.unit.secsize.toNat - offset := by
          by_cases hne : offset = 0
          · omega
          · have hge := hcount1 hne
            omega
        exact hput _ _ (by rw [Io.bio_len]; split <;> omega)
          (by rw [Io.bio_len]; split <;> omega) (by omega) hcount
          (Int.le_refl _)
      · exact hput io.len nb hnonneg (Int.le_refl _) (by omega) (Int.le_refl _) (by omega)
  · rename_i hpre
    rw [not_or, not_not, not_not, Int.emod_eq_of_lt hnonneg (by omega)] at hpre
    have hall := hfull hpre.1 hpre.2
    exact Io.put_does rfl hB (by omega) hlow hnonneg hroom (by omega) (by omega) hcap habove hfits
      fun j hj hout => by omega

/-! ## Attempts -/

/-- An attempt at which the bounds check lets through only what fits: when the version is the
channel's, there is a sector size and memory, and the check lets something through, offset and
length fit and the read before an unaligned write transfers a sector. -/
def SDunit.Safe (unit : SDunit N U) (c : Chan) (write : Bool) (len off : Int) (room : Bool)
    (ans : Answer × Answer) : Prop :=
  ∀ pp, unit.part[c.part]? = some pp → unit.vers + pp.vers = c.vers → unit.secsize ≠ 0 →
    unit.refuses pp len off = false → room = true →
      Spans unit.secsize pp.start len off ∧
        (write → off % unit.secsize.toNat ≠ 0 → ans.1.sectors ≠ some 0)

/-- An attempt that ends before the transfer. -/
theorem Does.refused {res : Res} (hbuffer : res ≠ .fault)
    (hok : ∀ r, res = .ok r → r = 0) : Does pp base write io (io, res) := by
  refine ⟨⟨[], (List.append_nil _).symm, nofun⟩, ⟨_, rfl⟩, .inl rfl, hbuffer,
    fun _ => ⟨rfl, rfl⟩, fun r hr => ?_⟩
  obtain rfl := hok r hr
  refine ⟨Int.le_refl _, ?_, ?_⟩
  · funext x
    rw [if_neg (by omega)]
  · funext j
    rw [if_neg (by omega)]

theorem attempt_does (io : Io N U) {c : Chan} {off : Int} {room : Bool} {ans : Answer × Answer}
    (hpp : io.unit.part[c.part]? = some pp) (hlt : io.len < 2 ^ 31)
    (h : io.unit.Safe c write io.len off room ans) :
    Does pp (pp.start.toNat * io.unit.secsize.toNat + off) write io
      ((io.attempt c write off room ans).1, (io.attempt c write off room ans).2.1) := by
  unfold Io.attempt
  simp only [hpp]
  split
  · exact .refused nofun nofun
  rename_i hvers
  rw [not_not] at hvers
  split
  · exact .refused nofun nofun
  rename_i hs
  split
  · refine .refused ?_ ?_ <;> cases write <;> simp
  rename_i hr
  rw [Bool.not_eq_true] at hr
  cases room with
  | false => exact .refused nofun nofun
  | true =>
    obtain ⟨hspans, hfirst⟩ := h pp hpp hvers hs hr rfl
    obtain ⟨bno, nb, offset, len, hbno, hnb, hbnoeq, hclip, hlenle, hoffset, hshape⟩ :=
      blocks_spec hspans hs hlt hr
    have hbase : (pp.start.toNat : Int) * io.unit.secsize.toNat + off =
        bno * io.unit.secsize.toNat + offset := by
      rw [hbnoeq, hoffset, Int.add_mul]
      have hdiv := Int.emod_add_mul_ediv off io.unit.secsize.toNat
      rw [Int.mul_comm] at hdiv
      omega
    rw [hbase]
    simp only [Bool.not_true, Bool.false_eq_true, if_false, hclip, hnb]
    have hafter : ∀ out : Io N U × Res, Does pp (bno * io.unit.secsize.toNat + offset) write
        { io with len := len } out → Does pp (bno * io.unit.secsize.toNat + offset) write io out := by
      intro out hdone
      refine ⟨hdone.reqs, hdone.unit, ?_, hdone.buffer, hdone.failed, hdone.moved⟩
      have hlen0 := hshape.nonneg
      obtain heq | ⟨h0, hle⟩ := hdone.length
      · exact .inr ⟨hlen0.trans_eq heq.symm, heq.le.trans hlenle⟩
      · exact .inr ⟨h0, hle.trans hlenle⟩
    cases write with
    | true =>
      have hdone : Does pp (bno * io.unit.secsize.toNat + offset) true { io with len := len }
          (({ io with len := len } : Io N U).write ans (io.unit.blocks pp io.len off).1 nb offset) :=
        Io.write_does rfl hshape hbno fun hne => hfirst rfl (hoffset ▸ hne)
      exact hafter _ hdone
    | false =>
      have hdone : Does pp (bno * io.unit.secsize.toNat + offset) false { io with len := len }
          (({ io with len := len } : Io N U).read ans.1 (io.unit.blocks pp io.len off).1 nb offset) :=
        Io.read_does rfl hshape hbno
      exact hafter _ hdone

/-! ## What every attempt keeps -/

/-- A part of a call leaves the unit as it is, apart from its size, and adds to the requests. -/
structure Frame (io : Io N U) (out : Io N U × Res) : Prop where
  unit : ∃ n, out.1.unit = { io.unit with sectors := n }
  reqs : ∀ q ∈ io.reqs, q ∈ out.1.reqs

theorem Frame.bio {ans : Answer} (req : Req) {len : Int} {d m : Nat → UInt8} {res : Res} :
    Frame io ({ io.bio ans req with len := len, disk := d, mem := m }, res) :=
  ⟨Io.bio_unit req, fun _ hq => List.mem_append_left _ hq⟩

theorem put_frame {ans : Answer} {bno nb offset cap : Int} {b : Nat → UInt8} :
    Frame io (io.put ans bno nb offset cap b) := by
  unfold Io.put
  dsimp only
  generalize (⟨true, nb, bno % 2 ^ 64⟩ : Req) = req
  split
  · split
    · exact .bio req
    · exact .bio req
  · exact ⟨⟨_, rfl⟩, fun _ hq => hq⟩

theorem read_frame {ans : Answer} {bno nb offset : Int} : Frame io (io.read ans bno nb offset) := by
  unfold Io.read
  dsimp only
  generalize (⟨false, nb, bno % 2 ^ 64⟩ : Req) = req
  split
  · exact .bio req
  · split
    · exact .bio req
    · exact .bio req

theorem bio_put_frame {ans ans' : Answer} (req : Req) {n bno nb offset cap : Int}
    {b : Nat → UInt8} :
    Frame io (({ io.bio ans req with len := n } : Io N U).put ans' bno nb offset cap b) := by
  obtain ⟨⟨k, hk⟩, hreqs⟩ := @put_frame N U { io.bio ans req with len := n } ans' bno nb offset cap b
  obtain ⟨k', hk'⟩ := @Io.bio_unit N U io ans req
  refine ⟨⟨k, ?_⟩, fun q hq => hreqs q (List.mem_append_left _ hq)⟩
  rw [hk]
  dsimp only
  rw [hk']

theorem write_frame {ans : Answer × Answer} {bno nb offset : Int} :
    Frame io (io.write ans bno nb offset) := by
  unfold Io.write
  dsimp only
  generalize (⟨false, nb, bno % 2 ^ 64⟩ : Req) = req
  split
  · split
    · exact .bio req
    · split
      · exact bio_put_frame req
      · exact bio_put_frame req
  · exact put_frame

theorem attempt_frame {c : Chan} {off : Int} {room : Bool} {ans : Answer × Answer} : Frame io
    ((io.attempt c write off room ans).1, (io.attempt c write off room ans).2.1) := by
  have hrefl : ∀ res, Frame io (io, res) := fun _ => ⟨⟨_, rfl⟩, fun _ hq => hq⟩
  unfold Io.attempt
  split
  · exact hrefl _
  · split
    · exact hrefl _
    split
    · exact hrefl _
    split
    · exact hrefl _
    split
    · exact hrefl _
    rename_i pp _ _ _ _ _
    dsimp only
    generalize (clip io.unit.secsize.toNat (io.unit.blocks pp io.len off).2 io.len off) = p
    generalize io.unit.blocks pp io.len off = q
    split
    · have hf := @write_frame N U { io with len := p.2 } ans q.1 q.2 p.1
      exact ⟨hf.unit, hf.reqs⟩
    · have hf := @read_frame N U { io with len := p.2 } ans.1 q.1 q.2 p.1
      exact ⟨hf.unit, hf.reqs⟩

/-! ## The table -/

/-- The slots of a table are there afterwards, with the versions that `g` makes of theirs. -/
def Keeps (g : ulong → ulong) (l l' : List (SDpart N U)) : Prop :=
  ∀ (i : Nat) (pp : SDpart N U), l[i]? = some pp → ∃ pp', l'[i]? = some pp' ∧ pp'.vers = g pp.vers

theorem Keeps.trans {g g' : ulong → ulong} {l l' l'' : List (SDpart N U)} (h : Keeps g l l')
    (h' : Keeps g' l' l'') : Keeps (g' ∘ g) l l'' := by
  intro i pp hi
  obtain ⟨pp', hi', hv⟩ := h i pp hi
  obtain ⟨pp'', hi'', hv'⟩ := h' i pp' hi'
  exact ⟨pp'', hi'', hv'.trans (congrArg g' hv)⟩

theorem Keeps.length {g : ulong → ulong} {l l' : List (SDpart N U)} (h : Keeps g l l') :
    l.length ≤ l'.length := by
  by_contra hlt
  obtain ⟨pp', hi, -⟩ := h l'.length _ (List.getElem?_eq_getElem (Nat.lt_of_not_le hlt))
  exact absurd (List.getElem?_eq_some_iff.mp hi).1 (Nat.lt_irrefl _)

theorem Keeps.refl (l : List (SDpart N U)) : Keeps id l l := fun _ pp hi => ⟨pp, hi, rfl⟩

theorem Keeps.append (l l' : List (SDpart N U)) : Keeps id l (l ++ l') := fun i pp hi =>
  ⟨pp, by rw [List.getElem?_append_left (List.getElem?_eq_some_iff.mp hi).1, hi], rfl⟩

theorem Keeps.modify {f : SDpart N U → SDpart N U} (hf : ∀ pp, (f pp).vers = pp.vers)
    (l : List (SDpart N U)) (k : Nat) : Keeps id l (l.modify k f) := by
  intro i pp hi
  rw [List.getElem?_modify, hi]
  by_cases hk : k = i
  · exact ⟨f pp, congrArg some (if_pos hk), hf pp⟩
  · exact ⟨pp, congrArg some (if_neg hk), rfl⟩

variable [DecidableEq N] [DecidableEq U]

omit [DecidableEq N] [DecidableEq U] in
theorem setpart_keeps {unit : SDunit N U} {eve : U} {name : N} {start end' : uvlong}
    {part : List (SDpart N U)} {partno : Nat} (h : Keeps id unit.part part) :
    (unit.setpart eve name start end' part partno).1.vers = unit.vers ∧
      Keeps id unit.part (unit.setpart eve name start end' part partno).1.part := by
  unfold SDunit.setpart
  split
  · exact ⟨rfl, h⟩
  · refine ⟨rfl, h.trans (Keeps.modify ?_ _ _)⟩
    exact fun _ => rfl

omit [DecidableEq U] in
theorem sdaddpart_keeps {unit : SDunit N U} {eve : U} {room : Bool} {name : N}
    {start end' : uvlong} :
    (unit.sdaddpart eve room name start end').1.vers = unit.vers ∧
      Keeps id unit.part (unit.sdaddpart eve room name start end').1.part := by
  unfold SDunit.sdaddpart
  dsimp only
  split
  · rename_i hnil
    split
    · refine setpart_keeps ?_
      rw [hnil]
      exact nofun
    · exact ⟨rfl, .refl _⟩
  · split
    · exact ⟨rfl, .refl _⟩
    · exact ⟨rfl, .refl _⟩
    · exact setpart_keeps (.refl _)
    · split
      · exact ⟨rfl, .refl _⟩
      · exact setpart_keeps (.append _ _)

omit [DecidableEq N] [DecidableEq U] in
theorem sdincvers_keeps {unit : SDunit N U} :
    unit.sdincvers.vers = unit.vers + 1 ∧ Keeps (· + 1) unit.part unit.sdincvers.part := by
  refine ⟨rfl, fun i pp hi => ⟨{ pp with valid := false, vers := pp.vers + 1 }, ?_, rfl⟩⟩
  change (unit.part.map _)[i]? = _
  rw [List.getElem?_map, hi]
  rfl

section
omit [DecidableEq U]

theorem conf_keeps {eve : U} {unit : SDunit N U} {conf : List (N × uvlong × uvlong × Bool)} :
    (conf.foldl (fun unit p => (unit.sdaddpart eve p.2.2.2 p.1 p.2.1 p.2.2.1).1) unit).vers =
        unit.vers ∧
      Keeps id unit.part
        (conf.foldl (fun unit p => (unit.sdaddpart eve p.2.2.2 p.1 p.2.1 p.2.2.1).1) unit).part := by
  induction conf generalizing unit with
  | nil => exact ⟨rfl, .refl _⟩
  | cons p conf ih =>
    rw [List.foldl_cons]
    obtain ⟨hvers, hkeeps⟩ := @sdaddpart_keeps N U _ unit eve p.2.2.2 p.1 p.2.1 p.2.2.1
    exact ⟨ih.1.trans hvers, hkeeps.trans ih.2⟩

/-- New media, as `sdinitpart` finds it, changes the versions; without it the table stays. -/
theorem sdinitpart_keeps {unit : SDunit N U} {eve : U} {data : N} {on : Online N}
    (hz : unit.sectors = 0) :
    ((unit.sdinitpart eve data on).1.vers = unit.vers ∧
        (unit.sdinitpart eve data on).1.part = unit.part ∧
        ¬ (disktype unit.inquiry0 = true ∧ on.sectors ≠ 0)) ∨
      ((unit.sdinitpart eve data on).1.vers = unit.vers + 1 ∧
        Keeps (· + 1) unit.part (unit.sdinitpart eve data on).1.part) := by
  have hpos : ¬ unit.sectors > 0 := by
    rw [hz]
    decide
  unfold SDunit.sdinitpart
  simp only [if_neg hpos]
  split
  · rename_i hnot
    refine .inl ⟨rfl, rfl, fun hdisk => ?_⟩
    rw [hdisk.1] at hnot
    cases hnot
  split
  · rename_i hempty
    exact .inl ⟨rfl, rfl, fun hdisk => hdisk.2 hempty⟩
  have hinc := @sdincvers_keeps N U { unit with sectors := on.sectors, secsize := on.secsize }
  have hadd := @sdaddpart_keeps N U _
    ({ unit with sectors := on.sectors, secsize := on.secsize } : SDunit N U).sdincvers eve on.room data
    0 on.sectors
  have hnew := hinc.2.trans hadd.2
  refine .inr ?_
  split
  · rename_i heq
    rw [heq] at hadd hnew
    exact ⟨hadd.1, hnew⟩
  · rename_i heq
    rw [heq] at hadd hnew
    have hconf := @conf_keeps N U _ eve
    exact ⟨hconf.1.trans hadd.1, hnew.trans hconf.2⟩

/-- The table of partitions does not get shorter. -/
theorem sdinitpart_grows {unit : SDunit N U} {eve : U} {data : N} {on : Online N} :
    unit.part.length ≤ (unit.sdinitpart eve data on).1.part.length := by
  by_cases hz : unit.sectors = 0
  · obtain ⟨-, hpart, -⟩ | ⟨-, hkeeps⟩ := @sdinitpart_keeps N U _ unit eve data on hz
    · rw [hpart]
    · exact hkeeps.length
  · have hpos : unit.sectors > 0 := UInt64.pos_iff_ne_zero.mpr hz
    have heq : unit.sdinitpart eve data on =
        ({ unit with sectors := 0, secsize := 0 } : SDunit N U).sdincvers.sdinitpart eve data on := by
      unfold SDunit.sdinitpart
      rw [if_pos hpos]
      rfl
    have hlen : unit.part.length =
        ({ unit with sectors := 0, secsize := 0 } : SDunit N U).sdincvers.part.length :=
      (List.length_map _).symm
    rw [heq, hlen]
    obtain ⟨-, hpart, -⟩ | ⟨-, hkeeps⟩ := @sdinitpart_keeps N U _
      ({ unit with sectors := 0, secsize := 0 } : SDunit N U).sdincvers eve data on rfl
    · rw [hpart]
    · exact hkeeps.length

end

end NixMark.Sd
