import NixMark.Ip.Chain

/-!
# Cutting a segment to the window (`ip/tcp.c`, `tcptrim`)

A `ulong` has 32 bits. The counters of bytes received again are left out.

* `seq_within`, `inwindow`, `tcptrim`: the functions of the source.
* `Within`, `inside`: a sequence number is in the window; the bytes whose numbers are.
* `Cut`: what a segment is cut to.
* `tcptrim_cuts`: when it is. The excess over the window is reckoned as if the first byte had the
  number of the segment, though a SYN that is kept has it.
-/

namespace NixMark.Tcp

open Ip

abbrev Ulong := BitVec 32

abbrev Ushort := BitVec 16

def FIN : BitVec 8 := 0x01
def SYN : BitVec 8 := 0x02
def URG : BitVec 8 := 0x20

/-- The part of a `Tcp` that `tcptrim` reads and changes. -/
structure Tcpseg where
  seq : Ulong
  flags : BitVec 8
  urg : Ushort

def Tcpseg.has (seg : Tcpseg) (flag : BitVec 8) : Bool := seg.flags &&& flag ≠ 0

/-- `seg->flags &= ~flag` -/
def Tcpseg.clear (seg : Tcpseg) (flag : BitVec 8) : Tcpseg :=
  { seg with flags := seg.flags &&& ~~~flag }

/-- `tcb->rcv` -/
structure Rcv where
  nxt : Ulong
  wnd : Ulong

def seq_within (x low high : Ulong) : Bool :=
  if low ≤ high then low ≤ x && x ≤ high else x ≥ low || x ≤ high

def inwindow (rcv : Rcv) (seq : Ulong) : Bool := seq_within seq rcv.nxt (rcv.nxt + rcv.wnd - 1)

/-- The segment, its data and their length, as `tcptrim` leaves them. -/
structure Trim where
  seg : Tcpseg
  bs : List Block
  length : Ushort

namespace Trim

/-- `len`: the flags count as well. -/
def len (t : Trim) : Ushort :=
  t.length + (if t.seg.has SYN then 1 else 0) + (if t.seg.has FIN then 1 else 0)

/-- `accept`, where the window is not 0. -/
def accept (rcv : Rcv) (t : Trim) : Bool :=
  let last := t.seg.seq + t.len.setWidth 32 - 1
  inwindow rcv t.seg.seq ||
    t.len ≠ 0 && (inwindow rcv last || seq_within rcv.nxt t.seg.seq last)

/-- A SYN that was received before. -/
def cutsyn (t : Trim) : Trim :=
  let seg := { t.seg.clear SYN with seq := t.seg.seq + 1 }
  { t with seg := if seg.urg.toNat > 1 then { seg with urg := seg.urg - 1 } else seg.clear URG }

/-- Data that were received before. -/
def cutdup (t : Trim) (dupcnt : Ulong) : Trim :=
  let seg := { t.seg with seq := t.seg.seq + dupcnt }
  { seg := if seg.urg.toNat > dupcnt.toInt then { seg with urg := seg.urg - dupcnt.setWidth 16 }
      else { seg.clear URG with urg := 0 }
    bs := (pullblock t.bs (dupcnt.setWidth 16).toNat).2
    length := t.length - dupcnt.setWidth 16 }

/-- What was received before is cut off the front. -/
def front (rcv : Rcv) (t : Trim) : Trim :=
  let dupcnt := rcv.nxt - t.seg.seq
  if dupcnt.toInt > 0 then
    if t.seg.has SYN then
      if (dupcnt - 1).toInt > 0 then t.cutsyn.cutdup (dupcnt - 1) else t.cutsyn
    else t.cutdup dupcnt
  else t

/-- `*bp = trimblock(*bp, 0, *length)`, which must leave something. -/
def trimto (bs : List Block) (length : Nat) : Except Stop (List Block) :=
  match bs with
  | [] => .error (if length = 0 then .deref else .panic)
  | bp :: next => (trimblock bp next 0 length).bind fun bs =>
    if bs.isEmpty then .error .panic else .ok bs

/-- What is beyond the window is cut off the back. -/
def back (rcv : Rcv) (t : Trim) : Except Stop Trim :=
  let excess := t.seg.seq + t.length.setWidth 32 - (rcv.nxt + rcv.wnd)
  if excess.toInt > 0 then
    let length := t.length - excess.setWidth 16
    (trimto t.bs length.toNat).map fun bs =>
      { seg := t.seg.clear FIN, bs := bs, length := length }
  else .ok t

end Trim

/-- `tcptrim`: `none` where it returns -1, and frees the data. -/
def tcptrim (rcv : Rcv) (t : Trim) : Except Stop (Option Trim) :=
  if rcv.wnd = 0 then
    if t.len = 0 ∧ t.seg.seq = rcv.nxt then .ok (some t) else .ok none
  else if t.accept rcv then ((t.front rcv).back rcv).map some
  else .ok none

/-! ## Statements -/

/-- A number in the window: it is in `[rcv.nxt, rcv.nxt+rcv.wnd)`. -/
def Within (rcv : Rcv) (x : Ulong) : Prop := (x - rcv.nxt).toNat < rcv.wnd.toNat

instance {rcv : Rcv} {x : Ulong} : Decidable (Within rcv x) :=
  inferInstanceAs (Decidable (_ < _))

/-- The bytes whose numbers are in the window; `x` is the number of the first. -/
def inside (rcv : Rcv) : Ulong → List UInt8 → List UInt8
  | _, [] => []
  | x, b :: data => if Within rcv x then b :: inside rcv (x + 1) data else inside rcv (x + 1) data

/-- The `k`th number of the segment. -/
def Trim.number (t : Trim) (k : Nat) : Ulong := t.seg.seq + BitVec.ofNat 32 k

/-- The number of the first byte of the data: a SYN has one before. -/
def Trim.first (t : Trim) : Ulong := t.seg.seq + (if t.seg.has SYN then 1 else 0)

/-- The segment `t` is cut to `r`: the bytes in the window, their count, and the number of the first
of them, or of a flag that is kept. It is dropped only where nothing of it is in the window. -/
structure Cut (rcv : Rcv) (t : Trim) (r : Option Trim) : Prop where
  data : ∀ t' ∈ r, bytes t'.bs = inside rcv t.first (bytes t.bs)
  length : ∀ t' ∈ r, t'.length.toNat = (bytes t'.bs).length
  seq : ∀ t' ∈ r, ∀ k < t.len.toNat, Within rcv (t.number k) →
    (∀ j < k, ¬Within rcv (t.number j)) → t'.seg.seq = t.number k
  syn : ∀ t' ∈ r, t'.seg.has SYN = true ↔ t.seg.has SYN = true ∧ Within rcv t.seg.seq
  none : r = none → (∀ k < t.len.toNat, ¬Within rcv (t.number k)) ∨
    rcv.wnd = 0 ∧ ¬(t.len = 0 ∧ t.seg.seq = rcv.nxt)

/-- A segment as it comes: a chain of blocks with `length` bytes, as many as a packet holds. -/
structure Received (t : Trim) : Prop where
  ordered : ∀ b ∈ t.bs, b.Ordered
  length : t.length.toNat = blocklen t.bs
  fits : t.length.toNat ≤ 65495

/-! ## Sequence numbers -/

theorem seq_within_iff {low w x : Ulong} (hw : w ≠ 0) :
    seq_within x low (low + w - 1) = true ↔ (x - low).toNat < w.toNat := by
  unfold seq_within
  split <;> simp <;> bv_omega

/-- Data from a number in the window on. -/
theorem inside_take {rcv : Rcv} {x : Ulong} {data : List UInt8}
    (h : (x - rcv.nxt).toNat + data.length < 4294967296) :
    inside rcv x data = data.take (rcv.wnd.toNat - (x - rcv.nxt).toNat) := by
  induction data generalizing x with
  | nil => rw [List.take_nil]; rfl
  | cons b data ih =>
    rw [List.length_cons] at h
    have hx : (x + 1 - rcv.nxt).toNat = (x - rcv.nxt).toNat + 1 := by bv_omega
    have ih := ih (x := x + 1) (by omega)
    rw [hx] at ih
    unfold inside
    split
    · next hin =>
      have hin : (x - rcv.nxt).toNat < rcv.wnd.toNat := hin
      rw [ih, show rcv.wnd.toNat - (x - rcv.nxt).toNat =
        rcv.wnd.toNat - ((x - rcv.nxt).toNat + 1) + 1 by omega, List.take_succ_cons]
    · next hout =>
      have hout : ¬(x - rcv.nxt).toNat < rcv.wnd.toNat := hout
      rw [ih, show rcv.wnd.toNat - (x - rcv.nxt).toNat = 0 by omega,
        show rcv.wnd.toNat - ((x - rcv.nxt).toNat + 1) = 0 by omega, List.take_zero, List.take_zero]

/-- Data from before the window on. -/
theorem inside_drop {rcv : Rcv} {d : Nat} {data : List UInt8} (hd : d ≤ 65536)
    (hw : rcv.wnd.toNat < 1073741824) :
    inside rcv (rcv.nxt - BitVec.ofNat 32 d) data = inside rcv rcv.nxt (data.drop d) := by
  induction d generalizing data with
  | zero => rw [List.drop_zero, show rcv.nxt - BitVec.ofNat 32 0 = rcv.nxt by bv_omega]
  | succ d ih =>
    cases data with
    | nil => rfl
    | cons b data =>
      have hout : ¬Within rcv (rcv.nxt - BitVec.ofNat 32 (d + 1)) := by
        unfold Within
        bv_omega
      rw [inside, if_neg hout, List.drop_succ_cons, ← ih (by omega)]
      congr 1
      bv_omega

/-! ## The parts -/

section Parts

variable {rcv : Rcv} {t : Trim}

theorem Received.bytes (h : Received t) : t.length.toNat = (bytes t.bs).length :=
  h.length.trans (blocklen_eq ..)

theorem Received.len (h : Received t) : t.len.toNat =
    t.length.toNat + (if t.seg.has SYN then 1 else 0) + (if t.seg.has FIN then 1 else 0) := by
  have hfits := h.fits
  unfold Trim.len
  split <;> split <;> bv_omega

/-- A segment is accepted when it begins in the window, or before it and comes up to it. -/
theorem accept_iff (h : Received t) (hw : rcv.wnd.toNat < 1073741824) (h0 : rcv.wnd ≠ 0) :
    t.accept rcv = true ↔ Within rcv t.seg.seq ∨ (rcv.nxt - t.seg.seq).toNat < t.len.toNat := by
  have hlen : t.len.toNat ≤ 65497 := by
    have := h.fits
    rw [h.len]
    split <;> split <;> omega
  have hwide : (t.len.setWidth 32).toNat = t.len.toNat := by bv_omega
  unfold Trim.accept inwindow Within
  simp only [Bool.or_eq_true, Bool.and_eq_true, decide_eq_true_eq, seq_within_iff h0]
  by_cases hn : t.len = 0
  · have : t.len.toNat = 0 := by rw [hn]; rfl
    simp [hn]
  · have hne : t.len.setWidth 32 ≠ 0 := fun h => hn (by bv_omega)
    rw [seq_within_iff hne]
    bv_omega

theorem has_clear {seg : Tcpseg} {flag flag' : BitVec 8} (h : ~~~flag' &&& flag = flag) :
    (seg.clear flag').has flag = seg.has flag := by
  unfold Tcpseg.has Tcpseg.clear
  rw [BitVec.and_assoc, h]

theorem has_clear_self {seg : Tcpseg} {flag : BitVec 8} : (seg.clear flag).has flag = false := by
  unfold Tcpseg.has Tcpseg.clear
  rw [BitVec.and_assoc]
  simp

theorem cutsyn_spec : t.cutsyn.seg.seq = t.seg.seq + 1 ∧ t.cutsyn.seg.has SYN = false ∧
    t.cutsyn.bs = t.bs ∧ t.cutsyn.length = t.length := by
  unfold Trim.cutsyn
  dsimp only
  split
  · exact ⟨rfl, has_clear_self, rfl, rfl⟩
  · exact ⟨rfl, (has_clear (by decide)).trans has_clear_self, rfl, rfl⟩

theorem cutdup_spec {d : Ulong} (h : Received t) (hd : d.toNat ≤ t.length.toNat) :
    (t.cutdup d).seg.seq = t.seg.seq + d ∧ (t.cutdup d).seg.has SYN = t.seg.has SYN ∧
      Received (t.cutdup d) ∧ bytes (t.cutdup d).bs = (bytes t.bs).drop d.toNat := by
  have hfits := h.fits
  have hd16 : (d.setWidth 16).toNat = d.toNat := by bv_omega
  obtain ⟨-, ho, hb⟩ := pullblock_spec h.ordered d.toNat
  have hbs : (t.cutdup d).bs = (pullblock t.bs d.toNat).2 := by
    unfold Trim.cutdup
    rw [hd16]
  have hl : (t.cutdup d).length.toNat = t.length.toNat - d.toNat := by
    show (t.length - d.setWidth 16).toNat = _
    bv_omega
  refine ⟨?_, ?_, ⟨?_, ?_, ?_⟩, ?_⟩
  · unfold Trim.cutdup
    dsimp only
    split <;> rfl
  · unfold Trim.cutdup
    dsimp only
    split
    · rfl
    · exact has_clear (by decide)
  · rw [hbs]
    exact ho
  · rw [hl, hbs, blocklen_eq, hb, List.length_drop, h.bytes]
  · omega
  · rw [hbs, hb]

/-- 1 for a SYN. -/
def Trim.syn (t : Trim) : Nat := if t.seg.has SYN then 1 else 0

theorem front_within (hw : rcv.wnd.toNat < 1073741824) (h : Within rcv t.seg.seq) :
    t.front rcv = t := by
  have h : (t.seg.seq - rcv.nxt).toNat < rcv.wnd.toNat := h
  have hle : ¬(rcv.nxt - t.seg.seq).toInt > 0 := by
    rw [BitVec.toInt_eq_toNat_cond]
    split <;> bv_omega
  exact if_neg hle

/-- A segment that begins before the window is cut to it. -/
theorem front_dup (h : Received t) {d : Nat} (hd : (rcv.nxt - t.seg.seq).toNat = d) (hpos : 0 < d)
    (hlt : d < t.len.toNat) : (t.front rcv).seg.seq = rcv.nxt ∧ (t.front rcv).seg.has SYN = false ∧
      Received (t.front rcv) ∧ bytes (t.front rcv).bs = (bytes t.bs).drop (d - t.syn) := by
  have hfits := h.fits
  have hlen := h.len
  have hint {x : Ulong} (hx : x.toNat ≤ 65536) : x.toInt = x.toNat := by
    rw [BitVec.toInt_eq_toNat_cond, if_pos (by omega)]
  have hd16 : d ≤ 65496 := by
    rw [hlen] at hlt
    split at hlt <;> split at hlt <;> omega
  unfold Trim.front Trim.syn
  dsimp only
  rw [hint (by omega), hd, if_pos (by omega)]
  cases hs : t.seg.has SYN with
  | false =>
    rw [hs, if_neg Bool.false_ne_true] at hlen
    simp only [Bool.false_eq_true, if_false, Nat.sub_zero]
    obtain ⟨hq, hn, hr, hb⟩ := cutdup_spec (d := rcv.nxt - t.seg.seq) h (by
      rw [hd]
      split at hlen <;> omega)
    exact ⟨hq.trans (by bv_omega), hn.trans hs, hr, hd ▸ hb⟩
  | true =>
    rw [hs, if_pos rfl] at hlen
    simp only [if_true]
    obtain ⟨hq, hn, hbs, hl⟩ := cutsyn_spec (t := t)
    have hd1 : (rcv.nxt - t.seg.seq - 1).toNat = d - 1 := by bv_omega
    have hr : Received t.cutsyn := ⟨hbs ▸ h.ordered, by rw [hbs, hl]; exact h.length, hl ▸ hfits⟩
    rw [hint (by omega), hd1]
    split
    · next hmore =>
      obtain ⟨hq', hn', hr', hb⟩ := cutdup_spec (d := rcv.nxt - t.seg.seq - 1) hr (by
        rw [hd1, hl]
        split at hlen <;> omega)
      refine ⟨hq'.trans ?_, hn'.trans hn, hr', ?_⟩
      · rw [hq]
        bv_omega
      · rw [hb, hbs, hd1]
    · next hone =>
      have h1 : d - 1 = 0 := by omega
      refine ⟨?_, hn, hr, ?_⟩
      · rw [hq]
        bv_omega
      · rw [hbs, h1, List.drop_zero]

theorem trimto_spec {bs : List Block} {n : Nat} (ho : ∀ b ∈ bs, b.Ordered) (hn : 0 < n)
    (hle : n ≤ blocklen bs) (hlen : blocklen bs ≤ 65495) :
    ∃ l, Trim.trimto bs n = .ok l ∧ bytes l = (bytes bs).take n := by
  cases bs with
  | nil => exact absurd (Nat.lt_of_lt_of_le hn hle) (Nat.lt_irrefl 0)
  | cons bp next =>
    obtain ⟨hb, hnext⟩ := List.forall_mem_cons.mp ho
    have hsum : 0 + n < 2 ^ 31 := by omega
    rcases trimblock_spec hb hnext (by omega) hsum with ⟨hlt, -⟩ | ⟨-, l, hl, hne, -, hd⟩
    · omega
    · have hempty : ¬l.isEmpty = true := fun h => hne (List.isEmpty_iff.mp h)
      have hto : Trim.trimto (bp :: next) n = (trimblock bp next 0 n).bind fun bs =>
          if bs.isEmpty then .error .panic else .ok bs := rfl
      rw [hl] at hto
      exact ⟨l, hto.trans (if_neg hempty), hd⟩

/-- A segment that begins in the window is cut off where the data are too many for it. -/
theorem back_spec (h : Received t) (hw : rcv.wnd.toNat < 1073741824)
    (hin : (t.seg.seq - rcv.nxt).toNat < rcv.wnd.toNat) :
    ∃ t', t.back rcv = .ok t' ∧ t'.seg.seq = t.seg.seq ∧ t'.seg.has SYN = t.seg.has SYN ∧
      bytes t'.bs = (bytes t.bs).take (rcv.wnd.toNat - (t.seg.seq - rcv.nxt).toNat) ∧
      t'.length.toNat = (bytes t'.bs).length := by
  have hfits := h.fits
  have hexcess : (t.seg.seq + t.length.setWidth 32 - (rcv.nxt + rcv.wnd)).toInt =
      (t.seg.seq - rcv.nxt).toNat + t.length.toNat - rcv.wnd.toNat := by
    rw [BitVec.toInt_eq_toNat_cond]
    split <;> bv_omega
  unfold Trim.back
  dsimp only
  rw [hexcess]
  split
  · next hpos =>
    generalize hl : t.length - (t.seg.seq + t.length.setWidth 32 - (rcv.nxt + rcv.wnd)).setWidth 16 =
      length
    have hn : length.toNat = rcv.wnd.toNat - (t.seg.seq - rcv.nxt).toNat := by
      subst hl
      bv_omega
    have hle : length.toNat ≤ blocklen t.bs := by
      rw [← h.length]
      omega
    have hpos : 0 < length.toNat := by omega
    obtain ⟨l, hl, hb⟩ := trimto_spec h.ordered hpos hle (h.length ▸ hfits)
    refine ⟨{ seg := t.seg.clear FIN, bs := l, length := length }, ?_, rfl, has_clear (by decide),
      hn ▸ hb, ?_⟩
    · rw [hl]
      rfl
    · show length.toNat = (bytes l).length
      rw [hb, List.length_take, ← blocklen_eq]
      omega
  · next hall =>
    have hlen := h.bytes
    exact ⟨t, rfl, rfl, rfl, (List.take_of_length_le (by omega)).symm, hlen⟩

end Parts

/-! ## Both ends -/

/-- A SYN is kept, and the data come up to the end of the window. -/
def Overlong (rcv : Rcv) (t : Trim) : Prop :=
  t.seg.has SYN = true ∧ Within rcv t.seg.seq ∧
    rcv.wnd.toNat ≤ (t.seg.seq - rcv.nxt).toNat + t.length.toNat

section Cuts

variable {rcv : Rcv} {t : Trim}

theorem cut_none (h : (∀ k < t.len.toNat, ¬Within rcv (t.number k)) ∨
    rcv.wnd = 0 ∧ ¬(t.len = 0 ∧ t.seg.seq = rcv.nxt)) : Cut rcv t none where
  data t' ht := by cases ht
  length t' ht := by cases ht
  seq t' ht := by cases ht
  syn t' ht := by cases ht
  none _ := h

/-- Nothing of a segment that is not accepted is in the window. -/
theorem cut_refused (h : Received t) (hout : ¬Within rcv t.seg.seq)
    (hfar : t.len.toNat ≤ (rcv.nxt - t.seg.seq).toNat) : Cut rcv t none := by
  refine cut_none (.inl fun k hk => ?_)
  have hfits := h.fits
  have hlen : t.len.toNat < 65536 := t.len.isLt
  unfold Within at hout ⊢
  unfold Trim.number
  bv_omega

/-- A segment that begins in the window is cut right unless it has a SYN too many. -/
theorem cut_within (h : Received t) (hw : rcv.wnd.toNat < 1073741824) (hin : Within rcv t.seg.seq) :
    ∃ t', (t.front rcv).back rcv = .ok t' ∧ (Cut rcv t (some t') ↔ ¬Overlong rcv t) := by
  have hs : (t.seg.seq - rcv.nxt).toNat < rcv.wnd.toNat := hin
  have hfits := h.fits
  rw [front_within hw hin]
  obtain ⟨t', hb, hq, hsyn, hbytes, hlen⟩ := back_spec h hw hs
  have hfirst : (t.first - rcv.nxt).toNat = (t.seg.seq - rcv.nxt).toNat + t.syn := by
    unfold Trim.first Trim.syn
    split <;> bv_omega
  have hinside : inside rcv t.first (bytes t.bs) =
      (bytes t.bs).take (rcv.wnd.toNat - ((t.seg.seq - rcv.nxt).toNat + t.syn)) := by
    have hone : t.syn ≤ 1 := by
      unfold Trim.syn
      split <;> omega
    rw [← hfirst]
    refine inside_take ?_
    rw [hfirst, ← h.bytes]
    omega
  refine ⟨t', hb, fun hc ho => ?_, fun ho => ⟨?_, ?_, ?_, ?_, fun h => by cases h⟩⟩
  · have hone : t.syn = 1 := if_pos ho.1
    have hover := ho.2.2
    have := congrArg List.length (hc.data t' rfl)
    rw [hbytes, hinside, hone, List.length_take, List.length_take, ← h.bytes] at this
    omega
  · rintro _ ⟨⟩
    rw [hbytes, hinside]
    cases hhas : t.seg.has SYN with
    | false =>
      have hnone : t.syn = 0 := if_neg (by rw [hhas]; exact Bool.false_ne_true)
      rw [hnone, Nat.add_zero]
    | true =>
      have hone : t.syn = 1 := if_pos hhas
      have hover : ¬rcv.wnd.toNat ≤ (t.seg.seq - rcv.nxt).toNat + t.length.toNat :=
        fun hle => ho ⟨hhas, hin, hle⟩
      have hl := h.bytes
      rw [hone, List.take_of_length_le (by omega), List.take_of_length_le (by omega)]
  · rintro _ ⟨⟩
    exact hlen
  · rintro _ ⟨⟩ k - - hno
    have h0 : k = 0 := by
      by_contra hne
      exact hno 0 (by omega) (by simpa [Trim.number] using hin)
    rw [hq, h0]
    exact (BitVec.add_zero _).symm
  · rintro _ ⟨⟩
    rw [hsyn]
    exact ⟨fun h => ⟨h, hin⟩, And.left⟩

/-- A segment that begins before the window, and comes up to it, is cut right. -/
theorem cut_dup (h : Received t) (hw : rcv.wnd.toNat < 1073741824) (h0 : rcv.wnd ≠ 0)
    (hout : ¬Within rcv t.seg.seq) (hlt : (rcv.nxt - t.seg.seq).toNat < t.len.toNat) :
    ∃ t', (t.front rcv).back rcv = .ok t' ∧ Cut rcv t (some t') := by
  have hpos : 0 < (rcv.nxt - t.seg.seq).toNat := by
    unfold Within at hout
    bv_omega
  have hwide : t.len.toNat < 65536 := t.len.isLt
  obtain ⟨hq, hsyn, hr, hbytes⟩ := front_dup h rfl hpos hlt
  have hself : ((t.front rcv).seg.seq - rcv.nxt).toNat = 0 := by rw [hq]; bv_omega
  obtain ⟨t', hb, hq', hsyn', hbytes', hlen⟩ := back_spec hr hw (by rw [hself]; bv_omega)
  generalize hd : (rcv.nxt - t.seg.seq).toNat = d at hpos hlt hbytes
  have hfirst : t.first = rcv.nxt - BitVec.ofNat 32 (d - t.syn) := by
    unfold Trim.first Trim.syn
    split <;> bv_omega
  have hdata : bytes t'.bs = inside rcv t.first (bytes t.bs) := by
    have hnxt : (rcv.nxt - rcv.nxt).toNat = 0 := by bv_omega
    have hl := hr.bytes
    have hfits := hr.fits
    rw [hfirst, inside_drop (by omega) hw, ← hbytes, inside_take (by rw [hnxt]; omega), hbytes', hself,
      hnxt]
  have hbefore (k : Nat) (hk : k < d) : ¬Within rcv (t.number k) := by
    unfold Within Trim.number
    bv_omega
  have hat : t.number d = rcv.nxt := by
    unfold Trim.number
    bv_omega
  have hnxt : Within rcv rcv.nxt := by
    unfold Within
    bv_omega
  refine ⟨t', hb, ?_, ?_, ?_, ?_, fun h => by cases h⟩
  · rintro _ ⟨⟩
    exact hdata
  · rintro _ ⟨⟩
    exact hlen
  · rintro _ ⟨⟩ k - hin hno
    have hk : k = d := by
      by_contra hne
      rcases Nat.lt_or_gt_of_ne hne with hk | hk
      · exact hbefore k hk hin
      · exact hno d hk (hat ▸ hnxt)
    rw [hq', hq, hk, hat]
  · rintro _ ⟨⟩
    rw [hsyn', hsyn]
    exact iff_of_false Bool.false_ne_true fun h => hout h.2

end Cuts

/-- `tcptrim` returns, and cuts a segment to the window unless a SYN is kept and the data come up to
the end of the window. -/
theorem tcptrim_cuts {rcv : Rcv} {t : Trim} (h : Received t) (hw : rcv.wnd.toNat < 1073741824) :
    ∃ r, tcptrim rcv t = .ok r ∧ (Cut rcv t r ↔ ¬Overlong rcv t) := by
  have hlen := h.len
  unfold tcptrim
  by_cases h0 : rcv.wnd = 0
  · have hnone (x : Ulong) : ¬Within rcv x := by
      unfold Within
      bv_omega
    rw [if_pos h0]
    split
    · next he =>
      have hl : t.len.toNat = 0 := by rw [he.1]; rfl
      have hdata : bytes t.bs = [] := List.eq_nil_of_length_eq_zero (by rw [← h.bytes]; omega)
      have hsyn : t.seg.has SYN = false := by
        by_contra hne
        rw [if_pos (Bool.eq_true_of_not_eq_false hne)] at hlen
        omega
      refine ⟨some t, rfl, iff_of_true ⟨?_, ?_, ?_, ?_, fun h => by cases h⟩ fun ho => hnone _ ho.2.1⟩
      · rintro _ ⟨⟩
        rw [hdata]
        rfl
      · rintro _ ⟨⟩
        exact h.bytes
      · rintro _ ⟨⟩ k hk
        omega
      · rintro _ ⟨⟩
        rw [hsyn]
        exact iff_of_false Bool.false_ne_true fun h => Bool.false_ne_true h.1
    · next he =>
      exact ⟨none, rfl, iff_of_true (cut_none (.inr ⟨h0, he⟩)) fun ho => hnone _ ho.2.1⟩
  · rw [if_neg h0]
    by_cases ha : t.accept rcv = true
    · rw [if_pos ha]
      by_cases hin : Within rcv t.seg.seq
      · obtain ⟨t', hb, hc⟩ := cut_within h hw hin
        exact ⟨some t', by rw [hb]; rfl, hc⟩
      · have hlt := ((accept_iff h hw h0).mp ha).resolve_left hin
        obtain ⟨t', hb, hc⟩ := cut_dup h hw h0 hin hlt
        exact ⟨some t', by rw [hb]; rfl, iff_of_true hc fun ho => hin ho.2.1⟩
    · rw [if_neg ha]
      rw [accept_iff h hw h0, not_or] at ha
      exact ⟨none, rfl, iff_of_true (cut_refused h ha.1 (by omega)) fun ho => ha.1 ho.2.1⟩

/-! ### A segment of two bytes -/

/-- A block of two bytes. -/
private def twobytes : Block where
  mem a := if a = 0 then 7 else 8
  rp := 0
  wp := 2
  lim := 2
  foff := 0
  flen := 0

private def received (flags : BitVec 8) : Trim where
  seg := { seq := 100, flags := flags, urg := 0 }
  bs := [twobytes]
  length := 2

theorem received_fits (flags : BitVec 8) : Received (received flags) where
  ordered b hb := by
    cases List.mem_singleton.mp hb
    exact ⟨by decide, by decide⟩
  length := rfl
  fits := show (2 : Ushort).toNat ≤ 65495 by decide

theorem tcptrim_cuts_front : ∃ r, tcptrim { nxt := 101, wnd := 5 } (received FIN) = .ok r ∧
    (Cut { nxt := 101, wnd := 5 } (received FIN) r ↔
      ¬Overlong { nxt := 101, wnd := 5 } (received FIN)) :=
  tcptrim_cuts (received_fits FIN) (by decide)

/-- A window of two numbers has room for a SYN and one byte, and both bytes are kept. -/
theorem tcptrim_syn : ¬∀ (rcv : Rcv) (t : Trim), Received t → rcv.wnd.toNat < 1073741824 →
    ∃ r, tcptrim rcv t = .ok r ∧ Cut rcv t r := by
  intro h
  obtain ⟨r, hr, hc⟩ := h { nxt := 100, wnd := 2 } (received SYN) (received_fits SYN) (by decide)
  have hrun : tcptrim { nxt := 100, wnd := 2 } (received SYN) = .ok (some (received SYN)) := rfl
  cases hr.symm.trans hrun
  exact absurd (hc.data _ rfl) (by decide)

end NixMark.Tcp
