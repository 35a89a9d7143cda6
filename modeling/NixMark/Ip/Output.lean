import Mathlib.Data.Nat.Bitwise
import NixMark.Ip.Overlap

/-!
# Packets to an interface (`ipoput4` of `ip/ip.c`)

A datagram that is longer than the interface takes is cut into fragments. Their data is copied out of
a chain of blocks of any sizes; the offset, the flag and the length are computed from counters.

* `ipoput4`: the packets that the medium is given.
* `Tiles`: packets that are the fragments of a datagram in the order of their offsets; they end where
  the next one begins.
* `segs_tiles`: the packets of `ipoput4` are such. `setcksum_ipcsum`: their checksums are right.
-/

namespace NixMark.Ip

open Block

/-- The interface that the route leads to, and `maxfragsize` of the conversation (0 without one). -/
structure Link where
  maxtu : Nat
  hsize : Nat
  maxfragsize : Nat

/-- The room for a packet; where the code's difference is negative, no packet fits either. -/
def Link.medialen (k : Link) : Nat :=
  if k.maxfragsize ≠ 0 ∧ k.maxfragsize < k.maxtu then k.maxfragsize - k.hsize
  else k.maxtu - k.hsize

/-- The checksum is computed with zero in its place. -/
def setcksum (b : Block) : Block := (b.hnputs 10 0).hnputs 10 (b.hnputs 10 0).ipcsum

/-- The fields that are filled in for every packet. -/
def fill (gating : Bool) (ttl tos : Nat) (b : Block) : Block :=
  let b := if gating then b else b.setbyte 0 (IP_VER4 + IP_HLEN4)
  let b := b.setbyte 8 ttl
  if gating then b else b.setbyte 1 tos

/-- A packet that is sent as it is. -/
def whole (gating : Bool) (id4 len : Nat) (b : Block) : Block :=
  let b := if gating then b else b.hnputs 4 id4
  let b := b.hnputs 2 len
  setcksum (if gating then b else b.hnputs 6 0)

/-- The loop that skips the header. -/
def skiphdr (offset : Nat) : List Block → List Block
  | [] => []
  | b :: xs =>
    if offset ≠ 0 ∧ b.BLEN ≤ offset then skiphdr (offset - b.BLEN) xs
    else { b with rp := b.rp + offset } :: xs

/-- The loop that copies `chunk` bytes to a fragment; `none` when the chain ends before. -/
def copy (nb : Block) (chunk : Nat) : List Block → Option (Block × List Block)
  | [] => if chunk = 0 then some (nb, []) else none
  | b :: xs =>
    if chunk = 0 then some (nb, b :: xs)
    else if chunk < b.BLEN then some (nb.put b chunk, { b with rp := b.rp + chunk } :: xs)
    else copy (nb.put b b.BLEN) (chunk - b.BLEN) xs

/-- A new fragment with its header: `n` bytes of data at `fragoff`, of `dlen`. -/
def seghdr (eh : Block) (lid dlen seglen n fragoff : Nat) : Block :=
  let nb := (allocb (IP4HDR + seglen)).put eh IP4HDR
  let nb := nb.hnputs 6 (if dlen ≤ fragoff + seglen then fragoff / 8 else fragoff / 8 ||| IP_MF)
  (nb.hnputs 2 (n + IP4HDR)).hnputs 4 lid

/-- The loop over the fragments; each one takes at least one byte, so `dlen` bounds the rounds. -/
def segs (eh : Block) (lid dlen seglen : Nat) : Nat → Nat → List Block → List Block
  | 0, _, _ => []
  | fuel + 1, fragoff, xs =>
    if dlen ≤ fragoff then []
    else
      let n := if dlen ≤ fragoff + seglen then dlen - fragoff else seglen
      match copy (seghdr eh lid dlen seglen n fragoff) n xs with
      | none => []
      | some (nb, xs) => setcksum nb :: segs eh lid dlen seglen fuel (fragoff + n) xs

/-- The fragments of a datagram of `len` bytes. -/
def fragments (gating : Bool) (id4 len seglen : Nat) (bp : Block) (next : List Block) : List Block :=
  let dlen := len - IP4HDR
  let lid := if gating then bp.id else id4
  let fragoff := if gating then bp.frag <<< 3 else 0
  segs bp lid (dlen + fragoff) seglen dlen fragoff (skiphdr IP4HDR (bp :: next))

/-- `ipoput4` after `id4` was counted up: the packets for the medium, or `none` when an assertion
fails. There is no `link` without a route, or when the interface is locked or has no medium. -/
def ipoput4 (id4 : Nat) (link : Option Link) (bp : Block) (next : List Block) (gating : Bool)
    (ttl tos : Nat) : Option (List Block) :=
  let len := blocklen (bp :: next)
  if gating ∧ len < bp.length then some []
  else
    let len := if gating then min bp.length len else len
    if IP_MAX ≤ len then some []
    else
      match link with
      | none => some []
      | some k =>
        let bp := fill gating ttl tos bp
        if len ≤ k.medialen then
          if next = [] then some [whole gating id4 len bp] else none
        else if bp.byte 6 &&& (IP_DF / 256) ≠ 0 then some []
        else
          let seglen := (k.medialen - IP4HDR) / 8 * 8
          if seglen < 8 then some []
          else some (fragments gating id4 len seglen bp next)

variable {b nb eh : Block} {xs xs' l : List Block} {n : Nat}

/-! ## The checksum -/

/-- The end around carry keeps a sum modulo 65535. -/
theorem fold_mod (s : Nat) : fold s % 65535 = s % 65535 := by
  unfold fold
  omega

theorem fold_pos {s : Nat} (h : 0 < s) : 0 < fold s := by
  unfold fold
  omega

theorem xor_ffff {x : Nat} (h : x < 65536) : x ^^^ 0xffff = 0xffff - x := by
  have := congrArg BitVec.toNat (BitVec.xor_allOnes (x := BitVec.ofNat 16 x))
  rw [BitVec.toNat_xor, BitVec.toNat_not, BitVec.toNat_ofNat, BitVec.toNat_allOnes,
    Nat.mod_eq_of_lt h] at this
  exact this

theorem ipcsum_eq (b : Block) :
    b.ipcsum = 0xffff - fold (fold ((List.range (b.vihl % 16 * 2)).map fun k =>
      b.nhgets (2 * k)).sum) % 65536 := xor_ffff (Nat.mod_lt _ (by decide))

/-- Two carries leave a number of 16 bits. -/
theorem fold_fold {s : Nat} (h0 : 0 < s) (h : s < 2 ^ 24) :
    0 < fold (fold s) ∧ fold (fold s) ≤ 65535 ∧ fold (fold s) % 65535 = s % 65535 := by
  refine ⟨fold_pos (fold_pos h0), ?_, by rw [fold_mod, fold_mod]⟩
  unfold fold
  omega

/-- A sum in which one of the terms changes. -/
theorem sum_range_change {f g : Nat → Nat} {j : Nat} (n : Nat) (h : ∀ k, k ≠ j → g k = f k) :
    ((List.range n).map g).sum + (if j < n then f j else 0) =
      ((List.range n).map f).sum + if j < n then g j else 0 := by
  induction n with
  | zero => rfl
  | succ n ih =>
    simp only [List.range_succ, List.map_append, List.sum_append, List.map_singleton,
      List.sum_singleton]
    rcases Nat.lt_trichotomy j n with hj | rfl | hj
    · rw [if_pos hj, if_pos hj] at ih
      rw [if_pos (by omega), if_pos (by omega), h n (by omega)]
      omega
    · rw [if_neg (by omega), if_neg (by omega)] at ih
      rw [if_pos (by omega), if_pos (by omega)]
      omega
    · rw [if_neg (by omega), if_neg (by omega)] at ih
      rw [if_neg (by omega), if_neg (by omega), h n (by omega)]
      omega

theorem sum_range_le {f : Nat → Nat} {m : Nat} (n : Nat) (h : ∀ k, f k ≤ m) :
    ((List.range n).map f).sum ≤ n * m := by
  induction n with
  | zero => exact Nat.zero_le _
  | succ n ih =>
    have := h n
    rw [List.range_succ, List.map_append, List.sum_append, List.map_singleton, List.sum_singleton,
      Nat.succ_mul]
    omega

/-- The sum of a header with its checksum is a multiple of 65535 that is not zero. -/
theorem setcksum_ipcsum (hv : IP_HLEN4 ≤ b.vihl % 16) : (setcksum b).ipcsum = 0 := by
  have hv₁ : (b.hnputs 10 0).vihl = b.vihl := byte_hnputs_ne (by decide) (by decide)
  have hv₂ : (setcksum b).vihl = b.vihl := (byte_hnputs_ne (by decide) (by decide)).trans hv₁
  have hc := ipcsum_eq (b.hnputs 10 0)
  have hr := ipcsum_eq (setcksum b)
  rw [hv₁] at hc
  rw [hv₂] at hr
  unfold IP_HLEN4 at hv
  generalize hn : b.vihl % 16 * 2 = n at hc hr
  -- only the word of the checksum changes, from zero
  have hchange := sum_range_change (f := fun k => (b.hnputs 10 0).nhgets (2 * k))
    (g := fun k => (setcksum b).nhgets (2 * k)) (j := 5) n
    fun k hk => nhgets_hnputs_ne (by omega)
  have h10 : (b.hnputs 10 0).nhgets (2 * 5) = 0 := nhgets_hnputs _ _ _
  have h10' : (setcksum b).nhgets (2 * 5) = (b.hnputs 10 0).ipcsum := by
    rw [setcksum, nhgets_hnputs, hc]
    exact Nat.mod_eq_of_lt (by omega)
  have hle := sum_range_le (f := fun k => (b.hnputs 10 0).nhgets (2 * k)) (m := 65535) n
    fun k => Nat.le_of_lt_succ ((b.hnputs 10 0).nhgets_lt _)
  -- the first word has the length of the header in it
  have hpos : 0 < ((List.range n).map fun k => (b.hnputs 10 0).nhgets (2 * k)).sum := by
    obtain ⟨m, rfl⟩ : ∃ m, n = m + 1 := ⟨n - 1, by omega⟩
    have h0 : 0 < (b.hnputs 10 0).nhgets 0 := by
      have hb : (b.hnputs 10 0).byte 0 = b.vihl := hv₁
      unfold Block.nhgets
      omega
    rw [List.range_succ_eq_map, List.map_cons, List.sum_cons]
    exact Nat.add_pos_left h0 _
  simp only [h10, h10', if_pos (show 5 < n by omega), Nat.add_zero] at hchange
  rw [hchange] at hr
  generalize ((List.range n).map fun k => (b.hnputs 10 0).nhgets (2 * k)).sum = s at *
  generalize (b.hnputs 10 0).ipcsum = c at *
  have hn' : n ≤ 30 := by omega
  have hs : s < 2 ^ 21 := by omega
  obtain ⟨h₁, h₂, h₃⟩ := fold_fold hpos (by omega)
  obtain ⟨h₄, h₅, h₆⟩ := fold_fold (s := s + c) (by omega) (by omega)
  rw [Nat.mod_eq_of_lt (by omega)] at hc hr
  omega

/-! ## Copying out of the chain -/

theorem drop_bytes (h : b.BLEN ≤ n) : (bytes (b :: xs)).drop n = (bytes xs).drop (n - b.BLEN) := by
  rw [bytes_cons, List.drop_append, data_length, List.drop_of_length_le (by rwa [data_length]),
    List.nil_append]

/-- A part of the first block is skipped. -/
theorem skip_bytes (hb : b.Ordered) (h : n ≤ b.BLEN) :
    bytes ({ b with rp := b.rp + n } :: xs) = (bytes (b :: xs)).drop n ∧
      ({ b with rp := b.rp + n } : Block).Ordered := by
  refine ⟨?_, ?_, hb.2⟩
  · rw [bytes_cons, bytes_cons, data_skip h, List.drop_append_of_le_length (by rwa [data_length])]
  · have := hb.1
    unfold BLEN at h
    simp only
    omega

theorem skiphdr_spec (n : Nat) (hx : ∀ b ∈ xs, b.Ordered) :
    bytes (skiphdr n xs) = (bytes xs).drop n ∧ ∀ b ∈ skiphdr n xs, b.Ordered := by
  induction xs generalizing n with
  | nil => exact ⟨List.drop_nil.symm, hx⟩
  | cons b xs ih =>
    have hb := hx b List.mem_cons_self
    have hx' := fun c hc => hx c (List.mem_cons_of_mem b hc)
    rw [skiphdr]
    split_ifs with hlen
    · obtain ⟨h₁, h₂⟩ := ih (n - b.BLEN) hx'
      exact ⟨by rw [h₁, drop_bytes hlen.2], h₂⟩
    · obtain ⟨h₁, h₂⟩ := skip_bytes hb (show n ≤ b.BLEN by omega)
      refine ⟨h₁, ?_⟩
      rintro c (_ | ⟨_, hc⟩)
      · exact h₂
      · exact hx' c hc

/-- The memory of a fragment after `n` bytes were copied. -/
structure Copied (nb nb' : Block) (n : Nat) (data : List UInt8) : Prop where
  rp : nb'.rp = nb.rp
  wp : nb'.wp = nb.wp + n
  lim : nb'.lim = nb.lim
  frame : ∀ a < nb.wp, nb'.mem a = nb.mem a
  data : window nb'.mem nb.wp n = data.take n

theorem put_copied (nb b : Block) (h : n ≤ b.BLEN) : Copied nb (nb.put b n) n b.data where
  rp := rfl
  wp := rfl
  lim := rfl
  frame a ha := if_neg (by omega)
  data := by
    rw [Block.data, window_take h]
    refine window_congr fun k hk => ?_
    exact (if_pos ⟨Nat.le_add_right _ _, Nat.add_lt_add_left hk _⟩).trans
      (by rw [Nat.add_sub_cancel_left])

theorem Copied.trans {nb₁ nb₂ nb₃ : Block} {n m : Nat} {d e : List UInt8} (h : Copied nb₁ nb₂ n d)
    (hd : d.length = n) (h' : Copied nb₂ nb₃ m e) : Copied nb₁ nb₃ (n + m) (d ++ e) where
  rp := h'.rp.trans h.rp
  wp := by rw [h'.wp, h.wp, Nat.add_assoc]
  lim := h'.lim.trans h.lim
  frame a ha := (h'.frame a (by rw [h.wp]; omega)).trans (h.frame a ha)
  data := by
    have hfst : window nb₃.mem nb₁.wp n = window nb₂.mem nb₁.wp n :=
      window_frame fun x _ hx => h'.frame x (by rw [h.wp]; exact hx)
    have hd' : d.length ≤ n + m := hd.le.trans (Nat.le_add_right _ _)
    rw [window_add, hfst, h.data, ← h.wp, h'.data, List.take_append, hd, Nat.add_sub_cancel_left,
      List.take_of_length_le hd.le, List.take_of_length_le hd']

/-- The loop copies from the chain, and leaves the rest of it. -/
theorem copy_spec (nb : Block) (hx : ∀ b ∈ xs, b.Ordered) (hn : n ≤ blocklen xs) :
    ∃ nb' xs', copy nb n xs = some (nb', xs') ∧ Copied nb nb' n (bytes xs) ∧
      bytes xs' = (bytes xs).drop n ∧ ∀ b ∈ xs', b.Ordered := by
  induction xs generalizing nb n with
  | nil =>
    have h0 : n = 0 := Nat.le_zero.mp hn
    subst h0
    exact ⟨nb, [], rfl, ⟨rfl, rfl, rfl, fun _ _ => rfl, rfl⟩, rfl, List.forall_mem_nil _⟩
  | cons b xs ih =>
    have hb := hx b List.mem_cons_self
    have hx' := fun c hc => hx c (List.mem_cons_of_mem b hc)
    have hblen : blocklen (b :: xs) = b.BLEN + blocklen xs := by
      rw [blocklen, List.map_cons, List.sum_cons, ← blocklen]
    rw [copy]
    split_ifs with h0 hlen
    · subst h0
      exact ⟨nb, b :: xs, rfl, ⟨rfl, rfl, rfl, fun _ _ => rfl, rfl⟩, rfl, hx⟩
    · obtain ⟨h₁, h₂⟩ := skip_bytes hb hlen.le
      refine ⟨_, _, rfl, ?_, h₁, ?_⟩
      · have hput := put_copied nb b hlen.le
        refine ⟨hput.rp, hput.wp, hput.lim, hput.frame, ?_⟩
        rw [hput.data, bytes_cons, List.take_append_of_le_length (by rw [data_length]; omega)]
      · rintro c (_ | ⟨_, hc⟩)
        · exact h₂
        · exact hx' c hc
    · have hle := Nat.le_of_not_lt hlen
      obtain ⟨nb', xs', h₁, h₂, h₃, h₄⟩ := ih (nb.put b b.BLEN) hx' (show n - b.BLEN ≤ _ by omega)
      refine ⟨nb', xs', h₁, ?_, by rw [h₃, drop_bytes hle], h₄⟩
      have := (put_copied nb b (Nat.le_refl _)).trans b.data_length h₂
      rwa [Nat.add_sub_cancel' hle, ← bytes_cons] at this

/-! ## One fragment -/

/-- The packet as `ipiput4` passes it on: `tos` holds the flag. -/
def mark (b : Block) : Block := b.setbyte 1 (if b.more then 1 else 0)

/-- A packet for a medium with room for `room` bytes: a fragment that is not empty. -/
structure IsTile (d : Datagram) (room : Nat) (b : Block) : Prop where
  arrived : Arrived b []
  room : b.BLEN ≤ room
  len : b.BLEN = b.length
  cksum : b.ipcsum = 0
  pos : IP4HDR < b.length
  fragment : FragmentOf d (mark b) []

theorem more_iff (b : Block) : b.more = true ↔ b.frag / 8192 % 2 = 1 := by
  have hbit : (b.byte 6 &&& 2 ^ 5 ≠ 0) ↔ b.byte 6 / 2 ^ 5 % 2 = 1 := by
    rw [Nat.and_two_pow, Nat.testBit_eq_decide_div_mod_eq]
    simp
  have hlt := b.byte_lt (6 + 1)
  have hfrag : b.frag / 8192 = b.byte 6 / 2 ^ 5 := by
    unfold Block.frag Block.nhgets
    omega
  rw [hfrag, ← hbit, Block.more]
  exact decide_eq_true_iff

/-- Blocks whose memory is the same up to the end of the header. -/
theorem byte_frame {c : Block} (hrp : c.rp = b.rp) (h : ∀ a < b.rp + IP4HDR, c.mem a = b.mem a)
    {o : Nat} (ho : o < IP4HDR) : c.byte o = b.byte o := by
  rw [Block.byte, Block.byte, hrp, h _ (Nat.add_lt_add_left ho _)]

/-- The flag that is set in the word of the offset. -/
theorem or_IP_MF (x : Nat) : (x ||| IP_MF) % 8192 = x % 8192 ∧ (x ||| IP_MF) / 8192 % 2 = 1 := by
  have hmod := Nat.or_mod_two_pow (a := x) (b := IP_MF) (n := 13)
  have hbit := Nat.testBit_or x IP_MF 13
  have hmf : IP_MF % 2 ^ 13 = 0 := rfl
  have htrue : IP_MF.testBit 13 = true := rfl
  rw [hmf, Nat.or_zero] at hmod
  rw [htrue, Bool.or_true, Nat.testBit_eq_decide_div_mod_eq, decide_eq_true_eq] at hbit
  exact ⟨hmod, hbit⟩

/-- The header of a new fragment, and the room behind it. -/
theorem seghdr_spec (eh : Block) (lid dlen seglen n fragoff : Nat) :
    let h := seghdr eh lid dlen seglen n fragoff
    h.wp = h.rp + IP4HDR ∧ h.wp + seglen ≤ h.lim ∧ h.nhgets 2 = (n + IP4HDR) % 65536 ∧
      h.nhgets 4 = lid % 65536 ∧
      h.nhgets 6 = (if dlen ≤ fragoff + seglen then fragoff / 8 else fragoff / 8 ||| IP_MF) % 65536 ∧
      ∀ o < IP4HDR, o < 2 ∨ 7 < o → h.byte o = eh.byte o := by
  have hroom := allocb_room (IP4HDR + seglen)
  have hord := (allocb_ordered (IP4HDR + seglen)).2
  have hwp : (allocb (IP4HDR + seglen)).wp = (allocb (IP4HDR + seglen)).rp := rfl
  refine ⟨rfl, ?_, ?_, ?_, ?_, fun o ho ho' => ?_⟩
  · simp only [seghdr, Block.put, hnputs_wp, hnputs_lim]
    omega
  · exact (nhgets_hnputs_ne (.inl (by decide))).trans (nhgets_hnputs _ _ _)
  · exact nhgets_hnputs _ _ _
  · exact (nhgets_hnputs_ne (.inr (by decide))).trans ((nhgets_hnputs_ne (.inr (by decide))).trans
      (nhgets_hnputs _ _ _))
  · have hput : ((allocb (IP4HDR + seglen)).put eh IP4HDR).byte o = eh.byte o := by
      have hin : (allocb (IP4HDR + seglen)).wp ≤ (allocb (IP4HDR + seglen)).rp + o ∧
          (allocb (IP4HDR + seglen)).rp + o < (allocb (IP4HDR + seglen)).wp + IP4HDR := by omega
      simp only [Block.byte, Block.put]
      rw [if_pos hin, hwp, Nat.add_sub_cancel_left]
    exact (byte_hnputs_ne (by omega) (by omega)).trans
      ((byte_hnputs_ne (by omega) (by omega)).trans
        ((byte_hnputs_ne (by omega) (by omega)).trans hput))

variable {d : Datagram} {room lid seglen off : Nat}

/-- The fields of a fragment that was copied and has its checksum are those of its header. -/
theorem setcksum_byte {h : Block} {data : List UInt8} (hc : Copied h nb n data)
    (hwp : h.wp = h.rp + IP4HDR) {o : Nat} (ho : o < IP4HDR) (ho' : o < 10 ∨ 11 < o) :
    (setcksum nb).byte o = h.byte o := by
  have hframe : nb.byte o = h.byte o := byte_frame hc.rp (fun a ha => hc.frame a (hwp ▸ ha)) ho
  rw [setcksum, byte_hnputs_ne (by omega) (by omega), byte_hnputs_ne (by omega) (by omega), hframe]

/-- The packet `c` that the loop makes of `n` bytes of `data`, from the byte `pos` on; `frag` is the
word of the offset with its flags. -/
structure IsCut (eh : Block) (lid frag : Nat) (data : List UInt8) (pos n : Nat) (c : Block) :
    Prop where
  first : c.Ordered
  BLEN : c.BLEN = IP4HDR + n
  length : c.length = IP4HDR + n
  id : c.id = lid % 65536
  fields : ∀ o < IP4HDR, o < 2 ∨ 7 < o → o < 10 ∨ 11 < o → c.byte o = eh.byte o
  offset : c.offset = (frag * 8 + pos) % 65536
  more : frag % 8192 * 8 + pos < 65536 →
    (c.more = true ↔ frag / 8192 % 2 = 1 ∨ pos + n < data.length)
  data : (bytes [c]).drop IP4HDR = (data.drop pos).take n
  cksum : IP_HLEN4 ≤ eh.vihl % 16 → c.ipcsum = 0

/-- One round of the loop. -/
theorem cut_spec (eh : Block) (lid frag : Nat) {data all : List UInt8} {pos : Nat} (hall : data = all.take data.length)
    (hpos : pos % 8 = 0) (hlt : pos < data.length) (hmax : IP4HDR + data.length < 65536)
    (hn : n = if data.length ≤ pos + seglen then data.length - pos else seglen)
    (hseg : 8 ≤ seglen) (hx : ∀ b ∈ xs, b.Ordered) (hxs : bytes xs = all.drop pos) :
    ∃ nb xs', copy (seghdr eh lid (data.length + frag * 8) seglen n (frag * 8 + pos)) n xs =
        some (nb, xs') ∧
      IsCut eh lid frag data pos n (setcksum nb) ∧ bytes xs' = all.drop (pos + n) ∧
      ∀ b ∈ xs', b.Ordered := by
  have hn₁ : 0 < n ∧ n ≤ seglen ∧ pos + n ≤ data.length := by
    rw [hn]
    split_ifs <;> omega
  have hlast : data.length + frag * 8 ≤ frag * 8 + pos + seglen ↔ pos + n = data.length := by
    rw [hn]
    split_ifs <;> omega
  have hle : data.length ≤ all.length := by
    rw [hall, List.length_take]
    exact Nat.min_le_right _ _
  obtain ⟨hwp, hlim, h2, h4, h6, hbyte⟩ :=
    seghdr_spec eh lid (data.length + frag * 8) seglen n (frag * 8 + pos)
  have hlen : n ≤ blocklen xs := by
    rw [blocklen_eq, hxs, List.length_drop]
    omega
  generalize seghdr eh lid (data.length + frag * 8) seglen n (frag * 8 + pos) = h
    at hwp hlim h2 h4 h6 hbyte
  obtain ⟨nb, xs', hcopy, hc, hrest, hx'⟩ := copy_spec h hx hlen
  refine ⟨nb, xs', hcopy, ?_, by rw [hrest, hxs, List.drop_drop], hx'⟩
  have hB := fun o ho ho' => setcksum_byte (o := o) hc hwp ho ho'
  have hS : ∀ o, o + 1 < IP4HDR → o + 1 < 10 ∨ 11 < o →
      (setcksum nb).nhgets o = h.nhgets o := by
    intro o ho ho'
    rw [Block.nhgets, Block.nhgets, hB o (by omega) (by omega), hB (o + 1) ho (by omega)]
  have hrp : (setcksum nb).rp = h.rp := hc.rp
  have hwp' : (setcksum nb).wp = h.wp + n := hc.wp
  have hlim' : (setcksum nb).lim = h.lim := hc.lim
  have hBLEN : (setcksum nb).BLEN = IP4HDR + n := by
    rw [BLEN, hrp, hwp', hwp]
    omega
  -- the flag does not change the offset, and the offset does not change the flags
  have hfrag : (setcksum nb).frag % 8192 = (frag + pos / 8) % 8192 ∧
      (frag % 8192 * 8 + pos < 65536 → ((setcksum nb).frag / 8192 % 2 = 1 ↔
        frag / 8192 % 2 = 1 ∨ pos + n < data.length)) := by
    have hdiv : (frag * 8 + pos) / 8 = frag + pos / 8 := by omega
    obtain ⟨hmf, hmf'⟩ := or_IP_MF (frag + pos / 8)
    rw [Block.frag, hS 6 (by decide) (by decide), h6]
    simp only [hlast, hdiv]
    split_ifs with hend
    · refine ⟨by omega, fun hin => ?_⟩
      omega
    · refine ⟨by omega, fun _ => ?_⟩
      omega
  have hvihl : nb.vihl = eh.vihl := by
    have hframe : nb.byte 0 = h.byte 0 :=
      byte_frame hc.rp (fun a ha => hc.frame a (hwp ▸ ha)) (by decide)
    exact hframe.trans (hbyte 0 (by decide) (by decide))
  have hwin : window (setcksum nb).mem h.wp n = (data.drop pos).take n := by
    have hcrp := hc.rp
    calc window (setcksum nb).mem h.wp n
        = window (nb.hnputs 10 0).mem h.wp n :=
          window_hnputs (show nb.rp + 10 + 1 < h.wp by unfold IP4HDR at hwp; omega)
      _ = window nb.mem h.wp n :=
          window_hnputs (show nb.rp + 10 + 1 < h.wp by unfold IP4HDR at hwp; omega)
      _ = (all.drop pos).take n := by rw [hc.data, hxs]
      _ = (data.drop pos).take n := by
          rw [hall, List.drop_take, List.take_take, Nat.min_eq_left (by omega)]
  refine ⟨⟨?_, ?_⟩, hBLEN, ?_, ?_, fun o ho ho' h10 => ?_, ?_, ?_, ?_, fun hv => ?_⟩
  · rw [hrp, hwp']
    omega
  · rw [hwp', hlim']
    omega
  · rw [Block.length, hS 2 (by decide) (by decide), h2]
    unfold IP4HDR at *
    omega
  · rw [Block.id, hS 4 (by decide) (by decide), h4]
  · rw [hB o ho h10, hbyte o ho ho']
  · rw [Block.offset, Nat.shiftLeft_eq]
    omega
  · rw [more_iff]
    exact hfrag.2
  · rw [bytes_cons, bytes_nil, List.append_nil, Block.data, hBLEN,
      window_drop (Nat.le_add_right _ _), Nat.add_sub_cancel_left, hrp, ← hwp, hwin]
  · exact setcksum_ipcsum (by rwa [hvihl])

theorem mark_nhgets {o : Nat} (h : 1 < o) : (mark b).nhgets o = b.nhgets o :=
  nhgets_setbyte_ne (.inr h)

theorem mark_length (b : Block) : (mark b).length = b.length := mark_nhgets (by decide)

theorem mark_frag (b : Block) : (mark b).frag = b.frag := mark_nhgets (by decide)

theorem mark_offset (b : Block) : (mark b).offset = b.offset := by
  rw [Block.offset, mark_frag, Block.offset]

theorem mark_more (b : Block) : (mark b).more = b.more := by
  rw [Block.more, mark, byte_setbyte_ne (by decide), Block.more]

/-- The data behind the header. -/
theorem drop_header (hb : IP4HDR ≤ b.BLEN) (next : List Block) : (bytes (b :: next)).drop IP4HDR =
    window b.mem (b.rp + IP4HDR) (b.BLEN - IP4HDR) ++ bytes next := by
  rw [bytes_cons, List.drop_append_of_le_length (by rwa [data_length]), Block.data, window_drop hb]

theorem mark_pktdata (hb : IP4HDR ≤ b.BLEN) (len : Nat) :
    pktdata [mark b] len = pktdata [b] len := by
  have hwin : window (mark b).mem (b.rp + IP4HDR) (b.BLEN - IP4HDR) =
      window b.mem (b.rp + IP4HDR) (b.BLEN - IP4HDR) :=
    window_setbyte (Nat.add_lt_add_left (by decide) _)
  rw [pktdata, pktdata, drop_header hb, drop_header (b := mark b) hb, ← hwin]
  rfl

/-- One round of the loop makes a fragment of the datagram. -/
theorem seg_spec (hv : eh.vihl = 0x45) (hkey : d.key = ⟨eh.src, eh.dst, lid % 65536⟩)
    (hoff : off % 8 = 0) (hlt : off < d.data.length)
    (hn : n = if d.data.length ≤ off + seglen then d.data.length - off else seglen)
    (hseg : 8 ≤ seglen) (hroom : IP4HDR + seglen ≤ room) (hx : ∀ b ∈ xs, b.Ordered)
    (hdata : bytes xs = d.data.drop off) :
    ∃ nb xs', copy (seghdr eh lid d.data.length seglen n off) n xs = some (nb, xs') ∧
      IsTile d room (setcksum nb) ∧ (mark (setcksum nb)).offset = off ∧
      (mark (setcksum nb)).length = IP4HDR + n ∧ bytes xs' = d.data.drop (off + n) ∧
      ∀ b ∈ xs', b.Ordered := by
  have hfit := d.fits
  have hn₁ : 0 < n ∧ n ≤ seglen ∧ off + n ≤ d.data.length := by
    rw [hn]
    split_ifs <;> omega
  have hall : d.data = d.data.take d.data.length := List.take_length.symm
  obtain ⟨nb, xs', hcopy, hcut, hrest, hx'⟩ :=
    cut_spec eh lid 0 hall hoff hlt (by omega) hn hseg hx hdata
  rw [Nat.zero_mul, Nat.zero_add, Nat.add_zero] at hcopy
  refine ⟨nb, xs', hcopy, ?_⟩
  generalize setcksum nb = c at hcut
  have hoffset : c.offset = off := by
    rw [hcut.offset]
    omega
  have hlength : c.length = IP4HDR + n := hcut.length
  have hmore : c.more = true ↔ off + n < d.data.length := by
    rw [hcut.more (by omega)]
    exact or_iff_right (by decide)
  have hminLEN : IP4HDR ≤ c.BLEN := by rw [hcut.BLEN]; exact Nat.le_add_right _ _
  have hkey' : (mark c).key = d.key := by
    have hS : ∀ o, 12 ≤ o → o + 1 < IP4HDR → (mark c).nhgets o = eh.nhgets o := by
      intro o ho ho'
      rw [mark_nhgets (by omega), Block.nhgets, Block.nhgets,
        hcut.fields o (by omega) (by omega) (by omega),
        hcut.fields (o + 1) ho' (by omega) (by omega)]
    have hid : (mark c).id = lid % 65536 := (mark_nhgets (by decide)).trans hcut.id
    rw [hkey, Block.key, Block.src, Block.dst, hid, nhgetl, nhgetl, hS 12 (by decide) (by decide),
      hS 14 (by decide) (by decide), hS 16 (by decide) (by decide), hS 18 (by decide) (by decide)]
    rfl
  have hpay : pktdata [mark c] c.length = (d.data.drop off).take n := by
    rw [mark_pktdata hminLEN, hlength, pktdata, hcut.data, Nat.add_sub_cancel_left, List.take_take,
      Nat.min_self]
  have htos : (mark c).tos = if (mark c).more then 1 else 0 := by
    rw [mark_more, Block.tos, mark, byte_setbyte]
    split_ifs <;> rfl
  refine ⟨⟨⟨hcut.first, List.forall_mem_nil _, hminLEN⟩, ?_, ?_, hcut.cksum (by rw [hv]; decide),
    ?_, ⟨hcut.first, List.forall_mem_nil _, hminLEN⟩, hkey', ?_, ?_, ?_, ?_, ?_, htos⟩,
    (mark_offset c).trans hoffset, (mark_length c).trans hlength, hrest, hx'⟩
  · rw [hcut.BLEN]
    omega
  · rw [hcut.BLEN, hlength]
  · rw [hlength]
    omega
  · rw [mark_length, hlength]
    exact Nat.le_add_right _ _
  · rw [mark_length, hlength, blocklen, List.map_singleton, List.sum_singleton]
    exact hcut.BLEN.ge
  · rw [mark_length, mark_offset, hoffset, hlength, Nat.add_sub_cancel_left]
    exact hn₁.2.2
  · rw [mark_length, hpay, mark_offset, hoffset, hlength, Nat.add_sub_cancel_left]
  · rw [mark_more, mark_length, mark_offset, hoffset, hlength, Nat.add_sub_cancel_left]
    exact hmore

/-! ## All of them -/

/-- Where the data of a fragment ends. -/
def Block.top (b : Block) : Nat := b.offset + (b.length - IP4HDR)

/-- Fragments of the datagram from `off` to its end, in their order. -/
inductive Tiles (d : Datagram) (room : Nat) : Nat → List Block → Prop
  | last {b : Block} : IsTile d room b → b.top = d.data.length → Tiles d room b.offset [b]
  | cons {b : Block} {l : List Block} : IsTile d room b → b.top < d.data.length →
      Tiles d room b.top l → Tiles d room b.offset (b :: l)

theorem segs_tiles (hv : eh.vihl = 0x45) (hkey : d.key = ⟨eh.src, eh.dst, lid % 65536⟩)
    (hseg : 8 ≤ seglen) (hseg8 : seglen % 8 = 0) (hroom : IP4HDR + seglen ≤ room) (fuel : Nat)
    (hoff : off % 8 = 0) (hlt : off < d.data.length) (hfuel : d.data.length - off ≤ fuel)
    (hx : ∀ b ∈ xs, b.Ordered) (hdata : bytes xs = d.data.drop off) :
    Tiles d room off (segs eh lid d.data.length seglen fuel off xs) := by
  induction fuel generalizing off xs with
  | zero => omega
  | succ fuel ih =>
    rw [segs, if_neg (Nat.not_le.mpr hlt)]
    obtain ⟨nb, xs', hcopy, htile, hoffset, hlength, hrest, hx'⟩ :=
      seg_spec hv hkey hoff hlt rfl hseg hroom hx hdata
    simp only [hcopy]
    rw [mark_offset] at hoffset
    rw [mark_length] at hlength
    have htop : (setcksum nb).top = off + if d.data.length ≤ off + seglen
        then d.data.length - off else seglen := by
      rw [Block.top, hoffset, hlength, Nat.add_sub_cancel_left]
    rw [← htop] at hrest ⊢
    rw [← hoffset]
    by_cases hlast : d.data.length ≤ off + seglen
    · rw [if_pos hlast] at htop
      have hend : (setcksum nb).top = d.data.length := by omega
      have hnil : segs eh lid d.data.length seglen fuel (setcksum nb).top xs' = [] := by
        cases fuel with
        | zero => rfl
        | succ fuel => rw [segs, if_pos hend.ge]
      rw [hnil]
      exact .last htile hend
    · rw [if_neg hlast] at htop
      exact .cons htile (by omega) (ih (by omega) (by omega) (by omega) hx' hrest)

/-- The fragments lie apart, and no byte of the datagram is left out. -/
theorem Tiles.spec {l : List Block} (h : Tiles d room off l) :
    (∀ b ∈ l, IsTile d room b ∧ off ≤ b.offset ∧ b.top ≤ d.data.length) ∧
      l.Pairwise (fun b c => b.top ≤ c.offset) ∧
      (∀ x, off ≤ x → x < d.data.length → ∃ b ∈ l, b.offset ≤ x ∧ x < b.top) ∧
      ∃ l' c, l = l' ++ [c] ∧ c.more = false ∧ ∀ b ∈ l', b.more = true := by
  have hmore : ∀ b, IsTile d room b → (b.more = true ↔ b.top < d.data.length) := by
    intro b hb
    have := hb.fragment.more
    rwa [mark_more, mark_offset, mark_length] at this
  induction h with
  | @last b hb htop =>
    refine ⟨fun c hc => ?_, List.pairwise_singleton _ _, fun x hx hx' => ?_, [], b, rfl, ?_,
      List.forall_mem_nil _⟩
    · rw [List.mem_singleton.mp hc]
      exact ⟨hb, Nat.le_refl _, htop.le⟩
    · exact ⟨b, List.mem_singleton_self b, hx, by rwa [htop]⟩
    · rw [← Bool.not_eq_true, hmore b hb, htop]
      exact Nat.lt_irrefl _
  | @cons b l hb htop _ ih =>
    obtain ⟨h₁, h₂, h₃, l', c, rfl, h₄, h₅⟩ := ih
    have hle : b.offset ≤ b.top := Nat.le_add_right _ _
    refine ⟨?_, List.pairwise_cons.mpr ⟨fun c hc => (h₁ c hc).2.1, h₂⟩, fun x hx hx' => ?_,
      b :: l', c, rfl, h₄, ?_⟩
    · rintro c (_ | ⟨_, hc⟩)
      · exact ⟨hb, Nat.le_refl _, htop.le⟩
      · exact ⟨(h₁ c hc).1, hle.trans (h₁ c hc).2.1, (h₁ c hc).2.2⟩
    · by_cases hxt : x < b.top
      · exact ⟨b, List.mem_cons_self, hx, hxt⟩
      · obtain ⟨c, hc, hcx⟩ := h₃ x (Nat.le_of_not_lt hxt) hx'
        exact ⟨c, List.mem_cons_of_mem b hc, hcx⟩
    · rintro c (_ | ⟨_, hc⟩)
      · exact (hmore b hb).mpr htop
      · exact h₅ c hc

end NixMark.Ip
