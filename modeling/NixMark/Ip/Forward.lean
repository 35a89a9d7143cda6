import NixMark.Ip.Input
import NixMark.Ip.Output

/-!
# Packets that are forwarded (`ipiput4` and `ipoput4` of `ip/ip.c`)

A packet that is forwarded keeps the options of its header, its offset and its flags; if it is too
long for the next interface, `ipoput4` cuts it as if its header had 20 bytes.

* `IsPacket`, `Faithful`: what the next system should get.
* `IsCut`, `Cut`: what the loop of `ipoput4` makes.
* `faithful_iff`: these are the same just when `Unbroken` holds.
-/

namespace NixMark.Ip

open Lib Block

/-! ## What should be sent -/

/-- The data of a packet: from the end of its header with the options to its length. -/
def area (b : Block) (l : List Block) : List UInt8 := ((bytes (b :: l)).take b.length).drop b.hl

/-- A header that the next system accepts. -/
structure HasHeader (b : Block) : Prop where
  version : b.vihl / 16 * 16 = IP_VER4
  hlen : IP_HLEN4 ≤ b.vihl % 16
  length : b.hl ≤ b.length

/-- A packet in a block. -/
structure IsPacket (c : Block) : Prop where
  header : HasHeader c
  length : c.length ≤ c.BLEN
  cksum : c.ipcsum = 0

/-- Where the data of the packet `c` ends. -/
def Block.end4 (c : Block) : Nat := c.offset + (area c []).length

/-- The packets `out` are the fragments of a packet: its data is divided between them, each part has
its own offset, and a part that is not the last one of the datagram says so. -/
structure Faithful (b : Block) (l out : List Block) : Prop where
  packets : ∀ c ∈ out, IsPacket c
  slices : ∀ c ∈ out, b.offset ≤ c.offset ∧ c.end4 ≤ b.offset + (area b l).length ∧
    area c [] = ((area b l).drop (c.offset - b.offset)).take (area c []).length
  apart : out.Pairwise fun c c' => c.end4 ≤ c'.offset ∨ c'.end4 ≤ c.offset
  cover : ∀ x < (area b l).length, ∃ c ∈ out, c.offset ≤ b.offset + x ∧ b.offset + x < c.end4
  more : ∀ c ∈ out, c.more = true ↔ b.more = true ∨ c.end4 < b.offset + (area b l).length

/-- The data bytes of a fragment for the link. -/
def Link.seglen (k : Link) : Nat := (k.medialen - IP4HDR) / 8 * 8

/-- The packet fits, or it has no options and all its parts have an offset below 65536. -/
def Unbroken (k : Link) (b : Block) : Prop :=
  b.length ≤ k.medialen ∨ (b.vihl % 16 = IP_HLEN4 ∧
    b.offset + (b.length - IP4HDR - 1) / k.seglen * k.seglen < 65536)

/-! ## The cases of `ipoput4` -/

variable {b c eh : Block} {l out : List Block} {k : Link} {id4 ttl tos : Nat}

/-- What is sent of a packet that is forwarded. -/
theorem ipoput4_gating (h : ipoput4 id4 (some k) b l true ttl tos = some out) (hne : out ≠ []) :
    b.length ≤ blocklen (b :: l) ∧
      ((b.length ≤ k.medialen ∧ l = [] ∧ out = [whole true id4 b.length (b.setbyte 8 ttl)]) ∨
        (k.medialen < b.length ∧ b.byte 6 &&& (IP_DF / 256) = 0 ∧ 8 ≤ k.seglen ∧
          out = fragments true id4 b.length k.seglen (b.setbyte 8 ttl) l)) := by
  have hlen : blocklen (b :: l) ≥ b.length → min b.length (blocklen (b :: l)) = b.length :=
    Nat.min_eq_left
  unfold ipoput4 at h
  simp only [true_and, if_true] at h
  rcases Nat.lt_or_ge (blocklen (b :: l)) b.length with hshort | hshort
  · rw [if_pos hshort] at h
    cases h
    exact absurd rfl hne
  rw [if_neg (Nat.not_lt.mpr hshort), hlen hshort,
    if_neg (Nat.not_le.mpr (show b.length < IP_MAX from b.nhgets_lt 2))] at h
  refine ⟨hshort, ?_⟩
  rcases Nat.lt_or_ge k.medialen b.length with hfit | hfit
  · rw [if_neg (Nat.not_le.mpr hfit)] at h
    split_ifs at h with hdf hseg
    · cases h
      exact absurd rfl hne
    · cases h
      exact absurd rfl hne
    · cases h
      have hbyte : (fill true ttl tos b).byte 6 = b.byte 6 := byte_setbyte_ne (by decide)
      rw [hbyte] at hdf
      exact .inr ⟨hfit, not_not.mp hdf, Nat.le_of_not_lt hseg, rfl⟩
  · rw [if_pos hfit] at h
    split_ifs at h with hnil
    · cases h
      exact .inl ⟨hfit, hnil, rfl⟩

/-! ## A packet that fits -/

/-- The length of the data area. -/
theorem area_length (h : b.length ≤ blocklen (b :: l)) : (area b l).length = b.length - b.hl := by
  rw [area, List.length_drop, List.length_take, ← blocklen_eq, Nat.min_eq_left h]

/-- A block with the same fields of the header, and the same bytes behind it. -/
theorem area_frame (hrp : c.rp = b.rp) (hwp : c.wp = b.wp) (hhl : c.hl = b.hl)
    (hlength : c.length = b.length) (hmin : IP4HDR ≤ b.hl) (hle : b.hl ≤ b.BLEN)
    (h : ∀ a n, b.rp + IP4HDR ≤ a → window c.mem a n = window b.mem a n) :
    area c [] = area b [] := by
  have hBLEN : c.BLEN = b.BLEN := by rw [BLEN, BLEN, hrp, hwp]
  rw [area, area, hhl, hlength, List.drop_take, List.drop_take]
  congr 1
  rw [bytes_cons, bytes_cons, bytes_nil, List.append_nil, List.append_nil, Block.data, Block.data,
    hBLEN, window_drop hle, window_drop hle, hrp]
  exact h _ _ (by omega)

theorem setcksum_window {a n : Nat} (h : b.rp + 11 < a) :
    window (setcksum b).mem a n = window b.mem a n := by
  rw [setcksum, window_hnputs (by rw [hnputs_rp]; omega), window_hnputs (by omega)]

theorem hl_eq (h : c.vihl = b.vihl) : c.hl = b.hl := by rw [Block.hl, h, Block.hl]

/-- The packet is sent as it is. -/
theorem whole_faithful (hv : HasHeader b) (hlen : b.length ≤ blocklen [b]) :
    Faithful b [] [whole true id4 b.length (b.setbyte 8 ttl)] := by
  have hmin : IP4HDR ≤ b.hl := by
    have := hv.hlen
    unfold Block.hl IP4HDR IP_HLEN4 at *
    omega
  have hBLEN : b.length ≤ b.BLEN := by simpa [blocklen] using hlen
  have hw : whole true id4 b.length (b.setbyte 8 ttl) =
      setcksum ((b.setbyte 8 ttl).hnputs 2 b.length) := rfl
  have hbyte : ∀ o, o ≠ 2 → o ≠ 3 → o ≠ 8 → o ≠ 10 → o ≠ 11 →
      (whole true id4 b.length (b.setbyte 8 ttl)).byte o = b.byte o := by
    intro o h2 h3 h8 h10 h11
    rw [hw, setcksum, byte_hnputs_ne h10 h11, byte_hnputs_ne h10 h11, byte_hnputs_ne h2 h3,
      byte_setbyte_ne h8]
  have hlength : (whole true id4 b.length (b.setbyte 8 ttl)).length = b.length := by
    have hput : ((b.setbyte 8 ttl).hnputs 2 b.length).nhgets 2 = b.length % 65536 :=
      nhgets_hnputs _ _ _
    rw [hw, Block.length, setcksum, nhgets_hnputs_ne (by omega), nhgets_hnputs_ne (by omega), hput]
    exact Nat.mod_eq_of_lt (b.nhgets_lt 2)
  have hvihl : (whole true id4 b.length (b.setbyte 8 ttl)).vihl = b.vihl :=
    hbyte 0 (by decide) (by decide) (by decide) (by decide) (by decide)
  have hfrag : (whole true id4 b.length (b.setbyte 8 ttl)).frag = b.frag := by
    rw [Block.frag, Block.nhgets,
      hbyte 6 (by decide) (by decide) (by decide) (by decide) (by decide),
      hbyte 7 (by decide) (by decide) (by decide) (by decide) (by decide)]
    rfl
  have hmore : (whole true id4 b.length (b.setbyte 8 ttl)).more = b.more := by
    rw [Block.more, hbyte 6 (by decide) (by decide) (by decide) (by decide) (by decide), Block.more]
  have hcksum : (whole true id4 b.length (b.setbyte 8 ttl)).ipcsum = 0 := by
    rw [hw]
    refine setcksum_ipcsum ?_
    have hv' : ((b.setbyte 8 ttl).hnputs 2 b.length).vihl = b.vihl :=
      (byte_hnputs_ne (by decide) (by decide)).trans (byte_setbyte_ne (by decide))
    rw [hv']
    exact hv.hlen
  have hwin : ∀ a n, b.rp + IP4HDR ≤ a →
      window (whole true id4 b.length (b.setbyte 8 ttl)).mem a n = window b.mem a n := by
    intro a n ha
    unfold IP4HDR at ha
    rw [hw, setcksum_window (by rw [hnputs_rp, setbyte_rp]; omega),
      window_hnputs (by rw [setbyte_rp]; omega), window_setbyte (by omega)]
  have harea : area (whole true id4 b.length (b.setbyte 8 ttl)) [] = area b [] :=
    area_frame rfl rfl (hl_eq hvihl) hlength hmin (hv.length.trans hBLEN) hwin
  have hBLENc : (whole true id4 b.length (b.setbyte 8 ttl)).BLEN = b.BLEN := rfl
  generalize whole true id4 b.length (b.setbyte 8 ttl) = c at *
  have hoffset : c.offset = b.offset := by rw [Block.offset, hfrag, Block.offset]
  have hend : c.end4 = b.offset + (area b []).length := by rw [Block.end4, hoffset, harea]
  refine ⟨?_, ?_, List.pairwise_singleton _ _, fun x hx => ?_, ?_⟩
  · intro d hd
    rw [List.mem_singleton.mp hd]
    refine ⟨⟨?_, ?_, ?_⟩, ?_, hcksum⟩
    · rw [hvihl]
      exact hv.version
    · rw [hvihl]
      exact hv.hlen
    · rw [hl_eq hvihl, hlength]
      exact hv.length
    · rw [hlength, hBLENc]
      exact hBLEN
  · intro d hd
    rw [List.mem_singleton.mp hd, hoffset, hend, harea, Nat.sub_self, List.drop_zero,
      List.take_length]
    exact ⟨Nat.le_refl _, Nat.le_refl _, rfl⟩
  · refine ⟨c, List.mem_singleton_self c, ?_, ?_⟩
    · rw [hoffset]
      exact Nat.le_add_right _ _
    · rw [hend]
      exact Nat.add_lt_add_left hx _
  · intro d hd
    rw [List.mem_singleton.mp hd, hmore, hend]
    exact ⟨.inl, fun h => h.resolve_right (Nat.lt_irrefl _)⟩

/-! ## A packet that is cut -/

/-- What the loop makes of `data` from `pos` on. -/
inductive Cut (eh : Block) (lid frag : Nat) (data : List UInt8) (seglen : Nat) :
    Nat → List Block → Prop
  | last {pos n : Nat} {c : Block} : IsCut eh lid frag data pos n c → 0 < n → n ≤ seglen →
      pos + n = data.length → Cut eh lid frag data seglen pos [c]
  | cons {pos : Nat} {c : Block} {l : List Block} : IsCut eh lid frag data pos seglen c →
      pos + seglen < data.length → Cut eh lid frag data seglen (pos + seglen) l →
      Cut eh lid frag data seglen pos (c :: l)

variable {data all : List UInt8} {lid frag seglen pos : Nat} {xs : List Block}

theorem segs_cut (eh : Block) (lid frag : Nat) (hall : data = all.take data.length)
    (hmax : IP4HDR + data.length < 65536)
    (hseg : 8 ≤ seglen) (hseg8 : seglen % 8 = 0) (fuel : Nat) (hpos : pos % 8 = 0)
    (hlt : pos < data.length) (hfuel : data.length - pos ≤ fuel) (hx : ∀ b ∈ xs, b.Ordered)
    (hxs : bytes xs = all.drop pos) : Cut eh lid frag data seglen pos
      (segs eh lid (data.length + frag * 8) seglen fuel (frag * 8 + pos) xs) := by
  induction fuel generalizing pos xs with
  | zero => omega
  | succ fuel ih =>
    have hif : (if data.length + frag * 8 ≤ frag * 8 + pos + seglen
        then data.length + frag * 8 - (frag * 8 + pos) else seglen) =
        if data.length ≤ pos + seglen then data.length - pos else seglen := by
      split_ifs <;> omega
    obtain ⟨nb, xs', hcopy, hcut, hrest, hx'⟩ :=
      cut_spec eh lid frag hall hpos hlt hmax rfl hseg hx hxs
    rw [segs, if_neg (by omega)]
    simp only [hif, hcopy]
    rw [Nat.add_assoc]
    by_cases hlast : data.length ≤ pos + seglen
    · rw [if_pos hlast] at hcut ⊢
      have hend : pos + (data.length - pos) = data.length := by omega
      have hnil : segs eh lid (data.length + frag * 8) seglen fuel
          (frag * 8 + (pos + (data.length - pos))) xs' = [] := by
        cases fuel with
        | zero => rfl
        | succ fuel => rw [segs, if_pos (by omega)]
      rw [hnil]
      exact .last hcut (by omega) (by omega) hend
    · rw [if_neg hlast] at hcut hrest ⊢
      exact .cons hcut (by omega) (ih (by omega) (by omega) (by omega) hx' hrest)

/-- Each of the packets starts at a multiple of `seglen`. -/
theorem Cut.mem (h : Cut eh lid frag data seglen pos out) (hseg : 0 < seglen)
    (hpos : pos % seglen = 0) (hc : c ∈ out) : ∃ p n, IsCut eh lid frag data p n c ∧ pos ≤ p ∧
      p % seglen = 0 ∧ 0 < n ∧ n ≤ seglen ∧ p + n ≤ data.length := by
  induction h with
  | last hcut hn hle hend =>
    obtain rfl := List.mem_singleton.mp hc
    exact ⟨_, _, hcut, Nat.le_refl _, hpos, hn, hle, hend.le⟩
  | @cons pos d l hcut hlt _ ih =>
    rcases List.mem_cons.mp hc with rfl | hc
    · exact ⟨_, _, hcut, Nat.le_refl _, hpos, hseg, Nat.le_refl _, hlt.le⟩
    · obtain ⟨p, n, hcut', hle, hrest⟩ := ih (by rwa [Nat.add_mod_right]) hc
      exact ⟨p, n, hcut', (Nat.le_add_right _ _).trans hle, hrest⟩

/-- The last one of the packets. -/
theorem Cut.final (h : Cut eh lid frag data seglen pos out) (hpos : pos % seglen = 0) :
    ∃ c ∈ out, ∃ n, 0 < n ∧ n ≤ seglen ∧ n ≤ data.length ∧ (data.length - n) % seglen = 0 ∧
      IsCut eh lid frag data (data.length - n) n c := by
  induction h with
  | @last pos n c hcut hn hle hend =>
    obtain rfl : pos = data.length - n := by omega
    exact ⟨c, List.mem_singleton_self c, n, hn, hle, by omega, hpos, hcut⟩
  | @cons pos d l hcut hlt _ ih =>
    obtain ⟨c, hc, hrest⟩ := ih (by rwa [Nat.add_mod_right])
    exact ⟨c, List.mem_cons_of_mem d hc, hrest⟩

/-- Packets that are where they should be divide the data. -/
theorem Cut.divide {off : Nat} (h : Cut eh lid frag data seglen pos out)
    (hc : ∀ p n c, IsCut eh lid frag data p n c → p % seglen = 0 → 0 < n → p + n ≤ data.length →
      c.offset = off + p ∧ c.end4 = off + p + n) (hseg : 0 < seglen) (hpos : pos % seglen = 0) :
    (∀ c ∈ out, off + pos ≤ c.offset) ∧ out.Pairwise (fun c c' => c.end4 ≤ c'.offset) ∧
      ∀ x, pos ≤ x → x < data.length → ∃ c ∈ out, c.offset ≤ off + x ∧ off + x < c.end4 := by
  induction h with
  | @last pos n c hcut hn hle hend =>
    obtain ⟨ho, he⟩ := hc _ _ _ hcut hpos hn hend.le
    refine ⟨fun d hd => ?_, List.pairwise_singleton _ _, fun x hx hx' =>
      ⟨c, List.mem_singleton_self c, by omega, by omega⟩⟩
    rw [List.mem_singleton.mp hd, ho]
  | @cons pos c l hcut hlt _ ih =>
    obtain ⟨ho, he⟩ := hc _ _ _ hcut hpos hseg hlt.le
    obtain ⟨h₁, h₂, h₃⟩ := ih (by rwa [Nat.add_mod_right])
    refine ⟨fun d hd => ?_, List.pairwise_cons.mpr ⟨fun d hd => ?_, h₂⟩, fun x hx hx' => ?_⟩
    · rcases List.mem_cons.mp hd with rfl | hd
      · exact ho.ge
      · exact (Nat.add_le_add_left (Nat.le_add_right _ _) _).trans (h₁ d hd)
    · rw [he, Nat.add_assoc]
      exact h₁ d hd
    · rcases Nat.lt_or_ge x (pos + seglen) with hx₁ | hx₁
      · exact ⟨c, List.mem_cons_self, by omega, by omega⟩
      · obtain ⟨d, hd, hd'⟩ := h₃ x hx₁ hx'
        exact ⟨d, List.mem_cons_of_mem c hd, hd'⟩

/-- The data of a packet that is cut, when its header has no options. -/
theorem IsCut.area {p n : Nat} (h : IsCut eh lid frag data p n c) (hhl : c.hl = IP4HDR)
    (hle : p + n ≤ data.length) :
    Ip.area c [] = (data.drop p).take n ∧ (Ip.area c []).length = n := by
  have harea : Ip.area c [] = (data.drop p).take n := by
    have hlen : (bytes [c]).length ≤ c.length := by
      rw [← blocklen_eq, h.length, ← h.BLEN, blocklen, List.map_singleton, List.sum_singleton]
    rw [Ip.area, hhl, List.take_of_length_le hlen, h.data]
  refine ⟨harea, ?_⟩
  rw [harea, List.length_take, List.length_drop]
  omega

theorem IsCut.vihl {p n : Nat} (h : IsCut eh lid frag data p n c) : c.vihl = eh.vihl :=
  h.fields 0 (by decide) (.inl (by decide)) (.inl (by decide))

theorem offset_eq (b : Block) : b.offset = b.frag * 8 % 65536 := by
  rw [Block.offset, Nat.shiftLeft_eq]

/-- The last multiple of `seglen` below `m`. -/
theorem last_start {m n seglen : Nat} (hn : 0 < n) (hle : n ≤ seglen) (hm : n ≤ m)
    (hmod : (m - n) % seglen = 0) : (m - 1) / seglen * seglen = m - n := by
  obtain ⟨q, hq⟩ := Nat.dvd_of_mod_eq_zero hmod
  have hm₁ : m - 1 = seglen * q + (n - 1) := by omega
  rw [hm₁, Nat.mul_add_div (by omega), Nat.div_eq_of_lt (by omega), Nat.add_zero, hq, Nat.mul_comm]

/-- A packet without options, all of whose parts have an offset: they are its fragments. -/
theorem Cut.faithful (h : Cut eh lid b.frag (Ip.area b l) seglen 0 out) (hv : HasHeader b)
    (hvihl : eh.vihl = b.vihl) (hplain : b.vihl % 16 = IP_HLEN4) (hseg : 0 < seglen)
    (hin : b.offset + ((Ip.area b l).length - 1) / seglen * seglen < 65536) :
    Faithful b l out := by
  obtain ⟨d, -, m, hm, hm', hm₁, hmod, -⟩ := h.final (Nat.zero_mod _)
  rw [last_start hm hm' hm₁ hmod] at hin
  have hstart : ∀ p n, p % seglen = 0 → 0 < n → p + n ≤ (Ip.area b l).length →
      b.offset + p < 65536 := by
    intro p n hp hn hle
    -- both are multiples, and the next one is behind the end
    have hlt : p < (Ip.area b l).length - m + seglen := by omega
    obtain ⟨q, hq⟩ := Nat.dvd_of_mod_eq_zero hp
    obtain ⟨q', hq'⟩ := Nat.dvd_of_mod_eq_zero hmod
    rw [hq, hq', ← Nat.mul_succ] at hlt
    have hqq : q ≤ q' := Nat.le_of_lt_succ (Nat.lt_of_mul_lt_mul_left hlt)
    have hmul := Nat.mul_le_mul_left seglen hqq
    omega
  have hhl : ∀ p n c, IsCut eh lid b.frag (Ip.area b l) p n c → c.hl = IP4HDR := by
    intro p n c hcut
    rw [Block.hl, hcut.vihl, hvihl, hplain]
    rfl
  have hoff := offset_eq b
  have hplace : ∀ p n c, IsCut eh lid b.frag (Ip.area b l) p n c → p % seglen = 0 → 0 < n →
      p + n ≤ (Ip.area b l).length → c.offset = b.offset + p ∧ c.end4 = b.offset + p + n := by
    intro p n c hcut hp hn hle
    have hlt := hstart p n hp hn hle
    have ho : c.offset = b.offset + p := by
      rw [hcut.offset]
      omega
    exact ⟨ho, by rw [Block.end4, ho, (hcut.area (hhl p n c hcut) hle).2]⟩
  obtain ⟨-, hapart, hcover⟩ := h.divide hplace hseg (Nat.zero_mod _)
  refine ⟨fun c hc => ?_, fun c hc => ?_, hapart.imp fun hle => .inl hle,
    fun x hx => hcover x (Nat.zero_le _) hx, fun c hc => ?_⟩
  all_goals
    obtain ⟨p, n, hcut, -, hp, hn, -, hle⟩ := h.mem hseg (Nat.zero_mod _) hc
    obtain ⟨ho, he⟩ := hplace p n c hcut hp hn hle
  · refine ⟨⟨?_, ?_, ?_⟩, ?_, hcut.cksum (by rw [hvihl]; exact hv.hlen)⟩
    · rw [hcut.vihl, hvihl]
      exact hv.version
    · rw [hcut.vihl, hvihl]
      exact hv.hlen
    · rw [hhl p n c hcut, hcut.length]
      exact Nat.le_add_right _ _
    · rw [hcut.length, hcut.BLEN]
  · obtain ⟨harea, hlen⟩ := hcut.area (hhl p n c hcut) hle
    refine ⟨by omega, by omega, ?_⟩
    rw [hlen, harea, ho, Nat.add_sub_cancel_left]
  · have hlt := hstart p n hp hn hle
    rw [hcut.more (by omega), ← more_iff, he]
    exact or_congr_right (by omega)

/-- The packets are the fragments only then. -/
theorem Cut.unbroken (h : Cut eh lid b.frag data seglen 0 out) (hv : HasHeader b)
    (hvihl : eh.vihl = b.vihl) (hdata : data.length = b.length - IP4HDR) (hpos : 0 < seglen)
    (hseg : seglen < data.length) (hlen : b.length ≤ blocklen (b :: l)) (hf : Faithful b l out) :
    b.vihl % 16 = IP_HLEN4 ∧ b.offset + (data.length - 1) / seglen * seglen < 65536 := by
  have hoff := offset_eq b
  have hb := b.nhgets_lt 2
  have hmax : data.length < 65536 := by
    rw [hdata]
    exact lt_of_le_of_lt (Nat.sub_le _ _) hb
  -- an offset that does not fit would be less than that of the packet
  have hplace : ∀ c ∈ out, ∀ p n, IsCut eh lid b.frag data p n c → p < data.length →
      c.offset = b.offset + p ∧ b.offset + p < 65536 := by
    intro c hc p n hcut hp
    have hle := (hf.slices c hc).1
    have ho := hcut.offset
    omega
  constructor
  · by_contra hopt
    have hhl : ∀ p n c, IsCut eh lid b.frag data p n c → c.hl = b.hl := fun p n c hcut =>
      hl_eq (hcut.vihl.trans hvihl)
    have hmin : IP4HDR < b.hl := by
      have := hv.hlen
      unfold Block.hl IP4HDR IP_HLEN4 at *
      omega
    have harea := area_length hlen
    obtain ⟨c, hc, hcut⟩ : ∃ c ∈ out, IsCut eh lid b.frag data 0 seglen c := by
      cases h with
      | last hcut hn hle hend => omega
      | cons hcut _ _ => exact ⟨_, List.mem_cons_self, hcut⟩
    have hfirst := (hf.packets c hc).header.length
    rw [hhl _ _ c hcut, hcut.length] at hfirst
    have hbl := hv.length
    -- the bytes of the first part that were taken for options are in no other part
    obtain ⟨d, hd, hd', hend⟩ := hf.cover (seglen + IP4HDR - b.hl) (by omega)
    obtain ⟨p, n, hcut', -, hp, hn, hle, hpn⟩ := h.mem hpos (Nat.zero_mod _) hd
    obtain ⟨ho, -⟩ := hplace d hd p n hcut' (by omega)
    have hp0 : p = 0 := by
      rw [Nat.mod_eq_of_lt (by omega)] at hp
      exact hp
    have hdlen : (Ip.area d []).length = IP4HDR + n - b.hl := by
      rw [area_length, hcut'.length, hhl _ _ d hcut']
      rw [hcut'.length, blocklen, List.map_singleton, List.sum_singleton, hcut'.BLEN]
    rw [Block.end4, hdlen, ho] at hend
    omega
  · obtain ⟨c, hc, n, hn, hle, hn₁, hmod, hcut⟩ := h.final (Nat.zero_mod _)
    rw [last_start hn hle hn₁ hmod]
    exact (hplace c hc _ _ hcut (by omega)).2

/-- The data of a packet whose header has no options. -/
theorem area_plain (h : b.hl = IP4HDR) :
    area b l = ((bytes (b :: l)).drop IP4HDR).take (b.length - IP4HDR) := by
  rw [area, h, List.drop_take]

/-- What is sent of a packet is the packet, or its fragments, just when it is not broken. -/
theorem gated_iff (ho : ∀ c ∈ b :: l, c.Ordered) (hhdr : IP4HDR ≤ b.BLEN) (hv : HasHeader b)
    (hout : ipoput4 id4 (some k) b l true ttl tos = some out) (hne : out ≠ []) :
    Faithful b l out ↔ Unbroken k b := by
  obtain ⟨hlen, ⟨hfit, rfl, rfl⟩ | ⟨hcut, -, hseg, rfl⟩⟩ := ipoput4_gating hout hne
  · exact iff_of_true (whole_faithful hv hlen) (.inl hfit)
  obtain ⟨hob, hol⟩ := List.forall_mem_cons.mp ho
  -- the header that is copied is that of the packet, with the new time to live
  have hvihl : (b.setbyte 8 ttl).vihl = b.vihl := byte_setbyte_ne (by decide)
  have hfrag : (b.setbyte 8 ttl).frag = b.frag := nhgets_setbyte_ne (.inl (by decide))
  have hbytes : (bytes (b.setbyte 8 ttl :: l)).drop IP4HDR = (bytes (b :: l)).drop IP4HDR := by
    rw [drop_header hhdr, drop_header (b := b.setbyte 8 ttl) hhdr]
    congr 1
    exact window_setbyte (by unfold IP4HDR; exact Nat.add_lt_add_left (by decide) _)
  have hord : ∀ c ∈ b.setbyte 8 ttl :: l, c.Ordered := List.forall_mem_cons.mpr ⟨hob, hol⟩
  obtain ⟨hskip, hskip'⟩ := skiphdr_spec IP4HDR hord
  have hskip₀ : bytes (skiphdr IP4HDR (b.setbyte 8 ttl :: l)) =
      ((bytes (b :: l)).drop IP4HDR).drop 0 := by rw [hskip, hbytes, List.drop_zero]
  have hblen : b.length - IP4HDR ≤ ((bytes (b :: l)).drop IP4HDR).length := by
    rw [List.length_drop, ← blocklen_eq]
    omega
  obtain ⟨data, hdata⟩ : ∃ data, data = ((bytes (b :: l)).drop IP4HDR).take (b.length - IP4HDR) :=
    ⟨_, rfl⟩
  have hdlen : data.length = b.length - IP4HDR := by
    rw [hdata, List.length_take, Nat.min_eq_left hblen]
  have hk : k.seglen + IP4HDR ≤ k.medialen := by
    unfold Link.seglen at hseg ⊢
    omega
  have hb := b.nhgets_lt 2
  have hall : data = ((bytes (b :: l)).drop IP4HDR).take data.length := by rw [hdlen, ← hdata]
  have h := segs_cut (b.setbyte 8 ttl) (b.setbyte 8 ttl).id b.frag hall
    (by rw [hdlen]; unfold Block.length at *; omega) hseg (Nat.mul_mod_left _ _)
    (b.length - IP4HDR) (Nat.zero_mod _) (by omega) (by omega) hskip' hskip₀
  have hfrags : fragments true id4 b.length k.seglen (b.setbyte 8 ttl) l =
      segs (b.setbyte 8 ttl) (b.setbyte 8 ttl).id (data.length + b.frag * 8) k.seglen
        (b.length - IP4HDR) (b.frag * 8 + 0) (skiphdr IP4HDR (b.setbyte 8 ttl :: l)) := by
    simp only [fragments, if_true, hfrag, Nat.shiftLeft_eq, hdlen, Nat.add_zero]
  rw [← hfrags] at h
  constructor
  · intro hf
    obtain ⟨h5, hin⟩ := h.unbroken hv hvihl hdlen (by omega) (by omega) hlen hf
    exact .inr ⟨h5, by rwa [hdlen] at hin⟩
  · rintro (hfit | ⟨h5, hin⟩)
    · omega
    · have hhl : b.hl = IP4HDR := by
        rw [Block.hl, h5]
        rfl
      rw [← hdlen] at hin
      rw [hdata, ← area_plain hhl] at h hin
      exact h.faithful hv hvihl h5 (by omega) hin

/-- `ipiput4` passes on the packet `b :: l` to forward it. -/
def Arrival.Forwards (a : Arrival) (ip : IP) (b : Block) (l : List Block) : Prop :=
  a.env.forme = false ∧ ∃ ip', a.put ip = .ok (ip', some (b :: l))

/-- A packet of 64 bytes: `hdr` is the byte of the version and the length of its header. -/
private def sent (hdr cksum : Nat) : Block where
  mem a := ([.ofNat hdr, 0, 0, 64, 0, 1, 0, 0, 64, 17, .ofNat (cksum / 256), .ofNat cksum, 10, 0,
    0, 1, 10, 0, 0, 2] : List UInt8)[a - 64]?.getD 0
  rp := 64
  wp := 128
  lim := 192
  foff := 0
  flen := 0

theorem sent_ordered (hdr cksum : Nat) : (sent hdr cksum).Ordered :=
  ⟨(by decide : 64 ≤ 128), (by decide : 128 ≤ 192)⟩

theorem no_others : ∀ c ∈ ([] : List Block), c.Ordered ∧ 0 < c.BLEN := fun _ hc =>
  absurd hc List.not_mem_nil

/-- It arrives to be forwarded. -/
private def gated (hdr cksum : Nat) : Arrival where
  now := 0
  env := ⟨false, false, true, some false⟩
  bp := sent hdr cksum
  next := []
  first := sent_ordered hdr cksum
  rest := no_others

theorem gated_pass {hdr cksum : Nat} (hv : (sent hdr cksum).vihl / 16 * 16 = IP_VER4)
    (hck : (sent hdr cksum).ipcsum = 0) (hh : IP4HDR ≤ (sent hdr cksum).hl) :
    input (gated hdr cksum).env (sent hdr cksum) [] = .ok (.pass (sent hdr cksum) []) := by
  have hpull : pullhdr (sent hdr cksum) [] = some (sent hdr cksum, []) :=
    if_neg (show ¬ 128 - 64 < 64 by decide)
  have hhead : header (gated hdr cksum).env (sent hdr cksum) [] = some (sent hdr cksum, []) := by
    rw [header, if_neg (not_not.mpr hv), hpull]
    simp only [Option.filter_some, hck, beq_self_eq_true, Bool.or_true, Bool.true_and]
    rw [if_pos]
    simp only [Bool.or_eq_true, decide_eq_true_eq]
    exact .inr hh
  have hopt : options (gated hdr cksum).env (sent hdr cksum) = .ok (sent hdr cksum) :=
    if_neg fun h => Bool.false_ne_true h.2
  have hroute : route (gated hdr cksum).env (sent hdr cksum) [] = .pass (sent hdr cksum) [] := rfl
  rw [input, hhead]
  simp only [hopt, Except.map, hroute]

theorem gated_forwards (hdr cksum : Nat) (hv : (sent hdr cksum).vihl / 16 * 16 = IP_VER4)
    (hck : (sent hdr cksum).ipcsum = 0) (hh : IP4HDR ≤ (sent hdr cksum).hl) :
    (gated hdr cksum).Honest ∧ (gated hdr cksum).Forwards ⟨[]⟩ (sent hdr cksum) [] := by
  have hin := gated_pass hv hck hh
  refine ⟨⟨fun b l _ hf => ?_, fun b l he => ?_⟩, rfl, ⟨[]⟩, ?_⟩
  · cases hf
  · cases hin.symm.trans he
  · rw [Arrival.put, ipiput4]
    simp only [show input (gated hdr cksum).env (gated hdr cksum).bp (gated hdr cksum).next = _
      from hin]
    rfl

/-- An interface for packets of 44 bytes. -/
private def narrow : Link := ⟨44, 0, 0⟩

theorem sent_out (hdr cksum : Nat)
    (h : ((ipoput4 0 (some narrow) (sent hdr cksum) [] true 63 0).map List.length) = some 2) :
    ∃ out, ipoput4 0 (some narrow) (sent hdr cksum) [] true 63 0 = some out ∧ out ≠ [] := by
  obtain ⟨out, hout, hlen⟩ := Option.map_eq_some_iff.mp h
  refine ⟨out, hout, ?_⟩
  rintro rfl
  cases hlen

theorem no_packets : (packets.restrict fun _ a => a.Honest).Reach ⟨[]⟩ :=
  ⟨[], .init (show (IP.mk []).flisthead4 = [] from rfl)⟩

end NixMark.Ip
