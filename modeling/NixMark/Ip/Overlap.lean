import NixMark.Lib.Lts
import NixMark.Ip.Queue

/-!
# Overlapping fragments of one datagram

The fragments of a datagram arrive in any order, some of them more than once, and with any overlaps.

* `FragmentOf`: what `ipiput4` hands over for a fragment; `Part`: what a fragment of a queue holds,
  which trimming keeps.
* `reassembled_iff`: in every run, a packet that is returned is the datagram exactly when the first
  fragment of its queue has not been trimmed, since `glue` reads its length from the header.
* `trimmed_head`: two fragments that make a packet that is too long.
-/

namespace NixMark.Ip

open Lib Lib.Pieces Block

structure Datagram where
  key : Key
  data : List UInt8
  fits : IP4HDR + data.length ≤ 65535

/-- The blocks hold a fragment of the datagram, as `ipiput4` passes it to `ip4reassemble`. -/
structure FragmentOf (d : Datagram) (bp : Block) (next : List Block) : Prop where
  arrived : Arrived bp next
  key : bp.key = d.key
  min : IP4HDR ≤ bp.length
  max : bp.length ≤ blocklen (bp :: next)
  within : bp.offset + (bp.length - IP4HDR) ≤ d.data.length
  data : pktdata (bp :: next) bp.length = (d.data.drop bp.offset).take (bp.length - IP4HDR)
  more : bp.more = true ↔ bp.offset + (bp.length - IP4HDR) < d.data.length
  tos : bp.tos = if bp.more then 1 else 0

/-- A fragment of a queue holds a part of the datagram. -/
structure Part (d : Datagram) (b : Block) : Prop where
  fits : b.Fits
  within : b.fend ≤ d.data.length
  more : b.more = true ↔ b.fend < d.data.length
  data : b.payload = (d.data.drop b.foff).take b.flen

variable {d : Datagram} {b bp : Block} {q next : List Block}

theorem part_trims (d : Datagram) : Trims (Part d) where
  fits h := h.fits
  cutat {b c} hb hc hlt hend hend' := by
    have hcut := cutat_fend (c := b) hlt.le
    have hflen : (b.cutat c.foff).flen ≤ b.flen := Nat.sub_le _ _
    have hwithin := hc.within
    refine ⟨hb.fits.cutat _, by rw [hcut]; omega, ?_, ?_⟩
    · -- it was not the last one, since the other goes on behind it
      exact iff_of_true (hb.more.mpr (hend'.trans_le hwithin)) (by rw [hcut]; omega)
    · calc (b.cutat c.foff).payload = b.payload.take (b.cutat c.foff).flen :=
            (window_take hflen).symm
        _ = (d.data.drop b.foff).take (b.cutat c.foff).flen := by
            rw [hb.data, List.take_take, min_eq_left hflen]
  fronted {b c} hb hc hle hlt hend := by
    have hend' := fronted_fend hlt.le hend.le
    have hlen : c.fend - b.foff ≤ b.flen := by
      unfold Block.fend at hend ⊢
      omega
    refine ⟨hb.fits.fronted hlt hend.le, by rw [hend']; exact hb.within, ?_, ?_⟩
    · rw [hend', ← hb.more]
      have : (b.fronted c.fend).byte 6 = b.byte 6 := byte_advance b _ (by decide)
      rw [Block.more, this, Block.more]
    · calc (b.fronted c.fend).payload
          = window b.mem (b.rp + (c.fend - b.foff) + IP4HDR) (b.flen - (c.fend - b.foff)) :=
            window_advance (Nat.le_refl _)
        _ = b.payload.drop (c.fend - b.foff) := by
            rw [Block.payload, window_drop hlen, Nat.add_right_comm]
        _ = (d.data.drop c.fend).take (b.flen - (c.fend - b.foff)) := by
            rw [hb.data, List.drop_take, List.drop_drop, Nat.add_sub_cancel' hlt.le]

/-- The fragment with its `Ipfrag`. -/
theorem FragmentOf.part (hf : FragmentOf d bp next) (ho : b.Ordered)
    (hbytes : bytes [b] = bytes (bp :: next)) (hb : IP4HDR ≤ b.BLEN) :
    Part d (tag bp.frag b) ∧ (tag bp.frag b).length = IP4HDR + (tag bp.frag b).flen := by
  have hfit := d.fits
  have hmin := hf.min
  have hwithin := hf.within
  obtain ⟨hfits, hflen, hlen, hmore, hdata⟩ :=
    hf.arrived.tag hbytes ho hb hmin hf.max (by omega)
  have hfend : (tag bp.frag b).fend = bp.offset + (bp.length - IP4HDR) := by
    rw [Block.fend, hflen]
    rfl
  refine ⟨⟨hfits, ?_, ?_, ?_⟩, by rw [hlen, hflen]; omega⟩
  · rwa [hfend]
  · rw [hmore, hfend]
    exact hf.more
  · rw [hdata, hf.data, hflen]
    rfl

/-! ## The packet -/

theorem payload_length (b : Block) : b.payload.length = b.flen := window_length _ _ _

/-- The fragments of a complete packet hold the datagram from the place on where the first one
begins. -/
theorem complete_payload (hq : Queued (Part d) q) {pos : Nat} (hc : complete pos q = true) :
    q.flatMap Block.payload = d.data.drop pos := by
  induction q generalizing pos with
  | nil => cases hc
  | cons b q ih =>
    have hb := hq.all b List.mem_cons_self
    rw [complete] at hc
    split_ifs at hc with h₀ h₁
    · -- more fragments follow
      rw [not_not] at h₀
      rw [List.flatMap_cons, ih hq.tail hc, hb.data, h₀, ← List.drop_drop, List.take_append_drop]
    · rw [not_not] at h₀
      have hend : b.fend = d.data.length :=
        Nat.le_antisymm hb.within (Nat.le_of_not_lt fun h => h₁ (hb.more.mpr h))
      have hrest : q.flatMap Block.payload = [] := by
        refine List.flatMap_eq_nil_iff.mpr fun c hc => ?_
        have h₂ := hq.head_le c hc
        have h₃ := (hq.tail.all c hc).within
        refine List.eq_nil_of_length_eq_zero ?_
        rw [payload_length]
        unfold Block.fend at h₃
        omega
      rw [List.flatMap_cons, hrest, List.append_nil, hb.data, h₀]
      refine List.take_of_length_le ?_
      rw [List.length_drop]
      unfold Block.fend at hend
      omega

/-- A packet is the datagram exactly when its first fragment was not trimmed. -/
theorem glue_iff {h : Block} {l pkt : List Block} (hq : Queued (Part d) (h :: l))
    (hc : complete 0 (h :: l) = true) (hg : glue (h :: l) = .ok pkt) :
    (pktlen pkt = IP4HDR + d.data.length ∧ pktdata pkt (pktlen pkt) = d.data) ↔
      h.length = IP4HDR + h.flen := by
  obtain ⟨_, _, ⟨⟩, h0⟩ := complete_head hc
  have hh := hq.all h List.mem_cons_self
  have hdata := complete_payload hq hc
  rw [List.drop_zero, List.flatMap_cons] at hdata
  have hsum : h.flen + (l.map (·.flen)).sum = d.data.length := by
    have hlen := congrArg List.length hdata
    rw [List.length_append, payload_length, List.length_flatMap] at hlen
    simpa only [payload_length] using hlen
  have hle := (hh.fits.head h0).1
  have hfit := d.fits
  rw [glue_eq hh.fits h0 fun c hc => (hq.tail.all c hc).fits] at hg
  cases hg
  have hpkt : pktlen (({ h with wp := h.rp + h.length } : Block).hnputs 2
      (h.length + (l.map (·.flen)).sum) :: l.map Block.stripped) =
      (h.length + (l.map (·.flen)).sum) % 65536 := nhgets_hnputs _ _ _
  rw [hpkt]
  constructor
  · rintro ⟨hlen, -⟩
    have := h.nhgets_lt 2
    unfold Block.length at *
    omega
  · intro hwhole
    have hmod : (h.length + (l.map (·.flen)).sum) % 65536 = IP4HDR + d.data.length := by omega
    refine ⟨hmod, ?_⟩
    have hskip : IP4HDR ≤ (({ h with wp := h.rp + h.length } : Block).hnputs 2
        (h.length + (l.map (·.flen)).sum)).data.length := by
      rw [data_length]
      simp only [BLEN, hnputs_wp, hnputs_rp]
      omega
    rw [hmod, pktdata, bytes_cons, bytes_stripped, List.drop_append_of_le_length hskip,
      bytes_head hh.fits h0, hwhole, Nat.add_sub_cancel_left, Nat.add_sub_cancel_left,
      ← Block.payload, hdata, List.take_length]

/-- The queues of the datagram. -/
def Holds (d : Datagram) (ip : IP) : Prop :=
  ∀ f ∈ ip.flisthead4, f.key = d.key → Queued (Part d) f.blist

/-- What `ip4reassemble` does with a fragment of the datagram. -/
theorem FragmentOf.outcome {ip : IP} (hf : FragmentOf d bp next) (hi : Holds d ip) (now : Nat) :
    ∃ b ip' r, bytes [b] = bytes (bp :: next) ∧ IP4HDR ≤ b.BLEN ∧
      (Part d (tag bp.frag b) ∧ (tag bp.frag b).length = IP4HDR + (tag bp.frag b).flen) ∧
      ip4reassemble now ip bp.frag bp next = .ok (ip', r) ∧
      Outcome (Part d) now ip bp.key bp.frag b ip' r := by
  obtain ⟨b, hg, ho, hbytes, hlen⟩ := hf.arrived.gather
  have hpart := hf.part ho hbytes hlen
  obtain ⟨ip', r, hr, hout⟩ := reassemble_spec (part_trims d) now hg
    (fun f hmem hkey => hi f hmem (hkey.trans hf.key)) fun _ => hpart.1
  exact ⟨b, ip', r, hbytes, hlen, hpart, hr, hout⟩

/-- A fragment that is not one: all of the datagram. -/
theorem FragmentOf.whole (hf : FragmentOf d bp next) (hbytes : bytes [b] = bytes (bp :: next))
    (hb : IP4HDR ≤ b.BLEN) (ha : accepted bp.frag b) :
    bp.offset = 0 ∧ b.length = IP4HDR + d.data.length ∧ pktdata [b] b.length = d.data := by
  obtain ⟨hlen, -, -, -, htos⟩ := header_congr hbytes hb hf.arrived.header
  have h0 : bp.offset = 0 := by
    have hmask : bp.frag % 8192 = 0 := by
      calc bp.frag % 8192 = bp.frag &&& 2 ^ 13 - 1 := (Nat.and_two_pow_sub_one_eq_mod bp.frag 13).symm
        _ = (bp.frag &&& (0xffff - IP_MF - IP_DF)) &&& 2 ^ 13 - 1 := by
            rw [Nat.and_assoc]
            rfl
        _ = 0 := by rw [ha.2, Nat.zero_and]
    rw [Block.offset, Nat.shiftLeft_eq]
    omega
  have hmore : ¬ bp.offset + (bp.length - IP4HDR) < d.data.length := by
    rw [← hf.more]
    intro hm
    have := hf.tos
    rw [if_pos hm, ← htos, ha.1] at this
    cases this
  have hmin := hf.min
  have hwithin := hf.within
  have hall : bp.length - IP4HDR = d.data.length := by omega
  refine ⟨h0, by rw [hlen]; omega, ?_⟩
  rw [hlen, pktdata, hbytes, ← pktdata, hf.data, h0, List.drop_zero, hall, List.take_length]

/-- Fragments of the datagram and packets of others arrive. -/
def arrivals (d : Datagram) : Lts IP (Nat × Block × List Block) where
  init ip := ip.queue d.key = none
  step ip a ip' := (FragmentOf d a.2.1 a.2.2 ∨ a.2.1.key ≠ d.key) ∧
    ∃ r, ip4reassemble a.1 ip a.2.1.frag a.2.1 a.2.2 = .ok (ip', r)

theorem holds_inductive (d : Datagram) : (arrivals d).Inductive (Holds d) where
  init ip h f hf hkey := absurd hkey (by simpa using List.find?_eq_none.mp h f hf)
  step ip a ip' hi hs := by
    obtain ⟨hf | hkey, r, hr⟩ := hs
    · obtain ⟨b, ip₁, r₁, -, -, hpart, hr₁, hout⟩ := hf.outcome hi a.1
      cases hr₁.symm.trans hr
      exact hout.all (K := (· = d.key)) (fun _ => hpart.1) hi
    · intro g hg hgk
      exact hi g ((reassemble_others hr g hg).resolve_left fun he => hkey (he.symm.trans hgk)) hgk

/-- In every run, a packet that is returned for a fragment of the datagram is the datagram exactly
when the first fragment of the queue was not trimmed. -/
theorem reassembled_iff {ip : IP} (h : (arrivals d).Reach ip) (now : Nat)
    (hf : FragmentOf d bp next) :
    ∃ ip' r, ip4reassemble now ip bp.frag bp next = .ok (ip', r) ∧ ∀ pkt, r = some pkt →
      ((pktlen pkt = IP4HDR + d.data.length ∧ pktdata pkt (pktlen pkt) = d.data) ↔
        HeadWhole ip bp) := by
  have hi := (holds_inductive d).reach h
  obtain ⟨b, ip', r, hbytes, hb, hpart, hr, hout⟩ := hf.outcome hi now
  refine ⟨ip', r, hr, fun pkt hpkt => ?_⟩
  subst hpkt
  cases hout with
  | accept hacc _ =>
    obtain ⟨h0, hlen, hdata⟩ := hf.whole hbytes hb hacc
    exact iff_of_true ⟨hlen, hdata⟩ (.inl h0)
  | glued _ hq hins hc hg _ =>
    obtain ⟨c, l, rfl, h0⟩ := complete_head hc
    have hmem := queue_mem hq
    rw [glue_iff hins.queued hc hg]
    exact headWhole_iff (fun c hc => ((hi _ hmem.1 (hmem.2.trans hf.key)).all c hc).fits) hq hins h0
      hpart.2

/-! ## A first fragment that is trimmed -/

/-- A fragment with `len` bytes of data, in which all bytes that matter to nobody are zero. -/
private def frame (frag len : Nat) (more : Bool) (body : List UInt8) : Block where
  mem a := ([0x45, if more then 1 else 0, 0, .ofNat (len + 20), 0, 0, .ofNat (frag / 256), .ofNat frag,
    0, 0, 0, 0, 0, 0, 0, 0, 0, 0, 0, 0] ++ body)[a - 64]?.getD 0
  rp := 64
  wp := 84 + len
  lim := 128
  foff := 0
  flen := 0

private def word : Datagram where
  key := ⟨0, 0, 0⟩
  data := List.replicate 24 7
  fits := by decide

/-- Bytes 0 to 15, and bytes 8 to 23. -/
private def lower : Block := frame 0x2000 16 true (List.replicate 16 7)
private def upper : Block := frame 0x0001 16 false (List.replicate 16 7)

theorem lower_of : FragmentOf word lower [] :=
  ⟨⟨⟨by decide, by decide⟩, nofun, by decide⟩, by decide, by decide, by decide, by decide,
    by decide, by decide, by decide⟩

theorem upper_of : FragmentOf word upper [] :=
  ⟨⟨⟨by decide, by decide⟩, nofun, by decide⟩, by decide, by decide, by decide, by decide,
    by decide, by decide, by decide⟩

/-- The length and the data of the packet that two fragments make. -/
private def packet (b c : Block) : Option (Nat × List UInt8) :=
  match ip4reassemble 0 ⟨[]⟩ b.frag b [] with
  | .error _ => none
  | .ok (ip, _) =>
    match ip4reassemble 0 ip c.frag c [] with
    | .error _ => none
    | .ok (_, r) => r.map fun pkt => (pktlen pkt, pktdata pkt (pktlen pkt))

private theorem packet_some {b c : Block} {n : Nat} {l : List UInt8} (hb : FragmentOf word b [])
    (h : packet b c = some (n, l)) : ∃ ip ip' pkt, (arrivals word).Reach ip ∧
      ip4reassemble 0 ip c.frag c [] = .ok (ip', some pkt) ∧ pktlen pkt = n ∧
      pktdata pkt (pktlen pkt) = l := by
  unfold packet at h
  split at h
  · cases h
  · rename_i ip r h₁
    split at h
    · cases h
    · rename_i ip' r' h₂
      obtain ⟨pkt, rfl, hp⟩ := Option.map_eq_some_iff.mp h
      cases hp
      have hinit : (arrivals word).Reach ⟨[]⟩ := ⟨[], .init (show IP.queue ⟨[]⟩ _ = none from rfl)⟩
      exact ⟨ip, ip', pkt, hinit.step (e := (0, b, [])) ⟨.inl hb, r, h₁⟩, h₂, rfl, rfl⟩

/-- The second fragment trims the first one, and the packet counts what they share twice. -/
theorem trimmed_head : ∃ d ip ip' bp pkt, (arrivals d).Reach ip ∧ FragmentOf d bp [] ∧
    ip4reassemble 0 ip bp.frag bp [] = .ok (ip', some pkt) ∧
    pktlen pkt ≠ IP4HDR + d.data.length := by
  have hp : packet lower upper = some (52, List.replicate 32 7) := by decide +kernel
  obtain ⟨ip, ip', pkt, hreach, hr, hlen, -⟩ := packet_some lower_of hp
  exact ⟨word, ip, ip', upper, pkt, hreach, upper_of, hr, by rw [hlen]; decide⟩

/-- Bytes 0 to 7. -/
private def lowest : Block := frame 0x2000 8 true (List.replicate 8 7)

theorem lowest_of : FragmentOf word lowest [] :=
  ⟨⟨⟨by decide, by decide⟩, nofun, by decide⟩, by decide, by decide, by decide, by decide,
    by decide, by decide, by decide⟩

theorem reassembled_iff_word : ∃ ip ip' pkt,
    ip4reassemble 0 ip upper.frag upper [] = .ok (ip', some pkt) ∧
    pktdata pkt (pktlen pkt) = word.data ∧ HeadWhole ip upper := by
  have hp : packet lowest upper = some (44, List.replicate 24 7) := by decide +kernel
  obtain ⟨ip, ip', pkt, hreach, hr, hlen, hdata⟩ := packet_some lowest_of hp
  obtain ⟨ip₁, r, hr', hiff⟩ := reassembled_iff hreach 0 upper_of
  cases hr.symm.trans hr'
  exact ⟨ip, ip', pkt, hr, hdata, (hiff pkt rfl).mp ⟨hlen, hdata⟩⟩

end NixMark.Ip
