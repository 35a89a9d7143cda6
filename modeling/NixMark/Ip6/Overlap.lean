import NixMark.Lib.Lts
import NixMark.Ip6.Queue

/-!
# Overlapping fragments of one IPv6 packet

The fragments of a packet whose fragment header stands directly behind the IPv6 header arrive in any
order, some of them more than once, and with any overlaps.

* `FragmentOf`: a packet from the network that is a fragment; `Part`: what a fragment of a queue
  holds.
* `FlagKept`: when the front of a fragment is trimmed, a byte of its data comes to stand where its
  flag is read.
* `restored_iff`: in every run in which the flags are kept, a packet that is returned is the original
  exactly when it was not an atomic fragment and its first fragment has not been trimmed.
* `wrongly_restored`: the three ways to a wrong packet.
-/

namespace NixMark.Ip6

open Ip Lib Lib.Pieces Block

structure Packet where
  key : Key
  proto : Nat
  data : List UInt8
  fits : data.length ≤ 65535

/-- Where the data of a fragment ends. -/
def fragend (b : Block) : Nat := offset IP6HDR b + (ploadlen b - IP6FHDR)

/-- The blocks hold a fragment of the packet: its header stands behind the IPv6 header. -/
structure FragmentOf (d : Packet) (bp : Block) (next : List Block) : Prop where
  arrived : Arrived IP6HDR bp next
  fh : proto bp = FH
  proto : nexthdr IP6HDR bp = d.proto
  key : fragkey IP6HDR bp = d.key
  min : IP6FHDR ≤ ploadlen bp
  max : IP6HDR + ploadlen bp ≤ blocklen (bp :: next)
  within : fragend bp ≤ d.data.length
  data : ((bytes (bp :: next)).drop (IP6HDR + IP6FHDR)).take (ploadlen bp - IP6FHDR) =
    (d.data.drop (offset IP6HDR bp)).take (ploadlen bp - IP6FHDR)
  more : more IP6HDR bp = true ↔ fragend bp < d.data.length

/-- A fragment of a queue holds a part of the packet. -/
structure Part (d : Packet) (b : Block) : Prop where
  fits : Fits IP6HDR b
  within : b.fend ≤ d.data.length
  more : more IP6HDR b = true ↔ b.fend < d.data.length
  data : payload IP6HDR b = (d.data.drop b.foff).take b.flen
  proto : proto b = d.proto
  src : src b = d.key.src
  dst : dst b = d.key.dst

/-- The packet is the original: behind the IPv6 header stands its data. -/
def Restored (d : Packet) : List Block → Prop
  | [] => False
  | b :: l => Ip6.proto b = d.proto ∧ Ip6.src b = d.key.src ∧ Ip6.dst b = d.key.dst ∧
      ploadlen b = d.data.length ∧ (bytes (b :: l)).drop IP6HDR = d.data

/-- Behind `n` bytes of the fragment stands a byte that reads as its flag. -/
def FlagKept (u : Nat) (b : Block) (n : Nat) : Prop :=
  b.byte (n + (u + 3)) % 2 = b.byte (u + 3) % 2

/-- The flags of the fragments that a fragment trims at the front are kept. -/
def FlagsKept (d : Packet) (ip : IP) (bp : Block) : Prop :=
  ∀ f, ip.queue d.key = some f → ∀ b ∈ f.blist, offset IP6HDR bp ≤ b.foff →
    b.foff < fragend bp → fragend bp < b.fend → FlagKept IP6HDR b (fragend bp - b.foff)

/-- The first fragment of the queue is as it came, and it still is when the new fragment has been put
into its place. -/
def HeadWhole (d : Packet) (ip : IP) (bp : Block) : Prop :=
  offset IP6HDR bp = 0 ∨ ∀ f h l, ip.queue d.key = some f → f.blist = h :: l →
    ploadlen h = IP6FHDR + h.flen ∧ h.fend ≤ offset IP6HDR bp

variable {d : Packet} {b c bp : Block} {q l next : List Block} {ip : IP}

/-! ## Trimming -/

theorem more_fronted {u x : Nat} (h : FlagKept u b (x - b.foff)) :
    Ip6.more u (fronted u b x) = Ip6.more u b := by
  have hbyte : (fronted u b x).byte (u + 3) = b.byte (x - b.foff + (u + 3)) :=
    byte_advance_behind b (x - b.foff) (Nat.le_add_right u 3)
  rw [Ip6.more, hbyte, Ip6.more, h]

theorem Part.cutat (hb : Part d b) (hc : Part d c) (hlt : b.foff < c.foff) (hend' : b.fend < c.fend) :
    Part d (b.cutat c.foff) := by
  have hcut := cutat_fend (c := b) hlt.le
  have hflen : (b.cutat c.foff).flen ≤ b.flen := Nat.sub_le _ _
  have hwithin := hc.within
  have hle := foff_le_fend c
  refine ⟨hb.fits.cutat _, by rw [hcut]; omega, ?_, ?_, hb.proto, hb.src, hb.dst⟩
  · -- it was not the last one, since the other goes on behind it
    refine iff_of_true (hb.more.mpr (hend'.trans_le hwithin)) ?_
    rw [hcut]
    omega
  · rw [payload_cutat, hb.data, List.take_take, min_eq_left hflen]
    rfl

theorem ipaddr_fronted {o x : Nat} (h : o + 16 ≤ IP6HDR) :
    ipaddr (fronted IP6HDR b x) o = ipaddr b o := by
  have hs : ∀ k, k + 1 < IP6HDR → (fronted IP6HDR b x).nhgets k = b.nhgets k := fun k hk =>
    nhgets_advance b (x - b.foff) hk
  unfold ipaddr Block.nhgetl
  rw [hs o (by omega), hs (o + 2) (by omega), hs (o + 4) (by omega), hs (o + 4 + 2) (by omega),
    hs (o + 8) (by omega), hs (o + 8 + 2) (by omega), hs (o + 12) (by omega),
    hs (o + 12 + 2) (by omega)]

theorem Part.fronted {x : Nat} (hb : Part d b) (hlt : b.foff < x) (hend : x < b.fend)
    (hk : FlagKept IP6HDR b (x - b.foff)) : Part d (fronted IP6HDR b x) := by
  have hend' := fronted_fend (u := IP6HDR) hlt.le hend.le
  have hlen : x - b.foff ≤ b.flen := by
    unfold Block.fend at hend
    omega
  refine ⟨hb.fits.fronted hlt hend.le, by rw [hend']; exact hb.within, ?_, ?_, ?_,
    (ipaddr_fronted (by decide)).trans hb.src, (ipaddr_fronted (by decide)).trans hb.dst⟩
  · rw [hend', more_fronted hk]
    exact hb.more
  · rw [payload_fronted hlen, hb.data, List.drop_take, List.drop_drop, Nat.add_sub_cancel' hlt.le]
    rfl
  · exact (byte_advance b _ (by decide)).trans hb.proto

/-! ## The packet -/

theorem payload_length (u : Nat) (b : Block) : (payload u b).length = b.flen := window_length _ _ _

/-- The fragments of a complete packet hold the packet from the place on where the first one
begins. -/
theorem complete_payload (hq : Laid (cuts IP6HDR) (Part d) q) {pos : Nat}
    (hc : complete IP6HDR pos q = .ok true) : q.flatMap (payload IP6HDR) = d.data.drop pos := by
  induction q generalizing pos with
  | nil => cases hc
  | cons b q ih =>
    have hb := hq.all b List.mem_cons_self
    rw [complete] at hc
    split_ifs at hc with h₀ hlen h₁
    · cases hc
    · -- more fragments follow
      rw [not_not] at h₀
      rw [List.flatMap_cons, ih hq.tail hc, hb.data, h₀, ← List.drop_drop, List.take_append_drop]
    · rw [not_not] at h₀
      have hend : b.fend = d.data.length :=
        Nat.le_antisymm hb.within (Nat.le_of_not_lt fun h => h₁ (hb.more.mpr h))
      have hrest : q.flatMap (payload IP6HDR) = [] := by
        refine List.flatMap_eq_nil_iff.mpr fun c hc => ?_
        have h₂ : b.fend ≤ c.foff := hq.head_le c hc
        have h₃ := (hq.tail.all c hc).within
        refine List.eq_nil_of_length_eq_zero ?_
        rw [payload_length]
        unfold Block.fend at h₃
        omega
      rw [List.flatMap_cons, hrest, List.append_nil, hb.data, h₀]
      refine List.take_of_length_le ?_
      rw [List.length_drop]
      unfold Block.fend at hend
      omega

/-- The lengths of the fragments of a complete packet. -/
theorem complete_length {h : Block} (hq : Laid (cuts IP6HDR) (Part d) (h :: l))
    (hc : complete IP6HDR 0 (h :: l) = .ok true) :
    h.flen + (l.map (·.flen)).sum = d.data.length := by
  have hdata := congrArg List.length (complete_payload hq hc)
  rw [List.drop_zero, List.flatMap_cons, List.length_append, payload_length,
    List.length_flatMap] at hdata
  simpa only [payload_length] using hdata

/-- The data of a packet whose first fragment was not trimmed. -/
theorem glued_data {h : Block} (hq : Laid (cuts IP6HDR) (Part d) (h :: l))
    (hc : complete IP6HDR 0 (h :: l) = .ok true) (hw : ploadlen h = IP6FHDR + h.flen) (v : Nat) :
    (bytes ((headed IP6HDR h).hnputs 4 v :: l.map (stripped IP6HDR))).drop IP6HDR = d.data := by
  obtain ⟨_, _, ⟨⟩, h0⟩ := complete_head hc
  have hh := hq.all h List.mem_cons_self
  have hdata := complete_payload hq hc
  rw [List.drop_zero, List.flatMap_cons] at hdata
  have hskip : IP6HDR ≤ ((headed IP6HDR h).hnputs 4 v).data.length := by
    rw [data_length]
    change IP6HDR ≤ (headed IP6HDR h).BLEN
    rw [headed_BLEN, hw]
    omega
  have hlen : IP6HDR + (IP6FHDR + h.flen) - (IP6HDR + IP6FHDR) = h.flen := by omega
  rw [bytes_cons, bytes_stripped, List.drop_append_of_le_length hskip,
    headed_data (Nat.le_refl _) hh.fits h0, hw, hlen, ← payload, hdata]

/-- A packet is the original exactly when its first fragment was not trimmed. -/
theorem glue_iff {h : Block} {pkt : List Block} (hq : Laid (cuts IP6HDR) (Part d) (h :: l))
    (hc : complete IP6HDR 0 (h :: l) = .ok true) (hg : glue IP6HDR (h :: l) = .ok pkt) :
    Restored d pkt ↔ ploadlen h = IP6FHDR + h.flen := by
  obtain ⟨_, _, ⟨⟩, h0⟩ := complete_head hc
  have hh := hq.all h List.mem_cons_self
  have hsum := complete_length hq hc
  have hle := (hh.fits.head h0).1
  have hfit := d.fits
  have hlt := h.nhgets_lt 4
  rw [glue_eq (Nat.le_refl _) hh.fits h0 fun c hc => (hq.tail.all c hc).fits] at hg
  cases hg
  have hpl : ∀ v, ploadlen ((headed IP6HDR h).hnputs 4 v) = v % 65536 := nhgets_hnputs _ 4
  constructor
  · rintro ⟨-, -, -, hlen, -⟩
    rw [hpl] at hlen
    unfold ploadlen IP6HDR IP6FHDR at *
    omega
  · intro hw
    have hbyte : ∀ v o, o < IP6HDR → o ≠ 4 → o ≠ 5 →
        ((headed IP6HDR h).hnputs 4 v).byte o = h.byte o := fun v o ho h4 h5 =>
      (byte_hnputs_ne h4 h5).trans (byte_advance h IP6FHDR ho)
    have hs : ∀ v o, 6 ≤ o → o + 1 < IP6HDR →
        ((headed IP6HDR h).hnputs 4 v).nhgets o = h.nhgets o := fun v o ho ho' =>
      (nhgets_hnputs_ne (.inr (by omega))).trans (nhgets_advance h IP6FHDR ho')
    have haddr : ∀ v o, 6 ≤ o → o + 16 ≤ IP6HDR →
        ipaddr ((headed IP6HDR h).hnputs 4 v) o = ipaddr h o := by
      intro v o ho ho'
      unfold ipaddr Block.nhgetl
      rw [hs v o ho (by omega), hs v (o + 2) (by omega) (by omega),
        hs v (o + 4) (by omega) (by omega), hs v (o + 4 + 2) (by omega) (by omega),
        hs v (o + 8) (by omega) (by omega), hs v (o + 8 + 2) (by omega) (by omega),
        hs v (o + 12) (by omega) (by omega), hs v (o + 12 + 2) (by omega) (by omega)]
    refine ⟨(hbyte _ 6 (by decide) (by decide) (by decide)).trans hh.proto,
      (haddr _ 8 (by decide) (by decide)).trans hh.src,
      (haddr _ 24 (by decide) (by decide)).trans hh.dst, ?_, glued_data hq hc hw _⟩
    rw [hpl]
    unfold IP6FHDR at *
    omega

/-! ## A fragment that arrives -/

/-- The fragment after `unfraglen`: its type is that of the header behind the fragment header. -/
def retyped (b : Block) : Block := setnexthdr b false FH 6 IP6HDR

theorem unfraglen_fragment (hp : Ip6.proto b = FH) (hlen : IP6HDR < b.BLEN) :
    unfraglen b false = .ok (retyped b, FH, IP6HDR) := by
  have hwalk : headers b.byte b.BLEN = .ok (FH, 6, IP6HDR) := by
    have hp' : b.byte 6 = FH := hp
    have hne : ¬ (FH = HBH ∨ FH = RH) := by decide
    rw [headers, walk, hp', if_neg hne, if_neg fun h => absurd h.2 (Nat.not_le.mpr hlen)]
  rw [unfraglen, hwalk]
  rfl

theorem retyped_eq (b : Block) : retyped b = b.setbyte 6 (b.byte IP6HDR) := by
  unfold retyped setnexthdr
  rw [if_pos rfl, if_neg Bool.false_ne_true]

@[simp] theorem retyped_BLEN (b : Block) : (retyped b).BLEN = b.BLEN := by
  rw [retyped_eq]
  rfl

theorem retyped_byte {o : Nat} (h : o ≠ 6) : (retyped b).byte o = b.byte o := by
  rw [retyped_eq, byte_setbyte_ne h]

theorem retyped_nhgets {o : Nat} (h : o + 1 < 6 ∨ 6 < o) : (retyped b).nhgets o = b.nhgets o := by
  rw [retyped_eq, nhgets_setbyte_ne h]

theorem retyped_proto (b : Block) : Ip6.proto (retyped b) = nexthdr IP6HDR b := by
  rw [retyped_eq, Ip6.proto, byte_setbyte]
  exact Nat.mod_eq_of_lt (b.byte_lt _)

theorem retyped_ipaddr {o : Nat} (h : 6 < o) : ipaddr (retyped b) o = ipaddr b o := by
  unfold ipaddr Block.nhgetl
  rw [retyped_nhgets (.inr h), retyped_nhgets (.inr (by omega)), retyped_nhgets (.inr (by omega)),
    retyped_nhgets (.inr (by omega)), retyped_nhgets (.inr (by omega)),
    retyped_nhgets (.inr (by omega)), retyped_nhgets (.inr (by omega)),
    retyped_nhgets (.inr (by omega))]

theorem retyped_key (b : Block) : fragkey IP6HDR (retyped b) = fragkey IP6HDR b := by
  have h8 : (6 : Nat) < IP6HDR + 4 := by decide
  have h10 : (6 : Nat) < IP6HDR + 4 + 2 := by decide
  have hid : fragid IP6HDR (retyped b) = fragid IP6HDR b := by
    rw [fragid, fragid, Block.nhgetl, Block.nhgetl, retyped_nhgets (.inr h8),
      retyped_nhgets (.inr h10)]
  rw [fragkey, fragkey, hid, Ip6.src, Ip6.dst, retyped_ipaddr (by decide),
    retyped_ipaddr (by decide)]
  rfl

/-- Behind the IPv6 header nothing is changed. -/
theorem retyped_drop (b : Block) (l : List Block) {n : Nat} (hn : IP6HDR ≤ n) (hb : n ≤ b.BLEN) :
    (bytes (retyped b :: l)).drop n = (bytes (b :: l)).drop n := by
  have hb' : n ≤ (retyped b).BLEN := by rwa [retyped_BLEN]
  rw [bytes_cons, bytes_cons, List.drop_append_of_le_length (by rwa [data_length]),
    List.drop_append_of_le_length (by rwa [data_length]), Block.data, Block.data,
    window_drop hb', window_drop hb, retyped_BLEN, retyped_eq, setbyte_rp,
    window_setbyte (Nat.add_lt_add_left (lt_of_lt_of_le (by decide) hn) _)]

theorem FragmentOf.retyped (hf : FragmentOf d bp next) : Arrived IP6HDR (retyped bp) next where
  first := by
    rw [retyped_eq]
    exact hf.arrived.first
  rest := hf.arrived.rest
  header := by
    rw [retyped_BLEN]
    exact hf.arrived.header

/-- A fragment is passed to `ip6reassemble`. -/
theorem FragmentOf.reasm (hf : FragmentOf d bp next) (now : Nat) (ip : IP) :
    reasm now true ip bp next = requeue now ip IP6HDR (offsetRM IP6HDR bp) d.key
      (gather (Ip6.retyped bp) next).1 (gather (Ip6.retyped bp) next).2 := by
  have hlen : IP6HDR < bp.BLEN := lt_of_lt_of_le (by decide) hf.arrived.header
  have hoff : offsetRM IP6HDR (Ip6.retyped bp) = offsetRM IP6HDR bp :=
    retyped_nhgets (.inr (by decide))
  rw [Ip6.reasm, unfraglen_fragment hf.fh hlen, Except.bind, if_pos ⟨rfl, rfl⟩, ip6reassemble,
    if_neg (Nat.not_lt.mpr hf.retyped.header), retyped_key, hf.key, hoff]

/-- The fragment with its `Ipfrag`. -/
theorem FragmentOf.part (hf : FragmentOf d bp next) (ho : b.Ordered)
    (hbytes : bytes [b] = bytes (Ip6.retyped bp :: next)) (hb : IP6HDR + IP6FHDR ≤ b.BLEN) :
    Part d (tag IP6HDR (offset IP6HDR bp) b) ∧
      ploadlen (tag IP6HDR (offset IP6HDR bp) b) =
        IP6FHDR + (tag IP6HDR (offset IP6HDR bp) b).flen ∧
      (tag IP6HDR (offset IP6HDR bp) b).fend = fragend bp := by
  have hfit := d.fits
  have hmin := hf.min
  have hwithin := hf.within
  have hoff : offset IP6HDR (Ip6.retyped bp) = offset IP6HDR bp :=
    congrArg (· / 8 * 8) (retyped_nhgets (.inr (by decide)))
  have hpl : ploadlen (Ip6.retyped bp) = ploadlen bp := retyped_nhgets (.inl (by decide))
  have hsub : IP6HDR + ploadlen bp - (IP6HDR + IP6FHDR) = ploadlen bp - IP6FHDR :=
    Nat.add_sub_add_left _ _ _
  obtain ⟨hfits, hflen, hlen, hmore, hbyte, hdata⟩ :=
    hf.retyped.tag (Nat.le_refl _) hbytes ho hb (by rw [hpl]; omega)
      (by
        rw [hpl, blocklen, List.map_cons, retyped_BLEN]
        exact hf.max)
      (by
        rw [hpl, hoff, hsub]
        unfold fragend at hwithin
        omega)
  rw [hoff] at hfits hflen hlen hmore hbyte hdata
  rw [hpl, hsub] at hflen
  have hfend : (tag IP6HDR (offset IP6HDR bp) b).fend = fragend bp := by
    rw [Block.fend, hflen]
    rfl
  have hs : ∀ o, 6 < o → o + 1 < IP6HDR →
      (tag IP6HDR (offset IP6HDR bp) b).nhgets o = bp.nhgets o := by
    intro o ho ho'
    rw [Block.nhgets, hbyte o (by omega), hbyte (o + 1) ho', ← Block.nhgets]
    exact retyped_nhgets (.inr ho)
  have haddr : ∀ o, 6 < o → o + 16 ≤ IP6HDR →
      ipaddr (tag IP6HDR (offset IP6HDR bp) b) o = ipaddr bp o := by
    intro o ho ho'
    unfold ipaddr Block.nhgetl
    rw [hs o ho (by omega), hs (o + 2) (by omega) (by omega), hs (o + 4) (by omega) (by omega),
      hs (o + 4 + 2) (by omega) (by omega), hs (o + 8) (by omega) (by omega),
      hs (o + 8 + 2) (by omega) (by omega), hs (o + 12) (by omega) (by omega),
      hs (o + 12 + 2) (by omega) (by omega)]
  refine ⟨⟨hfits, ?_, ?_, ?_, ?_, ?_, ?_⟩, by rw [hlen, hpl, hflen]; omega, hfend⟩
  · rw [hfend]
    exact hwithin
  · have hm : Ip6.more IP6HDR (Ip6.retyped bp) = Ip6.more IP6HDR bp := by
      rw [Ip6.more, Ip6.more, retyped_byte (by decide)]
    rw [hmore, hm, hfend]
    exact hf.more
  · rw [hdata, hpl, hsub, retyped_drop bp next (Nat.le_add_right _ _) hf.arrived.header, hf.data,
      hflen]
    rfl
  · exact (hbyte 6 (by decide)).trans ((retyped_proto bp).trans hf.proto)
  · exact (haddr 8 (by decide) (by decide)).trans (congrArg Key.src hf.key)
  · exact (haddr 24 (by decide) (by decide)).trans (congrArg Key.dst hf.key)

/-- The queues of the packet. -/
def Holds (d : Packet) (ip : IP) : Prop :=
  ∀ f ∈ ip.flisthead6, f.key = d.key → Laid (cuts IP6HDR) (Part d) f.blist

/-- What `ip6reassemble` does with a fragment of the packet. -/
theorem FragmentOf.outcome (hf : FragmentOf d bp next) (hi : Holds d ip) (hk : FlagsKept d ip bp)
    (now : Nat) :
    ∃ b ip' r, bytes [b] = bytes (Ip6.retyped bp :: next) ∧ IP6HDR + IP6FHDR ≤ b.BLEN ∧
      Part d (tag IP6HDR (offset IP6HDR bp) b) ∧
      ploadlen (tag IP6HDR (offset IP6HDR bp) b) =
        IP6FHDR + (tag IP6HDR (offset IP6HDR bp) b).flen ∧
      Ip6.reasm now true ip bp next = .ok (ip', r) ∧
      Outcome IP6HDR (Part d) now ip d.key (offsetRM IP6HDR bp) b ip' r := by
  obtain ⟨b, hg, ho, hbytes, hlen⟩ := hf.retyped.gather (Nat.le_refl _)
  obtain ⟨hpart, hwhole, hfend⟩ := hf.part ho hbytes hlen
  obtain ⟨ip', r, hr, hout⟩ := requeue_spec (Nat.le_refl IP6HDR) (P := Part d) Part.fits now
    (offsetRM IP6HDR bp) (b := b) hi (fun _ => hpart) fun _ f hf' => by
      refine ⟨fun c hc hlt _ hend => ?_, fun c hc hle hlt hend => ?_⟩
      · exact ((hi f (ip.queue_mem hf').1 (ip.queue_mem hf').2).all c hc).cutat hpart hlt hend
      · change c.foff < (tag IP6HDR (offset IP6HDR bp) b).fend at hlt
        change (tag IP6HDR (offset IP6HDR bp) b).fend < c.fend at hend
        change Part d (fronted IP6HDR c (tag IP6HDR (offset IP6HDR bp) b).fend)
        rw [hfend] at hlt hend ⊢
        exact ((hi f (ip.queue_mem hf').1 (ip.queue_mem hf').2).all c hc).fronted hlt hend
          (hk f hf' c hc hle hlt hend)
  refine ⟨b, ip', r, hbytes, hlen, hpart, hwhole, ?_, hout⟩
  rw [hf.reasm, hg]
  exact hr

/-- A packet with other fragments, or without any. -/
def Other (d : Packet) (bp : Block) : Prop :=
  ∀ b nh u, unfraglen bp false = .ok (b, nh, u) → fragkey u b ≠ d.key

/-- Fragments of the packet and other packets arrive. -/
def arrivals (d : Packet) : Lts IP (Nat × Block × List Block) where
  init ip := ip.queue d.key = none
  step ip a ip' := (FragmentOf d a.2.1 a.2.2 ∨ Other d a.2.1) ∧
    ∃ r, reasm a.1 true ip a.2.1 a.2.2 = .ok (ip', r)

/-- The flags are kept when a fragment of the packet arrives. -/
def Kept (d : Packet) (ip : IP) (a : Nat × Block × List Block) : Prop :=
  FragmentOf d a.2.1 a.2.2 → FlagsKept d ip a.2.1

/-- The queues of the packet are not those of another one. -/
theorem Other.queues {r : Option (List Block)} {ip' : IP} {now : Nat} (ho : Other d bp)
    (h : reasm now true ip bp next = .ok (ip', r)) :
    ∀ g ∈ ip'.flisthead6, g.key = d.key → g ∈ ip.flisthead6 := by
  intro g hg hkey
  unfold Ip6.reasm at h
  cases hu : unfraglen bp false with
  | error e =>
    rw [hu] at h
    cases h
  | ok s =>
    obtain ⟨b, nh, u⟩ := s
    simp only [hu, Except.bind] at h
    split_ifs at h
    · unfold ip6reassemble at h
      split_ifs at h
      exact (requeue_others h g hg).resolve_left fun he => ho b nh u hu (he.symm.trans hkey)
    · cases h
      exact hg

theorem holds_inductive (d : Packet) : ((arrivals d).restrict (Kept d)).Inductive (Holds d) where
  init ip h f hf hkey := absurd hkey (by simpa using List.find?_eq_none.mp h f hf)
  step ip a ip' hi hs := by
    obtain ⟨⟨hf | ho, r, hr⟩, hk⟩ := hs
    · obtain ⟨b, ip₁, r₁, -, -, hpart, -, hr₁, hout⟩ := hf.outcome hi (hk hf) a.1
      cases hr₁.symm.trans hr
      exact hout.all (K := (· = d.key)) (fun _ => hpart) hi
    · exact fun g hg hkey => hi g (ho.queues hr g hg hkey) hkey

/-- The first fragment of a packet has the length that its header says. -/
theorem headWhole_iff {f : Fragment6} {t : Block} (hfit : ∀ c ∈ f.blist, Fits IP6HDR c)
    (hq : ip.queue d.key = some f) (hins : Placed (cuts IP6HDR) (Part d) f.blist t (c :: l))
    (h0 : c.foff = 0) (ht : t.foff = offset IP6HDR bp) (htag : ploadlen t = IP6FHDR + t.flen) :
    ploadlen c = IP6FHDR + c.flen ↔ HeadWhole d ip bp := by
  rcases hins.head with ⟨l', he, -⟩ | ⟨h, r, l', hq', hlt, he⟩
  · -- the new fragment is the first one
    cases he
    exact iff_of_true htag (.inl (ht.symm.trans h0))
  · cases he
    have hlt' : h.foff < offset IP6HDR bp := ht ▸ hlt
    have hhead : HeadWhole d ip bp ↔ ploadlen h = IP6FHDR + h.flen ∧ h.fend ≤ offset IP6HDR bp := by
      constructor
      · intro hw
        rcases hw with hw | hw
        · rw [hw] at hlt'
          cases hlt'
        · exact hw f h r hq hq'
      · intro hw
        refine .inr fun f' h' l' hf' hl' => ?_
        cases hq.symm.trans hf'
        cases hq'.symm.trans hl'
        exact hw
    have hc0 : h.foff = 0 := h0
    have hle := ((hfit h (hq' ▸ List.mem_cons_self)).head h0).1
    rw [hhead]
    change ploadlen h = IP6FHDR + (h.flen - (h.foff + h.flen - t.foff)) ↔
      ploadlen h = IP6FHDR + h.flen ∧ h.foff + h.flen ≤ offset IP6HDR bp
    rw [ht]
    omega

/-- An atomic fragment is returned with its fragment header. -/
theorem FragmentOf.not_restored (hf : FragmentOf d bp next)
    (hbytes : bytes [b] = bytes (Ip6.retyped bp :: next)) (hb : IP6HDR + IP6FHDR ≤ b.BLEN)
    (h0 : offsetRM IP6HDR bp = 0) : ¬ Restored d [b] := by
  rintro ⟨-, -, -, hlen, -⟩
  obtain ⟨hpl, -⟩ := header_congr (Nat.le_refl _) hbytes hb hf.retyped.header
  have hpl' : ploadlen (Ip6.retyped bp) = ploadlen bp := retyped_nhgets (.inl (by decide))
  have hoff : offset IP6HDR bp = 0 := by rw [offset, h0]
  have hlast : ¬ fragend bp < d.data.length := by
    rw [← hf.more, Ip6.more]
    have hbyte := bp.byte_lt (IP6HDR + 3)
    have hsum : bp.byte (IP6HDR + 2) * 256 + bp.byte (IP6HDR + 3) = 0 := h0
    rw [decide_eq_true_iff]
    omega
  have hwithin := hf.within
  have hmin := hf.min
  rw [hpl, hpl'] at hlen
  unfold fragend at *
  unfold IP6FHDR at *
  omega

/-- In every run in which trimming keeps the flags, a packet that is returned for a fragment of the
packet is the original exactly when it was not an atomic fragment and the first fragment of the queue
was not trimmed. -/
theorem restored_iff (h : ((arrivals d).restrict (Kept d)).Reach ip) (now : Nat)
    (hf : FragmentOf d bp next) (hk : FlagsKept d ip bp) :
    ∃ ip' r, reasm now true ip bp next = .ok (ip', r) ∧ ∀ pkt, r = some pkt →
      (Restored d pkt ↔ offsetRM IP6HDR bp ≠ 0 ∧ HeadWhole d ip bp) := by
  have hi := (holds_inductive d).reach h
  obtain ⟨b, ip', r, hbytes, hb, hpart, hwhole, hr, hout⟩ := hf.outcome hi hk now
  refine ⟨ip', r, hr, fun pkt hpkt => ?_⟩
  subst hpkt
  cases hout with
  | atomic h0 _ => exact iff_of_false (hf.not_restored hbytes hb h0) fun h => h.1 h0
  | glued hoff hq hins hc hg _ =>
    obtain ⟨c, l, rfl, h0⟩ := complete_head hc
    have hmem := ip.queue_mem hq
    rw [glue_iff hins.laid hc hg, and_iff_right hoff]
    exact headWhole_iff (fun c hc => ((hi _ hmem.1 hmem.2).all c hc).fits) hq hins h0 rfl hwhole

/-! ## Packets that are wrong -/

/-- A fragment with these bytes at `off`, in which all bytes that matter to nobody are zero. -/
private def frame (off : Nat) (m : Bool) (body : List UInt8) : Block where
  mem a := ([0x60, 0, 0, 0, 0, .ofNat (body.length + 8), 44, 64] ++ List.replicate 32 0 ++
    [17, 0, 0, .ofNat (off + if m then 1 else 0), 0, 0, 0, 0] ++ body)[a - 64]?.getD 0
  rp := 64
  wp := 112 + body.length
  lim := 112 + body.length
  foff := 0
  flen := 0

private def word : Packet where
  key := ⟨0, 0, 0⟩
  proto := 17
  data := List.replicate 32 8
  fits := by decide

private def part (off len : Nat) : Block :=
  frame off (off + len < 32) (List.replicate len 8)

/-- The first 16 bytes, 16 bytes from the middle, the last 24 and 16, and all of them. -/
theorem front_of : FragmentOf word (part 0 16) [] :=
  ⟨⟨⟨by decide, by decide⟩, List.forall_mem_nil _, by decide⟩, by decide, by decide, by decide,
    by decide, by decide, by decide, by decide, by decide⟩

theorem middle_of : FragmentOf word (part 8 16) [] :=
  ⟨⟨⟨by decide, by decide⟩, List.forall_mem_nil _, by decide⟩, by decide, by decide, by decide,
    by decide, by decide, by decide, by decide, by decide⟩

theorem behind_of : FragmentOf word (part 8 24) [] :=
  ⟨⟨⟨by decide, by decide⟩, List.forall_mem_nil _, by decide⟩, by decide, by decide, by decide,
    by decide, by decide, by decide, by decide, by decide⟩

theorem last_of : FragmentOf word (part 16 16) [] :=
  ⟨⟨⟨by decide, by decide⟩, List.forall_mem_nil _, by decide⟩, by decide, by decide, by decide,
    by decide, by decide, by decide, by decide, by decide⟩

theorem all_of : FragmentOf word (part 0 32) [] :=
  ⟨⟨⟨by decide, by decide⟩, List.forall_mem_nil _, by decide⟩, by decide, by decide, by decide,
    by decide, by decide, by decide, by decide, by decide⟩

/-- `ip6reassemble` of a fragment in one block whose fragment header says `off`. -/
private def arrive (ip : IP) (b : Block) (off : Nat) : Except Fault (IP × Option (List Block)) :=
  requeue 0 ip IP6HDR off word.key (retyped b) []

theorem reasm_arrive {b : Block} {off : Nat} (hf : FragmentOf word b [])
    (ho : offsetRM IP6HDR b = off) (ip : IP) : reasm 0 true ip b [] = arrive ip b off := by
  subst ho
  rw [hf.reasm 0 ip, gather, if_pos rfl]
  rfl

/-- The length of the packet that two fragments make. -/
private def packet (b : Block) (off : Nat) (c : Block) (off' : Nat) : Option Nat :=
  match arrive ⟨[]⟩ b off with
  | .error _ => none
  | .ok (ip, _) =>
    match arrive ip c off' with
    | .ok (_, some (e :: _)) => some (ploadlen e)
    | _ => none

private theorem packet_some {b c : Block} {off off' n : Nat} (hb : FragmentOf word b [])
    (hc : FragmentOf word c []) (hbo : offsetRM IP6HDR b = off) (hco : offsetRM IP6HDR c = off')
    (h : packet b off c off' = some n) :
    ∃ ip r ip' e l, reasm 0 true ⟨[]⟩ b [] = .ok (ip, r) ∧
      reasm 0 true ip c [] = .ok (ip', some (e :: l)) ∧ ploadlen e = n := by
  unfold packet at h
  split at h
  · cases h
  · rename_i ip r h₁
    split at h
    · rename_i ip' e l h₂
      cases h
      exact ⟨ip, r, ip', e, l, (reasm_arrive hb hbo _).trans h₁, (reasm_arrive hc hco _).trans h₂,
        rfl⟩
    · cases h

theorem packet_wrong {b c : Block} {off off' n : Nat} (hb : FragmentOf word b [])
    (hc : FragmentOf word c []) (hbo : offsetRM IP6HDR b = off) (hco : offsetRM IP6HDR c = off')
    (h : packet b off c off' = some n) (hn : n ≠ 32) :
    ∃ ip ip' pkt, (arrivals word).Reach ip ∧ reasm 0 true ip c [] = .ok (ip', some pkt) ∧
      ¬ Restored word pkt := by
  obtain ⟨ip, r, ip', e, l, h₁, h₂, hlen⟩ := packet_some hb hc hbo hco h
  have hinit : (arrivals word).Reach ⟨[]⟩ := ⟨[], .init (show IP.queue ⟨[]⟩ _ = none from rfl)⟩
  refine ⟨ip, ip', e :: l, hinit.step (e := (0, b, [])) ⟨.inl hb, r, h₁⟩, h₂, ?_⟩
  rintro ⟨-, -, -, hlen', -⟩
  exact hn (hlen.symm.trans hlen')

/-- An atomic fragment is returned with its fragment header; a first fragment that is trimmed is
counted in full; and a fragment in the middle is taken for the last one when its front is trimmed. -/
theorem wrongly_restored : ∃ d : Packet,
    (∃ ip ip' bp pkt, (arrivals d).Reach ip ∧ FragmentOf d bp [] ∧ offsetRM IP6HDR bp = 0 ∧
      reasm 0 true ip bp [] = .ok (ip', some pkt) ∧ ¬ Restored d pkt) ∧
    (∃ ip ip' bp pkt, (arrivals d).Reach ip ∧ FragmentOf d bp [] ∧ offset IP6HDR bp ≠ 0 ∧
      reasm 0 true ip bp [] = .ok (ip', some pkt) ∧ ¬ Restored d pkt) ∧
    ∃ ip ip' bp pkt, (arrivals d).Reach ip ∧ FragmentOf d bp [] ∧ offsetRM IP6HDR bp ≠ 0 ∧
      HeadWhole d ip bp ∧ reasm 0 true ip bp [] = .ok (ip', some pkt) ∧ ¬ Restored d pkt := by
  refine ⟨word, ?_, ?_, ?_⟩
  · have hp : packet (part 8 16) 9 (part 0 32) 0 = some 40 := by decide +kernel
    obtain ⟨ip, ip', pkt, hreach, hr, hne⟩ :=
      packet_wrong middle_of all_of (by decide) (by decide) hp (by decide)
    exact ⟨ip, ip', part 0 32, pkt, hreach, all_of, by decide, hr, hne⟩
  · have hp : packet (part 0 16) 1 (part 8 24) 8 = some 40 := by decide +kernel
    obtain ⟨ip, ip', pkt, hreach, hr, hne⟩ :=
      packet_wrong front_of behind_of (by decide) (by decide) hp (by decide)
    exact ⟨ip, ip', part 8 24, pkt, hreach, behind_of, by decide, hr, hne⟩
  · have hp : packet (part 8 16) 9 (part 0 16) 1 = some 24 := by decide +kernel
    obtain ⟨ip, ip', pkt, hreach, hr, hne⟩ :=
      packet_wrong middle_of front_of (by decide) (by decide) hp (by decide)
    exact ⟨ip, ip', part 0 16, pkt, hreach, front_of, by decide, .inl (by decide), hr, hne⟩

/-- The last fragment arrives first. -/
theorem restored_iff_word : ∃ ip ip' pkt, reasm 0 true ip (part 0 16) [] = .ok (ip', some pkt) ∧
    Restored word pkt := by
  have hp : packet (part 16 16) 16 (part 0 16) 1 = some 32 := by decide +kernel
  obtain ⟨ip, r, ip', e, l, h₁, h₂, -⟩ :=
    packet_some last_of front_of (by decide) (by decide) hp
  have hinit : ((arrivals word).restrict (Kept word)).Reach ⟨[]⟩ :=
    ⟨[], .init (show IP.queue ⟨[]⟩ _ = none from rfl)⟩
  have hreach : ((arrivals word).restrict (Kept word)).Reach ip :=
    hinit.step (e := (0, part 16 16, [])) ⟨⟨.inl last_of, r, h₁⟩, fun _ f hf => nomatch hf⟩
  -- the queue holds the last fragment, which the other one does not reach
  have hkept : FlagsKept word ip (part 0 16) := by
    intro f hf b hb _ hlt _
    rw [reasm_arrive last_of (show offsetRM _ _ = 16 by decide)] at h₁
    cases h₁
    cases hf
    rw [List.mem_singleton.mp hb] at hlt
    exact absurd hlt (by decide)
  obtain ⟨ip₁, r₁, hr, hiff⟩ := restored_iff hreach 0 front_of hkept
  cases h₂.symm.trans hr
  exact ⟨ip, ip', _, h₂, (hiff _ rfl).mpr ⟨by decide, .inl (by decide)⟩⟩

end NixMark.Ip6
