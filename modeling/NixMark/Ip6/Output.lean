import NixMark.Ip.Output
import NixMark.Ip6.Overlap

/-!
# IPv6 packets to an interface (`ipoput6` of `ip/ipv6.c`)

A packet that is longer than the interface takes is cut into fragments. The headers of the
unfragmentable part are copied to each of them, and the fragment header stands behind them.

* `ipoput6`: the packets that the medium is given.
* `seghdr_spec`: the headers of a fragment; its payload length counts the fragment header and the
  data, but no headers between the IPv6 header and the fragment header.
* `Tiles`: packets that are the fragments of a packet in the order of their offsets.
* `segs_tiles`: the packets of `ipoput6` are such when nothing stands between the two headers.
-/

namespace NixMark.Ip6

open Ip Block

/-- The interface that the route leads to. -/
structure Link where
  maxtu : Nat
  hsize : Nat
  /-- `ifc->reassemble > 0` -/
  reassemble : Bool

/-- The room for a packet; where the code's difference is negative, no packet fits either. -/
def Link.medialen (k : Link) : Nat := k.maxtu - k.hsize

/-- The fields that are filled in for every packet. -/
def fill (gating : Bool) (ttl tos : Nat) (b : Block) : Block :=
  let b := if gating then b else b.setbyte 0 IP_VER6
  let b := b.setbyte 7 ttl
  if gating then b else (b.setbyte 0 (b.byte 0 ||| tos / 16)).setbyte 1 (tos * 16)

/-- The fragment header behind `uflen` bytes. -/
def putfh (uflen nexthdr fragoff morefrags lid : Nat) (nb : Block) : Block :=
  let nb := ((nb.setbyte uflen nexthdr).setbyte (uflen + 1) 0).hnputs (uflen + 2) fragoff
  let nb := nb.setbyte (uflen + 3) (nb.byte (uflen + 3) ||| morefrags)
  (nb.hnputs (uflen + 4) (lid / 65536)).hnputs (uflen + 6) lid

/-- A new fragment with its headers: `n` bytes of data at `fragoff`, of `flen`. -/
def seghdr (eh : Block) (uflen nexthdr lid flen seglen n fragoff : Nat) : Block :=
  let nb := (allocb (uflen + IP6FHDR + seglen)).put (eh.hnputs 4 (n + IP6FHDR)) uflen
  let nb := putfh uflen nexthdr fragoff (if flen ≤ fragoff + seglen then 0 else 1) lid nb
  { nb with wp := nb.wp + IP6FHDR }

/-- The loop over the fragments; each one takes at least one byte, so `flen` bounds the rounds. -/
def segs (eh : Block) (uflen nexthdr lid flen seglen : Nat) : Nat → Nat → List Block → List Block
  | 0, _, _ => []
  | fuel + 1, fragoff, xs =>
    if flen ≤ fragoff then []
    else
      let n := if flen ≤ fragoff + seglen then flen - fragoff else seglen
      match copy (seghdr eh uflen nexthdr lid flen seglen n fragoff) n xs with
      | none => []
      | some (nb, xs) => nb :: segs eh uflen nexthdr lid flen seglen fuel (fragoff + n) xs

/-- The room for data in a fragment. -/
def seglen (medialen uflen : Nat) : Nat := (medialen - (uflen + IP6FHDR)) / 8 * 8

/-- The fragments of a packet of `len` bytes, if there is room for them. -/
def fragments (medialen lid len uflen nexthdr : Nat) (bp : Block) (next : List Block) : List Block :=
  if medialen < uflen then []
  else if seglen medialen uflen < 8 then []
  else
    segs bp uflen nexthdr lid (len - uflen) (seglen medialen uflen) (len - uflen) 0
      (skiphdr uflen (bp :: next))

/-- `ipoput6`: the packets for the medium. There is no `link` without a route, or when the interface
is locked or has no medium; `lid` is `id6` after it was counted up. -/
def ipoput6 (tentative : Bool) (lid : Nat) (link : Option Link) (bp : Block) (next : List Block)
    (gating : Bool) (ttl tos : Nat) : Except Fault (List (List Block)) :=
  let len := blocklen (bp :: next)
  if tentative then .ok []
  else if gating ∧ len < ploadlen bp then .ok []
  else
    let len := if gating then min len (ploadlen bp + IP6HDR) else len
    if IP_MAX ≤ len then .ok []
    else
      match link with
      | none => .ok []
      | some k =>
        let bp := fill gating ttl tos bp
        if len ≤ k.medialen then .ok [bp.hnputs 4 (len - IP6HDR) :: next]
        else if gating ∧ !k.reassemble then .ok []
        else
          (unfraglen bp true).map fun r =>
            (fragments k.medialen lid len r.2.2 r.2.1 r.1 next).map fun b => [b]

variable {d : Packet} {b nb eh : Block} {xs xs' l : List Block} {n u room lid nh seglen off : Nat}

/-! ## One fragment -/

/-- The bytes of the fragment header, and those in front of it. -/
theorem putfh_spec (u nh off m lid : Nat) (b : Block) :
    (∀ o < u, (putfh u nh off m lid b).byte o = b.byte o) ∧
      nexthdr u (putfh u nh off m lid b) = nh % 256 ∧
      offsetRM u (putfh u nh off m lid b) = off / 256 % 256 * 256 + (off % 256 ||| m) % 256 ∧
      fragid u (putfh u nh off m lid b) = lid / 65536 % 65536 * 65536 + lid % 65536 := by
  unfold putfh
  generalize hc : ((b.setbyte u nh).setbyte (u + 1) 0).hnputs (u + 2) off = c
  have h₃ : c.byte (u + 3) = off % 256 := by rw [← hc, Block.hnputs, byte_setbyte]
  have h₂ : c.byte (u + 2) = off / 256 % 256 := by
    rw [← hc, Block.hnputs, byte_setbyte_ne (by omega), byte_setbyte]
  have hlow : ∀ o, o < u → c.byte o = b.byte o := by
    intro o ho
    rw [← hc, byte_hnputs_ne (by omega) (by omega), byte_setbyte_ne (by omega),
      byte_setbyte_ne (by omega)]
  have h₀ : c.byte u = nh % 256 := by
    rw [← hc, byte_hnputs_ne (by omega) (by omega), byte_setbyte_ne (by omega), byte_setbyte]
  simp only [h₃]
  refine ⟨fun o ho => ?_, ?_, ?_, ?_⟩
  · rw [byte_hnputs_ne (by omega) (by omega), byte_hnputs_ne (by omega) (by omega),
      byte_setbyte_ne (by omega), hlow o ho]
  · rw [nexthdr, byte_hnputs_ne (by omega) (by omega), byte_hnputs_ne (by omega) (by omega),
      byte_setbyte_ne (by omega), h₀]
  · rw [offsetRM, nhgets_hnputs_ne (.inl (by omega)), nhgets_hnputs_ne (.inl (by omega)),
      Block.nhgets, byte_setbyte_ne (by omega), byte_setbyte, h₂]
  · rw [fragid, Block.nhgetl, nhgets_hnputs_ne (.inl (by omega)), nhgets_hnputs, nhgets_hnputs]

@[simp] theorem putfh_rp (u nh off m lid : Nat) (b : Block) :
    (putfh u nh off m lid b).rp = b.rp := rfl

@[simp] theorem putfh_wp (u nh off m lid : Nat) (b : Block) :
    (putfh u nh off m lid b).wp = b.wp := rfl

@[simp] theorem putfh_lim (u nh off m lid : Nat) (b : Block) :
    (putfh u nh off m lid b).lim = b.lim := rfl

/-- The pointers of a new fragment: there is room for the data. -/
theorem seghdr_room (eh : Block) (u nh lid flen seglen n off : Nat) :
    (seghdr eh u nh lid flen seglen n off).wp =
        (seghdr eh u nh lid flen seglen n off).rp + (u + IP6FHDR) ∧
      (seghdr eh u nh lid flen seglen n off).wp + seglen ≤
        (seghdr eh u nh lid flen seglen n off).lim := by
  have hroom := allocb_room (u + IP6FHDR + seglen)
  have hord := (allocb_ordered (u + IP6FHDR + seglen)).2
  have hwp : (allocb (u + IP6FHDR + seglen)).wp = (allocb (u + IP6FHDR + seglen)).rp := rfl
  unfold seghdr
  generalize allocb (u + IP6FHDR + seglen) = a at hroom hord hwp
  simp only [putfh_rp, putfh_wp, putfh_lim, Block.put]
  omega

/-- The headers of a new fragment. -/
theorem seghdr_spec (hu : IP6HDR ≤ u) (eh : Block) (nh lid flen seglen n off : Nat) :
    ploadlen (seghdr eh u nh lid flen seglen n off) = (n + IP6FHDR) % 65536 ∧
      (∀ o < u, o ≠ 4 → o ≠ 5 → (seghdr eh u nh lid flen seglen n off).byte o = eh.byte o) ∧
      nexthdr u (seghdr eh u nh lid flen seglen n off) = nh % 256 ∧
      offsetRM u (seghdr eh u nh lid flen seglen n off) = off / 256 % 256 * 256 +
        (off % 256 ||| if flen ≤ off + seglen then 0 else 1) % 256 ∧
      fragid u (seghdr eh u nh lid flen seglen n off) =
        lid / 65536 % 65536 * 65536 + lid % 65536 := by
  have hwp : (allocb (u + IP6FHDR + seglen)).wp = (allocb (u + IP6FHDR + seglen)).rp := rfl
  unfold seghdr
  generalize allocb (u + IP6FHDR + seglen) = a at hwp
  have hput : ∀ o < u, (a.put (eh.hnputs 4 (n + IP6FHDR)) u).byte o =
      (eh.hnputs 4 (n + IP6FHDR)).byte o := by
    intro o ho
    have hin : a.wp ≤ a.rp + o ∧ a.rp + o < a.wp + u := by omega
    simp only [Block.byte, Block.put]
    rw [if_pos hin, hwp, Nat.add_sub_cancel_left]
  generalize a.put (eh.hnputs 4 (n + IP6FHDR)) u = b at hput
  obtain ⟨h₁, h₂, h₃, h₄⟩ := putfh_spec u nh off (if flen ≤ off + seglen then 0 else 1) lid b
  simp only
  generalize putfh u nh off (if flen ≤ off + seglen then 0 else 1) lid b = c at h₁ h₂ h₃ h₄
  have h40 : 40 ≤ u := hu
  have hbyte : ∀ o < u, ({ c with wp := c.wp + IP6FHDR } : Block).byte o =
      (eh.hnputs 4 (n + IP6FHDR)).byte o := fun o ho => (h₁ o ho).trans (hput o ho)
  refine ⟨?_, fun o ho h4 h5 => ?_, h₂, h₃, h₄⟩
  · rw [ploadlen, Block.nhgets, hbyte 4 (by omega), hbyte 5 (by omega), ← Block.nhgets]
    exact nhgets_hnputs eh 4 _
  · rw [hbyte o ho, byte_hnputs_ne h4 h5]

/-- The headers of a fragment are not changed when its data is copied. -/
theorem copied_byte {h : Block} {data : List UInt8} {k o : Nat} (hc : Copied h nb n data)
    (hwp : h.wp = h.rp + k) (ho : o < k) : nb.byte o = h.byte o := by
  rw [Block.byte, Block.byte, hc.rp, hc.frame _ (hwp ▸ Nat.add_lt_add_left ho h.rp)]

/-- A packet for a medium with room for `room` bytes: a fragment that is not empty, with the other
fields of the header `eh`. -/
structure IsTile (d : Packet) (eh : Block) (room : Nat) (b : Block) : Prop where
  fragment : FragmentOf d b []
  room : b.BLEN ≤ room
  len : b.BLEN = IP6HDR + ploadlen b
  pos : IP6FHDR < ploadlen b
  offsetRM : offsetRM IP6HDR b = offset IP6HDR b + if more IP6HDR b then 1 else 0
  like : ∀ o < IP6HDR, o ≠ 4 → o ≠ 5 → b.byte o = eh.byte o

theorem or_flag {x : Nat} (h : x % 8 = 0) (m : Bool) :
    (x ||| if m then 1 else 0) = x + if m then 1 else 0 := by
  have hx : 2 ^ 3 * (x / 8) = x := by omega
  have hlt : (if m then 1 else 0) < 2 ^ 3 := by split_ifs <;> decide
  have := Nat.two_pow_add_eq_or_of_lt hlt (x / 8)
  rw [hx] at this
  exact this.symm

/-- One round of the loop makes a fragment of the packet. -/
theorem seg_spec (hfh : proto eh = FH) (hkey : d.key = ⟨src eh, dst eh, lid % 2 ^ 32⟩)
    (hnh : d.proto = nh % 256) (hmax : IP6HDR + d.data.length < 65536) (hoff : off % 8 = 0)
    (hlt : off < d.data.length)
    (hn : n = if d.data.length ≤ off + seglen then d.data.length - off else seglen)
    (hseg : 8 ≤ seglen) (hroom : IP6HDR + IP6FHDR + seglen ≤ room) (hx : ∀ b ∈ xs, b.Ordered)
    (hdata : bytes xs = d.data.drop off) :
    ∃ nb xs', copy (seghdr eh IP6HDR nh lid d.data.length seglen n off) n xs = some (nb, xs') ∧
      IsTile d eh room nb ∧ offset IP6HDR nb = off ∧ ploadlen nb = IP6FHDR + n ∧
      bytes xs' = d.data.drop (off + n) ∧ ∀ b ∈ xs', b.Ordered := by
  have hfit := d.fits
  have hn₁ : 0 < n ∧ n ≤ seglen ∧ off + n ≤ d.data.length := by
    rw [hn]
    split_ifs <;> omega
  have hlast : d.data.length ≤ off + seglen ↔ off + n = d.data.length := by
    rw [hn]
    split_ifs <;> omega
  obtain ⟨hwp, hlim⟩ := seghdr_room eh IP6HDR nh lid d.data.length seglen n off
  obtain ⟨hpl, hlow, hnext, hrm, hid⟩ :=
    seghdr_spec (Nat.le_refl _) eh nh lid d.data.length seglen n off
  have hlen : n ≤ blocklen xs := by
    rw [blocklen_eq, hdata, List.length_drop]
    omega
  generalize seghdr eh IP6HDR nh lid d.data.length seglen n off = h at hwp hlim hpl hlow hnext hrm hid
  obtain ⟨nb, xs', hcopy, hc, hrest, hx'⟩ := copy_spec h hx hlen
  have hbyte : ∀ o < IP6HDR + IP6FHDR, nb.byte o = h.byte o := fun o ho => copied_byte hc hwp ho
  have hs : ∀ o, o + 1 < IP6HDR + IP6FHDR → nb.nhgets o = h.nhgets o := fun o ho => by
    rw [Block.nhgets, Block.nhgets, hbyte o (by omega), hbyte (o + 1) ho]
  have hBLEN : nb.BLEN = IP6HDR + IP6FHDR + n := by
    rw [Block.BLEN, hc.rp, hc.wp, hwp]
    omega
  have hplen : ploadlen nb = IP6FHDR + n := by
    have h8 : IP6FHDR = 8 := rfl
    have h40 : IP6HDR = 40 := rfl
    rw [ploadlen, hs 4 (by decide), ← ploadlen, hpl]
    omega
  have hrm' : Ip6.offsetRM IP6HDR nb = off + if off + n < d.data.length then 1 else 0 := by
    have hflag := or_flag (x := off % 256) (by omega) (decide (off + n < d.data.length))
    have hcond : (if d.data.length ≤ off + seglen then 0 else 1) =
        if decide (off + n < d.data.length) = true then 1 else 0 := by
      simp only [hlast, decide_eq_true_eq]
      split_ifs <;> omega
    rw [Ip6.offsetRM, hs (IP6HDR + 2) (by decide), ← Ip6.offsetRM, hrm, hcond, hflag]
    simp only [decide_eq_true_eq]
    split_ifs <;> omega
  have hoffset : offset IP6HDR nb = off := by
    rw [offset, hrm']
    split_ifs <;> omega
  have hmore : Ip6.more IP6HDR nb = true ↔ off + n < d.data.length := by
    have hsum : nb.byte (IP6HDR + 2) * 256 + nb.byte (IP6HDR + 3) =
        off + if off + n < d.data.length then 1 else 0 := hrm'
    rw [Ip6.more, decide_eq_true_iff]
    split_ifs at hsum <;> omega
  have hend : fragend nb = off + n := by
    rw [fragend, hoffset, hplen, Nat.add_sub_cancel_left]
  have hlike : ∀ o < IP6HDR, o ≠ 4 → o ≠ 5 → nb.byte o = eh.byte o := fun o ho h4 h5 =>
    (hbyte o (ho.trans (by decide))).trans (hlow o ho h4 h5)
  have haddr : ∀ o, 6 ≤ o → o + 16 ≤ IP6HDR → ipaddr nb o = ipaddr eh o := by
    intro o ho ho'
    have hw : ∀ k, 6 ≤ k → k + 1 < IP6HDR → nb.nhgets k = eh.nhgets k := fun k hk hk' => by
      rw [Block.nhgets, Block.nhgets, hlike k (by omega) (by omega) (by omega),
        hlike (k + 1) hk' (by omega) (by omega)]
    unfold ipaddr Block.nhgetl
    rw [hw o ho (by omega), hw (o + 2) (by omega) (by omega), hw (o + 4) (by omega) (by omega),
      hw (o + 4 + 2) (by omega) (by omega), hw (o + 8) (by omega) (by omega),
      hw (o + 8 + 2) (by omega) (by omega), hw (o + 12) (by omega) (by omega),
      hw (o + 12 + 2) (by omega) (by omega)]
  have hkey' : fragkey IP6HDR nb = d.key := by
    have hid' : fragid IP6HDR nb = lid % 2 ^ 32 := by
      rw [fragid, Block.nhgetl, hs (IP6HDR + 4) (by decide), hs (IP6HDR + 4 + 2) (by decide),
        ← Block.nhgetl, ← fragid, hid]
      omega
    rw [fragkey, hid', hkey, Ip6.src, Ip6.dst, haddr 8 (by decide) (by decide),
      haddr 24 (by decide) (by decide)]
    rfl
  have hord : nb.Ordered := by
    have h₁ := hc.rp
    have h₂ := hc.wp
    have h₃ := hc.lim
    exact ⟨by omega, by omega⟩
  have hpay : ((bytes [nb]).drop (IP6HDR + IP6FHDR)).take (ploadlen nb - IP6FHDR) =
      (d.data.drop off).take n := by
    rw [hplen, Nat.add_sub_cancel_left, bytes_cons, bytes_nil, List.append_nil, Block.data, hBLEN,
      window_drop (Nat.le_add_right _ _), Nat.add_sub_cancel_left, window_take (Nat.le_refl _),
      hc.rp, ← hwp, hc.data, hdata]
  refine ⟨nb, xs', hcopy, ⟨⟨⟨hord, List.forall_mem_nil _, ?_⟩, ?_, ?_, hkey', ?_, ?_, ?_, ?_, ?_⟩,
    ?_, ?_, ?_, ?_, hlike⟩, hoffset, hplen, ?_, hx'⟩
  · rw [hBLEN]
    exact Nat.le_add_right _ _
  · exact (hlike 6 (by decide) (by decide) (by decide)).trans hfh
  · rw [nexthdr, hbyte IP6HDR (by decide), hnh]
    exact hnext
  · rw [hplen]
    exact Nat.le_add_right _ _
  · rw [hplen, blocklen, List.map_singleton, List.sum_singleton, hBLEN, Nat.add_assoc]
  · rw [hend]
    exact hn₁.2.2
  · rw [hpay, hoffset, hplen, Nat.add_sub_cancel_left]
  · rw [hend]
    exact hmore
  · rw [hBLEN]
    omega
  · rw [hBLEN, hplen, Nat.add_assoc]
  · rw [hplen]
    omega
  · rw [hoffset, hrm']
    simp only [hmore]
  · rw [hrest, hdata, List.drop_drop]

/-! ## All of them -/

/-- The payload length of every fragment counts the fragment header and the data. -/
theorem segs_length (hu : IP6HDR ≤ u) {flen fuel : Nat} (hx : ∀ b ∈ xs, b.Ordered)
    (hlen : flen - off ≤ blocklen xs) :
    ∀ b ∈ segs eh u nh lid flen seglen fuel off xs, ∃ n, n ≤ flen ∧ b.BLEN = u + IP6FHDR + n ∧
      ploadlen b = (n + IP6FHDR) % 65536 := by
  induction fuel generalizing off xs with
  | zero => exact List.forall_mem_nil _
  | succ fuel ih =>
    rw [segs]
    by_cases hend : flen ≤ off
    · rw [if_pos hend]
      exact List.forall_mem_nil _
    rw [if_neg hend]
    simp only
    generalize hn : (if flen ≤ off + seglen then flen - off else seglen) = n
    have hn₁ : off + n ≤ flen := by
      rw [← hn]
      split_ifs <;> omega
    obtain ⟨hwp, -⟩ := seghdr_room eh u nh lid flen seglen n off
    obtain ⟨hpl, -⟩ := seghdr_spec hu eh nh lid flen seglen n off
    obtain ⟨nb, xs', hcopy, hc, hrest, hx'⟩ :=
      copy_spec (seghdr eh u nh lid flen seglen n off) hx (show n ≤ blocklen xs by omega)
    have hrest' : flen - (off + n) ≤ blocklen xs' := by
      rw [blocklen_eq, hrest, List.length_drop, ← blocklen_eq]
      omega
    simp only [hcopy]
    rintro b (_ | ⟨_, hb⟩)
    · have h40 : 40 ≤ u := hu
      refine ⟨n, (Nat.le_add_left _ _).trans hn₁, ?_, ?_⟩
      · rw [Block.BLEN, hc.rp, hc.wp, hwp]
        omega
      · rw [ploadlen, Block.nhgets, copied_byte hc hwp (by omega), copied_byte hc hwp (by omega),
          ← Block.nhgets, ← ploadlen, hpl]
    · exact ih hx' hrest' b hb

/-- Fragments of the packet from `off` to its end, in their order. -/
inductive Tiles (d : Packet) (eh : Block) (room : Nat) : Nat → List Block → Prop
  | last {b : Block} : IsTile d eh room b → fragend b = d.data.length →
      Tiles d eh room (offset IP6HDR b) [b]
  | cons {b : Block} {l : List Block} : IsTile d eh room b → fragend b < d.data.length →
      Tiles d eh room (fragend b) l → Tiles d eh room (offset IP6HDR b) (b :: l)

theorem segs_tiles (hfh : proto eh = FH) (hkey : d.key = ⟨src eh, dst eh, lid % 2 ^ 32⟩)
    (hnh : d.proto = nh % 256) (hmax : IP6HDR + d.data.length < 65536) (hseg : 8 ≤ seglen)
    (hseg8 : seglen % 8 = 0) (hroom : IP6HDR + IP6FHDR + seglen ≤ room) (fuel : Nat)
    (hoff : off % 8 = 0) (hlt : off < d.data.length) (hfuel : d.data.length - off ≤ fuel)
    (hx : ∀ b ∈ xs, b.Ordered) (hdata : bytes xs = d.data.drop off) :
    Tiles d eh room off (segs eh IP6HDR nh lid d.data.length seglen fuel off xs) := by
  induction fuel generalizing off xs with
  | zero => omega
  | succ fuel ih =>
    rw [segs, if_neg (Nat.not_le.mpr hlt)]
    obtain ⟨nb, xs', hcopy, htile, hoffset, hplen, hrest, hx'⟩ :=
      seg_spec hfh hkey hnh hmax hoff hlt rfl hseg hroom hx hdata
    simp only [hcopy]
    have hend : fragend nb = off + if d.data.length ≤ off + seglen
        then d.data.length - off else seglen := by
      rw [fragend, hoffset, hplen, Nat.add_sub_cancel_left]
    rw [← hend] at hrest ⊢
    rw [← hoffset]
    by_cases hlast : d.data.length ≤ off + seglen
    · rw [if_pos hlast] at hend
      have hall : fragend nb = d.data.length := by omega
      have hnil : segs eh IP6HDR nh lid d.data.length seglen fuel (fragend nb) xs' = [] := by
        cases fuel with
        | zero => rfl
        | succ fuel => rw [segs, if_pos hall.ge]
      rw [hnil]
      exact .last htile hall
    · rw [if_neg hlast] at hend
      exact .cons htile (by omega) (ih (by omega) (by omega) (by omega) hx' hrest)

/-- The fragments lie apart, and no byte of the packet is left out. -/
theorem Tiles.spec (h : Tiles d eh room off l) :
    (∀ b ∈ l, IsTile d eh room b ∧ off ≤ offset IP6HDR b ∧ fragend b ≤ d.data.length) ∧
      l.Pairwise (fun b c => fragend b ≤ offset IP6HDR c) ∧
      (∀ x, off ≤ x → x < d.data.length → ∃ b ∈ l, offset IP6HDR b ≤ x ∧ x < fragend b) ∧
      ∃ l' c, l = l' ++ [c] ∧ more IP6HDR c = false ∧ ∀ b ∈ l', more IP6HDR b = true := by
  induction h with
  | @last b hb htop =>
    refine ⟨fun c hc => ?_, List.pairwise_singleton _ _, fun x hx hx' => ?_, [], b, rfl, ?_,
      List.forall_mem_nil _⟩
    · rw [List.mem_singleton.mp hc]
      exact ⟨hb, Nat.le_refl _, htop.le⟩
    · exact ⟨b, List.mem_singleton_self b, hx, by rwa [htop]⟩
    · rw [← Bool.not_eq_true, hb.fragment.more, htop]
      exact Nat.lt_irrefl _
  | @cons b l hb htop _ ih =>
    obtain ⟨h₁, h₂, h₃, l', c, rfl, h₄, h₅⟩ := ih
    have hle : offset IP6HDR b ≤ fragend b := Nat.le_add_right _ _
    refine ⟨?_, List.pairwise_cons.mpr ⟨fun c hc => (h₁ c hc).2.1, h₂⟩, fun x hx hx' => ?_,
      b :: l', c, rfl, h₄, ?_⟩
    · rintro c (_ | ⟨_, hc⟩)
      · exact ⟨hb, Nat.le_refl _, htop.le⟩
      · exact ⟨(h₁ c hc).1, hle.trans (h₁ c hc).2.1, (h₁ c hc).2.2⟩
    · by_cases hxt : x < fragend b
      · exact ⟨b, List.mem_cons_self, hx, hxt⟩
      · obtain ⟨c, hc, hcx⟩ := h₃ x (Nat.le_of_not_lt hxt) hx'
        exact ⟨c, List.mem_cons_of_mem b hc, hcx⟩
    · rintro c (_ | ⟨_, hc⟩)
      · exact hb.fragment.more.mpr htop
      · exact h₅ c hc

end NixMark.Ip6
