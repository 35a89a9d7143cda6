import Mathlib.Data.List.Pairwise
import NixMark.Ip.Output

/-!
# What is cut into fragments is put together again

* `feed`: packets go through `ip4reassemble` in some order.
* `Tile`: what the queue holds of fragments that lie apart; nothing is ever trimmed.
* `complete_iff`: a packet is complete when its queue covers the datagram.
* `Tiling.feed`: fragments that lie apart make the datagram in any order, with the last one of them.
* `fragments_round_trip`: those of `ipoput4` do.
-/

namespace NixMark.Ip

open Lib Lib.Pieces Block

/-- The packets arrive at their times, as `ipiput4` passes them on: what is returned for each. -/
def feed (ip : IP) : List (Nat × Block) → Except Fault (IP × List (Option (List Block)))
  | [] => .ok (ip, [])
  | (now, b) :: l =>
    match ip4reassemble now ip b.frag (mark b) [] with
    | .error e => .error e
    | .ok (ip, r) => (feed ip l).map fun s => (s.1, r :: s.2)

variable {d : Datagram} {room : Nat} {b c : Block} {q : List Block}

/-- A packet is complete when its fragments leave no byte out. -/
theorem complete_iff (hq : Queued (Part d) q) {pos : Nat} (hle : ∀ b ∈ q, pos ≤ b.foff)
    (hpos : pos < d.data.length) :
    complete pos q = true ↔ ∀ x, pos ≤ x → x < d.data.length → Covers foff fend q x := by
  constructor
  · intro hc x hx hxd
    induction q generalizing pos with
    | nil => cases hc
    | cons b q ih =>
      have hb := hq.all b List.mem_cons_self
      rw [complete] at hc
      split_ifs at hc with h₀ h₁
      · rw [not_not] at h₀
        rw [← h₀, ← Block.fend] at hc
        by_cases hxb : x < b.fend
        · exact covers_cons.mpr (.inl ⟨h₀.le.trans hx, hxb⟩)
        · exact covers_cons.mpr (.inr (ih hq.tail hq.head_le (hb.more.mp h₁) hc
            (Nat.le_of_not_lt hxb)))
      · rw [not_not] at h₀
        have hend := Nat.le_of_not_lt fun h => h₁ (hb.more.mpr h)
        exact covers_cons.mpr (.inl ⟨h₀.le.trans hx, hxd.trans_le hend⟩)
  · intro hcov
    induction q generalizing pos with
    | nil => exact absurd (hcov pos (Nat.le_refl _) hpos) not_covers_nil
    | cons b q ih =>
      obtain ⟨_, _, ⟨⟩, hfoff, hrest⟩ :=
        hq.apart.head_of_covers (fun b _ => foff_le_fend b) hle hpos hcov
      have hb := hq.all b List.mem_cons_self
      rw [complete, if_neg (not_not.mpr hfoff)]
      rw [← hfoff, ← Block.fend]
      split_ifs with hmore
      · exact ih hq.tail hq.head_le (hb.more.mp hmore) hrest
      · rfl

/-! ## Fragments that lie apart -/

/-- A fragment of a queue that is as it came. -/
structure Tile (d : Datagram) (fs : List Block) (c : Block) : Prop where
  part : Part d c
  whole : c.length = IP4HDR + c.flen
  pos : c.foff < c.fend
  mem : ∃ b ∈ fs, c.foff = b.offset ∧ c.fend = b.top

/-- One of the fragments ends before the other one begins. -/
def Beside (b c : Block) : Prop := b.top ≤ c.offset ∨ c.top ≤ b.offset

instance : Std.Symm Beside := ⟨fun _ _ h => h.symm⟩

/-- Packets that are fragments of the datagram: they lie apart, leave no byte out, and none of them
is all of it. -/
structure Tiling (d : Datagram) (room : Nat) (fs : List Block) : Prop where
  all : ∀ b ∈ fs, IsTile d room b ∧ b.length < IP4HDR + d.data.length
  apart : fs.Pairwise Beside
  covers : ∀ x < d.data.length, ∃ b ∈ fs, b.offset ≤ x ∧ x < b.top

variable {fs : List Block}

theorem Tiling.perm {l : List Block} (h : Tiling d room fs) (hp : l.Perm fs) : Tiling d room l where
  all b hb := h.all b (hp.subset hb)
  apart := (hp.pairwise_iff fun hbc => Std.Symm.symm _ _ hbc).mpr h.apart
  covers x hx := by
    obtain ⟨b, hb, hbx⟩ := h.covers x hx
    exact ⟨b, hp.symm.subset hb, hbx⟩

theorem Tiling.eq_or_apart (h : Tiling d room fs) (hb : b ∈ fs) (hc : c ∈ fs) :
    b = c ∨ Beside b c := by
  by_cases hbc : b = c
  · exact .inl hbc
  · exact .inr (h.apart.forall hb hc hbc)

/-- Nothing is ever trimmed. -/
theorem Tiling.trims (h : Tiling d room fs) : Trims (Tile d fs) where
  fits hb := hb.part.fits
  cutat {b c} hb hc hlt hend hend' := by
    obtain ⟨b', hb', hbo, hbt⟩ := hb.mem
    obtain ⟨c', hc', hco, hct⟩ := hc.mem
    have := hc.pos
    rcases h.eq_or_apart hb' hc' with rfl | hapart
    · omega
    · unfold Beside at hapart
      omega
  fronted {b c} hb hc hle hlt hend := by
    obtain ⟨b', hb', hbo, hbt⟩ := hb.mem
    obtain ⟨c', hc', hco, hct⟩ := hc.mem
    have := hb.pos
    rcases h.eq_or_apart hb' hc' with rfl | hapart
    · omega
    · unfold Beside at hapart
      omega

/-- The queue holds a packet that arrives as it is. -/
theorem Tiling.tag (h : Tiling d room fs) (hb : b ∈ fs) :
    Tile d fs (tag b.frag (mark b)) ∧ (Ip.tag b.frag (mark b)).foff = b.offset ∧
      (Ip.tag b.frag (mark b)).fend = b.top := by
  obtain ⟨ht, -⟩ := h.all b hb
  have hf := ht.fragment
  obtain ⟨hpart, hwhole⟩ := hf.part hf.arrived.first rfl hf.arrived.header
  rw [mark_frag] at hpart hwhole
  have hlen := ht.pos
  have hfit := d.fits
  obtain ⟨-, hflen, -⟩ := hf.arrived.tag rfl hf.arrived.first hf.arrived.header hf.min hf.max
    (by have := hf.within; have := hf.min; omega)
  rw [mark_frag, mark_length] at hflen
  have hfoff : (Ip.tag b.frag (mark b)).foff = b.offset := rfl
  have hfend : (Ip.tag b.frag (mark b)).fend = b.top := by
    rw [Block.fend, hflen, hfoff, Block.top]
  refine ⟨⟨hpart, hwhole, ?_, b, hb, hfoff, hfend⟩, hfoff, hfend⟩
  rw [hfend, hfoff, Block.top]
  omega

theorem IsTile.lt (h : IsTile d room b) : b.offset < b.top ∧ b.top ≤ d.data.length := by
  have h₁ := h.pos
  have h₂ := h.fragment.within
  rw [mark_offset, mark_length] at h₂
  refine ⟨?_, h₂⟩
  rw [Block.top]
  omega

/-- It is not taken for a packet that is not a fragment. -/
theorem IsTile.not_accepted (h : IsTile d room b) (hlt : b.length < IP4HDR + d.data.length) :
    ¬ accepted b.frag (mark b) := by
  intro hacc
  have hwhole := (h.fragment.whole rfl h.fragment.arrived.header (by rwa [mark_frag])).2.1
  rw [mark_length] at hwhole
  omega

theorem Queued.imp {P Q : Block → Prop} (hq : Queued P q) (h : ∀ {b}, P b → Q b) : Queued Q q :=
  ⟨fun b hb => h (hq.all b hb), hq.apart⟩

/-! ## Any order -/

/-- The queue of the datagram after the packets `done`. -/
structure Fed (d : Datagram) (fs done : List Block) (ip : IP) : Prop where
  holds : ∀ f ∈ ip.flisthead4, f.key = d.key → Queued (Tile d fs) f.blist
  queue : ∃ f, ip.queue d.key = some f ∧
    ∀ x, Covers foff fend f.blist x ↔ ∃ b ∈ done, b.offset ≤ x ∧ x < b.top

variable {ip : IP} {done todo : List Block}

/-- What is done with one of the fragments. -/
theorem Tiling.outcome (ht : Tiling d room fs) (hb : b ∈ fs)
    (hq : ∀ f ∈ ip.flisthead4, f.key = d.key → Queued (Tile d fs) f.blist) (now : Nat) :
    ∃ ip' r, ip4reassemble now ip b.frag (mark b) [] = .ok (ip', r) ∧
      Outcome (Tile d fs) now ip d.key b.frag (mark b) ip' r ∧
      ∀ f ∈ ip'.flisthead4, f.key = d.key → Queued (Tile d fs) f.blist := by
  obtain ⟨htile, -⟩ := ht.all b hb
  have hkey := htile.fragment.key
  have htag := (ht.tag hb).1
  obtain ⟨ip', r, hr, hout⟩ : ∃ ip' r, ip4reassemble now ip b.frag (mark b) [] = .ok (ip', r) ∧
      Outcome (Tile d fs) now ip (mark b).key b.frag (mark b) ip' r :=
    reassemble_spec ht.trims now (if_pos rfl) (fun f hf hk => hq f hf (hk.trans hkey)) fun _ => htag
  rw [hkey] at hout
  exact ⟨ip', r, hr, hout, hout.all (K := (· = d.key)) (fun _ => htag) hq⟩

/-- The queue covers the packets that it was fed; the packet is complete with the last of them. -/
theorem Fed.step (ht : Tiling d room fs) (hp : (done ++ b :: todo).Perm fs) (hf : Fed d fs done ip)
    (now : Nat) :
    ∃ ip' r, ip4reassemble now ip b.frag (mark b) [] = .ok (ip', r) ∧
      if todo = [] then ∃ pkt, r = some pkt ∧ pktlen pkt = IP4HDR + d.data.length ∧
        pktdata pkt (pktlen pkt) = d.data
      else r = none ∧ Fed d fs (done ++ [b]) ip' := by
  have hb : b ∈ fs := hp.subset (List.mem_append_right _ List.mem_cons_self)
  have ht' := ht.perm hp
  obtain ⟨htile, hlen⟩ := ht.all b hb
  obtain ⟨htag, hfoff, hfend⟩ := ht.tag hb
  obtain ⟨f, hqueue, hcov⟩ := hf.queue
  obtain ⟨ip', r, hr, hout, hholds⟩ := ht.outcome hb hf.holds now
  refine ⟨ip', r, hr, ?_⟩
  obtain ⟨-, hapart, hbeside⟩ := List.pairwise_append.mp ht'.apart
  obtain ⟨hbtodo, -⟩ := List.pairwise_cons.mp hapart
  -- the queue with the new fragment
  have hcov' : ∀ q', Inserted (Tile d fs) f.blist (tag b.frag (mark b)) q' → ∀ x,
      Covers foff fend q' x ↔ ∃ c ∈ done ++ [b], c.offset ≤ x ∧ x < c.top := by
    intro q' hins x
    rw [hins.covers, hcov, hfoff, hfend]
    simp only [List.mem_append, List.mem_singleton, or_and_right, exists_or, exists_eq_left]
  have hcomplete : ∀ q', Inserted (Tile d fs) f.blist (tag b.frag (mark b)) q' →
      (complete 0 q' = true ↔ todo = []) := by
    intro q' hins
    have hpos := htile.lt
    rw [complete_iff (hins.queued.imp Tile.part) (fun b _ => Nat.zero_le _) (by omega)]
    constructor
    · intro hall
      by_contra hne
      obtain ⟨c, hc⟩ := List.exists_mem_of_ne_nil todo hne
      have hclt := (ht'.all c (List.mem_append_right _ (List.mem_cons_of_mem b hc))).1.lt
      obtain ⟨e, he, hec⟩ := (hcov' q' hins _).mp
        (hall c.offset (Nat.zero_le _) (hclt.1.trans_le hclt.2))
      have hapart' : Beside e c := by
        rcases List.mem_append.mp he with he | he
        · exact hbeside e he c (List.mem_cons_of_mem b hc)
        · rw [List.mem_singleton.mp he]
          exact hbtodo c hc
      unfold Beside at hapart'
      omega
    · rintro rfl x - hx
      exact (hcov' q' hins x).mpr (ht'.covers x hx)
  cases hout with
  | accept hacc _ => exact absurd hacc (htile.not_accepted hlen)
  | alloc _ hnone _ _ => cases hnone.symm.trans hqueue
  | covered _ hq hc _ _ =>
    cases hq.symm.trans hqueue
    obtain ⟨c, hc, hlt, hlt', -⟩ := hc
    rw [hfoff] at hlt'
    obtain ⟨e, he, hec⟩ := (hcov b.offset).mp ⟨c, hc, hlt.le, hlt'⟩
    have hapart' := hbeside e he b List.mem_cons_self
    have := htile.lt
    unfold Beside at hapart'
    omega
  | queued _ hq hins hc _ hq' =>
    cases hq.symm.trans hqueue
    have hne : todo ≠ [] := fun h => by
      rw [(hcomplete _ hins).mpr h] at hc
      cases hc
    rw [if_neg hne]
    exact ⟨rfl, hholds, _, hq', hcov' _ hins⟩
  | glued _ hq hins hc hg _ =>
    cases hq.symm.trans hqueue
    rw [if_pos ((hcomplete _ hins).mp hc)]
    obtain ⟨c, l, rfl, -⟩ := complete_head hc
    exact ⟨_, rfl, (glue_iff (hins.queued.imp Tile.part) hc hg).mpr
      (hins.queued.all c List.mem_cons_self).whole⟩

/-- The packets that are left. -/
theorem Fed.feed (ht : Tiling d room fs) {order : List (Nat × Block)}
    (hp : (done ++ order.map Prod.snd).Perm fs) (hf : Fed d fs done ip) (hne : order ≠ []) :
    ∃ ip' pkt, feed ip order = .ok (ip', List.replicate (order.length - 1) none ++ [some pkt]) ∧
      pktlen pkt = IP4HDR + d.data.length ∧ pktdata pkt (pktlen pkt) = d.data := by
  induction order generalizing done ip with
  | nil => exact absurd rfl hne
  | cons a order ih =>
    obtain ⟨now, b⟩ := a
    obtain ⟨ip', r, hr, hstep⟩ := hf.step ht hp now
    unfold Ip.feed
    simp only [hr]
    cases order with
    | nil =>
      obtain ⟨pkt, rfl, hpkt⟩ := hstep
      exact ⟨ip', pkt, rfl, hpkt⟩
    | cons a' order =>
      obtain ⟨rfl, hfed⟩ := hstep
      obtain ⟨ip'', pkt, hfeed, hpkt⟩ := ih (by rwa [List.append_assoc]) hfed nofun
      rw [hfeed]
      exact ⟨ip'', pkt, rfl, hpkt⟩

/-- Fragments of a datagram that lie apart, in any order: the last one of them completes the
packet. -/
theorem Tiling.feed (ht : Tiling d room fs) {order : List (Nat × Block)}
    (hp : (order.map Prod.snd).Perm fs) (hne : order ≠ []) (h0 : ip.queue d.key = none) :
    ∃ ip' pkt, feed ip order = .ok (ip', List.replicate (order.length - 1) none ++ [some pkt]) ∧
      pktlen pkt = IP4HDR + d.data.length ∧ pktdata pkt (pktlen pkt) = d.data := by
  cases order with
  | nil => exact absurd rfl hne
  | cons a order =>
    obtain ⟨now, b⟩ := a
    have hb : b ∈ fs := hp.subset List.mem_cons_self
    obtain ⟨htile, hlen⟩ := ht.all b hb
    have hclear : ∀ f ∈ ip.flisthead4, f.key = d.key → Queued (Tile d fs) f.blist := fun f hf hk =>
      absurd hk (by simpa using List.find?_eq_none.mp h0 f hf)
    obtain ⟨ip', r, hr, hout, hholds⟩ := ht.outcome hb hclear now
    obtain ⟨-, hfoff, hfend⟩ := ht.tag hb
    unfold Ip.feed
    simp only [hr]
    cases hout with
    | accept hacc _ => exact absurd hacc (htile.not_accepted hlen)
    | alloc _ _ _ hq =>
      have hfed : Fed d fs [b] ip' := by
        refine ⟨hholds, _, hq, fun x => ?_⟩
        simp only [Covers, List.mem_singleton, exists_eq_left, hfoff, hfend]
      have hrest : order ≠ [] := by
        rintro rfl
        -- it would be all of the datagram
        have hlt := htile.lt
        have hcov := (ht.perm hp).covers (d.data.length - 1) (by omega)
        simp only [List.map_cons, List.map_nil, List.mem_singleton, exists_eq_left] at hcov
        have hcov' := (ht.perm hp).covers 0 (by omega)
        simp only [List.map_cons, List.map_nil, List.mem_singleton, exists_eq_left] at hcov'
        rw [Block.top] at *
        omega
      obtain ⟨ip'', pkt, hfeed, hpkt⟩ := hfed.feed ht hp hrest
      rw [hfeed]
      refine ⟨ip'', pkt, ?_, hpkt⟩
      cases order with
      | nil => exact absurd rfl hrest
      | cons a' order => rfl
    | covered _ hq _ _ _ => cases h0.symm.trans hq
    | queued _ hq _ _ _ _ => cases h0.symm.trans hq
    | glued _ hq _ _ _ _ => cases h0.symm.trans hq

/-! ## The packets of `ipoput4` -/

variable {bp : Block} {next : List Block} {k : Link}

/-- The header that is filled in keeps its other fields. -/
theorem fill_spec (ttl tos : Nat) (b : Block) :
    (fill false ttl tos b).vihl = 0x45 ∧
      (∀ o, 2 ≤ o → o ≠ 7 → o ≠ 8 → (fill false ttl tos b).nhgets o = b.nhgets o) ∧
      (fill false ttl tos b).byte 6 = b.byte 6 ∧
      ∀ a n, b.rp + 8 < a → window (fill false ttl tos b).mem a n = window b.mem a n := by
  refine ⟨?_, fun o h₂ h₇ h₈ => ?_, ?_, fun a n ha => ?_⟩
  · exact (byte_setbyte_ne (by decide)).trans ((byte_setbyte_ne (by decide)).trans
      (byte_setbyte b 0 (IP_VER4 + IP_HLEN4)))
  · exact (nhgets_setbyte_ne (by omega)).trans ((nhgets_setbyte_ne (by omega)).trans
      (nhgets_setbyte_ne (by omega)))
  · exact (byte_setbyte_ne (by decide)).trans ((byte_setbyte_ne (by decide)).trans
      (byte_setbyte_ne (by decide)))
  · calc window (fill false ttl tos b).mem a n
        = window ((b.setbyte 0 (IP_VER4 + IP_HLEN4)).setbyte 8 ttl).mem a n :=
          window_setbyte (show b.rp + 1 < a by omega)
      _ = window (b.setbyte 0 (IP_VER4 + IP_HLEN4)).mem a n := window_setbyte ha
      _ = window b.mem a n := window_setbyte (show b.rp + 0 < a by omega)

theorem Tiles.tiling {l : List Block} (h : Tiles d room 0 l)
    (hlt : ∀ b ∈ l, b.length < IP4HDR + d.data.length) : Tiling d room l where
  all b hb := ⟨(h.spec.1 b hb).1, hlt b hb⟩
  apart := h.spec.2.1.imp .inl
  covers x hx := h.spec.2.2.1 x (Nat.zero_le x) hx

/-- The datagram of a chain of blocks. -/
def datagram (key : Key) (bp : Block) (next : List Block) (h : blocklen (bp :: next) < 65536)
    (hmin : IP4HDR ≤ blocklen (bp :: next)) : Datagram where
  key := key
  data := (bytes (bp :: next)).drop IP4HDR
  fits := by
    rw [List.length_drop, ← blocklen_eq]
    omega

/-- The packets of `ipoput4` are the fragments of the datagram. -/
theorem ipoput4_tiles (id4 ttl tos : Nat) (hbp : bp.Ordered) (hnext : ∀ b ∈ next, b.Ordered) (hhdr : IP4HDR ≤ bp.BLEN)
    (h : blocklen (bp :: next) < 65536) (hlong : k.medialen < blocklen (bp :: next))
    (hdf : bp.byte 6 &&& (IP_DF / 256) = 0) (hseg : 8 ≤ (k.medialen - IP4HDR) / 8 * 8)
    (hmin : IP4HDR ≤ blocklen (bp :: next)) :
    ∃ pkts, ipoput4 id4 (some k) bp next false ttl tos = some pkts ∧
      Tiles (datagram ⟨bp.src, bp.dst, id4 % 65536⟩ bp next h hmin) k.medialen 0 pkts := by
  obtain ⟨hv, hfields, h6, hwin⟩ := fill_spec ttl tos bp
  have hmax : ¬ IP_MAX ≤ blocklen (bp :: next) := Nat.not_le.mpr h
  have hdata : (bytes (fill false ttl tos bp :: next)).drop IP4HDR =
      (bytes (bp :: next)).drop IP4HDR := by
    rw [drop_header hhdr, drop_header (b := fill false ttl tos bp) hhdr]
    exact congrArg (· ++ bytes next) (hwin _ _ (Nat.add_lt_add_left (by decide) _))
  have hlen : (datagram ⟨bp.src, bp.dst, id4 % 65536⟩ bp next h hmin).data.length =
      blocklen (bp :: next) - IP4HDR := by
    rw [datagram, List.length_drop, ← blocklen_eq]
  have hx : ∀ b ∈ fill false ttl tos bp :: next, b.Ordered := by
    rintro b (_ | ⟨_, hb⟩)
    · exact hbp
    · exact hnext b hb
  obtain ⟨hskip, hskip'⟩ := skiphdr_spec IP4HDR hx
  refine ⟨fragments false id4 (blocklen (bp :: next)) ((k.medialen - IP4HDR) / 8 * 8)
    (fill false ttl tos bp) next, ?_, ?_⟩
  · unfold ipoput4
    simp only [Bool.false_eq_true, false_and, if_false, if_neg hmax, if_neg (Nat.not_le.mpr hlong),
      h6, hdf, ne_eq, not_true, if_neg (Nat.not_lt.mpr hseg)]
  · have hkey : (datagram ⟨bp.src, bp.dst, id4 % 65536⟩ bp next h hmin).key =
        ⟨(fill false ttl tos bp).src, (fill false ttl tos bp).dst, id4 % 65536⟩ := by
      simp only [datagram, Block.src, Block.dst, nhgetl]
      rw [hfields 12 (by decide) (by decide) (by decide),
        hfields 14 (by decide) (by decide) (by decide),
        hfields 16 (by decide) (by decide) (by decide),
        hfields 18 (by decide) (by decide) (by decide)]
    have htiles : Tiles (datagram ⟨bp.src, bp.dst, id4 % 65536⟩ bp next h hmin) k.medialen 0
        (segs (fill false ttl tos bp) id4 _ ((k.medialen - IP4HDR) / 8 * 8)
          (blocklen (bp :: next) - IP4HDR) 0 (skiphdr IP4HDR (fill false ttl tos bp :: next))) :=
      segs_tiles hv hkey hseg (Nat.mul_mod_left _ _) (by omega) _ rfl (by rw [hlen]; omega)
        (by rw [hlen]; rfl) hskip' (by rw [hskip, hdata]; rfl)
    rw [hlen] at htiles
    exact htiles

/-- Every datagram from this host that an interface has no room for is sent in packets that the
interface takes: their checksums are right, their data stands at offsets that are multiples of 8 and
all but the last say that more follow. In any order they make a packet with the payload of the
datagram, as soon as the last of them has arrived. -/
theorem fragments_round_trip (id4 ttl tos : Nat) (hbp : bp.Ordered) (hnext : ∀ b ∈ next, b.Ordered)
    (hhdr : IP4HDR ≤ bp.BLEN) (h : blocklen (bp :: next) < 65536)
    (hlong : k.medialen < blocklen (bp :: next)) (hdf : bp.byte 6 &&& (IP_DF / 256) = 0)
    (hseg : 8 ≤ (k.medialen - IP4HDR) / 8 * 8) :
    ∃ pkts, ipoput4 id4 (some k) bp next false ttl tos = some pkts ∧
      (∀ b ∈ pkts, b.BLEN ≤ k.medialen ∧ b.BLEN = b.length ∧ b.ipcsum = 0 ∧ 8 ∣ b.offset ∧
        pktdata [b] b.length =
          (((bytes (bp :: next)).drop IP4HDR).drop b.offset).take (b.length - IP4HDR)) ∧
      (∃ l c, pkts = l ++ [c] ∧ c.more = false ∧ ∀ b ∈ l, b.more = true) ∧
      ∀ ip order, ip.queue ⟨bp.src, bp.dst, id4 % 65536⟩ = none →
        (order.map Prod.snd).Perm pkts → ∃ ip' pkt,
          feed ip order = .ok (ip', List.replicate (order.length - 1) none ++ [some pkt]) ∧
          pktlen pkt = blocklen (bp :: next) ∧
          pktdata pkt (pktlen pkt) = (bytes (bp :: next)).drop IP4HDR := by
  have hmin : IP4HDR ≤ blocklen (bp :: next) := by omega
  obtain ⟨pkts, hout, htiles⟩ :=
    ipoput4_tiles id4 ttl tos hbp hnext hhdr h hlong hdf hseg hmin
  obtain ⟨hall, -, -, hmore⟩ := htiles.spec
  have hlen : IP4HDR + (datagram ⟨bp.src, bp.dst, id4 % 65536⟩ bp next h hmin).data.length =
      blocklen (bp :: next) := by
    rw [datagram, List.length_drop, ← blocklen_eq]
    omega
  refine ⟨pkts, hout, fun b hb => ?_, hmore, fun ip order h0 hp => ?_⟩
  · have htile := (hall b hb).1
    refine ⟨htile.room, htile.len, htile.cksum, ?_, ?_⟩
    · rw [Block.offset, Nat.shiftLeft_eq]
      omega
    · have hdata := htile.fragment.data
      rwa [mark_length, mark_offset, mark_pktdata htile.arrived.header] at hdata
  · have htiling := htiles.tiling fun b hb => by
      have := (hall b hb).1
      rw [hlen, ← this.len]
      exact this.room.trans_lt hlong
    have hne : order ≠ [] := by
      rintro rfl
      obtain ⟨l, c, rfl, -⟩ := hmore
      exact absurd hp.length_eq (by simp)
    obtain ⟨ip', pkt, hfeed, hpkt, hdata⟩ := htiling.feed hp hne h0
    exact ⟨ip', pkt, hfeed, hpkt.trans hlen, hdata⟩

/-- A block with these bytes. -/
private def block (data : List UInt8) : Block where
  mem a := data[a - 64]?.getD 0
  rp := 64
  wp := 64 + data.length
  lim := 128
  foff := 0
  flen := 0

private def front : Block :=
  block [0, 0, 0, 0, 0, 0, 0, 0, 0, 17, 0, 0, 10, 0, 0, 1, 10, 0, 0, 2, 1, 2, 3]

private def behind : Block := block (List.replicate 21 7)

theorem fragments_round_trip_swapped : ∃ b c ip' pkt,
    ipoput4 7 (some ⟨50, 14, 0⟩) front [behind] false 255 0 = some [b, c] ∧
      feed ⟨[]⟩ [(0, c), (1, b)] = .ok (ip', [none, some pkt]) ∧
      pktdata pkt (pktlen pkt) = 1 :: 2 :: 3 :: List.replicate 21 7 := by
  have hbehind : ∀ b ∈ [behind], b.Ordered := fun b hb =>
    List.mem_singleton.mp hb ▸ ⟨by decide, by decide⟩
  have hfront : front.Ordered := ⟨by decide, by decide⟩
  obtain ⟨pkts, hout, -, -, hfeed⟩ := fragments_round_trip (k := ⟨50, 14, 0⟩) 7 255 0 hfront hbehind
    (by decide) (by decide) (by decide) (by decide) (by decide)
  have hlen : (ipoput4 7 (some ⟨50, 14, 0⟩) front [behind] false 255 0).map List.length = some 2 := by
    decide +kernel
  rw [hout] at hlen
  obtain ⟨b, c, rfl⟩ := List.length_eq_two.mp (Option.some.inj hlen)
  obtain ⟨ip', pkt, hr, -, hdata⟩ := hfeed ⟨[]⟩ [(0, c), (1, b)] rfl (List.Perm.swap b c [])
  exact ⟨b, c, ip', pkt, hout, hr, by rw [hdata]; decide⟩

end NixMark.Ip
