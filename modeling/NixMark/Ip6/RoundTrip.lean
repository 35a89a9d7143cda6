import Mathlib.Data.List.Pairwise
import NixMark.Ip6.Input
import NixMark.Ip6.Output

/-!
# What is cut into fragments is put together again, in IPv6

* `feed`: packets go through `ip6reassemble` in some order.
* `Tile`: what the queue holds of fragments that lie apart; nothing is ever trimmed.
* `Tiling.feed`: fragments that lie apart make the packet in any order, with the last one of them.
* `round_trips_iff`: those of `ipoput6` do exactly when no headers stand between the IPv6 header and
  the fragment header.
-/

namespace NixMark.Ip6

open Ip Lib Lib.Pieces Block

/-- The packets arrive at their times: what is returned for each. -/
def feed (ip : IP) : List (Nat × Block) → Except Fault (IP × List (Option (List Block)))
  | [] => .ok (ip, [])
  | (now, b) :: l =>
    match reasm now true ip b [] with
    | .error e => .error e
    | .ok (ip, r) => (feed ip l).map fun s => (s.1, r :: s.2)

/-- The packets that `ipoput6` hands to the medium fit it, their payload lengths are right and they
are fragments at offsets that are multiples of 8, all but the last with more to follow; in any order
they make the packet that would have been sent as it is. -/
def RoundTrips (lid ttl tos u : Nat) (k : Link) (bp : Block) (next : List Block) : Prop :=
  ∃ pkts, ipoput6 false lid (some k) bp next false ttl tos = .ok (pkts.map fun b => [b]) ∧
    (∀ b ∈ pkts, b.BLEN ≤ k.medialen ∧ IP6HDR + ploadlen b = b.BLEN ∧
      offsetRM u b = offset u b + if more u b then 1 else 0) ∧
    (∃ l c, pkts = l ++ [c] ∧ more u c = false ∧ ∀ b ∈ l, more u b = true) ∧
    ∀ ip order, ip.queue ⟨src bp, dst bp, lid % 2 ^ 32⟩ = none →
      (order.map Prod.snd).Perm pkts → ∃ ip' pkt,
        feed ip order = .ok (ip', List.replicate (order.length - 1) none ++ [some pkt]) ∧
        bytes pkt =
          bytes ((fill false ttl tos bp).hnputs 4 (blocklen (bp :: next) - IP6HDR) :: next)

variable {d : Packet} {eh b c bp : Block} {room : Nat} {q next : List Block} {ip : IP}

/-- A packet is complete when its fragments leave no byte out. -/
theorem complete_iff (hq : Laid (cuts IP6HDR) (Part d) q) {pos : Nat} (hle : ∀ b ∈ q, pos ≤ b.foff)
    (hpos : pos < d.data.length) : complete IP6HDR pos q = .ok true ↔
      ∀ x, pos ≤ x → x < d.data.length → Covers foff fend q x := by
  have hlen : ∀ b, Part d b → ¬ b.BLEN < IP6HDR + 4 := fun b hb => by
    have := hb.fits.data
    unfold Block.BLEN IP6FHDR at *
    omega
  constructor
  · intro hc x hx hxd
    induction q generalizing pos with
    | nil => cases hc
    | cons b q ih =>
      have hb := hq.all b List.mem_cons_self
      rw [complete, if_neg (hlen b hb)] at hc
      split_ifs at hc with h₀ h₁
      · cases hc
      · rw [not_not] at h₀
        rw [← h₀, ← Block.fend] at hc
        by_cases hxb : x < b.fend
        · exact covers_cons.mpr (.inl ⟨h₀.le.trans hx, hxb⟩)
        · exact covers_cons.mpr (.inr (ih hq.tail hq.head_le (hb.more.mp h₁) hc
            (Nat.le_of_not_lt hxb)))
      · rw [not_not] at h₀
        have hend := Nat.le_of_not_lt fun h => h₁ (hb.more.mpr h)
        exact covers_cons.mpr (.inl ⟨h₀.le.trans hx, hxd.trans_le hend⟩)
  · intro hcov
    induction q generalizing pos with
    | nil => exact absurd (hcov pos (Nat.le_refl _) hpos) not_covers_nil
    | cons b q ih =>
      obtain ⟨_, _, ⟨⟩, hfoff, hrest⟩ :=
        hq.apart.head_of_covers (fun b _ => foff_le_fend b) hle hpos hcov
      have hb := hq.all b List.mem_cons_self
      have hfoff' : b.foff = pos := hfoff
      rw [complete, if_neg (not_not.mpr hfoff'), if_neg (hlen b hb)]
      split_ifs with hmore
      · have hih : complete IP6HDR (b.foff + b.flen) q = .ok true :=
          ih hq.tail hq.head_le (hb.more.mp hmore) hrest
        rwa [hfoff'] at hih
      · rfl

/-! ## Fragments that lie apart -/

/-- A fragment of a queue that is as it came. -/
structure Tile (d : Packet) (eh : Block) (fs : List Block) (c : Block) : Prop where
  part : Part d c
  whole : ploadlen c = IP6FHDR + c.flen
  like : ∀ o < IP6HDR, o ≠ 4 → o ≠ 5 → o ≠ 6 → c.byte o = eh.byte o
  pos : c.foff < c.fend
  mem : ∃ b ∈ fs, c.foff = offset IP6HDR b ∧ c.fend = fragend b

/-- One of the fragments ends before the other one begins. -/
def Beside (b c : Block) : Prop := fragend b ≤ offset IP6HDR c ∨ fragend c ≤ offset IP6HDR b

instance : Std.Symm Beside := ⟨fun _ _ h => h.symm⟩

/-- Packets that are fragments of the packet: they lie apart, leave no byte out, and none of them is
all of it. -/
structure Tiling (d : Packet) (eh : Block) (room : Nat) (fs : List Block) : Prop where
  all : ∀ b ∈ fs, IsTile d eh room b ∧ ploadlen b < IP6FHDR + d.data.length
  apart : fs.Pairwise Beside
  covers : ∀ x < d.data.length, ∃ b ∈ fs, offset IP6HDR b ≤ x ∧ x < fragend b

variable {fs : List Block}

theorem Tiling.perm {l : List Block} (h : Tiling d eh room fs) (hp : l.Perm fs) :
    Tiling d eh room l where
  all b hb := h.all b (hp.subset hb)
  apart := (hp.pairwise_iff fun hbc => Std.Symm.symm _ _ hbc).mpr h.apart
  covers x hx := by
    obtain ⟨b, hb, hbx⟩ := h.covers x hx
    exact ⟨b, hp.symm.subset hb, hbx⟩

theorem Tiling.eq_or_apart (h : Tiling d eh room fs) (hb : b ∈ fs) (hc : c ∈ fs) :
    b = c ∨ Beside b c := by
  by_cases hbc : b = c
  · exact .inl hbc
  · exact .inr (h.apart.forall hb hc hbc)

/-- Nothing is ever trimmed. -/
theorem Tiling.keeps (h : Tiling d eh room fs) (hq : Laid (cuts IP6HDR) (Tile d eh fs) q)
    (hc : Tile d eh fs c) : Keeps IP6HDR (Tile d eh fs) q c where
  cutat b hb hlt hlt' hend := by
    obtain ⟨b', hb', hbo, hbt⟩ := (hq.all b hb).mem
    obtain ⟨c', hc', hco, hct⟩ := hc.mem
    have := hc.pos
    rcases h.eq_or_apart hb' hc' with rfl | hapart
    · omega
    · unfold Beside at hapart
      omega
  fronted b hb hle hlt hend := by
    obtain ⟨b', hb', hbo, hbt⟩ := (hq.all b hb).mem
    obtain ⟨c', hc', hco, hct⟩ := hc.mem
    have := (hq.all b hb).pos
    rcases h.eq_or_apart hb' hc' with rfl | hapart
    · omega
    · unfold Beside at hapart
      omega

theorem IsTile.lt (h : IsTile d eh room b) :
    offset IP6HDR b < fragend b ∧ fragend b ≤ d.data.length := by
  have h₁ := h.pos
  refine ⟨?_, h.fragment.within⟩
  rw [fragend]
  omega

/-- The queue holds a packet that arrives as it is. -/
theorem Tiling.tag (h : Tiling d eh room fs) (hb : b ∈ fs) :
    Tile d eh fs (tag IP6HDR (offset IP6HDR b) (retyped b)) ∧
      (Ip6.tag IP6HDR (offset IP6HDR b) (retyped b)).fend = fragend b := by
  obtain ⟨ht, -⟩ := h.all b hb
  have hf := ht.fragment
  have harr := hf.retyped
  obtain ⟨hpart, hwhole, hfend⟩ := hf.part harr.first rfl harr.header
  have hbyte : ∀ o < IP6HDR, (Ip6.tag IP6HDR (offset IP6HDR b) (retyped b)).byte o =
      (retyped b).byte o := by
    intro o ho
    have hdata : (Ip6.tag IP6HDR (offset IP6HDR b) (retyped b)).data = (retyped b).data :=
      (reserve_spec harr.first).2
    have hblen := congrArg List.length hdata
    rw [data_length, data_length] at hblen
    have hlen : o < (retyped b).BLEN := lt_of_lt_of_le ho ((Nat.le_add_right _ _).trans harr.header)
    have hbytes : bytes [Ip6.tag IP6HDR (offset IP6HDR b) (retyped b)] = bytes [retyped b] := by
      rw [bytes_cons, bytes_cons, hdata]
    exact byte_congr hbytes (by rwa [hblen]) hlen
  refine ⟨⟨hpart, hwhole, fun o ho h4 h5 h6 => ?_, ?_, b, hb, rfl, hfend⟩, hfend⟩
  · rw [hbyte o ho, retyped_byte h6]
    exact ht.like o ho h4 h5
  · rw [hfend]
    exact ht.lt.1

/-- It is not an atomic fragment. -/
theorem IsTile.not_atomic (h : IsTile d eh room b) (hlt : ploadlen b < IP6FHDR + d.data.length) :
    Ip6.offsetRM IP6HDR b ≠ 0 := by
  intro h0
  have hrm := h.offsetRM
  have hoff : offset IP6HDR b = 0 := by rw [offset, h0]
  have hpos := h.pos
  have hmore : Ip6.more IP6HDR b = true := by
    rw [h.fragment.more, fragend, hoff]
    omega
  rw [h0, if_pos hmore] at hrm
  omega

/-! ## Any order -/

/-- The packet is the original with the header `eh`. -/
def Rebuilt (d : Packet) (eh : Block) : List Block → Prop
  | [] => False
  | b :: l => Restored d (b :: l) ∧ IP6HDR ≤ b.BLEN ∧
      ∀ o < IP6HDR, o ≠ 4 → o ≠ 5 → o ≠ 6 → b.byte o = eh.byte o

theorem glue_rebuilt {h : Block} {l pkt : List Block}
    (hq : Laid (cuts IP6HDR) (Tile d eh fs) (h :: l)) (hc : complete IP6HDR 0 (h :: l) = .ok true)
    (hg : glue IP6HDR (h :: l) = .ok pkt) : Rebuilt d eh pkt := by
  have hh := hq.all h List.mem_cons_self
  have hlaid : Laid (cuts IP6HDR) (Part d) (h :: l) := ⟨fun b hb => (hq.all b hb).part, hq.apart⟩
  have hres := (glue_iff hlaid hc hg).mpr hh.whole
  obtain ⟨_, _, ⟨⟩, h0⟩ := complete_head hc
  rw [glue_eq (Nat.le_refl _) hh.part.fits h0 fun c hc => (hlaid.tail.all c hc).fits] at hg
  cases hg
  refine ⟨hres, ?_, fun o ho h4 h5 h6 => ?_⟩
  · change IP6HDR ≤ (headed IP6HDR h).BLEN
    rw [headed_BLEN, hh.whole]
    omega
  · exact (byte_hnputs_ne h4 h5).trans ((byte_advance h IP6FHDR ho).trans (hh.like o ho h4 h5 h6))

/-- The queue of the packet after the packets `done`. -/
structure Fed (d : Packet) (eh : Block) (fs done : List Block) (ip : IP) : Prop where
  holds : ∀ f ∈ ip.flisthead6, f.key = d.key → Laid (cuts IP6HDR) (Tile d eh fs) f.blist
  queue : ∃ f, ip.queue d.key = some f ∧
    ∀ x, Covers foff fend f.blist x ↔ ∃ b ∈ done, offset IP6HDR b ≤ x ∧ x < fragend b

variable {done todo : List Block}

/-- What is done with one of the fragments. -/
theorem Tiling.outcome (ht : Tiling d eh room fs) (hb : b ∈ fs)
    (hq : ∀ f ∈ ip.flisthead6, f.key = d.key → Laid (cuts IP6HDR) (Tile d eh fs) f.blist)
    (now : Nat) : ∃ ip' r, reasm now true ip b [] = .ok (ip', r) ∧
      Outcome IP6HDR (Tile d eh fs) now ip d.key (Ip6.offsetRM IP6HDR b) (retyped b) ip' r ∧
      ∀ f ∈ ip'.flisthead6, f.key = d.key → Laid (cuts IP6HDR) (Tile d eh fs) f.blist := by
  obtain ⟨htile, -⟩ := ht.all b hb
  have htag := (ht.tag hb).1
  obtain ⟨ip', r, hr, hout⟩ := requeue_spec (Nat.le_refl IP6HDR) (P := Tile d eh fs)
    (fun hb => hb.part.fits) now (Ip6.offsetRM IP6HDR b) (b := retyped b) hq (fun _ => htag)
    fun _ f hf => ht.keeps (hq f (ip.queue_mem hf).1 (ip.queue_mem hf).2) htag
  refine ⟨ip', r, ?_, hout, hout.all (K := (· = d.key)) (fun _ => htag) hq⟩
  rw [htile.fragment.reasm, gather, if_pos rfl]
  exact hr

/-- The queue covers the packets that it was fed; the packet is complete with the last of them. -/
theorem Fed.step (ht : Tiling d eh room fs) (hp : (done ++ b :: todo).Perm fs)
    (hf : Fed d eh fs done ip) (now : Nat) : ∃ ip' r, reasm now true ip b [] = .ok (ip', r) ∧
      if todo = [] then ∃ pkt, r = some pkt ∧ Rebuilt d eh pkt
      else r = none ∧ Fed d eh fs (done ++ [b]) ip' := by
  have hb : b ∈ fs := hp.subset (List.mem_append_right _ List.mem_cons_self)
  have ht' := ht.perm hp
  obtain ⟨htile, hlen⟩ := ht.all b hb
  obtain ⟨htag, hfend⟩ := ht.tag hb
  obtain ⟨f, hqueue, hcov⟩ := hf.queue
  obtain ⟨ip', r, hr, hout, hholds⟩ := ht.outcome hb hf.holds now
  refine ⟨ip', r, hr, ?_⟩
  obtain ⟨-, hapart, hbeside⟩ := List.pairwise_append.mp ht'.apart
  obtain ⟨hbtodo, -⟩ := List.pairwise_cons.mp hapart
  -- the queue with the new fragment
  have hcov' : ∀ q', Placed (cuts IP6HDR) (Tile d eh fs) f.blist
      (tag IP6HDR (offset IP6HDR b) (retyped b)) q' → ∀ x,
      Covers foff fend q' x ↔ ∃ c ∈ done ++ [b], offset IP6HDR c ≤ x ∧ x < fragend c := by
    intro q' hins x
    have hx : Covers foff fend q' x ↔ Covers foff fend f.blist x ∨
        (offset IP6HDR b ≤ x ∧ x < (tag IP6HDR (offset IP6HDR b) (retyped b)).fend) :=
      hins.covers x
    rw [hx, hcov, hfend]
    simp only [List.mem_append, List.mem_singleton, or_and_right, exists_or, exists_eq_left]
  have hcomplete : ∀ q', Placed (cuts IP6HDR) (Tile d eh fs) f.blist
      (tag IP6HDR (offset IP6HDR b) (retyped b)) q' →
      (complete IP6HDR 0 q' = .ok true ↔ todo = []) := by
    intro q' hins
    have hpos := htile.lt
    have hlaid : Laid (cuts IP6HDR) (Part d) q' :=
      ⟨fun b hb => (hins.laid.all b hb).part, hins.laid.apart⟩
    rw [complete_iff hlaid (fun b _ => Nat.zero_le _) (by omega)]
    constructor
    · intro hall
      by_contra hne
      obtain ⟨c, hc⟩ := List.exists_mem_of_ne_nil todo hne
      have hclt := (ht'.all c (List.mem_append_right _ (List.mem_cons_of_mem b hc))).1.lt
      obtain ⟨e, he, hec⟩ := (hcov' q' hins _).mp
        (hall (offset IP6HDR c) (Nat.zero_le _) (hclt.1.trans_le hclt.2))
      have hapart' : Beside e c := by
        rcases List.mem_append.mp he with he | he
        · exact hbeside e he c (List.mem_cons_of_mem b hc)
        · rw [List.mem_singleton.mp he]
          exact hbtodo c hc
      unfold Beside at hapart'
      omega
    · rintro rfl x - hx
      exact (hcov' q' hins x).mpr (ht'.covers x hx)
  cases hout with
  | atomic h0 _ => exact absurd h0 (htile.not_atomic hlen)
  | alloc _ hnone _ _ => cases hnone.symm.trans hqueue
  | covered _ hq hc _ _ =>
    cases hq.symm.trans hqueue
    obtain ⟨c, hc, hlt, hlt', -⟩ := hc
    obtain ⟨e, he, hec⟩ := (hcov (offset IP6HDR b)).mp ⟨c, hc, Nat.le_of_lt hlt, hlt'⟩
    have hapart' := hbeside e he b List.mem_cons_self
    have := htile.lt
    unfold Beside at hapart'
    omega
  | queued _ hq hins hc _ hq' =>
    cases hq.symm.trans hqueue
    have hne : todo ≠ [] := fun h => by
      rw [(hcomplete _ hins).mpr h] at hc
      cases hc
    rw [if_neg hne]
    exact ⟨rfl, hholds, _, hq', hcov' _ hins⟩
  | glued _ hq hins hc hg _ =>
    cases hq.symm.trans hqueue
    rw [if_pos ((hcomplete _ hins).mp hc)]
    obtain ⟨c, l, rfl, -⟩ := complete_head hc
    exact ⟨_, rfl, glue_rebuilt hins.laid hc hg⟩

/-- The packets that are left. -/
theorem Fed.feed (ht : Tiling d eh room fs) {order : List (Nat × Block)}
    (hp : (done ++ order.map Prod.snd).Perm fs) (hf : Fed d eh fs done ip) (hne : order ≠ []) :
    ∃ ip' pkt, feed ip order = .ok (ip', List.replicate (order.length - 1) none ++ [some pkt]) ∧
      Rebuilt d eh pkt := by
  induction order generalizing done ip with
  | nil => exact absurd rfl hne
  | cons a order ih =>
    obtain ⟨now, b⟩ := a
    obtain ⟨ip', r, hr, hstep⟩ := hf.step ht hp now
    unfold Ip6.feed
    simp only [hr]
    cases order with
    | nil =>
      obtain ⟨pkt, rfl, hpkt⟩ := hstep
      exact ⟨ip', pkt, rfl, hpkt⟩
    | cons a' order =>
      obtain ⟨rfl, hfed⟩ := hstep
      obtain ⟨ip'', pkt, hfeed, hpkt⟩ := ih (by rwa [List.append_assoc]) hfed nofun
      rw [hfeed]
      exact ⟨ip'', pkt, rfl, hpkt⟩

/-- Fragments of a packet that lie apart, in any order: the last one of them completes the packet. -/
theorem Tiling.feed (ht : Tiling d eh room fs) {order : List (Nat × Block)}
    (hp : (order.map Prod.snd).Perm fs) (hne : order ≠ []) (h0 : ip.queue d.key = none) :
    ∃ ip' pkt, feed ip order = .ok (ip', List.replicate (order.length - 1) none ++ [some pkt]) ∧
      Rebuilt d eh pkt := by
  cases order with
  | nil => exact absurd rfl hne
  | cons a order =>
    obtain ⟨now, b⟩ := a
    have hb : b ∈ fs := hp.subset List.mem_cons_self
    obtain ⟨htile, hlen⟩ := ht.all b hb
    have hclear : ∀ f ∈ ip.flisthead6, f.key = d.key →
        Laid (cuts IP6HDR) (Tile d eh fs) f.blist := fun f hf hk =>
      absurd hk (by simpa using List.find?_eq_none.mp h0 f hf)
    obtain ⟨ip', r, hr, hout, hholds⟩ := ht.outcome hb hclear now
    obtain ⟨-, hfend⟩ := ht.tag hb
    unfold Ip6.feed
    simp only [hr]
    cases hout with
    | atomic h0 _ => exact absurd h0 (htile.not_atomic hlen)
    | alloc _ _ _ hq =>
      have hfed : Fed d eh fs [b] ip' := by
        refine ⟨hholds, _, hq, fun x => ?_⟩
        simp only [Covers, List.mem_singleton, exists_eq_left]
        change offset IP6HDR b ≤ x ∧ x < (Ip6.tag IP6HDR (offset IP6HDR b) (retyped b)).fend ↔ _
        rw [hfend]
      have hrest : order ≠ [] := by
        rintro rfl
        -- it would be all of the packet
        have hlt := htile.lt
        have hcov := (ht.perm hp).covers (d.data.length - 1) (by omega)
        simp only [List.map_cons, List.map_nil, List.mem_singleton, exists_eq_left] at hcov
        have hcov' := (ht.perm hp).covers 0 (by omega)
        simp only [List.map_cons, List.map_nil, List.mem_singleton, exists_eq_left] at hcov'
        rw [fragend] at *
        omega
      obtain ⟨ip'', pkt, hfeed, hpkt⟩ := hfed.feed ht hp hrest
      rw [hfeed]
      refine ⟨ip'', pkt, ?_, hpkt⟩
      cases order with
      | nil => exact absurd rfl hrest
      | cons a' order => rfl
    | covered _ hq _ _ _ => cases h0.symm.trans hq
    | queued _ hq _ _ _ _ => cases h0.symm.trans hq
    | glued _ hq _ _ _ _ => cases h0.symm.trans hq

theorem Tiles.tiling {l : List Block} (h : Tiles d eh room 0 l)
    (hlt : ∀ b ∈ l, ploadlen b < IP6FHDR + d.data.length) : Tiling d eh room l where
  all b hb := ⟨(h.spec.1 b hb).1, hlt b hb⟩
  apart := h.spec.2.1.imp .inl
  covers x hx := h.spec.2.2.1 x (Nat.zero_le x) hx

/-! ## The packets of `ipoput6` -/

variable {k : Link} {lid ttl tos nh qpos u : Nat}

theorem walk_le {get : Nat → Nat} {len fuel n q ufl n' q' ufl' : Nat}
    (h : walk get len fuel n q ufl = .ok (n', q', ufl')) : ufl ≤ ufl' := by
  induction fuel generalizing n q ufl with
  | zero => cases h
  | succ fuel ih =>
    rw [walk] at h
    split_ifs at h with h₁ h₂ h₃
    · exact (Nat.le_add_right _ _).trans (ih h)
    · cases h
      exact Nat.le_refl _

/-- No headers stand behind the IPv6 header. -/
theorem headers_plain {get : Nat → Nat} {len n q : Nat} (h : headers get len = .ok (n, q, IP6HDR)) :
    n = get 6 ∧ q = 6 := by
  rw [headers, walk] at h
  split_ifs at h with h₁ h₂ h₃
  · have := walk_le h
    omega
  · cases h
    exact ⟨rfl, rfl⟩

theorem fill_byte (ttl tos : Nat) (b : Block) {o : Nat} (h0 : o ≠ 0) (h1 : o ≠ 1) (h7 : o ≠ 7) :
    (fill false ttl tos b).byte o = b.byte o :=
  (byte_setbyte_ne h1).trans ((byte_setbyte_ne h0).trans ((byte_setbyte_ne h7).trans
    (byte_setbyte_ne h0)))

/-- The header that is copied to every fragment: the last type in it is `FH`. -/
def fraghdr (ttl tos nh qpos u : Nat) (bp : Block) : Block :=
  setnexthdr (fill false ttl tos bp) true nh qpos u

@[simp] theorem fraghdr_BLEN (ttl tos nh qpos u : Nat) (b : Block) :
    (fraghdr ttl tos nh qpos u b).BLEN = b.BLEN := by
  rw [fraghdr, Block.BLEN, setnexthdr_wp, setnexthdr_rp]
  rfl

theorem fraghdr_ordered (hb : b.Ordered) : (fraghdr ttl tos nh qpos u b).Ordered :=
  ⟨by rw [fraghdr, setnexthdr_wp, setnexthdr_rp]; exact hb.1,
    by rw [fraghdr, setnexthdr_wp, setnexthdr_lim]; exact hb.2⟩

theorem fraghdr_byte (ttl tos nh u : Nat) (b : Block) {o : Nat} (h6 : o ≠ 6) :
    (fraghdr ttl tos nh 6 u b).byte o = (fill false ttl tos b).byte o := by
  unfold fraghdr setnexthdr
  rw [if_pos rfl, byte_setbyte_ne h6]
  split_ifs
  · exact byte_setbyte_ne h6
  · rfl

theorem fraghdr_proto (ttl tos nh u : Nat) (b : Block) : proto (fraghdr ttl tos nh 6 u b) = FH := by
  unfold fraghdr setnexthdr
  rw [if_pos rfl, proto, byte_setbyte]
  rfl

theorem fraghdr_ipaddr (ttl tos nh u : Nat) (b : Block) {o : Nat} (h : 8 ≤ o) :
    ipaddr (fraghdr ttl tos nh 6 u b) o = ipaddr b o := by
  have hbyte : ∀ k, 8 ≤ k → (fraghdr ttl tos nh 6 u b).nhgets k = b.nhgets k := by
    intro k hk
    rw [Block.nhgets, Block.nhgets, fraghdr_byte _ _ _ _ _ (by omega),
      fraghdr_byte _ _ _ _ _ (by omega), fill_byte _ _ _ (by omega) (by omega) (by omega),
      fill_byte _ _ _ (by omega) (by omega) (by omega)]
  unfold ipaddr Block.nhgetl
  rw [hbyte o h, hbyte (o + 2) (by omega), hbyte (o + 4) (by omega), hbyte (o + 4 + 2) (by omega),
    hbyte (o + 8) (by omega), hbyte (o + 8 + 2) (by omega), hbyte (o + 12) (by omega),
    hbyte (o + 12 + 2) (by omega)]

/-- Blocks of one length that differ in the IPv6 header only. -/
theorem drop_congr (hlen : b.BLEN = c.BLEN) (hb : IP6HDR ≤ b.BLEN)
    (h : ∀ o, IP6HDR ≤ o → b.byte o = c.byte o) (l : List Block) :
    (bytes (b :: l)).drop IP6HDR = (bytes (c :: l)).drop IP6HDR := by
  have hc : IP6HDR ≤ c.BLEN := hlen ▸ hb
  rw [bytes_cons, bytes_cons, List.drop_append_of_le_length (by rwa [data_length]),
    List.drop_append_of_le_length (by rwa [data_length]), Block.data, Block.data, window_drop hb,
    window_drop hc, hlen]
  congr 1
  refine window_congr fun k _ => UInt8.toNat_inj.mp ?_
  rw [Nat.add_assoc, Nat.add_assoc]
  exact h (IP6HDR + k) (Nat.le_add_right _ _)

theorem take_congr {l l' : List Block} (hb : IP6HDR ≤ b.BLEN) (hc : IP6HDR ≤ c.BLEN)
    (h : ∀ o < IP6HDR, b.byte o = c.byte o) :
    (bytes (b :: l)).take IP6HDR = (bytes (c :: l')).take IP6HDR := by
  rw [bytes_cons, bytes_cons, List.take_append_of_le_length (by rwa [data_length]),
    List.take_append_of_le_length (by rwa [data_length]), Block.data, Block.data, window_take hb,
    window_take hc]
  exact window_congr fun k hk => UInt8.toNat_inj.mp (h k hk)

/-- The packets that are sent when the packet is too long for the medium. -/
theorem ipoput6_fragments (hbp : blocklen (bp :: next) < 65536)
    (hlong : k.medialen < blocklen (bp :: next))
    (hun : headers bp.byte bp.BLEN = .ok (nh, qpos, u)) :
    ipoput6 false lid (some k) bp next false ttl tos = .ok ((fragments k.medialen lid
      (blocklen (bp :: next)) u nh (fraghdr ttl tos nh qpos u bp) next).map fun b => [b]) := by
  have hmax : ¬ IP_MAX ≤ blocklen (bp :: next) := Nat.not_le.mpr hbp
  have hwalk : headers (fill false ttl tos bp).byte (fill false ttl tos bp).BLEN =
      .ok (nh, qpos, u) := by
    rw [← hun]
    refine headers_congr (fill_byte ttl tos bp (by decide) (by decide) (by decide)) fun o _ ho => ?_
    have h40 : 40 ≤ o := ho
    exact fill_byte ttl tos bp (by omega) (by omega) (by omega)
  unfold ipoput6 unfraglen
  simp only [Bool.false_eq_true, false_and, if_false, if_neg hmax, if_neg (Nat.not_le.mpr hlong),
    hwalk]
  rfl

/-- A packet that is put together is the one that would have been sent as it is. -/
theorem Rebuilt.bytes {pkt : List Block} {len : Nat} (hhdr : IP6HDR ≤ bp.BLEN)
    (hlen : blocklen (bp :: next) = len) (hmax : len < 65536)
    (hdata : d.data = (Ip.bytes (bp :: next)).drop IP6HDR) (hproto : d.proto = proto bp)
    (h : Rebuilt d (fraghdr ttl tos nh 6 u bp) pkt) :
    Ip.bytes pkt = Ip.bytes ((fill false ttl tos bp).hnputs 4 (len - IP6HDR) :: next) := by
  cases pkt with
  | nil => exact h.elim
  | cons b l =>
    obtain ⟨⟨hp, -, -, hpl, hrest⟩, hb, hlike⟩ := h
    generalize ho : (fill false ttl tos bp).hnputs 4 (len - IP6HDR) = o
    have hoBLEN : o.BLEN = bp.BLEN := by rw [← ho]; rfl
    have hobyte : ∀ j, j ≠ 4 → j ≠ 5 → o.byte j = (fill false ttl tos bp).byte j := fun j h4 h5 => by
      rw [← ho, byte_hnputs_ne h4 h5]
    have hopl : ploadlen o = len - IP6HDR := by
      rw [← ho]
      exact (nhgets_hnputs _ _ _).trans (Nat.mod_eq_of_lt (by omega))
    have hdlen : d.data.length = len - IP6HDR := by
      rw [hdata, List.length_drop, ← blocklen_eq, hlen]
    have hsame : b.byte 4 = o.byte 4 ∧ b.byte 5 = o.byte 5 := by
      have h₁ : b.byte 4 * 256 + b.byte 5 = o.byte 4 * 256 + o.byte 5 :=
        (hpl.trans hdlen).trans hopl.symm
      have h₂ := b.byte_lt 5
      have h₃ := o.byte_lt 5
      omega
    rw [← List.take_append_drop IP6HDR (Ip.bytes (b :: l)),
      ← List.take_append_drop IP6HDR (Ip.bytes (o :: next)), hrest, hdata]
    congr 1
    · refine take_congr hb (hoBLEN ▸ hhdr) fun j hj => ?_
      by_cases h4 : j = 4
      · rw [h4]
        exact hsame.1
      by_cases h5 : j = 5
      · rw [h5]
        exact hsame.2
      rw [hobyte j h4 h5]
      by_cases h6 : j = 6
      · rw [h6, fill_byte ttl tos bp (by decide) (by decide) (by decide)]
        exact hp.trans hproto
      · rw [hlike j hj h4 h5 h6, fraghdr_byte _ _ _ _ _ h6]
    · refine drop_congr hoBLEN.symm hhdr (fun j hj => ?_) next
      have h40 : 40 ≤ j := hj
      rw [hobyte j (by omega) (by omega), fill_byte ttl tos bp (by omega) (by omega) (by omega)]

/-- The packets of `ipoput6` are the fragments of the packet when nothing stands behind the IPv6
header. -/
theorem plain_round_trips (hbp : bp.Ordered) (hnext : ∀ b ∈ next, b.Ordered)
    (hhdr : IP6HDR ≤ bp.BLEN) (h : blocklen (bp :: next) < 65536)
    (hlong : k.medialen < blocklen (bp :: next))
    (hun : headers bp.byte bp.BLEN = .ok (nh, qpos, IP6HDR))
    (hseg : 8 ≤ seglen k.medialen IP6HDR) : RoundTrips lid ttl tos IP6HDR k bp next := by
  obtain ⟨hnh, rfl⟩ := headers_plain hun
  have hroom : IP6HDR + IP6FHDR + seglen k.medialen IP6HDR ≤ k.medialen := by
    unfold seglen at hseg ⊢
    omega
  have hdlen : ((bytes (bp :: next)).drop IP6HDR).length = blocklen (bp :: next) - IP6HDR := by
    rw [List.length_drop, ← blocklen_eq]
  let d : Packet := ⟨⟨src bp, dst bp, lid % 2 ^ 32⟩, nh, (bytes (bp :: next)).drop IP6HDR, by omega⟩
  have hd : d.data.length = blocklen (bp :: next) - IP6HDR := hdlen
  have hx : ∀ b ∈ fraghdr ttl tos nh 6 IP6HDR bp :: next, b.Ordered := by
    rintro b (_ | ⟨_, hb⟩)
    · exact fraghdr_ordered hbp
    · exact hnext b hb
  obtain ⟨hskip, hskip'⟩ := skiphdr_spec IP6HDR hx
  have hdata : (bytes (fraghdr ttl tos nh 6 IP6HDR bp :: next)).drop IP6HDR = d.data := by
    refine drop_congr (fraghdr_BLEN ..) (by rwa [fraghdr_BLEN]) (fun o ho => ?_) next
    have h40 : 40 ≤ o := ho
    rw [fraghdr_byte _ _ _ _ _ (by omega), fill_byte _ _ _ (by omega) (by omega) (by omega)]
  have htiles : Tiles d (fraghdr ttl tos nh 6 IP6HDR bp) k.medialen 0
      (segs (fraghdr ttl tos nh 6 IP6HDR bp) IP6HDR nh lid d.data.length
        (seglen k.medialen IP6HDR) d.data.length 0
        (skiphdr IP6HDR (fraghdr ttl tos nh 6 IP6HDR bp :: next))) := by
    refine segs_tiles (fraghdr_proto ..) ?_ ?_ (by omega) hseg (Nat.mul_mod_left _ _) hroom _ rfl
      (by omega) (Nat.le_refl _) hskip' (by rw [hskip, hdata]; rfl)
    · rw [src, dst, fraghdr_ipaddr _ _ _ _ _ (Nat.le_refl _), fraghdr_ipaddr _ _ _ _ _ (by decide)]
      rfl
    · have hlt : nh < 256 := hnh ▸ bp.byte_lt 6
      exact (Nat.mod_eq_of_lt hlt).symm
  have hfrag : fragments k.medialen lid (blocklen (bp :: next)) IP6HDR nh
      (fraghdr ttl tos nh 6 IP6HDR bp) next = segs (fraghdr ttl tos nh 6 IP6HDR bp) IP6HDR nh lid
        d.data.length (seglen k.medialen IP6HDR) d.data.length 0
        (skiphdr IP6HDR (fraghdr ttl tos nh 6 IP6HDR bp :: next)) := by
    rw [fragments, if_neg (by omega), if_neg (Nat.not_lt.mpr hseg), hd]
  rw [← hfrag] at htiles
  obtain ⟨hall, -, -, hmore⟩ := htiles.spec
  refine ⟨_, ipoput6_fragments h hlong hun, fun b hb => ?_, hmore, fun ip order h0 hp => ?_⟩
  · have htile := (hall b hb).1
    exact ⟨htile.room, htile.len.symm, htile.offsetRM⟩
  · have htiling := htiles.tiling fun b hb => by
      have htile := (hall b hb).1
      have h₁ := htile.room
      have h₂ := htile.len
      omega
    have hne : order ≠ [] := by
      rintro rfl
      obtain ⟨l, c, he, -⟩ := hmore
      rw [he] at hp
      exact absurd hp.length_eq (by simp)
    obtain ⟨ip', pkt, hfeed, hpkt⟩ := htiling.feed hp hne h0
    exact ⟨ip', pkt, hfeed, hpkt.bytes hhdr rfl h rfl hnh⟩

/-- A packet survives fragmentation only then: the payload length of a fragment leaves out what
stands between the IPv6 header and the fragment header. -/
theorem RoundTrips.plain (hnext : ∀ b ∈ next, b.Ordered) (hbp : bp.Ordered)
    (h : blocklen (bp :: next) < 65536) (hlong : k.medialen < blocklen (bp :: next))
    (hwalk : headers bp.byte bp.BLEN = .ok (nh, qpos, u))
    (hr : RoundTrips lid ttl tos u k bp next) : u = IP6HDR ∧ 8 ≤ seglen k.medialen u := by
  obtain ⟨pkts, hout, hall, ⟨l, e, rfl, -⟩, -⟩ := hr
  have hu : IP6HDR ≤ u := walk_le hwalk
  have hfrag := (ipoput6_fragments h hlong hwalk).symm.trans hout
  have hpkts : fragments k.medialen lid (blocklen (bp :: next)) u nh
      (fraghdr ttl tos nh qpos u bp) next = l ++ [e] :=
    List.map_injective_iff.mpr (fun _ _ he => List.singleton_inj.mp he) (Except.ok.inj hfrag)
  unfold fragments at hpkts
  split_ifs at hpkts with hmed hseg
  · exact absurd hpkts.symm (by simp)
  · exact absurd hpkts.symm (by simp)
  have hx : ∀ b ∈ fraghdr ttl tos nh qpos u bp :: next, b.Ordered := by
    rintro b (_ | ⟨_, hb⟩)
    · exact fraghdr_ordered hbp
    · exact hnext b hb
  obtain ⟨hskip, hskip'⟩ := skiphdr_spec u hx
  have hlen : blocklen (bp :: next) - u - 0 ≤
      blocklen (skiphdr u (fraghdr ttl tos nh qpos u bp :: next)) := by
    have hsame : blocklen (fraghdr ttl tos nh qpos u bp :: next) = blocklen (bp :: next) := by
      rw [blocklen, List.map_cons, fraghdr_BLEN]
      rfl
    rw [blocklen_eq (skiphdr _ _), hskip, List.length_drop, ← blocklen_eq, hsame]
    omega
  have he : e ∈ segs (fraghdr ttl tos nh qpos u bp) u nh lid (blocklen (bp :: next) - u)
      (seglen k.medialen u) (blocklen (bp :: next) - u) 0
      (skiphdr u (fraghdr ttl tos nh qpos u bp :: next)) := by
    rw [hpkts]
    exact List.mem_append_right _ (List.mem_singleton_self e)
  obtain ⟨n, hn, hblen, hpl⟩ := segs_length hu hskip' hlen e he
  obtain ⟨-, hfits, -⟩ := hall e (List.mem_append_right _ (List.mem_singleton_self e))
  have h8 : IP6FHDR = 8 := rfl
  have h40 : IP6HDR = 40 := rfl
  exact ⟨by omega, Nat.le_of_not_lt hseg⟩

/-- What `unfraglen` returns is where its walk ends. -/
theorem headers_of_unfraglen {setfh : Bool} (hun : unfraglen bp setfh = .ok (c, nh, u)) :
    ∃ qpos, headers bp.byte bp.BLEN = .ok (nh, qpos, u) := by
  unfold unfraglen at hun
  cases hw : headers bp.byte bp.BLEN with
  | error e =>
    rw [hw] at hun
    cases hun
  | ok r =>
    rw [hw] at hun
    cases hun
    exact ⟨r.2.1, rfl⟩

/-- A packet from this host that an interface has no room for survives fragmentation exactly when no
headers stand between the IPv6 header and the fragment header, and there is room for data: the
payload length of a fragment does not count such headers. -/
theorem round_trips_iff (lid ttl tos : Nat) (hbp : bp.Ordered) (hnext : ∀ b ∈ next, b.Ordered)
    (hhdr : IP6HDR ≤ bp.BLEN) (h : blocklen (bp :: next) < 65536)
    (hlong : k.medialen < blocklen (bp :: next)) (hun : unfraglen bp true = .ok (c, nh, u)) :
    RoundTrips lid ttl tos u k bp next ↔ u = IP6HDR ∧ 8 ≤ seglen k.medialen u := by
  obtain ⟨qpos, hwalk⟩ := headers_of_unfraglen hun
  constructor
  · exact RoundTrips.plain hnext hbp h hlong hwalk
  · rintro ⟨rfl, hseg⟩
    exact plain_round_trips hbp hnext hhdr h hlong hwalk hseg

/-- A block with these bytes. -/
private def block (data : List UInt8) : Block where
  mem a := data[a - 64]?.getD 0
  rp := 64
  wp := 64 + data.length
  lim := 256
  foff := 0
  flen := 0

/-- A packet of 40 + 3 bytes in its first block. -/
private def bare : Block :=
  block ([0x60, 0, 0, 0, 0, 24, 17, 64] ++ List.replicate 15 0 ++ [1] ++ List.replicate 15 0 ++
    [2, 1, 2, 3])

private def rest : Block := block (List.replicate 21 7)

theorem round_trips_iff_plain :
    RoundTrips 7 255 0 IP6HDR ⟨70, 14, true⟩ bare [rest] := by
  have hbehind : ∀ b ∈ [rest], b.Ordered := fun b hb =>
    List.mem_singleton.mp hb ▸ ⟨by decide, by decide⟩
  have hfront : bare.Ordered := ⟨by decide, by decide⟩
  have hun : (unfraglen bare true).map Prod.snd = .ok (17, IP6HDR) := by decide +kernel
  cases hr : unfraglen bare true with
  | error e =>
    rw [hr] at hun
    cases hun
  | ok r =>
    rw [hr] at hun
    obtain ⟨c, nh, u⟩ := r
    cases Except.ok.inj hun
    exact (round_trips_iff 7 255 0 hfront hbehind (by decide) (by decide) (by decide) hr).mpr
      ⟨rfl, by decide⟩

/-- The first block of a packet with 8 bytes of hop-by-hop options. -/
private def options : Block :=
  block ([0x60, 0, 0, 0, 0, 32, 0, 64] ++ List.replicate 15 0 ++ [1] ++ List.replicate 15 0 ++
    [2, 17, 0, 1, 4, 0, 0, 0, 0, 1, 2, 3])

/-- A packet with options in it does not survive fragmentation, though there is room for it. -/
theorem options_lost : (unfraglen options true).map Prod.snd = .ok (17, 48) ∧
    8 ≤ seglen (Link.medialen ⟨78, 14, true⟩) 48 ∧
    ¬ RoundTrips 7 255 0 48 ⟨78, 14, true⟩ options [rest] := by
  have hbehind : ∀ b ∈ [rest], b.Ordered := fun b hb =>
    List.mem_singleton.mp hb ▸ ⟨by decide, by decide⟩
  have hoptions : options.Ordered := ⟨by decide, by decide⟩
  have hun : (unfraglen options true).map Prod.snd = .ok (17, 48) := by decide +kernel
  refine ⟨hun, by decide, fun hr => ?_⟩
  cases hw : unfraglen options true with
  | error e =>
    rw [hw] at hun
    cases hun
  | ok r =>
    rw [hw] at hun
    obtain ⟨c, nh, u⟩ := r
    cases Except.ok.inj hun
    obtain ⟨qpos, hwalk⟩ := headers_of_unfraglen hw
    exact absurd (hr.plain hbehind hoptions (by decide) (by decide) hwalk).1 (by decide)

end NixMark.Ip6
