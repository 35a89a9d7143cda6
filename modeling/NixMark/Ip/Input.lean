import NixMark.Ip.Overlap

/-!
# Packets from the network (`ipiput4` of `ip/ip.c`)

The lengths in the header of a packet are set by its sender. `ipiput4` checks the version, the
checksum and the length of the header, but not the total length against the block.

* `input`: `ipiput4` up to `ip4reassemble`; `ipiput4`: the queues afterwards and the packet that goes
  on.
* `pointers_safe`: in every run whose packets are honest, no pointer leaves its block, and the length
  of a packet that is put together is the number of its bytes if its first fragment was not
  trimmed.
* `lying_fragments`: what fragments that lie do.
-/

namespace NixMark.Ip

open Lib Lib.Pieces Block

/-- What `ipiput4` asks for a packet. -/
structure Env where
  /-- the interface has checked the checksum: `Bipck` -/
  ipck : Bool
  /-- the packet is for this system -/
  forme : Bool
  iprouting : Bool
  /-- `reassemble` of the interface to forward to; `none` without a route to another one -/
  hop : Option Bool

/-- What `ipiput4` does with a packet. -/
inductive Input where
  | drop
  | pass (bp : Block) (next : List Block)
  | fragment (bp : Block) (next : List Block)

/-- The header is in the first block. -/
def pullhdr (bp : Block) (next : List Block) : Option (Block × List Block) :=
  if bp.BLEN < 64 then pullupblock bp next (min 64 (max IP4HDR (blocklen (bp :: next))))
  else some (bp, next)

/-- The length of the header with its options. -/
def Block.hl (b : Block) : Nat := b.vihl % 16 * 4

/-- The checks of the header. -/
def header (env : Env) (bp : Block) (next : List Block) : Option (Block × List Block) :=
  if bp.vihl / 16 * 16 ≠ IP_VER4 then none
  else (pullhdr bp next).filter fun r =>
    (env.ipck || r.1.ipcsum == 0) && (r.1.vihl % 16 == IP_HLEN4 || IP_HLEN4 * 4 ≤ r.1.hl)

/-- The options of a packet that is not routed are stripped off. -/
def options (env : Env) (b : Block) : Except Fault Block :=
  if b.vihl % 16 ≠ IP_HLEN4 ∧ env.forme then
    ((b.moveup (b.hl - IP4HDR)).setrp (b.rp + (b.hl - IP4HDR))).map fun b' =>
      (b'.setbyte 0 (IP_VER4 + IP_HLEN4)).hnputs 2 (b.length + 65536 + IP4HDR - b.hl)
  else .ok b

/-- A packet that may be a fragment; `tos` holds its flag. -/
def defrag (b : Block) (next : List Block) : Input :=
  if b.frag = 0 then .pass b next
  else .fragment (b.setbyte 1 (if b.frag &&& IP_MF ≠ 0 then 1 else 0)) next

/-- The decision to forward. -/
def route (env : Env) (b : Block) (next : List Block) : Input :=
  if env.forme then defrag b next
  else if !env.iprouting then .drop
  else
    match env.hop with
    | none => .drop
    | some reassemble =>
      if b.ttl < 1 then .drop
      else if reassemble then defrag b next
      else .pass b next

/-- `ipiput4` up to `ip4reassemble` -/
def input (env : Env) (bp : Block) (next : List Block) : Except Fault Input :=
  match header env bp next with
  | none => .ok .drop
  | some (b, next) => (options env b).map fun b => route env b next

/-- No fragment info goes up the stack. -/
def finish (env : Env) : List Block → List Block
  | [] => []
  | b :: l => if env.forme then b.hnputs 6 0 :: l else b :: l

/-- `ipiput4` -/
def ipiput4 (now : Nat) (env : Env) (ip : IP) (bp : Block) (next : List Block) :
    Except Fault (IP × Option (List Block)) :=
  match input env bp next with
  | .error e => .error e
  | .ok .drop => .ok (ip, none)
  | .ok (.pass b next) => .ok (ip, some (finish env (b :: next)))
  | .ok (.fragment b next) =>
    (ip4reassemble now ip b.frag b next).map fun r => (r.1, r.2.map (finish env))

/-- A packet that an interface hands over. -/
structure Arrival where
  now : Nat
  env : Env
  bp : Block
  next : List Block
  first : bp.Ordered
  rest : ∀ b ∈ next, b.Ordered ∧ 0 < b.BLEN

def Arrival.put (a : Arrival) (ip : IP) : Except Fault (IP × Option (List Block)) :=
  ipiput4 a.now a.env ip a.bp a.next

/-- The packet does not lie: its options end in the block and, as it is passed to
`ip4reassemble`, its length counts bytes that are there and its end is one that a datagram can
have. -/
structure Arrival.Honest (a : Arrival) : Prop where
  options : ∀ b l, header a.env a.bp a.next = some (b, l) → a.env.forme = true →
    b.hl ≤ IP4HDR + b.BLEN
  length : ∀ b l, input a.env a.bp a.next = .ok (.fragment b l) →
    IP4HDR ≤ b.length ∧ b.length ≤ blocklen (b :: l) ∧ b.offset + b.length ≤ 65535

def packets : Lts IP Arrival where
  init ip := ip.flisthead4 = []
  step ip a ip' := ∃ r, a.put ip = .ok (ip', r)

variable {env : Env} {bp b c : Block} {next l q : List Block}

/-! ## The packet that is passed on -/

theorem pullhdr_spec (hb : bp.Ordered) (hn : ∀ c ∈ next, c.Ordered ∧ 0 < c.BLEN)
    (h : pullhdr bp next = some (b, l)) :
    b.Ordered ∧ (∀ c ∈ l, c.Ordered ∧ 0 < c.BLEN) ∧ IP4HDR ≤ b.BLEN ∧ (l ≠ [] → 64 ≤ b.BLEN) := by
  unfold pullhdr at h
  split_ifs at h with hlen
  · obtain ⟨ho, hr, hbytes, hn', hpos⟩ := pullupblock_spec hb (fun c hc => (hn c hc).1) h
    have hpos := hpos fun c hc => (hn c hc).2
    refine ⟨ho, fun c hc => ⟨hr c hc, hpos c hc⟩, ?_, fun hl => ?_⟩
    · exact le_trans (by unfold IP4HDR; omega) hn'
    · -- blocks are left only behind 64 bytes
      obtain ⟨c, l, rfl⟩ := List.exists_cons_of_ne_nil hl
      have h₁ := congrArg List.length hbytes
      have h₂ := hpos c List.mem_cons_self
      rw [← blocklen_eq, ← blocklen_eq, blocklen_cons, blocklen_cons] at h₁
      omega
  · have h64 : 64 ≤ bp.BLEN := Nat.le_of_not_lt hlen
    cases h
    exact ⟨hb, hn, Nat.le_trans (by decide) h64, fun _ => h64⟩

theorem hl_le (b : Block) : b.hl ≤ 60 := by
  unfold Block.hl
  omega

/-- The options are stripped off a packet whose options end in the block. -/
theorem options_spec (hb : b.Ordered) (hl : env.forme = true → b.hl ≤ IP4HDR + b.BLEN) :
    ∃ c, options env b = .ok c ∧ c.Ordered ∧ b.BLEN ≤ c.BLEN + (b.hl - IP4HDR) ∧
      (env.forme = false → c = b) := by
  unfold options
  by_cases h : b.vihl % 16 ≠ IP_HLEN4 ∧ env.forme = true
  · have hrp : b.rp + (b.hl - IP4HDR) ≤ b.wp := by
      have h₁ := hl h.2
      have h₂ := hb.1
      unfold BLEN at h₁
      omega
    rw [if_pos h, Block.setrp, if_pos (by exact hrp)]
    refine ⟨_, rfl, ⟨hrp, hb.2⟩, ?_, fun hf => absurd h.2 (by rw [hf]; decide)⟩
    simp only [BLEN, hnputs_wp, hnputs_rp, setbyte_wp, setbyte_rp, moveup]
    omega
  · rw [if_neg h]
    exact ⟨b, rfl, hb, Nat.le_add_right _ _, fun _ => rfl⟩

theorem defrag_fragment (h : defrag b l = .fragment c next) :
    next = l ∧ c.rp = b.rp ∧ c.wp = b.wp ∧ c.lim = b.lim := by
  unfold defrag at h
  split_ifs at h
  all_goals
    cases h
    exact ⟨rfl, rfl, rfl, rfl⟩

theorem defrag_pass (h : defrag b l = .pass c next) : c = b ∧ next = l := by
  unfold defrag at h
  split_ifs at h
  cases h
  exact ⟨rfl, rfl⟩

theorem route_cases (env : Env) (b : Block) (l : List Block) :
    route env b l = .drop ∨ route env b l = .pass b l ∨ route env b l = defrag b l := by
  unfold route
  cases env.hop with
  | none =>
    simp only
    split_ifs
    · exact .inr (.inr rfl)
    · exact .inl rfl
    · exact .inl rfl
  | some reassemble =>
    simp only
    split_ifs
    · exact .inr (.inr rfl)
    · exact .inl rfl
    · exact .inl rfl
    · exact .inr (.inr rfl)
    · exact .inr (.inl rfl)

theorem route_fragment (h : route env b l = .fragment c next) :
    next = l ∧ c.rp = b.rp ∧ c.wp = b.wp ∧ c.lim = b.lim := by
  rcases route_cases env b l with he | he | he <;> rw [he] at h
  · cases h
  · cases h
  · exact defrag_fragment h

theorem route_pass (h : route env b l = .pass c next) : c = b ∧ next = l := by
  rcases route_cases env b l with he | he | he <;> rw [he] at h
  · cases h
  · cases h
    exact ⟨rfl, rfl⟩
  · exact defrag_pass h

/-- What an honest packet is passed on as: no pointer leaves the block, and a packet that is to be
forwarded keeps its header. -/
theorem Arrival.Honest.input {a : Arrival} (ha : a.Honest) :
    ∃ i, input a.env a.bp a.next = .ok i ∧
      (∀ b l, i = .pass b l → b.Ordered ∧ (∀ c ∈ l, c.Ordered) ∧
        (a.env.forme = false → IP4HDR ≤ b.BLEN)) ∧
      ∀ b l, i = .fragment b l → Arrived b l := by
  cases hh : header a.env a.bp a.next with
  | none => exact ⟨.drop, by rw [Ip.input, hh], nofun, nofun⟩
  | some r =>
    obtain ⟨b, l⟩ := r
    have hpull : pullhdr a.bp a.next = some (b, l) := by
      unfold header at hh
      split_ifs at hh
      exact (Option.filter_eq_some_iff.mp hh).1
    obtain ⟨hb, hl, hmin, h64⟩ := pullhdr_spec a.first a.rest hpull
    obtain ⟨c, hc, hco, hclen, hkeep⟩ := options_spec hb fun hf => ha.options b l hh hf
    have hin : Ip.input a.env a.bp a.next = .ok (route a.env c l) := by
      rw [Ip.input, hh]
      simp only [hc, Except.map]
    refine ⟨_, hin, fun d l' he => ?_, fun d l' he => ?_⟩
    · obtain ⟨rfl, rfl⟩ := route_pass he
      exact ⟨hco, fun e he => (hl e he).1, fun hf => by rw [hkeep hf]; exact hmin⟩
    · obtain ⟨rfl, hrp, hwp, hlim⟩ := route_fragment he
      have hlen := ha.length d l' (hin.trans (congrArg _ he))
      have hBLEN : d.BLEN = c.BLEN := by rw [BLEN, BLEN, hrp, hwp]
      refine ⟨⟨by rw [hrp, hwp]; exact hco.1, by rw [hwp, hlim]; exact hco.2⟩, hl, ?_⟩
      by_cases hnil : l' = []
      · subst hnil
        rw [blocklen_cons] at hlen
        exact hlen.1.trans hlen.2.1
      · have h₁ := h64 hnil
        have h₂ := hl_le b
        rw [hBLEN]
        unfold IP4HDR at *
        omega

/-! ## The queues -/

theorem fits_trims : Trims Fits where
  fits h := h
  cutat hb _ _ _ _ := hb.cutat _
  fronted hb _ _ hlt hend := hb.fronted hlt hend.le

theorem pktlen_finish (env : Env) (pkt : List Block) : pktlen (finish env pkt) = pktlen pkt := by
  cases pkt with
  | nil => rfl
  | cons b l =>
    unfold finish
    split_ifs
    · exact nhgets_hnputs_ne (.inl (by decide))
    · rfl

theorem blocklen_finish (env : Env) (pkt : List Block) :
    blocklen (finish env pkt) = blocklen pkt := by
  cases pkt with
  | nil => rfl
  | cons b l =>
    unfold finish
    split_ifs
    · rw [blocklen_cons, blocklen_cons]
      rfl
    · rfl

theorem finish_ordered {pkt : List Block} (h : ∀ b ∈ pkt, b.Ordered) :
    ∀ b ∈ finish env pkt, b.Ordered := by
  cases pkt with
  | nil => exact h
  | cons b l =>
    unfold finish
    split_ifs
    · rintro c (_ | ⟨_, hc⟩)
      · exact h b List.mem_cons_self
      · exact h c (List.mem_cons_of_mem b hc)
    · exact h

/-- The length of a packet whose first fragment was not trimmed. -/
theorem glue_length {h : Block} {pkt : List Block} (hq : Queued Fits (h :: l)) (h0 : h.foff = 0)
    (hg : glue (h :: l) = .ok pkt) (hw : h.length = IP4HDR + h.flen) :
    pktlen pkt = blocklen pkt := by
  have hsum := hq.apart.sum_le (fun b _ => foff_le_fend b) (fun b _ => Nat.zero_le _)
    (t := 65535 - IP4HDR) (fun b hb => by have := (hq.all b hb).top; omega) (Nat.zero_le _)
  have hlen : (l.map Block.stripped).map BLEN = l.map (·.flen) := by
    rw [List.map_map]
    exact List.map_congr_left fun b _ => Nat.add_sub_cancel_left _ _
  have hflen : ∀ b : Block, b.fend - b.foff = b.flen := fun b => Nat.add_sub_cancel_left _ _
  rw [glue_eq (hq.all h List.mem_cons_self) h0 fun c hc => hq.tail.all c hc] at hg
  cases hg
  simp only [hflen, List.map_cons, List.sum_cons] at hsum
  rw [blocklen_cons, blocklen, hlen]
  change (({ h with wp := h.rp + h.length } : Block).hnputs 2 _).nhgets 2 = _
  rw [nhgets_hnputs]
  simp only [BLEN, hnputs_wp, hnputs_rp]
  unfold IP4HDR at *
  omega

/-- An honest packet keeps the queues, and what is returned for it is in order. -/
theorem Arrival.Honest.step {a : Arrival} (ha : a.Honest) {ip : IP}
    (hi : ∀ f ∈ ip.flisthead4, Queued Fits f.blist) :
    ∃ ip' r, a.put ip = .ok (ip', r) ∧
      (∀ f ∈ ip'.flisthead4, Queued Fits f.blist) ∧
      ∀ pkt, r = some pkt → (∀ b ∈ pkt, b.Ordered) ∧
        (a.env.forme = false → ∀ b l, pkt = b :: l → IP4HDR ≤ b.BLEN) ∧
        ∀ b l, Ip.input a.env a.bp a.next = .ok (.fragment b l) → ¬ accepted b.frag b →
          HeadWhole ip b → pktlen pkt = blocklen pkt := by
  obtain ⟨i, hin, hpass, hfrag⟩ := ha.input
  unfold Arrival.put ipiput4
  rw [hin]
  cases i with
  | drop => exact ⟨ip, none, rfl, hi, nofun⟩
  | pass b l =>
    refine ⟨ip, _, rfl, hi, ?_⟩
    rintro pkt ⟨⟩
    obtain ⟨hb, hl, hmin⟩ := hpass b l rfl
    refine ⟨finish_ordered ?_, fun hf d l' he => ?_, nofun⟩
    · rintro c (_ | ⟨_, hc⟩)
      · exact hb
      · exact hl c hc
    · rw [finish, if_neg (by rw [hf]; decide)] at he
      cases he
      exact hmin hf
  | fragment b l =>
    have harr := hfrag b l rfl
    obtain ⟨hmin, hmax, hend⟩ := ha.length b l hin
    obtain ⟨c, hg, ho, hbytes, hlen⟩ := harr.gather
    obtain ⟨hfits, hflen, hclen, -⟩ := harr.tag hbytes ho hlen hmin hmax hend
    obtain ⟨ip', r, hr, hout⟩ := reassemble_spec fits_trims a.now hg (fun f hf _ => hi f hf)
      fun _ => hfits
    have hall := hout.all (K := fun _ => True) (fun _ => hfits) fun f hf _ => hi f hf
    simp only [hr, Except.map]
    refine ⟨ip', _, rfl, fun f hf => hall f hf trivial, ?_⟩
    rintro pkt' hpkt
    obtain ⟨pkt, rfl, rfl⟩ := Option.map_eq_some_iff.mp hpkt
    rw [pktlen_finish, blocklen_finish]
    obtain ⟨-, -, -, -, htos⟩ := header_congr hbytes hlen harr.header
    cases hout with
    | accept hacc _ =>
      refine ⟨finish_ordered fun d hd => List.mem_singleton.mp hd ▸ ho, fun hf d l' he => ?_,
        fun b' l' he hna => ?_⟩
      · rw [finish, if_neg (by rw [hf]; decide)] at he
        cases he
        exact hlen
      · cases he
        exact absurd (by rwa [accepted, htos] at hacc) hna
    | glued _ hq hins hc hg _ =>
      obtain ⟨h, t, rfl, h0⟩ := complete_head hc
      have hfit : ∀ d ∈ t, d.Fits := fun d hd => hins.queued.tail.all d hd
      have hh := hins.queued.all h List.mem_cons_self
      refine ⟨finish_ordered ?_, fun hf d l' he => ?_, fun b' l' he _ hw => ?_⟩
      · rw [glue_eq hh h0 hfit] at hg
        cases hg
        rintro d (_ | ⟨_, hd⟩)
        · exact ⟨Nat.le_add_right _ _, (hh.head h0).2.trans hh.lim⟩
        · obtain ⟨e, he, rfl⟩ := List.mem_map.mp hd
          exact (hfit e he).stripped_ordered
      · rw [glue_eq hh h0 hfit] at hg
        cases hg
        rw [finish, if_neg (by rw [hf]; decide)] at he
        cases he
        have hl := (hh.head h0).1
        simp only [BLEN, hnputs_wp, hnputs_rp]
        omega
      · cases he
        refine glue_length hins.queued h0 hg ?_
        exact (headWhole_iff (fun d hd => (hi _ (queue_mem hq).1).all d hd) hq hins h0
          (by rw [hclen, hflen]; omega)).mpr hw

theorem queues_fit {ip : IP} (h : (packets.restrict fun _ a => a.Honest).Reach ip) :
    ∀ f ∈ ip.flisthead4, Queued Fits f.blist := by
  have hinv : (packets.restrict fun _ a => a.Honest).Inductive
      fun ip => ∀ f ∈ ip.flisthead4, Queued Fits f.blist := by
    refine ⟨fun ip h0 => ?_, fun ip a ip' hi hs => ?_⟩
    · rw [show ip.flisthead4 = [] from h0]
      exact nofun
    · obtain ⟨⟨r, hr⟩, ha⟩ := hs
      obtain ⟨ip₁, r₁, hr₁, hall, -⟩ := ha.step hi
      cases hr₁.symm.trans hr
      exact hall
  exact hinv.reach h

/-- In every run whose packets are honest: the pointers of every block that is queued are in order,
the next honest packet sets none beyond its bound, and the length of a packet that is put together
from a queue whose first fragment was not trimmed is the number of its bytes. -/
theorem pointers_safe {ip : IP} (h : (packets.restrict fun _ a => a.Honest).Reach ip) :
    (∀ f ∈ ip.flisthead4, ∀ b ∈ f.blist, b.Ordered) ∧ ∀ a : Arrival, a.Honest →
      ∃ ip' r, a.put ip = .ok (ip', r) ∧
        ∀ pkt, r = some pkt → (∀ b ∈ pkt, b.Ordered) ∧
          ∀ b l, input a.env a.bp a.next = .ok (.fragment b l) → ¬ accepted b.frag b →
            HeadWhole ip b → pktlen pkt = blocklen pkt := by
  have hi := queues_fit h
  refine ⟨fun f hf b hb => ((hi f hf).all b hb).ordered, fun a ha => ?_⟩
  obtain ⟨ip', r, hr, -, hpkt⟩ := ha.step hi
  refine ⟨ip', r, hr, fun pkt he => ?_⟩
  obtain ⟨ho, -, hlen⟩ := hpkt pkt he
  exact ⟨ho, hlen⟩

/-! ## Fragments that lie -/

/-- A packet of `len` bytes that are zero behind these fields of the header. -/
private def raw (vihl length frag cksum len : Nat) : Block where
  mem a := ([.ofNat vihl, 0, .ofNat (length / 256), .ofNat length, 0, 0, .ofNat (frag / 256),
    .ofNat frag, 0, 0, .ofNat (cksum / 256), .ofNat cksum] : List UInt8)[a - 64]?.getD 0
  rp := 64
  wp := 64 + len
  lim := 128 + len
  foff := 0
  flen := 0

/-- What the second of two packets comes to: its fault, or the length of the packet that is returned
for it and the number of its bytes. -/
private def second (a a' : Arrival) : Option (Except Fault (Option (Nat × Nat))) :=
  match a.put ⟨[]⟩ with
  | .error _ => none
  | .ok (ip, _) => some ((a'.put ip).map fun r => r.2.map fun pkt => (pktlen pkt, blocklen pkt))

private theorem second_fault {a a' : Arrival} {e : Fault} (h : second a a' = some (.error e)) :
    ∃ ip, packets.Reach ip ∧ a'.put ip = .error e := by
  unfold second at h
  split at h
  · cases h
  · rename_i ip r hr
    have hinit : packets.Reach ⟨[]⟩ := ⟨[], .init (show (IP.mk []).flisthead4 = [] from rfl)⟩
    refine ⟨ip, hinit.step (e := a) ⟨r, hr⟩, ?_⟩
    cases hp : a'.put ip with
    | error e' =>
      rw [hp] at h
      cases h
      rfl
    | ok r =>
      rw [hp] at h
      cases h

theorem second_packet {a a' : Arrival} {n m : Nat}
    (h : second a a' = some (.ok (some (n, m)))) : ∃ ip ip' pkt, packets.Reach ip ∧
      a'.put ip = .ok (ip', some pkt) ∧ pktlen pkt = n ∧ blocklen pkt = m := by
  unfold second at h
  split at h
  · cases h
  · rename_i ip r hr
    have hinit : packets.Reach ⟨[]⟩ := ⟨[], .init (show (IP.mk []).flisthead4 = [] from rfl)⟩
    cases hp : a'.put ip with
    | error e' =>
      rw [hp] at h
      cases h
    | ok r' =>
      obtain ⟨ip', r'⟩ := r'
      simp only [hp, Except.map, Option.some.injEq, Except.ok.injEq] at h
      obtain ⟨pkt, rfl, hpkt⟩ := Option.map_eq_some_iff.mp h
      cases hpkt
      exact ⟨ip, ip', pkt, hinit.step (e := a) ⟨r, hr⟩, hp, rfl, rfl⟩

private def comes (b : Block) (h : b.Ordered) : Arrival :=
  ⟨0, ⟨false, true, false, none⟩, b, [], h, nofun⟩

private theorem raw_ordered (vihl length frag cksum len : Nat) :
    (raw vihl length frag cksum len).Ordered :=
  ⟨Nat.le_add_right _ _, Nat.add_le_add_right (by decide) _⟩

/-- The second packets of three: one whose options end behind its block, the last fragment of a
datagram whose first one says that it has 1984 bytes of data and has 8, and one that ends at
65536. -/
theorem too_long :
    second (comes (raw 0x65 20 0 0 20) (raw_ordered ..))
      (comes (raw 0x4f 20 0 0xb0eb 20) (raw_ordered ..)) = some (.error .rp) ∧
    second (comes (raw 0x45 2004 0x2000 0x932b 28) (raw_ordered ..))
      (comes (raw 0x45 28 0x00f8 0xb9eb 28) (raw_ordered ..)) = some (.error .wp) ∧
    second (comes (raw 0x45 65524 0x2000 39690 65524) (raw_ordered ..))
      (comes (raw 0x45 52 0x1ffc 39631 52) (raw_ordered ..)) =
      some (.ok (some (20, 65556))) := by
  decide +kernel

/-- Fragments that lie lead both pointers out of their blocks, and make a packet that is longer than
its header says. -/
theorem lying_fragments :
    (∃ (ip : IP) (a : Arrival), packets.Reach ip ∧ a.put ip = .error .rp) ∧
    (∃ (ip : IP) (a : Arrival), packets.Reach ip ∧ a.put ip = .error .wp) ∧
    ∃ (ip ip' : IP) (pkt : List Block) (a : Arrival), packets.Reach ip ∧ a.put ip = .ok (ip', some pkt) ∧
      pktlen pkt ≠ blocklen pkt := by
  obtain ⟨hoptions, hfragment, hpacket⟩ := too_long
  refine ⟨?_, ?_, ?_⟩
  · obtain ⟨ip, hr, he⟩ := second_fault hoptions
    exact ⟨ip, _, hr, he⟩
  · obtain ⟨ip, hr, he⟩ := second_fault hfragment
    exact ⟨ip, _, hr, he⟩
  · obtain ⟨ip, ip', pkt, hr, he, hn, hm⟩ := second_packet hpacket
    exact ⟨ip, ip', pkt, _, hr, he, by rw [hn, hm]; decide⟩

/-- A packet in one block without options is passed on as it is. -/
theorem honest_plain {b : Block} (hb : b.Ordered) (hv : b.vihl = 0x45)
    (hmin : IP4HDR ≤ b.length) (hmax : b.length ≤ b.BLEN) (hend : b.offset + b.length ≤ 65535) :
    (comes b hb).Honest := by
  have hheader : ∀ c l, header (comes b hb).env b [] = some (c, l) → c = b ∧ l = [] := by
    intro c l h
    unfold header at h
    split_ifs at h
    have hpull := (Option.filter_eq_some_iff.mp h).1
    unfold pullhdr at hpull
    split_ifs at hpull with h64
    · rw [pullupblock, if_pos (by rw [blocklen_cons, show blocklen [] = 0 from rfl]; omega)] at hpull
      cases hpull
      exact ⟨rfl, rfl⟩
    · cases hpull
      exact ⟨rfl, rfl⟩
  refine ⟨fun c l h _ => ?_, fun c l h => ?_⟩
  · obtain ⟨rfl, rfl⟩ := hheader c l h
    rw [Block.hl, hv]
    exact Nat.le_add_right _ _
  · rw [input] at h
    cases hh : header (comes b hb).env (comes b hb).bp (comes b hb).next with
    | none =>
      rw [hh] at h
      cases h
    | some r =>
      obtain ⟨c', l'⟩ := r
      obtain ⟨rfl, rfl⟩ := hheader c' l' hh
      have hopt : options (comes c' hb).env c' = .ok c' := if_neg fun h5 => h5.1 (by rw [hv]; rfl)
      have hroute : route (comes c' hb).env c' [] = .fragment c l := by
        simpa only [hh, hopt, Except.map, Except.ok.injEq] using h
      have hfrag : defrag c' [] = .fragment c l := hroute
      unfold defrag at hfrag
      split_ifs at hfrag
      all_goals
        cases hfrag
        rw [blocklen_cons, show blocklen [] = 0 from rfl, Nat.add_zero]
        have hl : ∀ v, (c'.setbyte 1 v).length = c'.length := fun v =>
          nhgets_setbyte_ne (.inr (by decide))
        have ho : ∀ v, (c'.setbyte 1 v).offset = c'.offset := fun v => by
          rw [Block.offset, Block.frag, nhgets_setbyte_ne (.inr (by decide))]
          rfl
        rw [hl, ho]
        exact ⟨hmin, hmax, hend⟩

/-- Two fragments with 8 and 16 bytes of data. -/
private def short : Arrival := comes (raw 0x45 28 0x2000 0x9ae3 28) (raw_ordered ..)
private def rest : Arrival := comes (raw 0x45 36 1 0xbada 36) (raw_ordered ..)

theorem pointers_safe_two : ∃ (ip ip' : IP) (pkt : List Block),
    rest.put ip = .ok (ip', some pkt) ∧ pktlen pkt = 44 ∧ ∀ b ∈ pkt, b.Ordered := by
  have h₁ : short.Honest := honest_plain _ (by decide) (by decide) (by decide) (by decide)
  have h₂ : rest.Honest := honest_plain _ (by decide) (by decide) (by decide) (by decide)
  have hlen : second short rest = some (.ok (some (44, 44))) := by decide +kernel
  have hinit : (packets.restrict fun _ a => a.Honest).Reach ⟨[]⟩ :=
    ⟨[], .init (show (IP.mk []).flisthead4 = [] from rfl)⟩
  obtain ⟨ip, r, hr, -⟩ := (pointers_safe hinit).2 short h₁
  obtain ⟨ip', r', hr', hpkt⟩ := (pointers_safe (hinit.step (e := short) ⟨⟨r, hr⟩, h₁⟩)).2 rest h₂
  simp only [second, show short.put ⟨[]⟩ = .ok (ip, r) from hr,
    show rest.put ip = .ok (ip', r') from hr', Except.map, Option.some.injEq, Except.ok.injEq]
    at hlen
  obtain ⟨pkt, rfl, hn⟩ := Option.map_eq_some_iff.mp hlen
  exact ⟨ip, ip', pkt, hr', congrArg Prod.fst hn, (hpkt pkt rfl).1⟩

end NixMark.Ip
