import NixMark.Ip6.Overlap

/-!
# IPv6 packets from the network (`ipiput6` of `ip/ipv6.c`)

The lengths of the headers and of a packet are set by its sender. `ipiput6` brings the first 64 bytes
into the first block and checks the version.

* `accept`: `ipiput6` up to `procxtns`; `ipiput6`: the queues afterwards and the packet that goes on.
* `walk_stops`: the walk over the headers comes to an end.
* `headers_safe`: in every run whose packets are honest, no header byte is read behind the data and no
  pointer leaves its block.
* `lying_headers`: what packets that lie do.
-/

namespace NixMark.Ip6

open Ip Lib Lib.Pieces Block

/-- What `ipiput6` asks for a packet. -/
structure Env where
  /-- the packet is for this system -/
  forme : Bool
  /-- its destination is a tentative address -/
  tentative : Bool
  iprouting : Bool
  /-- `reassemble` of the interface to forward to; `none` without a route to another one -/
  hop : Option Bool

/-- The first 64 bytes are in the first block, or all that there are. -/
def pullhdr (bp : Block) (next : List Block) : Option (Block × List Block) :=
  if bp.BLEN < 64 then pullupblock bp next (min 64 (max IP6HDR (blocklen (bp :: next))))
  else some (bp, next)

/-- `islinklocal(h->dst)` -/
def islinklocal (b : Block) : Bool := b.byte 24 == 0xfe && b.byte 25 &&& 0xc0 == 0x80

/-- `isv6mcast(h->dst) && (h->dst[1]&0xF) <= Link_local_scop` -/
def islocalmcast (b : Block) : Bool := b.byte 24 == 0xff && b.byte 25 % 16 ≤ 2

/-- The checks before `procxtns`: the packet, and whether fragments are put together. -/
def checks (env : Env) (b : Block) : Option Bool :=
  if env.tentative ∧ proto b ≠ ICMPv6 then none
  else if b.byte 0 / 16 * 16 ≠ IP_VER6 then none
  else if env.forme then some true
  else if !env.iprouting then none
  else if islinklocal b || islocalmcast b then none
  else
    match env.hop with
    | none => none
    | some reassemble => if hoplimit b < 1 then none else some reassemble

/-- `ipiput6` up to `procxtns` -/
def accept (env : Env) (bp : Block) (next : List Block) : Option (Block × List Block × Bool) :=
  (pullhdr bp next).bind fun r => (checks env r.1).map fun doreasm => (r.1, r.2, doreasm)

/-- The second walk of `procxtns`. -/
def rewalk : List Block → Except Fault (List Block)
  | [] => .ok []
  | b :: l => (unfraglen b false).map fun r => r.1 :: l

/-- `procxtns`; `procopts` returns its packet as it is. -/
def procxtns (now : Nat) (doreasm : Bool) (ip : IP) (bp : Block) (next : List Block) :
    Except Fault (IP × Option (List Block)) :=
  (unfraglen bp false).bind fun r =>
    if r.2.1 = FH ∧ doreasm then
      (ip6reassemble now ip r.2.2 r.1 next).bind fun s =>
        match s.2 with
        | none => .ok (s.1, none)
        | some pkt => (rewalk pkt).map fun pkt => (s.1, some pkt)
    else .ok (ip, some (r.1 :: next))

/-- `ipiput6` -/
def ipiput6 (now : Nat) (env : Env) (ip : IP) (bp : Block) (next : List Block) :
    Except Fault (IP × Option (List Block)) :=
  match accept env bp next with
  | none => .ok (ip, none)
  | some (b, next, doreasm) => procxtns now doreasm ip b next

/-- A packet that an interface hands over. -/
structure Arrival where
  now : Nat
  env : Env
  bp : Block
  next : List Block
  first : bp.Ordered
  rest : ∀ b ∈ next, b.Ordered ∧ 0 < b.BLEN

def Arrival.put (a : Arrival) (ip : IP) : Except Fault (IP × Option (List Block)) :=
  ipiput6 a.now a.env ip a.bp a.next

/-- The bytes of a packet without its fragment header. -/
def unfragged (u : Nat) (bs : List UInt8) (o : Nat) : Nat :=
  (bs[if o < u then o else IP6FHDR + o]?.getD 0).toNat

/-- A fragment does not lie: its fragment header is in the first block, the headers before it are as
long as those of the other fragments of the packet, its length counts bytes that are there and its
end is one that a packet can have. The headers that are walked over when the fragment header is gone,
or stays in an atomic fragment, end inside it. -/
structure FragmentHonest (U : Key → Nat) (u : Nat) (b : Block) (next : List Block) : Prop where
  header : u + IP6FHDR ≤ b.BLEN
  uflen : u = U (fragkey u b)
  min : u + IP6FHDR ≤ IP6HDR + ploadlen b
  max : IP6HDR + ploadlen b ≤ blocklen (b :: next)
  fend : offset u b + (IP6HDR + ploadlen b - (u + IP6FHDR)) ≤ 65535
  again : offsetRM u b ≠ 0 → offset u b = 0 → ∃ r,
    headers (unfragged u (bytes (b :: next))) (IP6HDR + ploadlen b - IP6FHDR) = .ok r
  atomic : offsetRM u b = 0 → ∃ r,
    headers (fun o => ((bytes (b :: next))[o]?.getD 0).toNat) (blocklen (b :: next)) = .ok r

/-- A packet does not lie: its headers end inside the first block, and a fragment that is passed to
`ip6reassemble` does not lie. -/
structure Arrival.Honest (U : Key → Nat) (a : Arrival) : Prop where
  headers : ∀ b l doreasm, accept a.env a.bp a.next = some (b, l, doreasm) →
    ∃ r, unfraglen b false = .ok r
  fragment : ∀ b l c u, accept a.env a.bp a.next = some (b, l, true) →
    unfraglen b false = .ok (c, FH, u) → FragmentHonest U u c l

def packets : Lts IP Arrival where
  init ip := ip.flisthead6 = []
  step ip a ip' := ∃ r, a.put ip = .ok (ip', r)

variable {U : Key → Nat} {u : Nat} {env : Env} {bp b c : Block} {next l q pkt : List Block} {ip : IP}

/-! ## The walk over the headers -/

variable {fuel nh ufl : Nat}

/-- More rounds change nothing: the loop has come to an end. -/
theorem walk_stops (get : Nat → Nat) (len : Nat) {q : Nat} (h : len ≤ ufl + fuel) :
    walk get len (fuel + 2) nh q ufl = walk get len (fuel + 1) nh q ufl := by
  induction fuel generalizing nh q ufl with
  | zero =>
    conv_lhs => rw [walk]
    conv_rhs => rw [walk]
    split_ifs
    · omega
    · rfl
    · rfl
    · rfl
  | succ fuel ih =>
    conv_lhs => rw [walk]
    conv_rhs => rw [walk]
    split_ifs
    · exact ih (by omega)
    · rfl
    · rfl
    · rfl

theorem headers_stops (get : Nat → Nat) (len k : Nat) :
    walk get len (len + 1 + k) (get 6) 6 IP6HDR = headers get len := by
  induction k with
  | zero => rfl
  | succ k ih =>
    rw [← ih, show len + 1 + (k + 1) = len + k + 2 by omega, show len + 1 + k = len + k + 1 by omega]
    exact walk_stops get len (by omega)

variable {get : Nat → Nat} {len : Nat}

/-- The walk reads the type of the first header and what stands behind the IPv6 header. -/
theorem walk_congr {get' : Nat → Nat} {q : Nat} (hufl : IP6HDR ≤ ufl)
    (h : ∀ o < len, IP6HDR ≤ o → get o = get' o) :
    walk get len fuel nh q ufl = walk get' len fuel nh q ufl := by
  induction fuel generalizing nh q ufl with
  | zero => rfl
  | succ fuel ih =>
    rw [walk, walk]
    split_ifs with h₁ h₂
    · rw [h ufl (by omega) hufl, h (ufl + 1) h₂ (by omega)]
      exact ih (by omega)
    · rfl
    · rfl
    · rfl

theorem headers_congr {get' : Nat → Nat} (h6 : get 6 = get' 6)
    (h : ∀ o < len, IP6HDR ≤ o → get o = get' o) : headers get len = headers get' len := by
  rw [headers, headers, h6]
  exact walk_congr (Nat.le_refl _) h

/-- Where the walk of a packet ends, and where the type of what follows is. -/
theorem walk_spec {q nh' q' ufl' : Nat} (h : walk get len fuel nh q ufl = .ok (nh', q', ufl'))
    (hufl : IP6HDR ≤ ufl) (hq : q < ufl) : IP6HDR ≤ ufl' ∧ q' < ufl' ∧ (nh' = FH → ufl' < len) := by
  induction fuel generalizing nh q ufl with
  | zero => cases h
  | succ fuel ih =>
    rw [walk] at h
    split_ifs at h with h₁ h₂ h₃
    · exact ih h (by omega) (by omega)
    · cases h
      exact ⟨hufl, hq, fun hfh => Nat.lt_of_not_le fun hle => h₃ ⟨hfh, hle⟩⟩

@[simp] theorem setnexthdr_rp (b : Block) (s : Bool) (n q u : Nat) :
    (setnexthdr b s n q u).rp = b.rp := by
  unfold setnexthdr
  split_ifs <;> rfl

@[simp] theorem setnexthdr_wp (b : Block) (s : Bool) (n q u : Nat) :
    (setnexthdr b s n q u).wp = b.wp := by
  unfold setnexthdr
  split_ifs <;> rfl

@[simp] theorem setnexthdr_lim (b : Block) (s : Bool) (n q u : Nat) :
    (setnexthdr b s n q u).lim = b.lim := by
  unfold setnexthdr
  split_ifs <;> rfl

/-- The walk writes into the block and leaves its pointers. -/
theorem unfraglen_spec {s : Bool} {u : Nat} (h : unfraglen b s = .ok (c, nh, u)) :
    c.rp = b.rp ∧ c.wp = b.wp ∧ c.lim = b.lim ∧ IP6HDR ≤ u := by
  unfold unfraglen at h
  cases hw : headers b.byte b.BLEN with
  | error e =>
    rw [hw] at h
    cases h
  | ok r =>
    obtain ⟨nh', q, u'⟩ := r
    rw [hw] at h
    cases h
    exact ⟨setnexthdr_rp .., setnexthdr_wp .., setnexthdr_lim ..,
      (walk_spec hw (Nat.le_refl _) (by decide)).1⟩

theorem unfraglen_ordered {s : Bool} {u : Nat} (h : unfraglen b s = .ok (c, nh, u)) (hb : b.Ordered) :
    c.Ordered := by
  obtain ⟨h₁, h₂, h₃, -⟩ := unfraglen_spec h
  exact ⟨by rw [h₁, h₂]; exact hb.1, by rw [h₂, h₃]; exact hb.2⟩

/-! ## The first block -/

theorem pullhdr_spec (hb : bp.Ordered) (hn : ∀ c ∈ next, c.Ordered ∧ 0 < c.BLEN)
    (h : pullhdr bp next = some (b, l)) :
    b.Ordered ∧ (∀ c ∈ l, c.Ordered ∧ 0 < c.BLEN) ∧ IP6HDR ≤ b.BLEN := by
  unfold pullhdr at h
  split_ifs at h with hlen
  · obtain ⟨ho, hr, -, hn', hpos⟩ := pullupblock_spec hb (fun c hc => (hn c hc).1) h
    have hpos := hpos fun c hc => (hn c hc).2
    refine ⟨ho, fun c hc => ⟨hr c hc, hpos c hc⟩, le_trans ?_ hn'⟩
    unfold IP6HDR
    omega
  · cases h
    exact ⟨hb, hn, (by decide : IP6HDR ≤ 64).trans (Nat.le_of_not_lt hlen)⟩

theorem accept_spec {doreasm : Bool} (hb : bp.Ordered) (hn : ∀ c ∈ next, c.Ordered ∧ 0 < c.BLEN)
    (h : accept env bp next = some (b, l, doreasm)) :
    b.Ordered ∧ (∀ c ∈ l, c.Ordered ∧ 0 < c.BLEN) ∧ IP6HDR ≤ b.BLEN := by
  obtain ⟨⟨b', l'⟩, hp, h⟩ := Option.bind_eq_some_iff.mp h
  obtain ⟨d, -, h⟩ := Option.map_eq_some_iff.mp h
  cases h
  exact pullhdr_spec hb hn hp

/-! ## The queues -/

/-- A fragment of a queue: it fits, and the headers of the packet that it begins end inside it. -/
structure Sound (u : Nat) (b : Block) : Prop where
  fits : Fits u b
  again : b.foff = 0 → ∃ r, headers (headed u b).byte (headed u b).BLEN = .ok r

/-- The queues hold fragments that do not lie. -/
def Intact (U : Key → Nat) (ip : IP) : Prop :=
  ∀ f ∈ ip.flisthead6, Laid (cuts (U f.key)) (Sound (U f.key)) f.blist

theorem sound_keeps (hq : Laid (cuts u) (Sound u) q) (bp : Block) : Keeps u (Sound u) q bp where
  cutat b hb _ _ _ := ⟨(hq.all b hb).fits.cutat _, (hq.all b hb).again⟩
  fronted b hb hle hlt hend := by
    refine ⟨(hq.all b hb).fits.fronted hlt hend.le, fun h0 => ?_⟩
    have h0' : bp.fend = 0 := h0
    omega

/-- The bytes of a first fragment without its fragment header. -/
theorem headed_byte (b : Block) (o : Nat) :
    (headed u b).byte o = b.byte (if o < u then o else IP6FHDR + o) := by
  split_ifs with h
  · exact byte_advance b IP6FHDR h
  · exact byte_advance_behind b IP6FHDR (Nat.le_of_not_lt h)

/-- The queue holds a fragment that does not lie. -/
theorem FragmentHonest.sound (hu : IP6HDR ≤ u) (ha : Arrived u bp next)
    (hh : FragmentHonest U u bp next) (hbytes : bytes [b] = bytes (bp :: next)) (ho : b.Ordered)
    (hb : u + IP6FHDR ≤ b.BLEN) (hne : offsetRM u bp ≠ 0) :
    Sound u (tag u (offset u bp) b) := by
  obtain ⟨hfits, -, hpl, -, -, -⟩ := ha.tag hu hbytes ho hb hh.min hh.max hh.fend
  refine ⟨hfits, fun h0 => ?_⟩
  obtain ⟨r, hr⟩ := hh.again hne h0
  have hdata : (tag u (offset u bp) b).data = b.data := (reserve_spec ho).2
  have hbytes' : bytes [tag u (offset u bp) b] = bytes (bp :: next) := by
    rw [← hbytes, bytes_cons, bytes_cons, hdata]
  have hblen : (tag u (offset u bp) b).BLEN = blocklen (bp :: next) := by
    rw [blocklen_eq, ← hbytes', bytes_cons, bytes_nil, List.append_nil, data_length]
  have hmin := hh.min
  have hmax := hh.max
  refine ⟨r, ?_⟩
  rw [headed_BLEN, hpl, ← hr]
  have hget : ∀ o, o < IP6HDR + ploadlen bp - IP6FHDR →
      (headed u (tag u (offset u bp) b)).byte o = unfragged u (bytes (bp :: next)) o := by
    intro o ho'
    rw [headed_byte, unfragged, ← hbytes', byte_eq (l := [])]
    split_ifs with h <;> omega
  exact headers_congr (hget 6 (by unfold IP6HDR at *; omega)) fun o ho' _ => hget o ho'

/-- The blocks of a packet that is put together, and the walk over its headers. -/
theorem glue_safe (hu : IP6HDR ≤ u) (hq : Laid (cuts u) (Sound u) q) (hc : complete u 0 q = .ok true)
    (hg : glue u q = .ok pkt) : ∃ pkt', rewalk pkt = .ok pkt' ∧ ∀ b ∈ pkt', b.Ordered := by
  obtain ⟨h, l, rfl, h0⟩ := complete_head hc
  have hh := hq.all h List.mem_cons_self
  have hl : ∀ b ∈ l, Fits u b := fun b hb => (hq.tail.all b hb).fits
  rw [glue_eq hu hh.fits h0 hl] at hg
  cases hg
  obtain ⟨r, hr⟩ := hh.again h0
  generalize ploadlen h + (65536 - IP6FHDR) + (l.map (·.flen)).sum = v
  have hwalk : headers ((headed u h).hnputs 4 v).byte ((headed u h).hnputs 4 v).BLEN = .ok r := by
    rw [← hr]
    refine headers_congr (byte_hnputs_ne (by decide) (by decide)) fun o _ ho => ?_
    have h40 : 40 ≤ o := ho
    exact byte_hnputs_ne (by omega) (by omega)
  have hun : unfraglen ((headed u h).hnputs 4 v) false =
      .ok (setnexthdr ((headed u h).hnputs 4 v) false r.1 r.2.1 r.2.2, r.1, r.2.2) := by
    rw [unfraglen, hwalk]
    rfl
  refine ⟨_, congrArg (Except.map _) hun, ?_⟩
  have hord : ((headed u h).hnputs 4 v).Ordered := hh.fits.headed_ordered h0
  rintro b (_ | ⟨_, hb⟩)
  · exact unfraglen_ordered hun hord
  · obtain ⟨e, he, rfl⟩ := List.mem_map.mp hb
    exact (hl e he).stripped_ordered

/-- An atomic fragment is walked over once more. -/
theorem FragmentHonest.rewalk (hh : FragmentHonest U u bp next) (h0 : offsetRM u bp = 0)
    (hu : IP6HDR ≤ u) (hbytes : bytes [b] = bytes (bp :: next)) (ho : b.Ordered)
    (hb : u + IP6FHDR ≤ b.BLEN) : ∃ pkt', rewalk [b] = .ok pkt' ∧ ∀ c ∈ pkt', c.Ordered := by
  obtain ⟨r, hr⟩ := hh.atomic h0
  have hblen : b.BLEN = blocklen (bp :: next) := by
    rw [blocklen_eq, ← hbytes, bytes_cons, bytes_nil, List.append_nil, data_length]
  have hwalk : headers b.byte b.BLEN = .ok r := by
    rw [← hr, hblen]
    have hget : ∀ o, o < b.BLEN → b.byte o = ((bytes (bp :: next))[o]?.getD 0).toNat := by
      intro o ho'
      rw [← hbytes, byte_eq (l := []) ho']
    refine headers_congr (hget 6 ?_) fun o ho' _ => hget o (hblen ▸ ho')
    unfold IP6HDR IP6FHDR at *
    omega
  have hun : unfraglen b false = .ok (setnexthdr b false r.1 r.2.1 r.2.2, r.1, r.2.2) := by
    rw [unfraglen, hwalk]
    rfl
  refine ⟨_, congrArg (Except.map _) hun, fun c hc => ?_⟩
  rw [List.mem_singleton.mp hc]
  exact unfraglen_ordered hun ho

/-- A fragment that does not lie keeps the queues, and what is returned for it is in order. -/
theorem FragmentHonest.step (hh : FragmentHonest U u bp next) (hu : IP6HDR ≤ u) (ho : bp.Ordered)
    (hn : ∀ c ∈ next, c.Ordered ∧ 0 < c.BLEN) (hi : Intact U ip) (now : Nat) :
    ∃ ip' r, ip6reassemble now ip u bp next = .ok (ip', r) ∧ Intact U ip' ∧
      ∀ pkt, r = some pkt → ∃ pkt', Ip6.rewalk pkt = .ok pkt' ∧ ∀ b ∈ pkt', b.Ordered := by
  have ha : Arrived u bp next := ⟨ho, hn, hh.header⟩
  obtain ⟨b, hg, hbo, hbytes, hb⟩ := ha.gather hu
  have hsound := hh.sound hu ha hbytes hbo hb
  have hkey : ∀ f : Fragment6, f.key = fragkey u bp → U f.key = u := fun f hf => by
    rw [hf, ← hh.uflen]
  have hold : ∀ f ∈ ip.flisthead6, f.key = fragkey u bp → Laid (cuts u) (Sound u) f.blist := by
    intro f hf hk
    have := hi f hf
    rwa [hkey f hk] at this
  obtain ⟨ip', r, hr, hout⟩ := requeue_spec hu (P := Sound u) Sound.fits now _ hold hsound
    fun _ f hf => sound_keeps (hold f (ip.queue_mem hf).1 (ip.queue_mem hf).2) _
  refine ⟨ip', r, ?_, ?_, ?_⟩
  · rw [ip6reassemble, if_neg (Nat.not_lt.mpr hh.header), hg]
    exact hr
  · intro f hf
    by_cases hk : f.key = fragkey u bp
    · rw [hkey f hk]
      exact hout.all (K := (· = fragkey u bp)) hsound hold f hf hk
    · exact hi f ((requeue_others hr f hf).resolve_left hk)
  · rintro pkt rfl
    cases hout with
    | atomic h0 _ => exact hh.rewalk h0 hu hbytes hbo hb
    | glued _ _ hins hc hg _ => exact glue_safe hu hins.laid hc hg

/-- An honest packet keeps the queues, and what is returned for it is in order. -/
theorem Arrival.Honest.step {a : Arrival} (ha : a.Honest U) (hi : Intact U ip) :
    ∃ ip' r, a.put ip = .ok (ip', r) ∧ Intact U ip' ∧ ∀ pkt, r = some pkt → ∀ b ∈ pkt, b.Ordered := by
  unfold Arrival.put ipiput6
  cases hacc : accept a.env a.bp a.next with
  | none => exact ⟨ip, none, rfl, hi, nofun⟩
  | some s =>
    obtain ⟨b, l, doreasm⟩ := s
    obtain ⟨hb, hl, -⟩ := accept_spec a.first a.rest hacc
    obtain ⟨⟨c, nh, u⟩, hun⟩ := ha.headers b l doreasm hacc
    have hc := unfraglen_ordered hun hb
    simp only [procxtns, hun, Except.bind]
    split_ifs with hfh
    · obtain ⟨rfl, rfl⟩ := hfh
      obtain ⟨ip', r, hr, hi', hpkt⟩ :=
        (ha.fragment b l c u hacc hun).step (unfraglen_spec hun).2.2.2 hc hl hi a.now
      rw [hr]
      cases r with
      | none => exact ⟨ip', none, rfl, hi', nofun⟩
      | some pkt =>
        obtain ⟨pkt', hre, hord⟩ := hpkt pkt rfl
        simp only [hre]
        refine ⟨ip', some pkt', rfl, hi', ?_⟩
        rintro _ ⟨⟩
        exact hord
    · refine ⟨ip, some (c :: l), rfl, hi, ?_⟩
      rintro _ ⟨⟩ d (_ | ⟨_, hd⟩)
      · exact hc
      · exact (hl d hd).1

/-- In every run whose packets are honest: the pointers of every block that is queued are in order,
and the next honest packet reads no header byte behind the data and sets no pointer beyond its bound.
The walk over the headers of any packet comes to an end. -/
theorem headers_safe (U : Key → Nat) {ip : IP}
    (h : (packets.restrict fun _ a => a.Honest U).Reach ip) :
    (∀ f ∈ ip.flisthead6, ∀ b ∈ f.blist, b.Ordered) ∧
    (∀ a : Arrival, a.Honest U → ∃ ip' r, a.put ip = .ok (ip', r) ∧
      ∀ pkt, r = some pkt → ∀ b ∈ pkt, b.Ordered) ∧
    ∀ (b : Block) (k : Nat),
      walk b.byte b.BLEN (b.BLEN + 1 + k) (b.byte 6) 6 IP6HDR = headers b.byte b.BLEN := by
  have hinv : (packets.restrict fun _ a => a.Honest U).Inductive (Intact U) := by
    refine ⟨fun ip h0 => ?_, fun ip a ip' hi hs => ?_⟩
    · unfold Intact
      rw [show ip.flisthead6 = [] from h0]
      exact nofun
    · obtain ⟨⟨r, hr⟩, ha⟩ := hs
      obtain ⟨ip₁, r₁, hr₁, hi', -⟩ := ha.step hi
      cases hr₁.symm.trans hr
      exact hi'
  have hi := hinv.reach h
  refine ⟨fun f hf b hb => ((hi f hf).all b hb).fits.ordered, fun a ha => ?_,
    fun b k => headers_stops b.byte b.BLEN k⟩
  obtain ⟨ip', r, hr, -, hpkt⟩ := ha.step hi
  exact ⟨ip', r, hr, hpkt⟩

/-! ## Packets that lie -/

/-- A packet of `len` bytes with this length in its header: a fragment if its type is `FH`. -/
private def raw (type plen off len : Nat) : Block where
  mem a := ([0x60, 0, 0, 0, .ofNat (plen / 256), .ofNat plen, .ofNat type, 64] ++
    List.replicate 32 0 ++ [17, 0, .ofNat (off / 256), .ofNat off])[a - 64]?.getD 0
  rp := 64
  wp := 64 + len
  lim := 128 + len
  foff := 0
  flen := 0

private theorem raw_ordered (type plen off len : Nat) : (raw type plen off len).Ordered :=
  ⟨Nat.le_add_right _ _, Nat.add_le_add_right (by decide) _⟩

theorem nothing_behind : ∀ b ∈ ([] : List Block), b.Ordered ∧ 0 < b.BLEN :=
  List.forall_mem_nil _

private def comes (type plen off len : Nat) : Arrival :=
  ⟨0, ⟨true, false, false, none⟩, raw type plen off len, [], raw_ordered .., nothing_behind⟩

private def nokey : Key := ⟨0, 0, 0⟩

/-- A fragment in one block goes to its queue. -/
private def Goes (plen off len : Nat) : Prop :=
  ∀ ip, (comes FH plen off len).put ip =
    (requeue 0 ip IP6HDR off nokey (retyped (raw FH plen off len)) []).bind fun s =>
      match s.2 with
      | none => .ok (s.1, none)
      | some pkt => (rewalk pkt).map fun pkt => (s.1, some pkt)

variable {plen off : Nat}

private theorem goes (hacc : accept (comes FH plen off len).env
      (raw FH plen off len) [] = some (raw FH plen off len, [], true))
    (hlen : IP6HDR + IP6FHDR ≤ (raw FH plen off len).BLEN) (hp : proto (raw FH plen off len) = FH)
    (hkey : fragkey IP6HDR (raw FH plen off len) = nokey)
    (hoff : offsetRM IP6HDR (raw FH plen off len) = off) : Goes plen off len := by
  intro ip
  have hoff' : offsetRM IP6HDR (retyped (raw FH plen off len)) = off :=
    (retyped_nhgets (.inr (by decide))).trans hoff
  have hkey' := (retyped_key _).trans hkey
  unfold Arrival.put ipiput6
  rw [show (comes FH plen off len).bp = raw FH plen off len from rfl,
    show (comes FH plen off len).next = [] from rfl, hacc]
  change procxtns 0 true ip (raw FH plen off len) [] = _
  have hlen' : ¬ (retyped (raw FH plen off len)).BLEN < IP6HDR + IP6FHDR := by
    rw [retyped_BLEN]
    exact Nat.not_lt.mpr hlen
  rw [procxtns, unfraglen_fragment hp (lt_of_lt_of_le (by decide) hlen), Except.bind,
    if_pos ⟨rfl, rfl⟩, ip6reassemble, if_neg hlen', hoff', hkey', gather, if_pos rfl]

/-- What the second of two fragments comes to, if it is a fault. -/
private def second (plen off len plen' off' len' : Nat) : Option Fault :=
  match requeue 0 ⟨[]⟩ IP6HDR off nokey (retyped (raw FH plen off len)) [] with
  | .ok (ip, none) =>
    match requeue 0 ip IP6HDR off' nokey (retyped (raw FH plen' off' len')) [] with
    | .error e => some e
    | .ok _ => none
  | _ => none

theorem packets_init : packets.Reach ⟨[]⟩ :=
  ⟨[], .init (show (IP.mk []).flisthead6 = [] from rfl)⟩

private theorem second_fault {plen' off' len' : Nat} {e : Fault}
    (h : second plen off len plen' off' len' = some e) (h₁ : Goes plen off len)
    (h₂ : Goes plen' off' len') : ∃ (ip : IP) (a : Arrival), packets.Reach ip ∧
      a.put ip = .error e := by
  unfold second at h
  split at h
  · rename_i ip hr
    split at h
    · rename_i e' hr'
      cases h
      refine ⟨ip, comes FH plen' off' len',
        packets_init.step (e := comes FH plen off len) ⟨none, ?_⟩, ?_⟩
      · rw [h₁, hr]
        rfl
      · rw [h₂, hr']
        rfl
    · cases h
  · cases h

/-- A packet whose first header is behind its end is read beyond it; fragments that say that they
have more data than they have lead both pointers out of their blocks. -/
theorem lying_headers :
    (∃ (ip : IP) (a : Arrival), packets.Reach ip ∧ a.put ip = .error .read) ∧
    (∃ (ip : IP) (a : Arrival), packets.Reach ip ∧ a.put ip = .error .rp) ∧
    ∃ (ip : IP) (a : Arrival), packets.Reach ip ∧ a.put ip = .error .wp := by
  refine ⟨⟨⟨[]⟩, comes HBH 0 0 40, packets_init, rfl⟩, ?_, ?_⟩
  · have h : second 808 9 56 408 1 56 = some .rp := by decide +kernel
    exact second_fault h (goes rfl (by decide) (by decide) (by decide) (by decide))
      (goes rfl (by decide) (by decide) (by decide) (by decide))
  · have h : second 2000 1 56 16 1992 56 = some .wp := by decide +kernel
    exact second_fault h (goes rfl (by decide) (by decide) (by decide) (by decide))
      (goes rfl (by decide) (by decide) (by decide) (by decide))

/-- A fragment that has the data that it says it has. -/
theorem comes_honest (hacc : accept (comes FH plen off len).env
      (raw FH plen off len) [] = some (raw FH plen off len, [], true))
    (hlen : IP6HDR + IP6FHDR ≤ (raw FH plen off len).BLEN) (hp : proto (raw FH plen off len) = FH)
    (hh : FragmentHonest (fun _ => IP6HDR) IP6HDR (retyped (raw FH plen off len)) []) :
    (comes FH plen off len).Honest fun _ => IP6HDR := by
  have hun := unfraglen_fragment hp (lt_of_lt_of_le (by decide) hlen)
  refine ⟨fun b l d h => ?_, fun b l c u h hc => ?_⟩
  · cases hacc.symm.trans h
    exact ⟨_, hun⟩
  · cases hacc.symm.trans h
    cases hun.symm.trans hc
    exact hh

/-- Whether the second of two fragments completes a packet. -/
private def completes (plen off len plen' off' len' : Nat) : Bool :=
  match requeue 0 ⟨[]⟩ IP6HDR off nokey (retyped (raw FH plen off len)) [] with
  | .ok (ip, none) =>
    match requeue 0 ip IP6HDR off' nokey (retyped (raw FH plen' off' len')) [] with
    | .ok (_, some _) => true
    | _ => false
  | _ => false

theorem completes_some {plen' off' len' : Nat} {ip ip' : IP} {r r' : Option (List Block)}
    (h : completes plen off len plen' off' len' = true) (h₁ : Goes plen off len)
    (h₂ : Goes plen' off' len') (hr : (comes FH plen off len).put ⟨[]⟩ = .ok (ip, r))
    (hr' : (comes FH plen' off' len').put ip = .ok (ip', r')) : r'.isSome := by
  unfold completes at h
  split at h
  · rename_i ip₁ hq
    rw [h₁, hq] at hr
    cases hr
    split at h
    · rename_i ip₂ pkt hq'
      rw [h₂, hq', Except.bind] at hr'
      simp only at hr'
      cases hw : rewalk pkt with
      | error e =>
        rw [hw] at hr'
        cases hr'
      | ok pkt' =>
        rw [hw] at hr'
        cases hr'
        rfl
    · cases h
  · cases h

/-- Two fragments with 8 and 16 bytes of data. -/
theorem headers_safe_two : ∃ (ip ip' : IP) (pkt : List Block),
    (comes FH 24 8 64).put ip = .ok (ip', some pkt) ∧ ∀ b ∈ pkt, b.Ordered := by
  have h₁ : (comes FH 16 1 56).Honest fun _ => IP6HDR :=
    comes_honest rfl (by decide) (by decide) ⟨by decide, by decide, by decide, by decide, by decide,
      fun _ _ => ⟨(17, 6, 40), by rfl⟩, fun h => absurd h (by decide)⟩
  have h₂ : (comes FH 24 8 64).Honest fun _ => IP6HDR :=
    comes_honest rfl (by decide) (by decide) ⟨by decide, by decide, by decide, by decide, by decide,
      fun _ h => absurd h (by decide), fun h => absurd h (by decide)⟩
  have hinit : (packets.restrict fun _ a => a.Honest fun _ => IP6HDR).Reach ⟨[]⟩ :=
    ⟨[], .init (show (IP.mk []).flisthead6 = [] from rfl)⟩
  obtain ⟨ip, r, hr, -⟩ := (headers_safe (fun _ => IP6HDR) hinit).2.1 (comes FH 16 1 56) h₁
  obtain ⟨ip', r', hr', hpkt⟩ := (headers_safe (fun _ => IP6HDR)
    (hinit.step (e := comes FH 16 1 56) ⟨⟨r, hr⟩, h₁⟩)).2.1 (comes FH 24 8 64) h₂
  have hdone : completes 16 1 56 24 8 64 = true := by decide +kernel
  obtain ⟨pkt, rfl⟩ := Option.isSome_iff_exists.mp (completes_some hdone
    (goes rfl (by decide) (by decide) (by decide) (by decide))
    (goes rfl (by decide) (by decide) (by decide) (by decide)) hr hr')
  exact ⟨ip, ip', pkt, hr', hpkt pkt rfl⟩

end NixMark.Ip6
