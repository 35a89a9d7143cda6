import NixMark.Ip.Queue
import NixMark.Ip6.Reassemble

/-!
# A fragment of an IPv6 packet is put into its queue

* `Fits`: the block holds the data that its `Ipfrag` and its headers say.
* `insert_eq`: a fragment is laid over those of its queue, as in IPv4.
* `glue_eq`: the blocks of the packet, and its length.
* `reassemble_spec`: what becomes of a packet that arrives (`Outcome`).
-/

namespace NixMark.Ip6

open Ip Lib.Pieces Block

/-- The block holds a fragment behind `u` bytes of other headers: its data, and for the first one of
a packet the data that its header says. -/
structure Fits (u : Nat) (b : Block) : Prop where
  data : b.rp + (u + IP6FHDR + b.flen) ≤ b.wp
  lim : b.wp ≤ b.lim
  top : b.fend ≤ 65535
  head : b.foff = 0 → u + IP6FHDR + b.flen ≤ IP6HDR + ploadlen b ∧
    b.rp + (IP6HDR + ploadlen b) ≤ b.wp

/-- The headers stand `n` bytes further on. -/
def advance (u : Nat) (b : Block) (n : Nat) : Block := { moveup u b n with rp := b.rp + n }

/-- The fragment without what is in front of `x`. -/
def fronted (u : Nat) (b : Block) (x : Nat) : Block :=
  { advance u b (x - b.foff) with flen := b.flen - (x - b.foff), foff := x }

/-- The data of a fragment. -/
def payload (u : Nat) (b : Block) : List UInt8 := window b.mem (b.rp + (u + IP6FHDR)) b.flen

variable {u n o x : Nat} {b c bp h : Block} {q l next : List Block} {P : Block → Prop}

theorem Fits.ordered (h : Fits u b) : b.Ordered := ⟨(Nat.le_add_right _ _).trans h.data, h.lim⟩

/-! ## Headers that are moved -/

theorem byte_advance (b : Block) (n : Nat) (h : o < u) : (advance u b n).byte o = b.byte o := by
  have hin : b.rp + n ≤ b.rp + n + o ∧ b.rp + n + o < b.rp + n + u := by omega
  simp only [Block.byte, advance, moveup]
  rw [if_pos hin, show b.rp + n + o - n = b.rp + o by omega]

/-- Behind the headers that are moved up stand the bytes that stood there. -/
theorem byte_advance_behind (b : Block) (n : Nat) (h : u ≤ o) :
    (advance u b n).byte o = b.byte (n + o) := by
  simp only [Block.byte, advance, moveup]
  rw [if_neg (by omega), Nat.add_assoc]

theorem nhgets_advance (b : Block) (n : Nat) (h : o + 1 < u) :
    (advance u b n).nhgets o = b.nhgets o := by
  rw [Block.nhgets, Block.nhgets, byte_advance b n (by omega), byte_advance b n h]

theorem window_advance {a k : Nat} (h : b.rp + n + u ≤ a) :
    window (advance u b n).mem a k = window b.mem a k :=
  window_frame fun y hy _ => if_neg (show ¬ (b.rp + n ≤ y ∧ y < b.rp + n + u) by omega)

theorem ploadlen_advance (hu : IP6HDR ≤ u) (b : Block) (n : Nat) :
    ploadlen (advance u b n) = ploadlen b :=
  nhgets_advance b n (lt_of_lt_of_le (by decide) hu)

/-! ## Trimming -/

theorem Fits.front (hb : Fits u b) (hx : b.foff ≤ x) (hx' : x < b.fend) :
    front u b (x - b.foff) = .ok (fronted u b x) := by
  have hd := hb.data
  have ht := hb.top
  unfold Block.fend at hx' ht
  have hfoff : (b.foff + (x - b.foff)) % 65536 = x := by omega
  have hlen : ¬ b.BLEN < u := by
    unfold Block.BLEN
    omega
  unfold Ip6.front setrp fronted advance
  rw [if_neg hlen, if_pos (by simp only [moveup]; omega)]
  simp only [moveup, hfoff]

theorem Fits.cutat (hb : Fits u b) (x : Nat) : Fits u (b.cutat x) where
  data := by
    have := hb.data
    simp only [Block.cutat]
    omega
  lim := hb.lim
  top := by
    have := hb.top
    simp only [Block.cutat, Block.fend] at this ⊢
    omega
  head h0 := by
    have hhead := hb.head h0
    exact ⟨(Nat.add_le_add_left (Nat.sub_le _ _) _).trans hhead.1, hhead.2⟩

theorem Fits.fronted (hb : Fits u b) (hx : b.foff < x) (hx' : x ≤ b.fend) :
    Fits u (fronted u b x) where
  data := by
    have := hb.data
    simp only [Ip6.fronted, advance, moveup, Block.fend] at hx' ⊢
    omega
  lim := hb.lim
  top := by
    have := hb.top
    simp only [Ip6.fronted, Block.fend] at hx' this ⊢
    omega
  head h0 := absurd h0 (Nat.ne_of_gt (Nat.zero_lt_of_lt hx))

theorem fronted_fend (hx : b.foff ≤ x) (hx' : x ≤ b.fend) : (fronted u b x).fend = b.fend := by
  simp only [Ip6.fronted, Block.fend] at hx' ⊢
  omega

theorem payload_cutat (u : Nat) (b : Block) (x : Nat) :
    payload u (b.cutat x) = (payload u b).take (b.cutat x).flen :=
  (window_take (Nat.sub_le _ _)).symm

theorem payload_fronted (h : x - b.foff ≤ b.flen) :
    payload u (fronted u b x) = (payload u b).drop (x - b.foff) := by
  calc payload u (fronted u b x)
      = window b.mem (b.rp + (x - b.foff) + (u + IP6FHDR)) (b.flen - (x - b.foff)) :=
        window_advance (Nat.add_le_add_left (Nat.le_add_right _ _) _)
    _ = (payload u b).drop (x - b.foff) := by
        rw [payload, window_drop h, Nat.add_right_comm]

/-- How the fragments of a queue are trimmed. -/
def cuts (u : Nat) : Cuts Block := ⟨foff, fend, Block.cutat, fronted u⟩

theorem cuts_lawful (u : Nat) : (cuts u).Lawful where
  le := foff_le_fend
  cut_lo _ _ := rfl
  cut_hi h := cutat_fend h
  cut_of_le h := cutat_of_le h
  front_lo _ _ := rfl
  front_hi h h' := fronted_fend h h'

theorem uncover_eq (h : ∀ b ∈ l, Fits u b) (x : Nat) :
    uncover u x l = .ok (Lib.Pieces.uncover (cuts u) x l) := by
  induction l with
  | nil => rfl
  | cons b l ih =>
    unfold Ip6.uncover Lib.Pieces.uncover
    have hlo : (cuts u).lo b = b.foff := rfl
    have hhi : (cuts u).hi b = b.fend := rfl
    rw [hlo, hhi]
    split_ifs with h₁ h₂ h₃ h₃
    · rfl
    · rw [(h b List.mem_cons_self).front (Nat.le_of_not_le h₁) h₃]
      rfl
    · unfold Block.fend at h₃
      omega
    · unfold Block.fend at h₃
      omega
    · exact ih fun c hc => h c (List.mem_cons_of_mem b hc)

/-- The new fragment is laid over the others. -/
theorem insert_eq (h : ∀ b ∈ q, Fits u b) (bp : Block) :
    insert u q bp = .ok (place (cuts u) q bp) := by
  unfold Ip6.insert place
  have hlo : ∀ b : Block, (cuts u).lo b = b.foff := fun _ => rfl
  simp only [hlo]
  rw [uncover_eq (fun b hb => h b ((List.dropWhile_suffix _).subset hb))]
  cases (q.takeWhile fun b => b.foff < bp.foff).getLast? with
  | none => rfl
  | some p =>
    have hcov : (0 < p.foff + p.flen - bp.foff ∧ bp.flen ≤ p.foff + p.flen - bp.foff) ↔
        (bp.foff < (cuts u).hi p ∧ (cuts u).hi bp ≤ (cuts u).hi p) := by
      change _ ↔ bp.foff < p.foff + p.flen ∧ bp.foff + bp.flen ≤ p.foff + p.flen
      omega
    simp only [hcov]
    split_ifs
    · rfl
    · rfl

/-- A property of the fragments of a queue that is kept when `bp` trims them. -/
structure Keeps (u : Nat) (P : Block → Prop) (q : List Block) (bp : Block) : Prop where
  cutat : ∀ b ∈ q, b.foff < bp.foff → bp.foff < b.fend → b.fend < bp.fend → P (b.cutat bp.foff)
  fronted : ∀ b ∈ q, bp.foff ≤ b.foff → b.foff < bp.fend → bp.fend < b.fend →
    P (fronted u b bp.fend)

/-- A fragment is put into its place, or it is covered. -/
theorem insert_spec (hP : ∀ {b}, P b → Fits u b) (hq : Laid (cuts u) P q) (hbp : P bp)
    (hk : Keeps u P q bp) :
    (insert u q bp = .ok none ∧
        ∃ b ∈ q, b.foff < bp.foff ∧ bp.foff < b.fend ∧ bp.fend ≤ b.fend) ∨
      ∃ q', insert u q bp = .ok (some q') ∧ Placed (cuts u) P q bp q' := by
  rw [insert_eq fun b hb => hP (hq.all b hb)]
  rcases place_spec (cuts_lawful u) hq hbp hk.cutat hk.fronted with ⟨hp, hc⟩ | ⟨q', hp, hq'⟩
  · exact .inl ⟨congrArg _ hp, hc⟩
  · exact .inr ⟨q', congrArg _ hp, hq'⟩

/-! ## The packet -/

/-- A fragment behind the first one in the packet. -/
def stripped (u : Nat) (b : Block) : Block :=
  { b with rp := b.rp + (u + IP6FHDR), wp := b.rp + (u + IP6FHDR) + b.flen }

/-- The first fragment in the packet. -/
def headed (u : Nat) (b : Block) : Block :=
  { advance u b IP6FHDR with wp := b.rp + (IP6HDR + ploadlen b) }

theorem Fits.strip (hb : Fits u b) : strip u b = .ok (stripped u b) := by
  have h₁ := hb.data
  have h₂ := hb.lim
  unfold Ip6.strip setrp
  rw [if_pos (by omega), Except.bind, setwp, if_pos (by simp only; omega)]
  rfl

theorem strips_eq (h : ∀ b ∈ l, Fits u b) : strips u l = .ok (l.map (stripped u)) := by
  induction l with
  | nil => rfl
  | cons b l ih =>
    rw [strips, (h b List.mem_cons_self).strip, Except.bind,
      ih fun c hc => h c (List.mem_cons_of_mem b hc)]
    rfl

theorem Fits.behead (hu : IP6HDR ≤ u) (hb : Fits u b) (h0 : b.foff = 0) :
    behead u b = .ok (headed u b) := by
  have h₁ := hb.data
  have h₂ := hb.lim
  have h₃ := (hb.head h0).2
  have hlen : ¬ b.BLEN < u := by
    unfold Block.BLEN
    omega
  have hpl := ploadlen_advance hu b IP6FHDR
  unfold Ip6.behead setrp
  rw [if_neg hlen, if_pos (by simp only [moveup]; unfold IP6FHDR at *; omega), Except.bind]
  change setwp (advance u b IP6FHDR)
    (b.rp + IP6FHDR + (IP6HDR - IP6FHDR) + ploadlen (advance u b IP6FHDR)) = _
  have hwp : b.rp + IP6FHDR + (IP6HDR - IP6FHDR) + ploadlen b = b.rp + (IP6HDR + ploadlen b) := by
    unfold IP6FHDR IP6HDR
    omega
  rw [hpl, hwp, setwp]
  exact if_pos (h₃.trans h₂)

/-- The blocks of the packet and the length that is stored. -/
theorem glue_eq (hu : IP6HDR ≤ u) (hh : Fits u h) (h0 : h.foff = 0) (ht : ∀ b ∈ l, Fits u b) :
    glue u (h :: l) = .ok ((headed u h).hnputs 4
      (ploadlen h + (65536 - IP6FHDR) + (l.map (·.flen)).sum) :: l.map (stripped u)) := by
  have hpl : ploadlen (headed u h) = ploadlen h := ploadlen_advance hu h IP6FHDR
  rw [glue, hh.behead hu h0, Except.bind, strips_eq ht, hpl]
  rfl

theorem Fits.stripped_ordered (hb : Fits u b) : (stripped u b).Ordered := by
  have h₁ := hb.data
  have h₂ := hb.lim
  exact ⟨Nat.le_add_right _ _, by simp only [stripped]; omega⟩

theorem Fits.headed_ordered (hb : Fits u b) (h0 : b.foff = 0) : (headed u b).Ordered := by
  obtain ⟨h₁, h₂⟩ := hb.head h0
  exact ⟨by simp only [headed, advance]; omega, h₂.trans hb.lim⟩

theorem stripped_data (u : Nat) (b : Block) : (stripped u b).data = payload u b := by
  unfold Block.data Block.BLEN
  simp only [stripped, payload, Nat.add_sub_cancel_left]

theorem bytes_stripped (u : Nat) (l : List Block) :
    bytes (l.map (stripped u)) = l.flatMap (payload u) := by
  rw [bytes, List.flatMap_map]
  exact congrArg (fun f => l.flatMap f) (funext (stripped_data u))

theorem headed_BLEN (u : Nat) (b : Block) : (headed u b).BLEN = IP6HDR + ploadlen b - IP6FHDR := by
  unfold Block.BLEN
  simp only [headed, advance]
  omega

/-- Behind the headers of the first block stands what its header says that follows them. -/
theorem headed_data (hu : IP6HDR ≤ u) (hh : Fits u b) (h0 : b.foff = 0) (v : Nat) :
    ((headed u b).hnputs 4 v).data.drop u =
      window b.mem (b.rp + (u + IP6FHDR)) (IP6HDR + ploadlen b - (u + IP6FHDR)) := by
  have h₁ := (hh.head h0).1
  have hlen : ((headed u b).hnputs 4 v).BLEN = IP6HDR + ploadlen b - IP6FHDR := headed_BLEN u b
  have hrp : ((headed u b).hnputs 4 v).rp = b.rp + IP6FHDR := rfl
  rw [Block.data, window_drop (by rw [hlen]; omega), hlen, hrp]
  calc window ((headed u b).hnputs 4 v).mem (b.rp + IP6FHDR + u) (IP6HDR + ploadlen b - IP6FHDR - u)
      = window (headed u b).mem (b.rp + IP6FHDR + u) (IP6HDR + ploadlen b - IP6FHDR - u) :=
        window_hnputs (by
          change b.rp + IP6FHDR + 4 + 1 < b.rp + IP6FHDR + u
          unfold IP6HDR at hu
          omega)
    _ = window b.mem (b.rp + IP6FHDR + u) (IP6HDR + ploadlen b - IP6FHDR - u) :=
        window_advance (Nat.le_refl _)
    _ = _ := by
        congr 1 <;> omega

/-! ## A complete packet -/

theorem complete_isOk (h : ∀ b ∈ q, Fits u b) (pos : Nat) : ∃ r, complete u pos q = .ok r := by
  induction q generalizing pos with
  | nil => exact ⟨_, rfl⟩
  | cons b q ih =>
    have hb := h b List.mem_cons_self
    have hlen : ¬ b.BLEN < u + 4 := by
      have := hb.data
      unfold Block.BLEN IP6FHDR at *
      omega
    rw [complete, if_neg hlen]
    split_ifs
    · exact ⟨_, rfl⟩
    · exact ih (fun c hc => h c (List.mem_cons_of_mem b hc)) _
    · exact ⟨_, rfl⟩

theorem complete_head {pos : Nat} (h : complete u pos q = .ok true) :
    ∃ b l, q = b :: l ∧ b.foff = pos := by
  cases q with
  | nil => cases h
  | cons b l =>
    rw [complete] at h
    by_cases hb : b.foff = pos
    · exact ⟨b, l, rfl, hb⟩
    · rw [if_pos hb] at h
      cases h

/-! ## A packet that arrives -/

/-- What a caller hands over: the blocks of a packet, with the headers in the first one. -/
structure Arrived (u : Nat) (bp : Block) (next : List Block) : Prop where
  first : bp.Ordered
  rest : ∀ b ∈ next, b.Ordered ∧ 0 < b.BLEN
  header : u + IP6FHDR ≤ bp.BLEN

/-- The packet is in one block, with the same bytes. -/
theorem Arrived.gather (hu : IP6HDR ≤ u) (ha : Arrived u bp next) :
    ∃ b, gather bp next = (b, []) ∧ b.Ordered ∧ bytes [b] = bytes (bp :: next) ∧
      u + IP6FHDR ≤ b.BLEN := by
  have hmin : IP4HDR ≤ bp.BLEN := by
    have := ha.header
    unfold IP6HDR IP6FHDR IP4HDR at *
    omega
  obtain ⟨b, hg, ho, hbytes, -⟩ := (Ip.Arrived.mk ha.first ha.rest hmin).gather
  refine ⟨b, hg, ho, hbytes, ha.header.trans ?_⟩
  have hlen := congrArg List.length hbytes
  rw [bytes_cons, bytes_cons, List.length_append, List.length_append, data_length, data_length,
    bytes_nil] at hlen
  exact (Nat.le_add_right _ _).trans hlen.ge

/-- The fields of the headers are those of the packet that arrived. -/
theorem header_congr {l' : List Block} (hu : IP6HDR ≤ u) (h : bytes (b :: l) = bytes (c :: l'))
    (hb : u + IP6FHDR ≤ b.BLEN) (hc : u + IP6FHDR ≤ c.BLEN) :
    ploadlen b = ploadlen c ∧ more u b = more u c ∧
      (∀ o < u, b.byte o = c.byte o) ∧ offsetRM u b = offsetRM u c := by
  have hbyte : ∀ o, o < u + IP6FHDR → b.byte o = c.byte o := fun o ho =>
    byte_congr h (ho.trans_le hb) (ho.trans_le hc)
  have hs : ∀ o, o + 1 < u + IP6FHDR → b.nhgets o = c.nhgets o := fun o ho =>
    nhgets_congr h (ho.trans_le hb) (ho.trans_le hc)
  unfold IP6HDR at hu
  refine ⟨hs 4 (by omega), ?_, fun o ho => hbyte o (by omega), hs (u + 2) ?_⟩
  · rw [more, more, hbyte (u + 3) (Nat.add_lt_add_left (by decide) u)]
  · exact Nat.add_lt_add_left (by decide) u

/-- The `Ipfrag` in front changes neither the headers nor the data. -/
theorem tag_spec (off : Nat) (hb : b.Ordered) (hmin : u + IP6FHDR ≤ IP6HDR + ploadlen b)
    (hmax : IP6HDR + ploadlen b ≤ b.BLEN) (hend : off + (IP6HDR + ploadlen b - (u + IP6FHDR)) ≤ 65535) :
    (tag u off b).Ordered ∧ (tag u off b).data = b.data ∧
      (tag u off b).flen = IP6HDR + ploadlen b - (u + IP6FHDR) ∧
      (tag u off b).rp + (IP6HDR + ploadlen b) ≤ (tag u off b).wp := by
  obtain ⟨h₁, h₂⟩ := reserve_spec hb
  have h₄ := congrArg List.length h₂
  rw [data_length, data_length] at h₄
  refine ⟨h₁, h₂, ?_, ?_⟩
  · unfold tag
    simp only
    unfold IP6HDR IP6FHDR at *
    omega
  · have := h₁.1
    unfold Block.BLEN at *
    simp only [tag]
    omega

/-- A fragment that does not lie: with its `Ipfrag` it fits its block, and it has the headers and the
data of the packet that arrived. -/
theorem Arrived.tag (hu : IP6HDR ≤ u) (ha : Arrived u bp next) (hbytes : bytes [b] = bytes (bp :: next))
    (ho : b.Ordered) (hb : u + IP6FHDR ≤ b.BLEN) (hmin : u + IP6FHDR ≤ IP6HDR + ploadlen bp)
    (hmax : IP6HDR + ploadlen bp ≤ blocklen (bp :: next))
    (hend : offset u bp + (IP6HDR + ploadlen bp - (u + IP6FHDR)) ≤ 65535) :
    Fits u (tag u (offset u bp) b) ∧
      (tag u (offset u bp) b).flen = IP6HDR + ploadlen bp - (u + IP6FHDR) ∧
      ploadlen (tag u (offset u bp) b) = ploadlen bp ∧
      more u (tag u (offset u bp) b) = more u bp ∧
      (∀ o < u, (tag u (offset u bp) b).byte o = bp.byte o) ∧
      payload u (tag u (offset u bp) b) = ((bytes (bp :: next)).drop (u + IP6FHDR)).take
        (IP6HDR + ploadlen bp - (u + IP6FHDR)) := by
  obtain ⟨hlen, -⟩ := header_congr hu hbytes hb ha.header
  have hmax' : IP6HDR + ploadlen bp ≤ b.BLEN := by
    have h₁ := congrArg List.length hbytes
    rw [← blocklen_eq, ← blocklen_eq, blocklen, List.map_singleton, List.sum_singleton] at h₁
    exact hmax.trans h₁.ge
  obtain ⟨h₁, h₂, h₃, h₄⟩ :=
    tag_spec (offset u bp) ho (by rwa [hlen]) (by rwa [hlen]) (by rwa [hlen])
  have hbytes' : bytes [Ip6.tag u (offset u bp) b] = bytes (bp :: next) := by
    rw [← hbytes, bytes_cons, bytes_cons, h₂]
  have hblen : (Ip6.tag u (offset u bp) b).BLEN = b.BLEN := by rw [← data_length, h₂, data_length]
  obtain ⟨hlen', hmore, hbyte, -⟩ := header_congr hu hbytes' (by rwa [hblen]) ha.header
  rw [hlen] at h₃ h₄
  refine ⟨⟨?_, h₁.2, ?_, fun _ => ⟨?_, ?_⟩⟩, h₃, hlen', hmore, hbyte, ?_⟩
  · rw [h₃]
    omega
  · rw [Block.fend, h₃]
    exact hend
  · rw [h₃, hlen']
    omega
  · rwa [hlen']
  · rw [← hbytes', bytes_cons, bytes_nil, List.append_nil, Block.data,
      window_drop (by omega), window_take (by omega), payload, h₃]

/-! ## The queues -/

/-- The queue of a packet. -/
def IP.queue (ip : IP) (key : Key) : Option Fragment6 := ip.flisthead6.find? (·.key = key)

variable {ip : IP} {key : Key}

theorem IP.queue_mem {f : Fragment6} (h : ip.queue key = some f) :
    f ∈ ip.flisthead6 ∧ f.key = key :=
  ⟨List.mem_of_find?_eq_some h, by simpa using List.find?_some h⟩

/-- What becomes of a packet `b` in one block whose fragment header says `off`: the queues afterwards
and the packet that is returned. -/
inductive Outcome (u : Nat) (P : Block → Prop) (now : Nat) (ip : IP) (key : Key) (off : Nat)
    (b : Block) : IP → Option (List Block) → Prop
  /-- it has a fragment header but is not a fragment -/
  | atomic {ip' : IP} : off = 0 → (∀ g ∈ ip'.flisthead6, g ∈ ip.flisthead6) →
      Outcome u P now ip key off b ip' (some [b])
  /-- it is the first one of its packet -/
  | alloc {ip' : IP} : off ≠ 0 → ip.queue key = none →
      (∀ g ∈ ip'.flisthead6,
        g = ⟨key, [tag u (off / 8 * 8) b], now + 30000⟩ ∨ g ∈ ip.flisthead6) →
      ip'.queue key = some ⟨key, [tag u (off / 8 * 8) b], now + 30000⟩ →
      Outcome u P now ip key off b ip' none
  /-- the one before it covers it -/
  | covered {ip' : IP} {f : Fragment6} : off ≠ 0 → ip.queue key = some f →
      (∃ c ∈ f.blist, c.foff < (tag u (off / 8 * 8) b).foff ∧
        (tag u (off / 8 * 8) b).foff < c.fend ∧ (tag u (off / 8 * 8) b).fend ≤ c.fend) →
      (∀ g ∈ ip'.flisthead6, g ∈ ip.flisthead6) → ip'.queue key = some f →
      Outcome u P now ip key off b ip' none
  | queued {ip' : IP} {f : Fragment6} {q : List Block} : off ≠ 0 → ip.queue key = some f →
      Placed (cuts u) P f.blist (tag u (off / 8 * 8) b) q → complete u 0 q = .ok false →
      (∀ g ∈ ip'.flisthead6, g = { f with blist := q } ∨ g ∈ ip.flisthead6) →
      ip'.queue key = some { f with blist := q } → Outcome u P now ip key off b ip' none
  | glued {ip' : IP} {f : Fragment6} {q pkt : List Block} : off ≠ 0 → ip.queue key = some f →
      Placed (cuts u) P f.blist (tag u (off / 8 * 8) b) q → complete u 0 q = .ok true →
      glue u q = .ok pkt → (∀ g ∈ ip'.flisthead6, g ∈ ip.flisthead6) →
      Outcome u P now ip key off b ip' (some pkt)

/-- No byte is read behind the data, no pointer leaves its block, and the outcome is one of the
five. -/
theorem requeue_spec (hu : IP6HDR ≤ u) (hP : ∀ {b}, P b → Fits u b) (now off : Nat)
    (hq : ∀ f ∈ ip.flisthead6, f.key = key → Laid (cuts u) P f.blist)
    (hb : off ≠ 0 → P (tag u (off / 8 * 8) b))
    (hk : off ≠ 0 → ∀ f, ip.queue key = some f → Keeps u P f.blist (tag u (off / 8 * 8) b)) :
    ∃ ip' r, requeue now ip u off key b [] = .ok (ip', r) ∧ Outcome u P now ip key off b ip' r := by
  obtain ⟨hkept, hfound⟩ := search_spec now key ip.flisthead6
  unfold requeue
  by_cases hoff : off = 0
  · rw [if_pos hoff]
    refine ⟨_, _, rfl, .atomic hoff fun g hg => ?_⟩
    rcases List.mem_append.mp hg with hg | hg
    · exact (hkept g hg).1
    · cases hs : (search now key ip.flisthead6).2 with
      | none =>
        rw [hs] at hg
        cases hg
      | some r =>
        rw [hs] at hg hfound
        exact hfound.2.2.2 g hg
  simp only [if_neg hoff]
  cases hs : (search now key ip.flisthead6).2 with
  | none =>
    rw [hs] at hfound
    refine ⟨_, _, rfl, .alloc hoff hfound ?_ ?_⟩
    · rintro g (_ | ⟨_, hg⟩)
      · exact .inl rfl
      · split at hg
        · exact .inr (hkept g hg).1
        · exact .inr (hkept g (List.dropLast_subset _ hg)).1
    · simp only [IP.queue, ipfragallo6, ipfragallo4, List.find?_cons, decide_true]
  | some r =>
    obtain ⟨f, after⟩ := r
    rw [hs] at hfound
    obtain ⟨hfind, hkey, hmem, hafter⟩ := hfound
    have hne : ∀ g ∈ (search now key ip.flisthead6).1, g.key ≠ key := fun g hg => (hkept g hg).2
    have hold : ∀ (f' : Fragment6), ∀ g ∈ (search now key ip.flisthead6).1 ++ f' :: after,
        g = f' ∨ g ∈ ip.flisthead6 := by
      intro f' g hg
      rcases List.mem_append.mp hg with hg | hg
      · exact .inr (hkept g hg).1
      · exact (List.mem_cons.mp hg).imp_right (hafter g)
    simp only
    rcases insert_spec hP (hq f hmem hkey) (hb hoff) (hk hoff f hfind) with ⟨hi, hc⟩ | ⟨q, hi, hins⟩
    · rw [hi]
      refine ⟨_, _, rfl, .covered hoff hfind hc (fun g hg => ?_) (queue_append hne hkey)⟩
      exact (hold f g hg).elim (fun he => he ▸ hmem) fun h => h
    · have hfit : ∀ b ∈ q, Fits u b := fun b hb => hP (hins.laid.all b hb)
      obtain ⟨done, hcomp⟩ := complete_isOk hfit 0
      rw [hi]
      simp only [Except.bind, hcomp]
      cases done with
      | true =>
        obtain ⟨h, l, rfl, h0⟩ := complete_head hcomp
        have hglue := glue_eq hu (hfit h List.mem_cons_self) h0 fun b hb =>
          hfit b (List.mem_cons_of_mem h hb)
        rw [if_pos rfl, hglue]
        refine ⟨_, _, rfl, .glued hoff hfind hins hcomp hglue fun g hg => ?_⟩
        rcases List.mem_append.mp hg with hg | hg
        · exact (hkept g hg).1
        · exact hafter g hg
      | false =>
        exact ⟨_, _, rfl, .queued hoff hfind hins hcomp (hold _) (queue_append hne hkey)⟩

/-- The queues of the packets for which `K` holds keep their fragments as `P` says. -/
theorem Outcome.all {now off : Nat} {ip' : IP} {r : Option (List Block)} {K : Key → Prop}
    (h : Outcome u P now ip key off b ip' r) (hp : off ≠ 0 → P (tag u (off / 8 * 8) b))
    (hi : ∀ f ∈ ip.flisthead6, K f.key → Laid (cuts u) P f.blist) :
    ∀ f ∈ ip'.flisthead6, K f.key → Laid (cuts u) P f.blist := by
  intro g hg hkey
  cases h with
  | atomic _ hold => exact hi g (hold g hg) hkey
  | alloc hoff _ hold _ =>
    rcases hold g hg with rfl | hg
    · exact ⟨fun c hc => List.mem_singleton.mp hc ▸ hp hoff, List.pairwise_singleton _ _⟩
    · exact hi g hg hkey
  | covered _ _ _ hold _ => exact hi g (hold g hg) hkey
  | queued _ _ hins _ hold _ =>
    rcases hold g hg with rfl | hg
    · exact hins.laid
    · exact hi g hg hkey
  | glued _ _ _ _ _ hold => exact hi g (hold g hg) hkey

/-- The queues of other packets are kept or freed. -/
theorem requeue_others {now off : Nat} {ip' : IP} {r : Option (List Block)}
    (h : requeue now ip u off key bp next = .ok (ip', r)) :
    ∀ g ∈ ip'.flisthead6, g.key = key ∨ g ∈ ip.flisthead6 := by
  obtain ⟨hkept, hfound⟩ := search_spec now key ip.flisthead6
  unfold requeue at h
  intro g hg
  cases hs : (search now key ip.flisthead6).2 with
  | none =>
    simp only [hs] at h
    split_ifs at h with hoff
    · cases h
      simp only [Option.map_none, Option.getD_none, List.append_nil] at hg
      exact .inr (hkept g hg).1
    · cases h
      rcases List.mem_cons.mp hg with rfl | hg
      · exact .inl rfl
      · split at hg
        · exact .inr (hkept g hg).1
        · exact .inr (hkept g (List.dropLast_subset _ hg)).1
  | some s =>
    obtain ⟨f, after⟩ := s
    simp only [hs] at h hfound
    obtain ⟨-, hkey, hmem, hafter⟩ := hfound
    have hold : ∀ f' : Fragment6, f'.key = key →
        g ∈ (search now key ip.flisthead6).1 ++ f' :: after → g.key = key ∨ g ∈ ip.flisthead6 := by
      intro f' hf' hg
      rcases List.mem_append.mp hg with hg | hg
      · exact .inr (hkept g hg).1
      · exact (List.mem_cons.mp hg).imp (fun he => by rw [he, hf']) (hafter g)
    have hgone : g ∈ (search now key ip.flisthead6).1 ++ after → g.key = key ∨ g ∈ ip.flisthead6 := by
      intro hg
      rcases List.mem_append.mp hg with hg | hg
      · exact .inr (hkept g hg).1
      · exact .inr (hafter g hg)
    split_ifs at h with hoff
    · cases h
      simp only [Option.map_some, Option.getD_some] at hg
      exact hgone hg
    · cases hins : insert u f.blist (tag u (off / 8 * 8) bp) with
      | error e =>
        rw [hins] at h
        cases h
      | ok q =>
        simp only [hins, Except.bind] at h
        cases q with
        | none =>
          cases h
          exact hold f hkey hg
        | some q =>
          simp only at h
          cases hcomp : complete u 0 q with
          | error e =>
            rw [hcomp] at h
            cases h
          | ok done =>
            simp only [hcomp] at h
            cases done with
            | false =>
              cases h
              exact hold { f with blist := q } hkey hg
            | true =>
              cases hglue : glue u q with
              | error e =>
                rw [if_pos rfl, hglue] at h
                cases h
              | ok pkt =>
                rw [if_pos rfl, hglue] at h
                cases h
                exact hgone hg

end NixMark.Ip6
