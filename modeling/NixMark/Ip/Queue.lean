import NixMark.Lib.Overlay
import NixMark.Ip.Reassemble

/-!
# A fragment is put into its queue

* `Block.Fits`: the block holds the data that its `Ipfrag` and its header say.
* `Trims`: a property of the fragments of a queue that trimming keeps.
* `insert_eq`: a fragment is laid over those of its queue. `insert_spec`: afterwards they are apart and
  cover what they did and the new fragment; `Inserted.head` says which one is the first.
* `glue_eq`: the blocks of the packet, and its length.
-/

namespace NixMark.Ip

open Lib.Pieces Block

/-- The end of a fragment. -/
def Block.fend (b : Block) : Nat := b.foff + b.flen

/-- The block holds a fragment: its data, and for the first one of a datagram the data that its
header says. -/
structure Block.Fits (b : Block) : Prop where
  data : b.rp + (IP4HDR + b.flen) ≤ b.wp
  lim : b.wp ≤ b.lim
  top : b.fend + IP4HDR ≤ 65535
  head : b.foff = 0 → IP4HDR + b.flen ≤ b.length ∧ b.rp + b.length ≤ b.wp

theorem Block.Fits.ordered {b : Block} (h : b.Fits) : b.Ordered :=
  ⟨(Nat.le_add_right _ _).trans h.data, h.lim⟩

/-- The fragment without what is in front of `x`. -/
def Block.fronted (b : Block) (x : Nat) : Block :=
  { b.advance (x - b.foff) with flen := b.flen - (x - b.foff), foff := x }

variable {b c bp h : Block} {q l l' : List Block} {x : Nat} {P : Block → Prop}

theorem Block.Fits.front (hb : b.Fits) (hx : b.foff ≤ x) (hx' : x < b.fend) :
    b.front (x - b.foff) = .ok (b.fronted x) := by
  have hd := hb.data
  have ht := hb.top
  unfold Block.fend at hx' ht
  have hfoff : (b.foff + (x - b.foff)) % 65536 = x := by omega
  unfold Block.front Block.setrp Block.fronted Block.advance
  rw [if_pos (by simp only [moveup]; omega)]
  simp only [moveup, hfoff]

theorem Block.Fits.cutat (hb : b.Fits) (x : Nat) : (b.cutat x).Fits where
  data := by
    have := hb.data
    simp only [Block.cutat]
    omega
  lim := hb.lim
  top := by
    have := hb.top
    simp only [Block.cutat, Block.fend] at this ⊢
    omega
  head h0 := by
    have ⟨h₁, h₂⟩ := hb.head h0
    exact ⟨(Nat.add_le_add_left (Nat.sub_le _ _) _).trans h₁, h₂⟩

theorem Block.Fits.fronted (hb : b.Fits) (hx : b.foff < x) (hx' : x ≤ b.fend) :
    (b.fronted x).Fits where
  data := by
    have := hb.data
    simp only [Block.fronted, advance, moveup, Block.fend] at hx' ⊢
    omega
  lim := hb.lim
  top := by
    have := hb.top
    simp only [Block.fronted, Block.fend] at hx' this ⊢
    omega
  head h0 := absurd h0 (Nat.ne_of_gt (Nat.zero_lt_of_lt hx))

theorem Block.cutat_fend (h : c.foff ≤ x) : (c.cutat x).fend = min c.fend x := by
  simp only [Block.cutat, Block.fend]
  omega

theorem Block.cutat_of_le (h : c.fend ≤ x) : c.cutat x = c := by
  unfold Block.fend at h
  unfold Block.cutat
  rw [show c.foff + c.flen - x = 0 by omega, Nat.sub_zero]

theorem Block.fronted_fend (hx : b.foff ≤ x) (hx' : x ≤ b.fend) : (b.fronted x).fend = b.fend := by
  simp only [Block.fronted, Block.fend] at hx' ⊢
  omega

/-- A property of fragments that is kept when another one, of which it holds too, trims them. -/
structure Trims (P : Block → Prop) : Prop where
  fits : ∀ {b}, P b → b.Fits
  cutat : ∀ {b c}, P b → P c → b.foff < c.foff → c.foff < b.fend → b.fend < c.fend →
    P (b.cutat c.foff)
  fronted : ∀ {b c}, P b → P c → c.foff ≤ b.foff → b.foff < c.fend → c.fend < b.fend →
    P (b.fronted c.fend)

/-- The fragments of a queue. -/
structure Queued (P : Block → Prop) (q : List Block) : Prop where
  all : ∀ b ∈ q, P b
  apart : Apart foff fend q

theorem Queued.tail (h : Queued P (b :: q)) : Queued P q :=
  ⟨fun c hc => h.all c (List.mem_cons_of_mem b hc), (List.pairwise_cons.mp h.apart).2⟩

theorem Queued.head_le (h : Queued P (b :: q)) : ∀ c ∈ q, b.fend ≤ c.foff :=
  (List.pairwise_cons.mp h.apart).1

theorem foff_le_fend (b : Block) : b.foff ≤ b.fend := Nat.le_add_right _ _

/-- How the fragments of a queue are trimmed. -/
def cuts : Cuts Block := ⟨foff, fend, Block.cutat, Block.fronted⟩

theorem cuts_lawful : cuts.Lawful where
  le := foff_le_fend
  cut_lo _ _ := rfl
  cut_hi h := cutat_fend h
  cut_of_le h := cutat_of_le h
  front_lo _ _ := rfl
  front_hi h h' := fronted_fend h h'

theorem Queued.laid (h : Queued P q) : Laid cuts P q := ⟨h.all, h.apart⟩

/-- The queue with the new fragment in its place. -/
structure Inserted (P : Block → Prop) (q : List Block) (bp : Block) (q' : List Block) : Prop where
  queued : Queued P q'
  covers : ∀ x, Covers foff fend q' x ↔ Covers foff fend q x ∨ (bp.foff ≤ x ∧ x < bp.fend)
  head : (∃ l, q' = bp :: l ∧ ∀ b ∈ q, bp.foff ≤ b.foff) ∨
    ∃ h t l, q = h :: t ∧ h.foff < bp.foff ∧ q' = h.cutat bp.foff :: l

theorem uncover_eq (h : ∀ b ∈ l, b.Fits) (x : Nat) : uncover x l = .ok (Lib.Pieces.uncover cuts x l) := by
  induction l with
  | nil => rfl
  | cons b l ih =>
    unfold uncover Lib.Pieces.uncover
    have hlo : cuts.lo b = b.foff := rfl
    have hhi : cuts.hi b = b.fend := rfl
    rw [hlo, hhi]
    split_ifs with h₁ h₂ h₃ h₃
    · rfl
    · rw [(h b List.mem_cons_self).front (Nat.le_of_not_le h₁) h₃]
      rfl
    · unfold Block.fend at h₃
      omega
    · unfold Block.fend at h₃
      omega
    · exact ih fun c hc => h c (List.mem_cons_of_mem b hc)

/-- The new fragment is laid over the others. -/
theorem insert_eq (h : ∀ b ∈ q, b.Fits) (bp : Block) : insert q bp = .ok (place cuts q bp) := by
  unfold insert place
  have hlo : ∀ b : Block, cuts.lo b = b.foff := fun _ => rfl
  simp only [hlo]
  rw [uncover_eq (fun b hb => h b ((List.dropWhile_suffix _).subset hb))]
  cases (q.takeWhile fun b => b.foff < bp.foff).getLast? with
  | none => rfl
  | some p =>
    have hcov : (0 < p.foff + p.flen - bp.foff ∧ bp.flen ≤ p.foff + p.flen - bp.foff) ↔
        (bp.foff < cuts.hi p ∧ cuts.hi bp ≤ cuts.hi p) := by
      change _ ↔ bp.foff < p.foff + p.flen ∧ bp.foff + bp.flen ≤ p.foff + p.flen
      omega
    simp only [hcov]
    split_ifs
    · rfl
    · rfl

/-- A fragment is put into its place, or it is covered. -/
theorem insert_spec (hP : Trims P) (hq : Queued P q) (hbp : P bp) :
    (insert q bp = .ok none ∧ ∃ b ∈ q, b.foff < bp.foff ∧ bp.foff < b.fend ∧ bp.fend ≤ b.fend) ∨
      ∃ q', insert q bp = .ok (some q') ∧ Inserted P q bp q' := by
  rw [insert_eq fun b hb => hP.fits (hq.all b hb)]
  rcases place_spec cuts_lawful hq.laid hbp
    (fun b hb h₁ h₂ h₃ => hP.cutat (hq.all b hb) hbp h₁ h₂ h₃)
    (fun b hb h₁ h₂ h₃ => hP.fronted (hq.all b hb) hbp h₁ h₂ h₃) with ⟨hp, hc⟩ | ⟨q', hp, hq'⟩
  · exact .inl ⟨congrArg _ hp, hc⟩
  · refine .inr ⟨q', congrArg _ hp, ⟨hq'.laid.all, hq'.laid.apart⟩, hq'.covers, ?_⟩
    exact hq'.head

/-! ## The packet -/

/-- The data of a fragment. -/
def Block.payload (b : Block) : List UInt8 := window b.mem (b.rp + IP4HDR) b.flen

/-- A fragment behind the first one in the packet. -/
def Block.stripped (b : Block) : Block :=
  { b with rp := b.rp + IP4HDR, wp := b.rp + IP4HDR + b.flen }

theorem Block.Fits.strip (hb : b.Fits) : b.strip = .ok b.stripped := by
  have h₁ := hb.data
  have h₂ := hb.lim
  unfold Block.strip Block.setrp
  rw [if_pos (by omega), Except.bind, Block.setwp, if_pos (by simp only; omega)]
  rfl

theorem strips_eq (h : ∀ b ∈ l, b.Fits) : strips l = .ok (l.map Block.stripped) := by
  induction l with
  | nil => rfl
  | cons b l ih =>
    rw [strips, (h b List.mem_cons_self).strip, Except.bind,
      ih fun c hc => h c (List.mem_cons_of_mem b hc)]
    rfl

/-- The blocks of the packet and the length that is stored. -/
theorem glue_eq (hh : h.Fits) (h0 : h.foff = 0) (ht : ∀ b ∈ l, b.Fits) :
    glue (h :: l) = .ok (({ h with wp := h.rp + h.length } : Block).hnputs 2
      (h.length + (l.map (·.flen)).sum) :: l.map Block.stripped) := by
  have h₁ := (hh.head h0).2
  have h₂ := hh.lim
  rw [glue, Block.setwp, if_pos (by omega), Except.bind, strips_eq ht]
  rfl

theorem Block.Fits.stripped_ordered (hb : b.Fits) : b.stripped.Ordered := by
  have h₁ := hb.data
  have h₂ := hb.lim
  exact ⟨Nat.le_add_right _ _, by simp only [Block.stripped]; omega⟩

theorem Block.stripped_data (b : Block) : b.stripped.data = b.payload := by
  unfold Block.data Block.BLEN
  simp only [Block.stripped, Block.payload, Nat.add_sub_cancel_left]

theorem bytes_stripped (l : List Block) : bytes (l.map Block.stripped) = l.flatMap payload := by
  rw [bytes, List.flatMap_map]
  exact congrArg (fun f => l.flatMap f) (funext Block.stripped_data)

/-- What the header of the first fragment says that follows it. -/
theorem bytes_head (hh : h.Fits) (h0 : h.foff = 0) (v : Nat) :
    (({ h with wp := h.rp + h.length } : Block).hnputs 2 v).data.drop IP4HDR =
      window h.mem (h.rp + IP4HDR) (h.length - IP4HDR) := by
  have h₁ := (hh.head h0).1
  have hlen : (({ h with wp := h.rp + h.length } : Block).hnputs 2 v).BLEN = h.length :=
    Nat.add_sub_cancel_left _ _
  rw [Block.data, window_drop (by rw [hlen]; omega), hlen]
  exact window_hnputs (by simp only [hnputs_rp, IP4HDR]; omega)

/-! ## A fragment that arrives -/

/-- What a caller hands over: the blocks of a packet, with the header in the first one. -/
structure Arrived (bp : Block) (next : List Block) : Prop where
  first : bp.Ordered
  rest : ∀ b ∈ next, b.Ordered ∧ 0 < b.BLEN
  header : IP4HDR ≤ bp.BLEN

variable {next : List Block}

/-- The packet is in one block, with the same bytes. -/
theorem Arrived.gather (ha : Arrived bp next) :
    ∃ b, gather bp next = (b, []) ∧ b.Ordered ∧ bytes [b] = bytes (bp :: next) ∧
      IP4HDR ≤ b.BLEN := by
  unfold Ip.gather
  by_cases hn : next = []
  · subst hn
    exact ⟨bp, if_pos rfl, ha.first, rfl, ha.header⟩
  rw [if_neg hn]
  obtain ⟨⟨b, l⟩, hp⟩ := Option.isSome_iff_exists.mp
    (pullupblock_isSome (Nat.le_refl (blocklen (bp :: next))))
  obtain ⟨ho, -, hbytes, hlen, hpos⟩ := pullupblock_spec ha.first (fun c hc => (ha.rest c hc).1) hp
  rw [hp, Option.getD_some]
  have hl : l = [] := by
    -- all the bytes are in the first block, and no block is empty
    cases l with
    | nil => rfl
    | cons c l =>
      have h₁ := congrArg List.length hbytes
      have h₂ := hpos (fun d hd => (ha.rest d hd).2) c List.mem_cons_self
      rw [← blocklen_eq, ← blocklen_eq, blocklen, List.map_cons, List.map_cons, List.sum_cons,
        List.sum_cons] at h₁
      omega
  subst hl
  refine ⟨b, rfl, ho, hbytes, le_trans ?_ hlen⟩
  rw [blocklen, List.map_cons, List.sum_cons]
  exact ha.header.trans (Nat.le_add_right _ _)

/-- The `Ipfrag` in front changes neither the header nor the data. -/
theorem tag_spec (offset : Nat) (hb : b.Ordered) (hlen : IP4HDR ≤ b.length) (hmax : b.length ≤ b.BLEN) :
    (tag offset b).Ordered ∧ (tag offset b).data = b.data ∧
      (tag offset b).foff = offset <<< 3 % 65536 ∧ (tag offset b).flen = b.length - IP4HDR ∧
      (tag offset b).rp + b.length ≤ (tag offset b).wp := by
  obtain ⟨h₁, h₂⟩ := reserve_spec hb
  have h₃ := b.nhgets_lt 2
  have h₄ := congrArg List.length h₂
  rw [data_length, data_length] at h₄
  refine ⟨h₁, h₂, rfl, ?_, ?_⟩
  · unfold tag Block.length IP4HDR at *
    simp only
    omega
  · have := h₁.1
    unfold BLEN at *
    simp only [tag]
    omega

/-- The fields of the header are those of the packet that arrived. -/
theorem header_congr {b c : Block} {l l' : List Block} (h : bytes (b :: l) = bytes (c :: l'))
    (hb : IP4HDR ≤ b.BLEN) (hc : IP4HDR ≤ c.BLEN) :
    b.length = c.length ∧ b.frag = c.frag ∧ b.key = c.key ∧ b.more = c.more ∧ b.tos = c.tos := by
  have hs : ∀ o, o + 1 < IP4HDR → b.nhgets o = c.nhgets o := fun o ho =>
    nhgets_congr h (ho.trans_le hb) (ho.trans_le hc)
  have hl : ∀ o, o + 3 < IP4HDR → b.nhgetl o = c.nhgetl o := fun o ho =>
    nhgetl_congr h (ho.trans_le hb) (ho.trans_le hc)
  have hbyte : ∀ o, o < IP4HDR → b.byte o = c.byte o := fun o ho =>
    byte_congr h (ho.trans_le hb) (ho.trans_le hc)
  refine ⟨hs 2 (by decide), hs 6 (by decide), ?_, ?_, hbyte 1 (by decide)⟩
  · rw [Block.key, Block.key, Block.src, Block.src, Block.dst, Block.dst, Block.id, Block.id,
      hl 12 (by decide), hl 16 (by decide), hs 4 (by decide)]
  · rw [Block.more, Block.more, hbyte 6 (by decide)]

/-- A fragment that does not lie: with its `Ipfrag` it fits its block, and it has the header and the
data of the packet that arrived. -/
theorem Arrived.tag (ha : Arrived bp next) (hbytes : bytes [b] = bytes (bp :: next))
    (ho : b.Ordered) (hb : IP4HDR ≤ b.BLEN) (hmin : IP4HDR ≤ bp.length)
    (hmax : bp.length ≤ blocklen (bp :: next)) (hend : bp.offset + bp.length ≤ 65535) :
    (tag bp.frag b).Fits ∧ (tag bp.frag b).flen = bp.length - IP4HDR ∧
      (tag bp.frag b).length = bp.length ∧ (tag bp.frag b).more = bp.more ∧
      (tag bp.frag b).payload = pktdata (bp :: next) bp.length := by
  obtain ⟨hlen, -⟩ := header_congr hbytes hb ha.header
  have hmax' : bp.length ≤ b.BLEN := by
    have h₁ := congrArg List.length hbytes
    rw [← blocklen_eq, ← blocklen_eq, blocklen, List.map_singleton, List.sum_singleton] at h₁
    exact hmax.trans h₁.ge
  obtain ⟨h₁, h₂, h₃, h₄, h₅⟩ := tag_spec bp.frag ho (by rwa [hlen]) (by rwa [hlen])
  have hbytes' : bytes [Ip.tag bp.frag b] = bytes (bp :: next) := by
    rw [← hbytes, bytes_cons, bytes_cons, h₂]
  have hblen : (Ip.tag bp.frag b).BLEN = b.BLEN := by rw [← data_length, h₂, data_length]
  obtain ⟨hlen', -, -, hmore, -⟩ := header_congr hbytes' (by rwa [hblen]) ha.header
  rw [hlen] at h₄ h₅
  refine ⟨⟨?_, h₁.2, ?_, fun _ => ⟨?_, ?_⟩⟩, h₄, hlen', hmore, ?_⟩
  · rw [h₄]
    omega
  · rw [Block.fend, h₃, h₄]
    unfold Block.offset at hend
    omega
  · rw [h₄, hlen']
    omega
  · rwa [hlen']
  · rw [pktdata, ← hbytes', bytes_cons, bytes_nil, List.append_nil, Block.data,
      window_drop (by omega), window_take (by omega), Block.payload, h₄]

/-- The queue of a datagram. -/
def IP.queue (ip : IP) (key : Key) : Option Fragment4 := ip.flisthead4.find? (·.key = key)

theorem search_spec (now : Nat) (key : Key) (l : List Fragment4) :
    (∀ f ∈ (search now key l).1, f ∈ l ∧ f.key ≠ key) ∧
      match (search now key l).2 with
      | none => l.find? (·.key = key) = none
      | some (f, after) => l.find? (·.key = key) = some f ∧ f.key = key ∧ f ∈ l ∧
          ∀ g ∈ after, g ∈ l := by
  induction l with
  | nil => exact ⟨nofun, rfl⟩
  | cons f l ih =>
    unfold search
    by_cases hf : f.key = key
    · rw [if_pos hf]
      refine ⟨nofun, ?_, hf, List.mem_cons_self, fun g hg => List.mem_cons_of_mem f hg⟩
      rw [List.find?_cons, decide_eq_true hf]
    · rw [if_neg hf]
      have hfind : (f :: l).find? (·.key = key) = l.find? (·.key = key) := by
        rw [List.find?_cons, decide_eq_false hf]
      obtain ⟨h₁, h₂⟩ := ih
      have hmem : ∀ g ∈ (search now key l).1, g ∈ f :: l ∧ g.key ≠ key := fun g hg =>
        ⟨List.mem_cons_of_mem f (h₁ g hg).1, (h₁ g hg).2⟩
      have hfst : ∀ g ∈ (f :: (search now key l).1), g ∈ f :: l ∧ g.key ≠ key := by
        rintro g (_ | ⟨_, hg⟩)
        · exact ⟨List.mem_cons_self, hf⟩
        · exact hmem g hg
      have hsnd : match (search now key l).2 with
          | none => (f :: l).find? (·.key = key) = none
          | some (g, after) => (f :: l).find? (·.key = key) = some g ∧ g.key = key ∧ g ∈ f :: l ∧
              ∀ k ∈ after, k ∈ f :: l := by
        rw [hfind]
        split <;> rename_i hr <;> rw [hr] at h₂
        · exact h₂
        · exact ⟨h₂.1, h₂.2.1, List.mem_cons_of_mem f h₂.2.2.1, fun k hk =>
            List.mem_cons_of_mem f (h₂.2.2.2 k hk)⟩
      simp only
      split
      · exact ⟨hmem, hsnd⟩
      · exact ⟨hfst, hsnd⟩

variable {f : Fragment4} {key : Key}

/-- The queue is found again behind those that stand before it. -/
theorem queue_cons {l : List Fragment4} (hf : f.key = key) :
    (IP.mk (f :: l)).queue key = some f := by
  rw [IP.queue, List.find?_cons, decide_eq_true hf]

theorem queue_append {kept after : List Fragment4} (hk : ∀ g ∈ kept, g.key ≠ key) (hf : f.key = key)
    :
    (IP.mk (kept ++ f :: after)).queue key = some f := by
  have hnone : kept.find? (·.key = key) = none :=
    List.find?_eq_none.mpr fun g hg => by simpa using hk g hg
  rw [IP.queue, List.find?_append, hnone, Option.none_or, List.find?_cons, decide_eq_true hf]

/-- What becomes of a packet `b` that arrives: the queues afterwards and the packet that is
returned. -/
inductive Outcome (P : Block → Prop) (now : Nat) (ip : IP) (key : Key) (offset : Nat) (b : Block) :
    IP → Option (List Block) → Prop
  /-- it is not a fragment -/
  | accept {ip' : IP} : accepted offset b → (∀ g ∈ ip'.flisthead4, g ∈ ip.flisthead4) →
      Outcome P now ip key offset b ip' (some [b])
  /-- it is the first one of its datagram -/
  | alloc {ip' : IP} : ¬ accepted offset b → ip.queue key = none →
      (∀ g ∈ ip'.flisthead4, g = ⟨key, [tag offset b], now + 30000⟩ ∨ g ∈ ip.flisthead4) →
      ip'.queue key = some ⟨key, [tag offset b], now + 30000⟩ →
      Outcome P now ip key offset b ip' none
  /-- the one before it covers it -/
  | covered {ip' : IP} {f : Fragment4} : ¬ accepted offset b → ip.queue key = some f →
      (∃ c ∈ f.blist, c.foff < (tag offset b).foff ∧ (tag offset b).foff < c.fend ∧
        (tag offset b).fend ≤ c.fend) →
      (∀ g ∈ ip'.flisthead4, g ∈ ip.flisthead4) → ip'.queue key = some f →
      Outcome P now ip key offset b ip' none
  | queued {ip' : IP} {f : Fragment4} {q : List Block} : ¬ accepted offset b →
      ip.queue key = some f → Inserted P f.blist (tag offset b) q → complete 0 q = false →
      (∀ g ∈ ip'.flisthead4, g = { f with blist := q } ∨ g ∈ ip.flisthead4) →
      ip'.queue key = some { f with blist := q } → Outcome P now ip key offset b ip' none
  | glued {ip' : IP} {f : Fragment4} {q pkt : List Block} : ¬ accepted offset b →
      ip.queue key = some f → Inserted P f.blist (tag offset b) q → complete 0 q = true →
      glue q = .ok pkt → (∀ g ∈ ip'.flisthead4, g ∈ ip.flisthead4) →
      Outcome P now ip key offset b ip' (some pkt)

theorem complete_head {pos : Nat} (h : complete pos q = true) :
    ∃ b l, q = b :: l ∧ b.foff = pos := by
  cases q with
  | nil => cases h
  | cons b l =>
    rw [complete] at h
    by_cases hb : b.foff = pos
    · exact ⟨b, l, rfl, hb⟩
    · rw [if_pos hb] at h
      cases h

variable {offset : Nat} {ip : IP}

/-- No pointer leaves its block, and the outcome is one of the five. -/
theorem reassemble_spec (hP : Trims P) (now : Nat) (hg : gather bp next = (b, []))
    (hq : ∀ f ∈ ip.flisthead4, f.key = bp.key → Queued P f.blist)
    (hb : ¬ accepted offset b → P (tag offset b)) :
    ∃ ip' r, ip4reassemble now ip offset bp next = .ok (ip', r) ∧
      Outcome P now ip bp.key offset b ip' r := by
  obtain ⟨hkept, hfound⟩ := search_spec now bp.key ip.flisthead4
  unfold ip4reassemble
  simp only [hg]
  by_cases hacc : accepted offset b
  · rw [if_pos hacc]
    refine ⟨_, _, rfl, .accept hacc fun g hg => ?_⟩
    rcases List.mem_append.mp hg with hg | hg
    · exact (hkept g hg).1
    · cases hs : (search now bp.key ip.flisthead4).2 with
      | none =>
        rw [hs] at hg
        cases hg
      | some r =>
        rw [hs] at hg hfound
        exact hfound.2.2.2 g hg
  rw [if_neg hacc]
  have htag := hb hacc
  cases hs : (search now bp.key ip.flisthead4).2 with
  | none =>
    rw [hs] at hfound
    refine ⟨_, _, rfl, .alloc hacc hfound ?_ ?_⟩
    · rintro g (_ | ⟨_, hg⟩)
      · exact .inl rfl
      · split at hg
        · exact .inr (hkept g hg).1
        · exact .inr (hkept g (List.dropLast_subset _ hg)).1
    · exact queue_cons rfl
  | some r =>
    obtain ⟨f, after⟩ := r
    rw [hs] at hfound
    obtain ⟨hfind, hkey, hmem, hafter⟩ := hfound
    have hne : ∀ g ∈ (search now bp.key ip.flisthead4).1, g.key ≠ bp.key := fun g hg =>
      (hkept g hg).2
    have hold : ∀ (f' : Fragment4), ∀ g ∈ (search now bp.key ip.flisthead4).1 ++ f' :: after,
        g = f' ∨ g ∈ ip.flisthead4 := by
      intro f' g hg
      rcases List.mem_append.mp hg with hg | hg
      · exact .inr (hkept g hg).1
      · exact (List.mem_cons.mp hg).imp_right (hafter g)
    simp only
    rcases insert_spec hP (hq f hmem hkey) htag with ⟨hi, hc⟩ | ⟨q, hi, hins⟩
    · rw [hi]
      refine ⟨_, _, rfl, .covered hacc hfind hc (fun g hg => ?_) (queue_append hne hkey)⟩
      exact (hold f g hg).elim (fun he => he ▸ hmem) fun h => h
    · rw [hi]
      simp only
      by_cases hcomp : complete 0 q = true
      · rw [if_pos hcomp]
        obtain ⟨h, l, rfl, h0⟩ := complete_head hcomp
        have hfit : ∀ b ∈ h :: l, b.Fits := fun b hb => hP.fits (hins.queued.all b hb)
        have hglue := glue_eq (hfit h List.mem_cons_self) h0 fun b hb =>
          hfit b (List.mem_cons_of_mem h hb)
        rw [hglue]
        refine ⟨_, _, rfl, .glued hacc hfind hins hcomp hglue fun g hg => ?_⟩
        rcases List.mem_append.mp hg with hg | hg
        · exact (hkept g hg).1
        · exact hafter g hg
      · rw [if_neg hcomp]
        exact ⟨_, _, rfl, .queued hacc hfind hins (by simpa using hcomp) (hold _)
          (queue_append hne hkey)⟩

/-- The queues of the datagrams for which `K` holds keep their fragments as `P` says. -/
theorem Outcome.all {now : Nat} {ip' : IP} {r : Option (List Block)} {K : Key → Prop}
    (h : Outcome P now ip key offset b ip' r) (hp : ¬ accepted offset b → P (tag offset b))
    (hi : ∀ f ∈ ip.flisthead4, K f.key → Queued P f.blist) :
    ∀ f ∈ ip'.flisthead4, K f.key → Queued P f.blist := by
  intro g hg hkey
  cases h with
  | accept _ hold => exact hi g (hold g hg) hkey
  | alloc hacc _ hold _ =>
    rcases hold g hg with rfl | hg
    · exact ⟨fun c hc => List.mem_singleton.mp hc ▸ hp hacc, List.pairwise_singleton _ _⟩
    · exact hi g hg hkey
  | covered _ _ _ hold _ => exact hi g (hold g hg) hkey
  | queued _ _ hins _ hold _ =>
    rcases hold g hg with rfl | hg
    · exact hins.queued
    · exact hi g hg hkey
  | glued _ _ _ _ _ hold => exact hi g (hold g hg) hkey

theorem queue_mem (h : ip.queue key = some f) : f ∈ ip.flisthead4 ∧ f.key = key :=
  ⟨List.mem_of_find?_eq_some h, by simpa using List.find?_some h⟩

/-- The queues of other datagrams are kept or freed. -/
theorem reassemble_others {now : Nat} {ip' : IP} {r : Option (List Block)}
    (h : ip4reassemble now ip offset bp next = .ok (ip', r)) :
    ∀ g ∈ ip'.flisthead4, g.key = bp.key ∨ g ∈ ip.flisthead4 := by
  obtain ⟨hkept, hfound⟩ := search_spec now bp.key ip.flisthead4
  unfold ip4reassemble at h
  intro g hg
  cases hs : (search now bp.key ip.flisthead4).2 with
  | none =>
    simp only [hs] at h
    split_ifs at h with hacc
    · cases h
      simp only [Option.map_none, Option.getD_none, List.append_nil] at hg
      exact .inr (hkept g hg).1
    · cases h
      rcases List.mem_cons.mp hg with rfl | hg
      · exact .inl rfl
      · split at hg
        · exact .inr (hkept g hg).1
        · exact .inr (hkept g (List.dropLast_subset _ hg)).1
  | some r =>
    obtain ⟨f, after⟩ := r
    simp only [hs] at h hfound
    obtain ⟨-, hkey, hmem, hafter⟩ := hfound
    have hold : ∀ f' : Fragment4, f'.key = bp.key →
        g ∈ (search now bp.key ip.flisthead4).1 ++ f' :: after →
        g.key = bp.key ∨ g ∈ ip.flisthead4 := by
      intro f' hf' hg
      rcases List.mem_append.mp hg with hg | hg
      · exact .inr (hkept g hg).1
      · exact (List.mem_cons.mp hg).imp (fun he => by rw [he, hf']) (hafter g)
    have hgone : g ∈ (search now bp.key ip.flisthead4).1 ++ after →
        g.key = bp.key ∨ g ∈ ip.flisthead4 := by
      intro hg
      rcases List.mem_append.mp hg with hg | hg
      · exact .inr (hkept g hg).1
      · exact .inr (hafter g hg)
    split_ifs at h with hacc
    · cases h
      simp only [Option.map_some, Option.getD_some] at hg
      exact hgone hg
    · cases hins : insert f.blist (tag offset (gather bp next).1) with
      | error e =>
        rw [hins] at h
        cases h
      | ok q =>
        cases q with
        | none =>
          rw [hins] at h
          cases h
          exact hold f hkey hg
        | some q =>
          simp only [hins] at h
          split_ifs at h
          · cases hglue : glue q with
            | error e =>
              rw [hglue] at h
              cases h
            | ok pkt =>
              rw [hglue] at h
              cases h
              exact hgone hg
          · cases h
            exact hold { f with blist := q } hkey hg

/-! ## The first fragment -/

/-- The first fragment of the queue is as it came, and it still is when the new fragment has been
put into its place. -/
def HeadWhole (ip : IP) (bp : Block) : Prop :=
  bp.offset = 0 ∨ ∀ f h l, ip.queue bp.key = some f → f.blist = h :: l →
    h.length = IP4HDR + h.flen ∧ h.fend ≤ bp.offset

/-- The first fragment of a datagram has the length that its header says. -/
theorem headWhole_iff (hfit : ∀ c ∈ f.blist, c.Fits) (hq : ip.queue bp.key = some f)
    (hins : Inserted P f.blist (tag bp.frag b) (c :: l)) (h0 : c.foff = 0)
    (htag : (tag bp.frag b).length = IP4HDR + (tag bp.frag b).flen) :
    c.length = IP4HDR + c.flen ↔ HeadWhole ip bp := by
  have hoff : (tag bp.frag b).foff = bp.offset := rfl
  rcases hins.head with ⟨l', he, -⟩ | ⟨h, t, l', hq', hlt, he⟩
  · -- the new fragment is the first one
    cases he
    exact iff_of_true htag (.inl h0)
  · cases he
    have hhead : HeadWhole ip bp ↔ h.length = IP4HDR + h.flen ∧ h.fend ≤ bp.offset := by
      constructor
      · intro hw
        rcases hw with hw | hw
        · rw [hoff, hw] at hlt
          cases hlt
        · exact hw f h t hq hq'
      · intro hw
        refine .inr fun f' h' l' hf' hl' => ?_
        cases hq.symm.trans hf'
        cases hq'.symm.trans hl'
        exact hw
    have hc0 : h.foff = 0 := h0
    have hle := ((hfit h (hq' ▸ List.mem_cons_self)).head h0).1
    rw [hhead, hoff]
    change h.length = IP4HDR + (h.flen - (h.foff + h.flen - bp.offset)) ↔
      h.length = IP4HDR + h.flen ∧ h.foff + h.flen ≤ bp.offset
    omega

end NixMark.Ip
