import NixMark.Devmnt.Spec
import Mathlib.Algebra.Order.BigOperators.Group.List

/-!
# The framing of replies

Successive calls of `mntrpcread` give the messages that the server sent, however the bytes are cut
into blocks (`mntrpcread_frames`). `Fed` is what holds of the queue and the blocks to come before
each call; `Headed` says what has been read when the length of the message is known.
-/

namespace NixMark.Devmnt

open Qio

variable {R : Type} {q : Queue} {src : List Bread} {msize : Int}

/-- The message sizes that `mntversion` accepts. -/
def sensible (msize : Int) : Prop := ¬(msize < 256 ∨ msize > 1024 * 1024)

/-- The input queue and the blocks that `bread` is going to return: they are distinct, and
`bread(c, msize)` returns `msize` bytes at most. -/
structure Fed (msize : Int) (q : Queue) (src : List Bread) : Prop where
  joined : Joined q
  nodup : (inuse q src).Nodup
  upto : ∀ b, .blocks b ∈ src → (blocklen b : Int) ≤ msize
  size : (blocklen q.bfirst : Int) ≤ 2 * msize

/-- The state with a queue that is no longer, and fewer blocks to come. -/
theorem Fed.of_suffix (h : Fed msize q src) (taken : List Bread) {q' : Queue} {src' : List Bread}
    (hs : src = taken ++ src') (hj : Joined q') (hn : (inuse q' src').Nodup)
    (hl : (blocklen q'.bfirst : Int) ≤ 2 * msize) : Fed msize q' src' where
  joined := hj
  nodup := hn
  upto b hb := h.upto b (hs ▸ List.mem_append_right _ hb)
  size := hl

theorem doread_size (len : Int) (hu : ∀ b, .blocks b ∈ src → (blocklen b : Int) ≤ msize) :
    (doread len q src).q.dlen ≤ max q.dlen (len + msize) := by
  induction src generalizing q with
  | nil =>
    rw [doread]
    split <;> exact Int.le_max_left _ _
  | cons r src ih =>
    cases r with
    | error =>
      rw [doread]
      split <;> exact Int.le_max_left _ _
    | blocks b =>
      have hb := hu b List.mem_cons_self
      have hadd : (qaddlist q b).dlen = q.dlen + blocklen b := rfl
      have ih := ih (q := qaddlist q b) fun c hc => hu c (List.mem_cons_of_mem _ hc)
      rw [doread]
      split
      · split
        · exact Int.le_max_left _ _
        · omega
      · exact Int.le_max_left _ _

theorem Fed.doread (h : Fed msize q src) {len : Int} (hl : len ≤ msize) :
    Fed msize (doread len q src).q (doread len q src).src := by
  have hd := doread_spec h.joined h.nodup len
  obtain ⟨taken, ht, -⟩ := hd.taken
  refine h.of_suffix taken ht hd.joined hd.nodup ?_
  have := doread_size (q := q) len h.upto
  have hq := h.size
  rw [← h.joined.dlen] at hq
  rw [← hd.joined.dlen]
  omega

theorem Fed.pulled (h : Fed msize q src) {n : Nat} {b nb : Block} {q' : Queue}
    (hp : Pulled q src n b nb q') : Fed msize q' src := by
  refine h.of_suffix [] rfl hp.joined hp.nodup ?_
  rw [blocklen_eq, hp.bytes, ← blocklen_eq]
  exact h.size

/-! ## The first block -/

/-- The length of the first block, of the queue or else of the blocks to come. -/
def firstlen (q : Queue) (src : List Bread) : Nat :=
  match q.bfirst, src with
  | b :: _, _ => BLEN b
  | [], .blocks (b :: _) :: _ => BLEN b
  | [], _ => 0

/-- Reading at least one byte leaves that block first. -/
theorem doread_first (h : Joined q) (hn : (inuse q src).Nodup) {len : Int} (h0 : 0 < len)
    (hs : (doread len q src).stop = none) :
    ∃ b next, (doread len q src).q.bfirst = b :: next ∧ BLEN b = firstlen q src := by
  match hq : q.bfirst, src with
  | b :: next, src =>
    obtain ⟨more, hm⟩ := (doread_spec h hn len).front
    exact ⟨b, next ++ more, by rw [hm, hq]; rfl, by simp only [firstlen, hq]⟩
  | [], src =>
    have hd : q.dlen < len := by
      rw [h.dlen, hq]
      exact h0
    match src with
    | [] => simp [doread, hd] at hs
    | .error :: src => simp [doread, hd] at hs
    | .blocks [] :: src => simp [doread, hd] at hs
    | .blocks (b :: bs) :: src =>
      simp only [doread, hd, if_true] at hs ⊢
      split at hs
      · exact absurd hs (by simp)
      · rename_i hb
        have hj := h.comes hn hb
        obtain ⟨more, hm⟩ := (doread_spec hj (h.inuse_add _ _ ▸ hn) len).front
        rw [if_neg hb]
        refine ⟨b, bs ++ more, ?_, by simp only [firstlen, hq]⟩
        rw [hm, h.add_bfirst, hq]
        rfl

/-- The bytes queued, from `n` on, when reading stops: there are `len`, or `bread` fails. -/
def buffered (len n : Int) : List Bread → Int
  | .blocks b :: src =>
    if n < len then if blocklen b = 0 then n else buffered len (n + blocklen b) src else n
  | _ => n

theorem doread_dlen (len : Int) (q : Queue) (src : List Bread) :
    (doread len q src).q.dlen = buffered len q.dlen src := by
  induction src generalizing q with
  | nil =>
    rw [doread, buffered.eq_def]
    split <;> rfl
  | cons r src ih =>
    cases r with
    | error =>
      rw [doread, buffered.eq_def]
      split <;> rfl
    | blocks b =>
      rw [doread, buffered]
      split
      · split
        · rfl
        · exact ih _
      · rfl

/-! ## The length, type and tag -/

/-- The bytes that `mntrpcread` reads first. -/
def least : Nat := BIT32SZ + BIT8SZ + BIT16SZ

/-- What has been read when `len` bytes have been asked for and `nb` is the first block, with `n`
bytes pulled up: it is the front of the bytes, no shorter than the first block was. -/
structure Headed (msize : Int) (q : Queue) (src : List Bread) (n : Nat) (len : Int) (nb : Block)
    (q' : Queue) (src' : List Bread) : Prop where
  fed : Fed msize q' src'
  taken : ∃ taken, src = taken ++ src' ∧ Whole taken ∧
    bytes q'.bfirst = bytes q.bfirst ++ avail taken
  data : nb.data = (stream q src).take (max n (firstlen q src))
  bfirst : ∃ next, q'.bfirst = nb :: next
  blen : BLEN nb = max n (firstlen q src)
  enough : len ≤ q'.dlen
  more : ∀ l, (doread l q' src').q.dlen = buffered (max len l) q.dlen src

variable {n : Nat} {len : Int} {nb : Block} {q' : Queue} {src' : List Bread}

theorem Headed.stream (h : Headed msize q src n len nb q' src') :
    stream q' src' = stream q src := by
  obtain ⟨taken, h1, h2, h3⟩ := h.taken
  rw [Devmnt.stream, Devmnt.stream, h3, h1, h2, List.append_assoc]

/-- With fewer bytes than that, the call ends as `bread` does. -/
theorem mntrpcread_few (M : Malloc) (cv : ConvM2S R) (h : Fed msize q src)
    (hl : (stream q src).length < least) :
    ∃ s, mntrpcread M cv msize q src =
      ⟨Stop.ret s, (doread least q src).q, (doread least q src).src⟩ := by
  have hd := doread_spec h.joined h.nodup least
  match hs : (doread least q src).stop with
  | none =>
    have := hd.stop_iff.mp hs
    omega
  | some s =>
    refine ⟨s, ?_⟩
    unfold mntrpcread
    rw [show BIT32SZ + BIT8SZ + BIT16SZ = least from rfl]
    simp only [hs]

theorem mntrpcread_headed (M : Malloc) (cv : ConvM2S R) (h : Fed msize q src)
    (hm : (least : Int) ≤ msize) (hl : least ≤ (stream q src).length) :
    ∃ nb q' src', mntrpcread M cv msize q src = readrest M cv msize nb q' src' ∧
      Headed msize q src least least nb q' src' := by
  have hd := doread_spec h.joined h.nodup least
  have hs := hd.stop_iff.mpr (by omega)
  have hfed := h.doread hm
  obtain ⟨b, next, hb, hfl⟩ := doread_first h.joined h.nodup (by decide) hs
  have hlen : (least : Int) ≤ blocklen (doread least q src).q.bfirst := by
    rw [← hd.joined.dlen]
    exact hd.enough.mp hs
  obtain ⟨nb, q', hp, hpd⟩ := pullup_spec M hd.joined hd.nodup hb hlen
  obtain ⟨taken, t1, t2, t3, -⟩ := hd.taken
  have hst := hd.stream_eq hs
  have hq' : q'.dlen = (doread least q src).q.dlen := hpd.dlen_eq hd.joined
  refine ⟨nb, q', (doread least q src).src, ?_, hfed.pulled hpd,
    ⟨taken, t1, t3 hs, hpd.bytes.trans t2⟩, ?_, hpd.bfirst, ?_, ?_, fun l => ?_⟩
  · unfold mntrpcread
    rw [show BIT32SZ + BIT8SZ + BIT16SZ = least from rfl]
    simp only [hs, hp]
  · rw [hpd.data_stream hlen hb, hst, ← hfl, Int.toNat_natCast]
  · rw [hpd.blen, hfl, Int.toNat_natCast]
  · rw [hq']
    exact hd.enough.mp hs
  · rw [doread_dlen, hq', ← doread_dlen, doread_again least l q src hs, doread_dlen]

/-- Reading on to `l` bytes, and pulling up `m` of them. -/
theorem Headed.next (M : Malloc) (h : Headed msize q src n len nb q' src') {l m : Int}
    (hm : l ≤ msize) (hl : l ≤ (Devmnt.stream q src).length)
    (hb : m ≤ buffered (max len l) q.dlen src) :
    (doread l q' src').stop = none ∧ l ≤ (doread l q' src').q.dlen ∧
    ∃ nb' q₂, pullup M (doread l q' src').q (doread l q' src').src m = .ok (nb', q₂) ∧
      Headed msize q src (max n m.toNat) (max len l) nb' q₂ (doread l q' src').src := by
  have hd := doread_spec h.fed.joined h.fed.nodup l
  have hs := hd.stop_iff.mpr (h.stream ▸ hl)
  have hfed := h.fed.doread hm
  obtain ⟨next, hnext⟩ := h.bfirst
  obtain ⟨more, hmore⟩ := hd.front
  have hbf : (doread l q' src').q.bfirst = nb :: (next ++ more) := by
    rw [hmore, hnext]
    rfl
  have hle : m ≤ blocklen (doread l q' src').q.bfirst := by
    rw [← hd.joined.dlen, h.more l]
    exact hb
  obtain ⟨nb', q₂, hp, hpd⟩ := pullup_spec M hd.joined hd.nodup hbf hle
  obtain ⟨taken, t1, t2, t3⟩ := h.taken
  obtain ⟨taken', u1, u2, u3, -⟩ := hd.taken
  have hq₂ : q₂.dlen = (doread l q' src').q.dlen := hpd.dlen_eq hd.joined
  have hmax : max m.toNat (BLEN nb) = max (max n m.toNat) (firstlen q src) := by
    rw [h.blen]
    omega
  refine ⟨hs, hd.enough.mp hs, nb', q₂, hp, hfed.pulled hpd, ?_, ?_, hpd.bfirst, ?_, ?_,
    fun l' => ?_⟩
  · refine ⟨taken ++ taken', by rw [List.append_assoc, ← u1, t1], t2.append (u3 hs), ?_⟩
    rw [hpd.bytes, u2, t3, t2, List.append_assoc]
  · rw [hpd.data_stream hle hbf, hd.stream_eq hs, h.stream, hmax]
  · rw [hpd.blen, hmax]
  · have hge : q'.dlen ≤ (doread l q' src').q.dlen := by
      rw [h.fed.joined.dlen, hd.joined.dlen, blocklen_eq, blocklen_eq, u2, List.length_append]
      omega
    rw [hq₂]
    exact Int.max_le.mpr ⟨Int.le_trans h.enough hge, hd.enough.mp hs⟩
  · rw [doread_dlen, hq₂, ← doread_dlen, doread_again l l' q' src' hs, h.more]
    congr 1
    omega

/-! ## The length of a message -/

variable {k : Nat}

theorem byteat_take {i : Nat} (s : List UInt8) (h : i < k) : byteat (s.take k) i = byteat s i := by
  simp only [byteat, List.getD_eq_getElem?_getD, List.getElem?_take_of_lt h]

theorem GBIT32_take (s : List UInt8) (h : BIT32SZ ≤ k) : GBIT32 (s.take k) = GBIT32 s := by
  simp only [BIT32SZ] at h
  simp only [GBIT32]
  rw [byteat_take s (show 0 < k by omega), byteat_take s (show 1 < k by omega),
    byteat_take s (show 2 < k by omega), byteat_take s (show 3 < k by omega)]

theorem GBIT32_range (p : List UInt8) : -2147483648 ≤ GBIT32 p ∧ GBIT32 p < 2147483648 := by
  unfold GBIT32 int32
  omega

theorem uint32_natCast (h : k < 4294967296) : uint32 k = k := by
  unfold uint32
  omega

theorem least_le : BIT32SZ ≤ max least (firstlen q src) ∧ BIT32SZ < max least (firstlen q src) := by
  have : BIT32SZ < least := by decide
  omega

/-- The length and the type that the call finds are those at the front of the bytes. -/
theorem Headed.GBIT32 (h : Headed msize q src least len nb q' src') :
    GBIT32 nb.data = Devmnt.GBIT32 (Devmnt.stream q src) := by
  rw [h.data, GBIT32_take _ least_le.1]

theorem Headed.type (h : Headed msize q src least len nb q' src') :
    nb.data[BIT32SZ]? = (Devmnt.stream q src)[BIT32SZ]? := by
  rw [h.data, List.getElem?_take_of_lt least_le.2]

/-! ## A whole message -/

variable {cv : ConvM2S R}

/-- From the call of `convM2S`, with the whole message in the queue. -/
theorem decode_ok (M : Malloc) (hlen len : Nat) (hf : Fed msize q src) (hm : sensible msize)
    {next : List Block} (hq : q.bfirst = nb :: next) (hh : hlen ≤ BLEN nb) (hl : hlen ≤ len)
    (he : len ≤ q.dlen) (hs : cv.seen nb.data (uint32 len) ≤ BLEN nb) {reply : R}
    (hc : cv.conv nb.data (uint32 len) = some reply) :
    ∃ b q', decode M cv nb q src hlen len = ⟨.ok reply b, q', src⟩ ∧ Fed msize q' src ∧
      bytes b = ((bytes q.bfirst).take len).drop hlen ∧
      bytes q'.bfirst = (bytes q.bfirst).drop len := by
  have hsize := hf.size
  rw [hf.joined.dlen] at he
  unfold sensible at hm
  obtain ⟨r, hr, hung⟩ := hang_spec M (inuse q src) hlen len hf.joined rfl
    (fun a ha => List.mem_append_left _ ha)
    (fun b rest hb => by rw [hq] at hb; rw [← (List.cons.inj hb).1]; exact hh) hl (by omega)
    (by rw [hq]; exact List.cons_ne_nil _ _) (by omega)
  refine ⟨r.1, r.2, ?_, ?_, hung.data, hung.rest⟩
  · unfold decode
    rw [if_neg (Nat.not_lt.mpr hs), hc, hr]
  · refine hf.of_suffix [] rfl hung.joined ?_ ?_
    · obtain ⟨-, hsrc, hd⟩ := List.nodup_append.mp hf.nodup
      refine List.nodup_append.mpr ⟨hung.joined.nodup, hsrc, fun a ha b hb hab => ?_⟩
      rcases hung.addrs a ha with ho | ho
      · exact hd a ho b hb hab
      · exact ho (List.mem_append_right _ (hab ▸ hb))
    · rw [blocklen_eq, hung.rest, List.length_drop, ← blocklen_eq]
      omega

/-- A well-formed message: its length field is its length, which holds the header and is at most
`msize`, and `convM2S` finds a message in it. -/
structure Wellformed (cv : ConvM2S R) (msize : Int) (m : List UInt8) : Prop where
  size : GBIT32 m = m.length
  least : least ≤ m.length
  most : (m.length : Int) ≤ msize
  Rread : m[BIT32SZ]? = some Rread → BIT32SZ + BIT8SZ + BIT16SZ + BIT32SZ ≤ m.length
  conv : ∃ r, cv.conv m m.length = some r

/-- The length of the header of a message: all but the data of an `Rread`. -/
def headerlen (m : List UInt8) : Nat :=
  if m[BIT32SZ]? = some Rread then BIT32SZ + BIT8SZ + BIT16SZ + BIT32SZ else m.length

variable {m : List UInt8}

theorem Wellformed.headerlen_le (h : Wellformed cv msize m) : headerlen m ≤ m.length := by
  unfold headerlen
  split
  · rename_i hr
    exact h.Rread hr
  · exact Nat.le_refl _

variable {p : List UInt8}

theorem hlenof_eq (h : p[BIT32SZ]? = m[BIT32SZ]?) (hm : BIT32SZ < m.length) :
    hlenof (p.getD BIT32SZ 0) m.length = headerlen m := by
  rw [List.getD_eq_getElem?_getD, h, List.getElem?_eq_getElem hm, Option.getD_some]
  unfold hlenof headerlen
  rw [List.getElem?_eq_getElem hm]
  simp only [Option.some.injEq]
  split <;> rfl

/-- `convM2S` finds in the header what it finds in the message. -/
theorem ConvM2S.Documented.conv_eq (hc : cv.Documented)
    (hp : p.take (headerlen m) = m.take (headerlen m)) (h4 : p[BIT32SZ]? = m[BIT32SZ]?) :
    cv.conv p m.length = cv.conv m m.length := by
  unfold headerlen at hp
  split at hp
  · rename_i hr
    rw [← hc.Rread_take p _ (h4.trans hr), hp, hc.Rread_take m _ hr]
  · rw [← hc.conv_take p, hp, hc.conv_take]

theorem ConvM2S.Documented.seen_headerlen (hc : cv.Documented) (h4 : p[BIT32SZ]? = m[BIT32SZ]?) :
    cv.seen p m.length ≤ headerlen m := by
  unfold headerlen
  split
  · rename_i hr
    exact hc.Rread_seen p _ (h4.trans hr)
  · exact hc.seen_le p _

/-- A list that begins with `m` and one that begins the same have `m` in front if long enough. -/
theorem take_front {rest s t : List UInt8} (h : s ++ t = m ++ rest) (hl : m.length ≤ s.length) :
    s = m ++ s.drop m.length := by
  have ht : s.take m.length = m := by
    have hst : (s ++ t).take m.length = s.take m.length := List.take_append_of_le_length hl
    rw [← hst, h, List.take_left]
  conv_lhs => rw [← List.take_append_drop m.length s, ht]

/-- A call that finds a well-formed message in front returns it and leaves what follows. -/
theorem mntrpcread_frame (M : Malloc) (hc : cv.Documented) (hm : sensible msize)
    (hf : Fed msize q src) {rest : List UInt8} (hw : Wellformed cv msize m)
    (hs : stream q src = m ++ rest) :
    ∃ r b q' src', mntrpcread M cv msize q src = ⟨.ok r b, q', src'⟩ ∧
      cv.conv m m.length = some r ∧ bytes b = m.drop (headerlen m) ∧ Fed msize q' src' ∧
      ∃ taken, src = taken ++ src' ∧ Whole taken ∧
        bytes q.bfirst ++ avail taken = m ++ bytes q'.bfirst := by
  have hleast := hw.least
  have hmost := hw.most
  have hle := hw.headerlen_le
  have hlt : BIT32SZ < m.length := Nat.lt_of_lt_of_le (by decide) hleast
  have hlen : m.length ≤ (stream q src).length := by
    rw [hs, List.length_append]
    exact Nat.le_add_right _ _
  have hu : uint32 (m.length : Int) = m.length := by
    unfold sensible at hm
    exact uint32_natCast (by omega)
  obtain ⟨r, hr⟩ := hw.conv
  obtain ⟨nb, q₁, src₁, he, hd⟩ := mntrpcread_headed M cv hf (by omega) (Nat.le_trans hleast hlen)
  -- the length and the type are those of the message
  have hfront : ∀ p : List UInt8, p = m ++ p.drop m.length →
      Devmnt.GBIT32 p = m.length ∧ p[BIT32SZ]? = m[BIT32SZ]? := by
    intro p hp
    have ht : p.take m.length = m := by rw [hp, List.take_left]
    rw [← GBIT32_take p (Nat.le_of_lt hlt), ht, ← List.getElem?_take_of_lt hlt, ht]
    exact ⟨hw.size, rfl⟩
  have hstream : stream q src = m ++ (stream q src).drop m.length := by
    rw [hs, List.drop_left]
  have hsize : Devmnt.GBIT32 nb.data = m.length := hd.GBIT32.trans (hfront _ hstream).1
  have htype : nb.data[BIT32SZ]? = m[BIT32SZ]? := hd.type.trans (hfront _ hstream).2
  -- the rest of the message is read, and the header pulled up
  have hd₁ := doread_spec hd.fed.joined hd.fed.nodup m.length
  have hs₁ := hd₁.stop_iff.mpr (by rw [hd.stream]; exact_mod_cast hlen)
  have henough := hd₁.enough.mp hs₁
  obtain ⟨-, -, nb₂, q₂, hp, hd₂⟩ := hd.next M (l := m.length) (m := headerlen m) hmost
    (by exact_mod_cast hlen) (by rw [← hd.more]; omega)
  obtain ⟨taken, ht, hwhole, hbytes⟩ := hd₂.taken
  obtain ⟨next, hnext⟩ := hd₂.bfirst
  have hq₂ : m.length ≤ (bytes q₂.bfirst).length := by
    have h := hd₂.enough
    rw [hd₂.fed.joined.dlen, blocklen_eq] at h
    omega
  have hm₂ : bytes q₂.bfirst = m ++ (bytes q₂.bfirst).drop m.length :=
    take_front (hd₂.stream.trans hs) hq₂
  have hblen : headerlen m ≤ BLEN nb₂ := by
    rw [hd₂.blen, Int.toNat_natCast]
    omega
  have htake : nb₂.data.take (headerlen m) = m.take (headerlen m) := by
    have h : nb₂.data.take (headerlen m) = (bytes q₂.bfirst).take (headerlen m) := by
      rw [hnext, bytes_cons, List.take_append_of_le_length hblen]
    rw [h, hm₂, List.take_append_of_le_length hle]
  have htype₂ : nb₂.data[BIT32SZ]? = m[BIT32SZ]? := by
    rw [hd₂.data, List.getElem?_take_of_lt (Nat.lt_of_lt_of_le (by decide) (Nat.le_trans
      (Nat.le_max_left least _) (Nat.le_max_left _ _)))]
    exact (hfront _ hstream).2
  obtain ⟨b, q₃, hdec, hf₃, hb, hq₃⟩ := decode_ok M (headerlen m) m.length hd₂.fed hm
    hnext hblen hle (by rw [hd₂.fed.joined.dlen, blocklen_eq]; exact_mod_cast hq₂)
    (by rw [hu]; exact Nat.le_trans (hc.seen_headerlen htype₂) hblen)
    (by rw [hu, hc.conv_eq htake htype₂]; exact hr)
  refine ⟨r, b, q₃, _, ?_, hr, ?_, hf₃, taken, ht, hwhole, ?_⟩
  · rw [he, readrest]
    dsimp only
    rw [hsize, if_neg (by omega), hs₁]
    dsimp only
    rw [hlenof_eq htype hlt, hp]
    exact hdec
  · rw [hb, hm₂, List.take_left]
  · rw [← hbytes, hq₃]
    exact hm₂

/-- `n` calls in a row that all return 0: the messages with what they leave in `r->b`, the queue,
and the calls of `bread` not yet made. -/
def replies (M : Malloc) (cv : ConvM2S R) (msize : Int) :
    Nat → Queue → List Bread → Option (List (R × List UInt8) × Queue × List Bread)
  | 0, q, src => some ([], q, src)
  | n + 1, q, src =>
    match mntrpcread M cv msize q src with
    | ⟨.ok reply b, q, src⟩ =>
      (replies M cv msize n q src).map fun r => ((reply, bytes b) :: r.1, r.2)
    | _ => none

/-- Successive calls of `mntrpcread` give the well-formed messages at the front of the bytes, in
order and each with the bytes that follow its header, however the bytes come in blocks; what has
been read of the bytes behind them is in the queue. -/
theorem mntrpcread_frames (M : Malloc) {cv : ConvM2S R} (hc : cv.Documented) {msize : Int}
    (hm : sensible msize) {q : Queue} {src : List Bread} (hf : Fed msize q src)
    (ms : List (List UInt8)) (hw : ∀ m ∈ ms, Wellformed cv msize m) (tail : List UInt8)
    (hs : bytes q.bfirst ++ avail src = ms.flatten ++ tail) :
    ∃ rs q' src', replies M cv msize ms.length q src = some (rs, q', src') ∧
      List.Forall₂ (fun m r => cv.conv m m.length = some r.1 ∧ r.2 = m.drop (headerlen m)) ms rs ∧
      Fed msize q' src' ∧ bytes q'.bfirst ++ avail src' = tail ∧
      ∃ taken, src = taken ++ src' ∧ bytes q.bfirst ++ avail taken = ms.flatten ++ bytes q'.bfirst := by
  suffices h : ∃ rs q' src', replies M cv msize ms.length q src = some (rs, q', src') ∧
      List.Forall₂ (fun m r => cv.conv m m.length = some r.1 ∧ r.2 = m.drop (headerlen m)) ms rs ∧
      Fed msize q' src' ∧ ∃ taken, src = taken ++ src' ∧ Whole taken ∧
        bytes q.bfirst ++ avail taken = ms.flatten ++ bytes q'.bfirst by
    obtain ⟨rs, q', src', h1, h2, h3, taken, h4, h5, h6⟩ := h
    refine ⟨rs, q', src', h1, h2, h3, ?_, taken, h4, h6⟩
    rw [h4, h5, ← List.append_assoc, h6, List.append_assoc] at hs
    exact List.append_cancel_left hs
  induction ms generalizing q src with
  | nil => exact ⟨[], q, src, rfl, .nil, hf, [], rfl, .nil, List.append_nil _⟩
  | cons m ms ih =>
    rw [List.flatten_cons, List.append_assoc] at hs
    obtain ⟨r, b, q₁, src₁, h1, h2, h3, h4, taken, h5, h6, h7⟩ :=
      mntrpcread_frame M hc hm hf (hw m List.mem_cons_self) hs
    have hs₁ : bytes q₁.bfirst ++ avail src₁ = ms.flatten ++ tail := by
      rw [h5, h6, ← List.append_assoc, h7, List.append_assoc] at hs
      exact List.append_cancel_left hs
    obtain ⟨rs, q₂, src₂, i1, i2, i3, taken', i4, i5, i6⟩ :=
      ih h4 (fun m' hm' => hw m' (List.mem_cons_of_mem _ hm')) hs₁
    refine ⟨(r, bytes b) :: rs, q₂, src₂, ?_, .cons ⟨h2, h3⟩ i2, i3, taken ++ taken', ?_,
      h6.append i5, ?_⟩
    · rw [List.length_cons, replies, h1]
      dsimp only
      rw [i1]
      rfl
    · rw [h5, i4, List.append_assoc]
    · rw [h6, ← List.append_assoc, h7, List.append_assoc, i6, List.flatten_cons, List.append_assoc]

/-! ## Two replies -/

/-- Memory that is never used again. -/
def memory : Malloc where
  base used _ := used.sum
  fresh used n h := by
    have hlt : used.sum < used.sum + BLOCKALIGN := Nat.lt_add_of_pos_right (by decide)
    have hle : used.sum + BLOCKALIGN ≤ (allocb used.sum n).addr := Nat.le_add_right _ _
    exact absurd (List.le_sum_of_mem h) (Nat.not_le.mpr (Nat.lt_of_lt_of_le hlt hle))

/-- `convM2S` on the messages `Rflush` and `Rread`: the type and the tag. -/
def convread : ConvM2S (UInt8 × Int) where
  conv p n :=
    if n < 7 then none
    else if byteat p 4 = 117 then
      if 11 ≤ n ∧ byteat p 7 + byteat p 8 * 256 + byteat p 9 * 65536 + byteat p 10 * 16777216 + 11 = n
      then some (117, byteat p 5 + byteat p 6 * 256) else none
    else if byteat p 4 = 109 ∧ n = 7 then some (109, byteat p 5 + byteat p 6 * 256)
    else none
  seen p n := if byteat p 4 = 117 then min n 11 else min n 7

theorem byteat_of_getElem? {i : Nat} {x : UInt8} (h : p[i]? = some x) : byteat p i = x.toNat := by
  simp only [byteat, List.getD_eq_getElem?_getD, h, Option.getD_some]

theorem convread_take {n : Nat} (h : 11 ≤ k ∨ (n ≤ k ∧ k < 11 ∧ 7 ≤ k)) :
    convread.conv (p.take k) n = convread.conv p n := by
  have hb : ∀ i < k, byteat (p.take k) i = byteat p i := fun i hi => byteat_take p hi
  simp only [convread]
  rw [hb 4 (by omega), hb 5 (by omega), hb 6 (by omega)]
  rcases h with h | ⟨h, h', -⟩
  · rw [hb 7 (by omega), hb 8 (by omega), hb 9 (by omega), hb 10 (by omega)]
  · have hn : ¬11 ≤ n := by omega
    simp only [hn, false_and, if_false]

theorem convread_documented : convread.Documented where
  seen_le p n := by
    simp only [convread]
    split <;> omega
  conv_take p n := by
    by_cases h : n < 7
    · simp only [convread, h, if_true]
    · exact convread_take (by omega)
  short p n h := if_pos h
  Rread_seen p n h := by
    have := byteat_of_getElem? h
    simp only [convread]
    rw [show byteat p 4 = 117 from this, if_pos rfl]
    exact Nat.min_le_right _ _
  Rread_take p n _ := convread_take (.inl (Nat.le_refl _))
  Rread_short p n h hn := by
    have hb : byteat p 4 = 117 := byteat_of_getElem? h
    have hn' : ¬11 ≤ n := Nat.not_le.mpr hn
    simp only [convread, hb, hn', if_true, false_and, if_false, ite_self]

/-- The input queue of a new mount. -/
def newq : Queue := qopen 0x7fffffff false false

/-- A block with some room behind the data. -/
def cell (addr : Addr) (data : List UInt8) : Block := ⟨addr, 0, data, 4, false⟩

/-- An `Rflush`, an `Rread` of two bytes and the beginning of a third message, cut in the middle of
the length fields. -/
def cuts : List Bread :=
  [.blocks [cell 1 [7, 0], cell 2 [0]], .blocks [cell 3 [0, 109, 1, 0, 13]],
    .blocks [cell 4 [0, 0, 0, 117, 2, 0, 2], cell 5 [], cell 6 [0, 0, 0, 170, 187, 9]]]

theorem cuts_fed : Fed 256 newq cuts where
  joined := .intro rfl (fun h => absurd rfl h) List.nodup_nil
  nodup := by decide
  upto b hb := by
    simp only [cuts, List.mem_cons, Bread.blocks.injEq, List.not_mem_nil, or_false] at hb
    rcases hb with rfl | rfl | rfl <;> decide
  size := by decide

theorem rflush_wellformed : Wellformed convread 256 [7, 0, 0, 0, 109, 1, 0] :=
  ⟨by decide, by decide, by decide, by decide, ⟨_, rfl⟩⟩

theorem rread_wellformed : Wellformed convread 256 [13, 0, 0, 0, 117, 2, 0, 2, 0, 0, 0, 170, 187] :=
  ⟨by decide, by decide, by decide, by decide, ⟨(117, 2), by decide⟩⟩

theorem mntrpcread_frames_cuts :
    ∃ rs q' src', replies memory convread 256 2 newq cuts = some (rs, q', src') ∧
      List.Forall₂ (fun m r => convread.conv m m.length = some r.1 ∧ r.2 = m.drop (headerlen m))
        [[7, 0, 0, 0, 109, 1, 0], [13, 0, 0, 0, 117, 2, 0, 2, 0, 0, 0, 170, 187]] rs ∧
      Fed 256 q' src' ∧ bytes q'.bfirst ++ avail src' = [9] ∧
      ∃ taken, cuts = taken ++ src' ∧ bytes newq.bfirst ++ avail taken =
        [7, 0, 0, 0, 109, 1, 0, 13, 0, 0, 0, 117, 2, 0, 2, 0, 0, 0, 170, 187] ++ bytes q'.bfirst :=
  mntrpcread_frames memory convread_documented (by unfold sensible; omega) cuts_fed
    [[7, 0, 0, 0, 109, 1, 0], [13, 0, 0, 0, 117, 2, 0, 2, 0, 0, 0, 170, 187]]
    (by
      intro m hm
      simp only [List.mem_cons, List.not_mem_nil, or_false] at hm
      rcases hm with rfl | rfl
      · exact rflush_wellformed
      · exact rread_wellformed)
    [9] rfl

end NixMark.Devmnt
