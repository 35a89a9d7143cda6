import NixMark.Devmnt.Frames
import NixMark.Lib.Lts

/-!
# Replies of a hostile server

When a call of `mntrpcread` returns, whatever bytes come (`mntrpcread_safe_iff`): a header shorter
than what is pulled up, or a length with the top bit set, makes it fail. `Settled P` says of a call
that it returns exactly if `P` holds; each part of the call has a lemma of this form.
-/

namespace NixMark.Devmnt

open Qio Lib

variable {R : Type} {q : Queue} {src : List Bread} {msize : Int} {cv : ConvM2S R}

/-- The call returns 0 or -1, unless `bread` raises an error in it or does not return. -/
def Call.Returns (c : Call R) : Prop := ∀ f, c.ret ≠ .fault f

/-- The first block of the queue once the length, type and tag are pulled up. -/
def front (q : Queue) (src : List Bread) : List UInt8 :=
  (stream q src).take (max least (firstlen q src))

/-- There are too few bytes for a message; or its length is beyond `msize`; or it is an `Rread`
with the whole of its fixed header buffered, and of a length that is not negative or that `convM2S`
does not accept; or its length is not negative, or `convM2S` sees from the first block that it is
wrong. -/
def Harmless (cv : ConvM2S R) (msize : Int) (q : Queue) (src : List Bread) : Prop :=
  (stream q src).length < least ∨ msize < GBIT32 (stream q src) ∨
  (stream q src).length < GBIT32 (stream q src) ∨
  if (stream q src)[BIT32SZ]? = some Rread then
    ((BIT32SZ + BIT8SZ + BIT16SZ + BIT32SZ : Nat) : Int) ≤
      buffered (max least (GBIT32 (stream q src))) q.dlen src ∧
    (0 ≤ GBIT32 (stream q src) ∨ cv.conv (stream q src) (uint32 (GBIT32 (stream q src))) = none)
  else 0 ≤ GBIT32 (stream q src) ∨
    cv.seen (front q src) (uint32 (GBIT32 (stream q src))) ≤ (front q src).length ∧
    cv.conv (front q src) (uint32 (GBIT32 (stream q src))) = none

/-- The call returns exactly if `P` holds, and then leaves a queue for the next call. -/
def Settled (msize : Int) (P : Prop) (c : Call R) : Prop :=
  P ∧ c.Returns ∧ Fed msize c.q c.src ∨ ¬P ∧ ∃ f, c.ret = .fault f

variable {c : Call R}

theorem Settled.iff {P : Prop} (h : Settled msize P c) : c.Returns ↔ P := by
  rcases h with ⟨hP, hc, -⟩ | ⟨hP, f, hf⟩
  · exact ⟨fun _ => hP, fun _ => hc⟩
  · exact ⟨fun hc => absurd hf (hc f), fun h => absurd h hP⟩

theorem Settled.fed {P : Prop} (h : Settled msize P c) (hc : c.Returns) : Fed msize c.q c.src := by
  rcases h with ⟨-, -, hf⟩ | ⟨-, f, hf⟩
  · exact hf
  · exact absurd hf (hc f)

theorem Settled.returned {P : Prop} (hP : P) (hc : ∀ f, c.ret ≠ .fault f) (hf : Fed msize c.q c.src) :
    Settled msize P c := .inl ⟨hP, hc, hf⟩

theorem bad_ne (f : Fault) : (Ret.bad : Ret R) ≠ .fault f := by
  intro h
  cases h

theorem ok_ne (r : R) (b : List Block) (f : Fault) : Ret.ok r b ≠ .fault f := by
  intro h
  cases h

theorem Stop.ret_ne (s : Stop) (f : Fault) : (s.ret : Ret R) ≠ .fault f := by
  intro h
  cases s <;> cases h

/-! ## Discarding -/

theorem Fed.discard (h : Fed msize q src) (len : Nat) : Fed msize (qdiscard q len).q src := by
  obtain ⟨h1, h2, h3⟩ := h.joined.discard len
  refine h.of_suffix [] rfl h1 ?_ ?_
  · obtain ⟨-, hsrc, hd⟩ := List.nodup_append.mp h.nodup
    exact List.nodup_append.mpr ⟨h1.nodup, hsrc, fun a ha => hd a (h2 ha)⟩
  · have := h.size
    omega

/-! ## Lengths that are not those of a message -/

variable {len : Int}

/-- The loop runs out of blocks when there are fewer bytes than `len`. -/
theorem hang_short (M : Malloc) {used : List Addr} {bs : List Block} (hq : q.bfirst = bs)
    (hl : blocklen bs < len) : hang M used bs q 0 len = .error .bfirst := by
  induction bs generalizing q len with
  | nil => rfl
  | cons b next ih =>
    rw [blocklen_cons] at hl
    rw [hang]
    simp only [gt_iff_lt, Int.lt_irrefl, if_false]
    rw [if_pos (by omega), if_pos (by omega), ih (by rw [qremove_cons hq]) (by omega)]
    rfl

variable {next : List Block} {hlen : Int}

/-- A negative length makes the loop fail, also when it wraps to a positive one. -/
theorem hang_negative (M : Malloc) (used : List Addr) {b : Block} (hq : q.bfirst = b :: next)
    (h0 : len < 0) (h1 : -2147483648 ≤ len) (hh : hlen ≤ 11)
    (hb : blocklen q.bfirst < 2147483648 - 11) :
    ∃ f, hang M used q.bfirst q hlen len = .error f := by
  rw [hq] at hb ⊢
  rw [blocklen_cons] at hb
  rw [hang]
  generalize hb' : (if hlen > 0 then b.skip hlen.toNat else b) = b'
  generalize hl' : (if hlen > 0 then int32 (len - hlen) else len) = len'
  have hlb : BLEN b' ≤ BLEN b := by
    rw [← hb']
    split
    · rw [BLEN_skip]
      omega
    · exact Nat.le_refl _
  have hl : len' < 0 ∨ 2147483648 - 11 ≤ len' := by
    rw [← hl']
    split
    · unfold int32
      omega
    · exact .inl h0
  rcases hl with hl | hl
  · rw [if_neg (by omega)]
    split
    · exact ⟨_, rfl⟩
    · exact ⟨_, rfl⟩
  · rw [if_pos (by omega), if_pos (by omega)]
    rw [hang_short M (q := (qremove q).1) (by rw [qremove_cons hq]) (by omega)]
    exact ⟨_, rfl⟩

/-! ## The parts of a call -/

/-- A message that `convM2S` rejects is discarded. -/
theorem decode_rejects (M : Malloc) (hf : Fed msize q src) {nb : Block} {P : Prop} (hP : P)
    (hs : cv.seen nb.data (uint32 len) ≤ BLEN nb) (hc : cv.conv nb.data (uint32 len) = none) :
    Settled msize P (decode M cv nb q src hlen len) := by
  unfold decode
  rw [if_neg (Nat.not_lt.mpr hs), hc]
  exact .returned hP bad_ne (hf.discard _)

/-- A message that it accepts, of a length that is not negative. -/
theorem decode_accepts (M : Malloc) (hf : Fed msize q src) (hm : sensible msize) {nb : Block}
    (hq : q.bfirst = nb :: next) {hlen len : Nat} {P : Prop} (hP : P) (hh : hlen ≤ BLEN nb)
    (hl : hlen ≤ len) (he : len ≤ q.dlen) (hs : cv.seen nb.data (uint32 len) ≤ BLEN nb) {r : R}
    (hc : cv.conv nb.data (uint32 len) = some r) :
    Settled msize P (decode M cv nb q src hlen len) := by
  obtain ⟨b, q', hd, hf', -, -⟩ := decode_ok M hlen len hf hm hq hh hl he hs hc
  rw [hd]
  exact .returned hP (ok_ne r b) hf'

/-- A message that it accepts, of a negative length. -/
theorem decode_negative (M : Malloc) (hf : Fed msize q src) (hm : sensible msize) {nb : Block}
    (hq : q.bfirst = nb :: next) {P : Prop} (hP : ¬P) (h0 : len < 0) (h1 : -2147483648 ≤ len)
    (hh : hlen ≤ 11) (hs : cv.seen nb.data (uint32 len) ≤ BLEN nb) {r : R}
    (hc : cv.conv nb.data (uint32 len) = some r) :
    Settled msize P (decode M cv nb q src hlen len) := by
  have hsize := hf.size
  unfold sensible at hm
  obtain ⟨f, hfault⟩ := hang_negative M (inuse q src) hq h0 h1 hh (by omega)
  unfold decode
  rw [if_neg (Nat.not_lt.mpr hs), hc, hfault]
  exact .inr ⟨hP, f, rfl⟩

theorem uint32_le (h0 : 0 ≤ len) : uint32 len ≤ len.toNat := by
  unfold uint32
  omega

variable {n : Nat} {l : Int} {nb : Block} {q' : Queue} {src' : List Bread}

theorem Headed.front_eq (h : Headed msize q src n l nb q' src') (hn : n = least) :
    nb.data = front q src := by
  rw [h.data, hn]
  rfl

/-- `decode` on an `Rread` whose header is pulled up. -/
theorem decode_Rread (M : Malloc) (hc : cv.Documented) (hm : sensible msize)
    (hd : Headed msize q src n l nb q' src') (hn : BIT32SZ + BIT8SZ + BIT16SZ + BIT32SZ ≤ BLEN nb)
    (hlen : len ≤ q'.dlen) (h1 : -2147483648 ≤ len) (ht : (stream q src)[BIT32SZ]? = some Rread) :
    Settled msize (0 ≤ len ∨ cv.conv (stream q src) (uint32 len) = none)
      (decode M cv nb q' src' ((BIT32SZ + BIT8SZ + BIT16SZ + BIT32SZ : Nat) : Int) len) := by
  obtain ⟨next, hnext⟩ := hd.bfirst
  have hn' : BIT32SZ + BIT8SZ + BIT16SZ + BIT32SZ ≤ max n (firstlen q src) := hd.blen ▸ hn
  have htype : nb.data[BIT32SZ]? = some Rread := by
    rw [hd.data, List.getElem?_take_of_lt (Nat.lt_of_lt_of_le (by decide) hn'), ht]
  have hseen : cv.seen nb.data (uint32 len) ≤ BLEN nb := Nat.le_trans (hc.Rread_seen _ _ htype) hn
  have hconv : cv.conv nb.data (uint32 len) = cv.conv (stream q src) (uint32 len) := by
    rw [← hc.Rread_take _ _ htype, ← hc.Rread_take _ _ ht, hd.data, List.take_take,
      Nat.min_eq_left hn']
  cases hr : cv.conv nb.data (uint32 len) with
  | none => exact decode_rejects M hd.fed (.inr (hconv ▸ hr)) hseen hr
  | some r =>
    by_cases h0 : 0 ≤ len
    · obtain ⟨k, rfl⟩ := Int.eq_ofNat_of_zero_le h0
      have hk : BIT32SZ + BIT8SZ + BIT16SZ + BIT32SZ ≤ k := by
        by_contra hk
        have := hc.Rread_short nb.data (uint32 k) htype
          (Nat.lt_of_le_of_lt (uint32_le h0) (Nat.lt_of_not_le hk))
        rw [this] at hr
        cases hr
      exact decode_accepts M hd.fed hm hnext (.inl h0) hn hk hlen hseen hr
    · refine decode_negative M hd.fed hm hnext ?_ (by omega) h1 (Int.le_refl _) hseen hr
      rintro (h | h)
      · exact h0 h
      · rw [← hconv, hr] at h
        cases h

/-- `decode` on any other message, which is pulled up as far as its length says. -/
theorem decode_other (M : Malloc) (hc : cv.Documented) (hm : sensible msize)
    (hd : Headed msize q src n l nb q' src') (hn : n = max least len.toNat) (hlen : len ≤ q'.dlen)
    (h1 : -2147483648 ≤ len) :
    Settled msize (0 ≤ len ∨ cv.seen (front q src) (uint32 len) ≤ (front q src).length ∧
      cv.conv (front q src) (uint32 len) = none) (decode M cv nb q' src' len len) := by
  obtain ⟨next, hnext⟩ := hd.bfirst
  by_cases h0 : 0 ≤ len
  · have hle : len.toNat ≤ BLEN nb := by
      rw [hd.blen]
      omega
    have hseen : cv.seen nb.data (uint32 len) ≤ BLEN nb :=
      Nat.le_trans (hc.seen_le _ _) (Nat.le_trans (uint32_le h0) hle)
    cases hr : cv.conv nb.data (uint32 len) with
    | none => exact decode_rejects M hd.fed (.inl h0) hseen hr
    | some r =>
      obtain ⟨k, rfl⟩ := Int.eq_ofNat_of_zero_le h0
      exact decode_accepts M hd.fed hm hnext (.inl h0) hle (Nat.le_refl k) hlen hseen hr
  · have hfront : nb.data = front q src := hd.front_eq (by omega)
    rw [← hfront]
    by_cases hseen : cv.seen nb.data (uint32 len) ≤ BLEN nb
    · cases hr : cv.conv nb.data (uint32 len) with
      | none => exact decode_rejects M hd.fed (.inr ⟨hseen, rfl⟩) hseen hr
      | some r =>
        refine decode_negative M hd.fed hm hnext ?_ (by omega) h1 (by omega) hseen hr
        rintro (h | ⟨-, h⟩)
        · exact h0 h
        · cases h
    · refine .inr ⟨?_, .decode, ?_⟩
      · rintro (h | ⟨h, -⟩)
        · exact h0 h
        · exact hseen h
      · unfold decode
        rw [if_pos (Nat.lt_of_not_le hseen)]

/-- The rest of the call, once the length, type and tag are there. -/
theorem readrest_settled (M : Malloc) (hc : cv.Documented) (hm : sensible msize)
    (hd : Headed msize q src least least nb q' src') (hl : least ≤ (stream q src).length) :
    Settled msize (Harmless cv msize q src) (readrest M cv msize nb q' src') := by
  have hrange := GBIT32_range (stream q src)
  unfold readrest Harmless
  dsimp only
  rw [hd.GBIT32]
  generalize hlen : GBIT32 (stream q src) = len at hrange ⊢
  have hfew : ¬(stream q src).length < least := Nat.not_lt.mpr hl
  by_cases hbig : len > msize
  · rw [if_pos hbig]
    exact .returned (.inr (.inl hbig)) bad_ne (hd.fed.discard _)
  rw [if_neg hbig]
  have hd₁ := doread_spec hd.fed.joined hd.fed.nodup len
  by_cases hshort : ((stream q src).length : Int) < len
  · match hs : (doread len q' src').stop with
    | none =>
      have := hd₁.stop_iff.mp hs
      rw [hd.stream] at this
      omega
    | some s => exact .returned (.inr (.inr (.inl hshort))) s.ret_ne (hd.fed.doread (by omega))
  have hs := hd₁.stop_iff.mpr (by rw [hd.stream]; omega)
  have henough := hd₁.enough.mp hs
  rw [hs]
  dsimp only
  have htype : nb.data[BIT32SZ]? = some (nb.data.getD BIT32SZ 0) := by
    have h4 : BIT32SZ < nb.data.length := by
      rw [← BLEN_eq, hd.blen]
      exact least_le.2
    rw [List.getD_eq_getElem?_getD, List.getElem?_eq_getElem h4, Option.getD_some]
  -- what is left of the condition is about the type of the message
  simp only [hfew, show ¬msize < len from hbig, hshort, false_or]
  rw [← hd.type, htype]
  simp only [Option.some.injEq]
  unfold hlenof
  by_cases ht : nb.data.getD BIT32SZ 0 = Rread
  · rw [if_pos ht, if_pos ht, ← hd.more]
    by_cases hb : ((BIT32SZ + BIT8SZ + BIT16SZ + BIT32SZ : Nat) : Int) ≤ (doread len q' src').q.dlen
    · obtain ⟨-, -, nb₂, q₂, hp, hd₂⟩ := hd.next M (l := len)
        (m := ((BIT32SZ + BIT8SZ + BIT16SZ + BIT32SZ : Nat) : Int)) (by omega) (by omega)
        (by rw [← hd.more]; exact hb)
      have hlen₂ : len ≤ q₂.dlen := Int.le_trans (Int.le_max_right _ _) hd₂.enough
      rw [hp]
      simp only [hb, true_and]
      refine decode_Rread M hc hm hd₂ ?_ hlen₂ hrange.1 ?_
      · rw [hd₂.blen, Int.toNat_natCast]
        omega
      · rw [← hd.type, htype, ht]
    · obtain ⟨next, hnext⟩ := hd.bfirst
      obtain ⟨more, hmore⟩ := hd₁.front
      have hshort : (blocklen (doread len q' src').q.bfirst : Int) <
          ((BIT32SZ + BIT8SZ + BIT16SZ + BIT32SZ : Nat) : Int) := by
        rw [← hd₁.joined.dlen]
        omega
      have hq : (doread len q' src').q.bfirst = nb :: (next ++ more) := by
        rw [hmore, hnext]
        rfl
      rw [pullup_short M hq hshort]
      exact .inr ⟨fun h => hb h.1, _, rfl⟩
  · rw [if_neg ht, if_neg ht]
    obtain ⟨-, -, nb₂, q₂, hp, hd₂⟩ := hd.next M (l := len) (m := len) (by omega) (by omega)
      (by rw [← hd.more]; exact henough)
    have hlen₂ : len ≤ q₂.dlen := Int.le_trans (Int.le_max_right _ _) hd₂.enough
    rw [hp]
    exact decode_other M hc hm hd₂ rfl hlen₂ hrange.1

theorem mntrpcread_settled (M : Malloc) (hc : cv.Documented) (hm : sensible msize)
    (hf : Fed msize q src) :
    Settled msize (Harmless cv msize q src) (mntrpcread M cv msize q src) := by
  have hleast : (least : Int) ≤ msize := by
    unfold sensible at hm
    have : least = 7 := rfl
    omega
  by_cases hl : least ≤ (stream q src).length
  · obtain ⟨nb, q', src', he, hd⟩ := mntrpcread_headed M cv hf hleast hl
    rw [he]
    exact readrest_settled M hc hm hd hl
  · obtain ⟨s, hs⟩ := mntrpcread_few M cv hf (Nat.lt_of_not_le hl)
    rw [hs]
    exact .returned (.inl (Nat.lt_of_not_le hl)) s.ret_ne (hf.doread hleast)

/-! ## Runs of calls -/

/-- What the calls of `bread` may give, whatever the server sends: blocks that are not in use, with
`msize` bytes at most in a call. -/
structure Incoming (msize : Int) (q : Queue) (src : List Bread) : Prop where
  nodup : (inuse q src).Nodup
  upto : ∀ b, .blocks b ∈ src → (blocklen b : Int) ≤ msize

/-- The calls of `mntrpcread` on a mount, each with what `bread` gives from then on. -/
def calls (M : Malloc) (cv : ConvM2S R) (msize : Int) : Lts Queue (List Bread) where
  init q := q = newq
  step q src q' :=
    Incoming msize q src ∧ (mntrpcread M cv msize q src).Returns ∧
    q' = (mntrpcread M cv msize q src).q

theorem calls_inductive (M : Malloc) (hc : cv.Documented) (hm : sensible msize) :
    (calls M cv msize).Inductive fun q => Joined q ∧ (blocklen q.bfirst : Int) ≤ 2 * msize where
  init q hq := by
    rw [show q = newq from hq]
    unfold sensible at hm
    exact ⟨.intro rfl (fun h => absurd rfl h) List.nodup_nil, show (0 : Int) ≤ 2 * msize by omega⟩
  step q src q' hI hs := by
    obtain ⟨hin, hret, rfl⟩ := hs
    have hf := (mntrpcread_settled M hc hm ⟨hI.1, hin.nodup, hin.upto, hI.2⟩).fed hret
    exact ⟨hf.joined, hf.size⟩

/-- After any calls, a call returns exactly if what comes is harmless. -/
theorem mntrpcread_safe_iff (M : Malloc) (hc : cv.Documented) (hm : sensible msize)
    (hr : (calls M cv msize).Reach q) (hi : Incoming msize q src) :
    (mntrpcread M cv msize q src).Returns ↔ Harmless cv msize q src :=
  have hI := (calls_inductive M hc hm).reach hr
  (mntrpcread_settled M hc hm ⟨hI.1, hi.nodup, hi.upto, hI.2⟩).iff

theorem mntrpcread_safe_cuts :
    (mntrpcread memory convread 256 newq cuts).Returns ↔ Harmless convread 256 newq cuts :=
  mntrpcread_safe_iff memory convread_documented (by unfold sensible; omega) ⟨[], .init rfl⟩
    ⟨cuts_fed.nodup, cuts_fed.upto⟩

/-- An `Rread` of seven bytes, with nothing behind it. -/
def headless : List Bread := [.blocks [cell 1 [7, 0, 0, 0, 117, 0, 0]]]

theorem mntrpcread_crash : ¬∀ src : List Bread, Incoming 256 newq src →
    (mntrpcread memory convread 256 newq src).Returns := by
  intro h
  have hi : Incoming 256 newq headless := by
    refine ⟨by decide, fun b hb => ?_⟩
    simp only [headless, List.mem_cons, Bread.blocks.injEq, List.not_mem_nil, or_false] at hb
    rw [hb]
    decide
  exact h headless hi .nb (by decide)

end NixMark.Devmnt
