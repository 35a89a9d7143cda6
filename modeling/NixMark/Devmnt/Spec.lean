import NixMark.Devmnt.Read

/-!
# What the steps of a read do

`Joined q` is the part of the accounting of a queue that `pullupqueue` keeps: all but the count of
the storage. Each part of `mntrpcread` has a lemma here: `doread_spec`, `pullup_spec`, `hang_spec`.
-/

namespace NixMark.Devmnt

open Qio

/-! ## Queues -/

/-- The accounting of the queue but for `len`, which `pullupqueue` does not keep. -/
def Joined (q : Queue) : Prop := ∃ n : Int, Queue.Ok { q with len := n }

variable {q : Queue}

theorem Joined.intro (hd : q.dlen = blocklen q.bfirst)
    (hb : q.bfirst ≠ [] → q.blast = last q.bfirst) (hn : (addrs q.bfirst).Nodup) : Joined q :=
  ⟨blockalloclen q.bfirst, ⟨⟨hd, rfl, hb⟩, hn⟩⟩

theorem Joined.dlen (h : Joined q) : q.dlen = blocklen q.bfirst :=
  have ⟨_, h⟩ := h
  h.toAcct.dlen

theorem Joined.nodup (h : Joined q) : (addrs q.bfirst).Nodup :=
  have ⟨_, h⟩ := h
  h.nodup

theorem Joined.add_bfirst (h : Joined q) (b : List Block) :
    (qaddlist q b).bfirst = q.bfirst ++ b := by
  obtain ⟨n, h⟩ := h
  exact qaddlist_bfirst h b

theorem Joined.add (h : Joined q) {b : List Block} (hb : b ≠ []) (hn : (addrs b).Nodup)
    (hf : ∀ a ∈ addrs b, a ∉ addrs q.bfirst) : Joined (qaddlist q b) := by
  obtain ⟨n, h⟩ := h
  exact ⟨n + blockalloclen b, qaddlist_ok h hb hn hf⟩

variable {b : Block} {next : List Block}

theorem Joined.remove (h : Joined q) (hq : q.bfirst = b :: next) : Joined (qremove q).1 := by
  obtain ⟨n, h⟩ := h
  rw [qremove_cons hq]
  exact ⟨n - BALLOC b, h.tail hq⟩

theorem Joined.putback (h : Joined q) (hf : b.addr ∉ addrs q.bfirst) : Joined (qputback q b) := by
  obtain ⟨n, h⟩ := h
  exact ⟨n + BALLOC b, qputback_ok h hf⟩

/-- The loop of `qdiscard` runs the same whatever the count of the storage. -/
theorem qdiscardLoop_len (bs : List Block) (q : Queue) (n : Int) (len : Nat) :
    ∃ n', qdiscardLoop bs { q with len := n } len =
      ({ (qdiscardLoop bs q len).1 with len := n' }, (qdiscardLoop bs q len).2) := by
  induction bs generalizing q n len with
  | nil => exact ⟨n, rfl⟩
  | cons b next ih =>
    rw [qdiscardLoop, qdiscardLoop]
    split
    · exact ⟨n, rfl⟩
    · split
      · have hr : ∃ m, (qremove { q with len := n }).1 = { (qremove q).1 with len := m } := by
          cases hq : q.bfirst with
          | nil => exact ⟨n, by simp [qremove, hq]⟩
          | cons c cs => exact ⟨n - BALLOC c, by simp [qremove, hq]⟩
        obtain ⟨m, hr⟩ := hr
        obtain ⟨n', ih⟩ := ih (qremove q).1 m (len - BLEN b)
        rw [hr, ih]
        exact ⟨n', rfl⟩
      · exact ⟨n, rfl⟩

/-- What `qdiscard` does to the chain: it drops bytes off the front. -/
theorem Joined.discard (h : Joined q) (len : Nat) : Joined (qdiscard q len).q ∧
    (addrs (qdiscard q len).q.bfirst) ⊆ addrs q.bfirst ∧
    blocklen (qdiscard q len).q.bfirst ≤ blocklen q.bfirst := by
  obtain ⟨n, h⟩ := h
  obtain ⟨n', hd⟩ := qdiscardLoop_len q.bfirst q n len
  obtain ⟨-, i2, i3, -, i5⟩ := qdiscardLoop_spec h rfl len
  rw [hd] at i2 i3 i5
  have he : (qdiscard q len).q = { (qdiscardLoop q.bfirst q len).1 with
      Qflow := (qdiscardLoop q.bfirst q len).1.Qflow &&
        !(qwakeup_iunlock (qdiscardLoop q.bfirst q len).1).2 } := qwakeup_iunlock_eq _
  rw [he]
  refine ⟨⟨n', ⟨⟨i5.dlen, i5.len, i5.blast⟩, i5.nodup⟩⟩, i2, ?_⟩
  rw [blocklen_eq, blocklen_eq, i3, List.length_append]
  exact Nat.le_add_left _ _

/-! ## doread -/

/-- Calls of `bread` that all give bytes: `bread` does not fail in them. -/
def Whole (taken : List Bread) : Prop := ∀ src, avail (taken ++ src) = avail taken ++ avail src

theorem Whole.nil : Whole [] := fun _ => rfl

theorem Whole.append {r s : List Bread} (hr : Whole r) (hs : Whole s) : Whole (r ++ s) := by
  intro src
  rw [List.append_assoc, hr, hs, hr, List.append_assoc]

theorem doread_max {m : Int} (n : Int) {q : Queue} (src : List Bread) (hm : m ≤ q.dlen) :
    doread n q src = doread (max m n) q src := by
  have hx : ∀ q : Queue, m ≤ q.dlen → (q.dlen < n ↔ q.dlen < max m n) := fun q hm => by omega
  induction src generalizing q with
  | nil => simp only [doread, hx q hm]
  | cons r src ih =>
    cases r with
    | error => simp only [doread, hx q hm]
    | blocks b =>
      have hb : m ≤ (qaddlist q b).dlen := by
        have : (qaddlist q b).dlen = q.dlen + blocklen b := rfl
        omega
      simp only [doread, hx q hm, ih hb]

/-- What `doread` leaves. -/
structure Doread.Spec (len : Int) (q : Queue) (src : List Bread) (d : Doread) : Prop where
  joined : Joined d.q
  nodup : (inuse d.q d.src).Nodup
  front : ∃ more, d.q.bfirst = q.bfirst ++ more
  taken : ∃ taken, src = taken ++ d.src ∧
    bytes d.q.bfirst = bytes q.bfirst ++ avail taken ∧
    (d.stop = none → Whole taken) ∧
    (d.stop ≠ none → avail src = avail taken)
  enough : d.stop = none ↔ len ≤ d.q.dlen

variable {src : List Bread} {len : Int}

theorem Doread.Spec.stay (h : Joined q) (hn : (inuse q src).Nodup) (hl : len ≤ q.dlen) :
    Doread.Spec len q src ⟨none, q, src⟩ where
  joined := h
  nodup := hn
  front := ⟨[], (List.append_nil _).symm⟩
  taken := ⟨[], rfl, (List.append_nil _).symm, fun _ => .nil, fun hs => absurd rfl hs⟩
  enough := ⟨fun _ => hl, fun _ => rfl⟩

theorem Doread.Spec.fail (taken : List Bread) (h : Joined q) {rest : List Bread}
    (hn : (inuse q src).Nodup) (hl : q.dlen < len) (s : Stop) (ht : src = taken ++ rest)
    (ha : avail taken = []) (hs : avail src = []) (hr : (srcaddrs rest).Sublist (srcaddrs src)) :
    Doread.Spec len q src ⟨some s, q, rest⟩ where
  joined := h
  nodup := hn.sublist (hr.append_left _)
  front := ⟨[], (List.append_nil _).symm⟩
  taken := ⟨taken, ht, by rw [ha, List.append_nil], nofun, fun _ => hs.trans ha.symm⟩
  enough := ⟨nofun, fun hle => absurd hl (Int.not_lt.mpr hle)⟩

/-- Queueing a chain moves its blocks from those to come to the queue. -/
theorem Joined.inuse_add (h : Joined q) (b : List Block) (src : List Bread) :
    inuse (qaddlist q b) src = inuse q (.blocks b :: src) := by
  simp only [inuse, srcaddrs, h.add_bfirst, addrs_append, List.append_assoc]

theorem Joined.comes (h : Joined q) {b : List Block} (hn : (inuse q (.blocks b :: src)).Nodup)
    (hb : blocklen b ≠ 0) : Joined (qaddlist q b) := by
  simp only [inuse, srcaddrs] at hn
  obtain ⟨-, hbn, hd⟩ := List.nodup_append.mp hn
  refine h.add (fun he => hb (by rw [he]; rfl)) (List.nodup_append.mp hbn).1 fun a ha haq => ?_
  exact hd a haq a (List.mem_append_left _ ha) rfl

/-- `doread` queues the blocks of the calls that it makes; it stops early only when `bread` fails,
and then all that it gave is queued. -/
theorem doread_spec (h : Joined q) (hn : (inuse q src).Nodup) (len : Int) :
    Doread.Spec len q src (doread len q src) := by
  induction src generalizing q with
  | nil =>
    rw [doread]
    split
    · rename_i hl
      exact .fail [] h hn hl _ rfl rfl rfl (List.Sublist.refl _)
    · exact .stay h hn (by omega)
  | cons r src ih =>
    cases r with
    | error =>
      rw [doread]
      split
      · rename_i hl
        exact .fail [.error] h hn hl _ rfl rfl rfl (List.Sublist.refl _)
      · exact .stay h hn (by omega)
    | blocks b =>
      rw [doread]
      split
      · rename_i hl
        split
        · rename_i hb
          refine .fail [.blocks b] h hn hl _ rfl ?_ ?_ (List.sublist_append_right _ _)
          · rw [avail, if_pos hb]
          · rw [avail, if_pos hb]
        · rename_i hb
          have hj := h.comes hn hb
          obtain ⟨i1, i2, ⟨more, i3⟩, ⟨taken, t1, t2, t3, t4⟩, i5⟩ := ih hj
            (by rw [h.inuse_add]; exact hn)
          rw [h.add_bfirst] at i3 t2
          have hav : ∀ s, avail (.blocks b :: s) = bytes b ++ avail s := fun s => by
            rw [avail, if_neg hb]
          refine ⟨i1, i2, ⟨b ++ more, by rw [i3, List.append_assoc]⟩,
            ⟨.blocks b :: taken, congrArg (.blocks b :: ·) t1, ?_, fun hs s => ?_, fun hs => ?_⟩,
            i5⟩
          · rw [t2, hav, bytes_append, List.append_assoc]
          · rw [List.cons_append, hav, hav, t3 hs, List.append_assoc]
          · rw [hav, hav, t4 hs]
      · exact .stay h hn (by omega)

/-- All the bytes that there are, or that are still to come before `bread` fails. -/
def stream (q : Queue) (src : List Bread) : List UInt8 := bytes q.bfirst ++ avail src

theorem Joined.dlen_le (h : Joined q) (src : List Bread) : q.dlen ≤ (stream q src).length := by
  rw [h.dlen, blocklen_eq, stream, List.length_append]
  omega

theorem Doread.Spec.stream_eq {d : Doread} (h : d.Spec len q src) (hs : d.stop = none) :
    stream d.q d.src = stream q src := by
  obtain ⟨taken, t1, t2, t3, -⟩ := h.taken
  rw [stream, stream, t2, t1, t3 hs, List.append_assoc]

/-- `doread` gets the bytes exactly if there are as many. -/
theorem Doread.Spec.stop_iff {d : Doread} (h : d.Spec len q src) :
    d.stop = none ↔ len ≤ (stream q src).length := by
  refine ⟨fun hs => ?_, fun hl => ?_⟩
  · rw [← h.stream_eq hs]
    exact Int.le_trans (h.enough.mp hs) (h.joined.dlen_le d.src)
  · by_contra hs
    obtain ⟨taken, -, t2, -, t4⟩ := h.taken
    rw [stream, t4 hs, ← t2, ← blocklen_eq, ← h.joined.dlen] at hl
    exact hs (h.enough.mpr hl)

/-- Reading on is reading up to the larger length at once. -/
theorem doread_again (m n : Int) (q : Queue) (src : List Bread)
    (hs : (doread m q src).stop = none) :
    doread n (doread m q src).q (doread m q src).src = doread (max m n) q src := by
  induction src generalizing q with
  | nil =>
    by_cases hm : q.dlen < m
    · simp [doread, hm] at hs
    · rw [← doread_max n [] (Int.not_lt.mp hm)]
      simp only [doread, hm, if_false]
  | cons r src ih =>
    by_cases hm : q.dlen < m
    · have hx : q.dlen < max m n := by omega
      cases r with
      | error => simp [doread, hm] at hs
      | blocks b =>
        simp only [doread, hm, hx, if_true] at hs ⊢
        split
        · rename_i hb
          simp [hb] at hs
        · rename_i hb
          rw [if_neg hb] at hs
          exact ih _ hs
    · rw [← doread_max n _ (Int.not_lt.mp hm)]
      cases r with
      | error => simp only [doread, hm, if_false]
      | blocks b => simp only [doread, hm, if_false]

/-! ## pullup -/

/-- What pulling up `n` bytes leaves of a queue whose first block is `b`. -/
structure Pulled (q : Queue) (src : List Bread) (n : Nat) (b nb : Block) (q' : Queue) : Prop where
  joined : Joined q'
  nodup : (inuse q' src).Nodup
  bfirst : ∃ next, q'.bfirst = nb :: next
  bytes : bytes q'.bfirst = bytes q.bfirst
  blen : BLEN nb = max n (BLEN b)

variable {nb : Block} {q' : Queue}

/-- The header is the front of the queue. -/
theorem Pulled.data {n : Nat} (h : Pulled q src n b nb q') :
    nb.data = (Qio.bytes q.bfirst).take (max n (BLEN b)) := by
  obtain ⟨next, hb⟩ := h.bfirst
  rw [← h.bytes, hb, bytes_cons, ← h.blen, BLEN_eq, List.take_left]

theorem Pulled.dlen_eq {n : Nat} (h : Pulled q src n b nb q') (hj : Joined q) :
    q'.dlen = q.dlen := by
  rw [h.joined.dlen, blocklen_eq, h.bytes, ← blocklen_eq, hj.dlen]

variable {n : Int}

/-- The header is the front of all the bytes to come. -/
theorem Pulled.data_stream (h : Pulled q src n.toNat b nb q') (hl : n ≤ blocklen q.bfirst)
    (hq : q.bfirst = b :: next) : nb.data = (stream q src).take (max n.toNat (BLEN b)) := by
  have hle : max n.toNat (BLEN b) ≤ (Qio.bytes q.bfirst).length := by
    rw [← blocklen_eq, hq, blocklen_cons]
    rw [hq, blocklen_cons] at hl
    omega
  rw [h.data, stream, List.take_append_of_le_length hle]

theorem pullup_spec (M : Malloc) (h : Joined q) (hn : (inuse q src).Nodup)
    (hq : q.bfirst = b :: next) (hl : n ≤ blocklen q.bfirst) :
    ∃ nb q', pullup M q src n = .ok (nb, q') ∧ Pulled q src n.toNat b nb q' := by
  unfold pullup
  generalize hm : M.base (inuse q src) n.toNat = m
  by_cases hb : n.toNat ≤ BLEN b
  · have he : pullupqueue q m n.toNat = some q := by simp only [pullupqueue, hq, hb, if_true]
    rw [he]
    simp only [hq]
    exact ⟨b, q, rfl, h, hn, ⟨next, hq⟩, rfl, (Nat.max_eq_right hb).symm⟩
  · rw [pullupqueue_cons hq (Nat.lt_of_not_le hb)]
    have hfresh : (allocb m n.toNat).addr ∉ inuse q src := by
      rw [← hm]
      exact M.fresh _ _
    rcases pullupblock_spec m next (Nat.lt_of_not_le hb) with ⟨j1, -⟩ | ⟨-, j2, j3, j4, -⟩
    · rw [hq] at hl
      omega
    · cases hp : pullupblock m b next n.toNat with
      | nil => exact absurd hp j2
      | cons nb rest =>
        rw [hp] at j3 j4
        have hlen := pullupblock_head (Nat.lt_of_not_le hb) hp
        have hnd : (addrs (nb :: rest) ++ srcaddrs src).Nodup := by
          refine List.Nodup.sublist ?_ (List.nodup_cons.mpr ⟨hfresh, hn⟩)
          rw [inuse, hq]
          exact j3.append_right _
        refine ⟨nb, _, rfl, .intro ?_ (fun _ => rfl) (List.nodup_append.mp hnd).1, hnd, ⟨rest, rfl⟩,
          by rw [j4, hq], by omega⟩
        rw [h.dlen, hq, blocklen_eq, ← j4, ← blocklen_eq]

theorem pullup_short (M : Malloc) (hq : q.bfirst = b :: next) (hl : blocklen q.bfirst < n) :
    pullup M q src n = .error .nb := by
  unfold pullup
  have hb : BLEN b < n.toNat := by
    rw [hq, blocklen_cons] at hl
    omega
  rw [pullupqueue_cons hq hb]
  rcases pullupblock_spec (M.base (inuse q src) n.toNat) next hb with ⟨-, j2⟩ | ⟨j1, -⟩
  · rw [j2]
  · rw [hq] at hl
    omega

/-! ## hang -/

theorem int32_eq {x : Int} (h0 : -2147483648 ≤ x) (h1 : x < 2147483648) : int32 x = x := by
  unfold int32
  omega

theorem skip_zero (b : Block) : b.skip 0 = b := rfl

/-- The front block of `hang` without its header. -/
theorem skipped (b : Block) (hlen : Nat) :
    (if (hlen : Int) > 0 then b.skip (hlen : Int).toNat else b) = b.skip hlen := by
  split
  · rfl
  · rw [show hlen = 0 by omega, skip_zero]

theorem lessened {hlen len : Nat} (h : hlen ≤ len) (hb : len < 2147483648) :
    (if (hlen : Int) > 0 then int32 ((len : Int) - hlen) else len) = ((len - hlen : Nat) : Int) := by
  split
  · rw [int32_eq (by omega) (by omega)]
    omega
  · omega

/-- What the loop leaves of the bytes `s` at the front of the queue, with the header `hlen` of a
message of `len` bytes. -/
structure Hung (used : List Addr) (s : List UInt8) (old : List Addr) (hlen len : Nat)
    (r : List Block × Queue) : Prop where
  joined : Joined r.2
  data : bytes r.1 = (s.take len).drop hlen
  rest : bytes r.2.bfirst = s.drop len
  addrs : ∀ a ∈ addrs r.2.bfirst, a ∈ old ∨ a ∉ used

theorem hang_spec (M : Malloc) (used : List Addr) (hlen len : Nat) {bs : List Block} (h : Joined q)
    (hq : q.bfirst = bs) (hu : addrs bs ⊆ used)
    (hh : ∀ b next, bs = b :: next → hlen ≤ BLEN b) (hl : hlen ≤ len) (hb : len ≤ blocklen bs)
    (hne : bs ≠ []) (hbig : blocklen bs < 2147483648) :
    ∃ r, hang M used bs q hlen len = .ok r ∧ Hung used (bytes bs) (addrs bs) hlen len r := by
  induction bs generalizing q hlen len with
  | nil => exact absurd rfl hne
  | cons b next ih =>
    have hhb := hh b next rfl
    have hj := h.remove hq
    have hrem : (qremove q).1.bfirst = next := by rw [qremove_cons hq]
    have hun : addrs next ⊆ used := fun a ha => hu (List.mem_cons_of_mem _ ha)
    rw [blocklen_cons] at hb hbig
    have hlenb : (b.skip hlen).data.length = BLEN b - hlen := BLEN_skip b hlen
    rw [hang, skipped, lessened hl (by omega), BLEN_skip]
    by_cases hi : BLEN b ≤ len
    · have htake : ∀ s : List UInt8, (b.data ++ s).take len = b.data ++ s.take (len - BLEN b) :=
        fun s => by rw [List.take_append, List.take_of_length_le hi, BLEN_eq]
      have hdrop : ∀ s : List UInt8, (b.data ++ s).drop len = s.drop (len - BLEN b) :=
        fun s => by rw [List.drop_append, List.drop_eq_nil_of_le hi, List.nil_append, BLEN_eq]
      have hskip : ∀ s : List UInt8, (b.data ++ s).drop hlen = b.data.drop hlen ++ s :=
        fun s => List.drop_append_of_le_length hhb
      rw [if_pos (by omega)]
      by_cases hmore : BLEN b < len
      · rw [if_pos (by omega)]
        have hlen' : ((len - hlen : Nat) : Int) - ((BLEN b - hlen : Nat) : Int) =
            ((len - BLEN b : Nat) : Int) := by omega
        obtain ⟨r, hr, i1, i2, i3, i4⟩ := ih 0 (len - BLEN b) hj hrem hun
          (fun _ _ _ => Nat.zero_le _) (Nat.zero_le _) (by omega)
          (by intro he; rw [he, blocklen_nil] at hb; omega) (by omega)
        rw [hlen', ← Int.natCast_zero, hr]
        refine ⟨(b.skip hlen :: r.1, r.2), rfl, i1, ?_, ?_, fun a ha => ?_⟩
        · rw [bytes_cons, i2, bytes_cons, htake, hskip]
          rfl
        · rw [i3, bytes_cons, hdrop]
        · exact (i4 a ha).imp_left (List.mem_cons_of_mem _)
      · rw [if_neg (by omega)]
        have he : len - BLEN b = 0 := by omega
        refine ⟨_, rfl, hj, ?_, ?_, fun a ha => .inl ?_⟩
        · rw [bytes_cons, bytes_nil, bytes_cons, htake, hskip, he]
          rfl
        · rw [hrem, bytes_cons, hdrop, he, List.drop_zero]
        · rw [hrem] at ha
          exact List.mem_cons_of_mem _ ha
    · rw [if_neg (by omega), int32_eq (by omega) (by omega), if_neg (by omega), if_neg (by omega)]
      have hf : (unused M used (b.skip hlen) (len - hlen)).addr ∉ used := M.fresh _ _
      have hcut : ((len - hlen : Nat) : Int).toNat = len - hlen := rfl
      rw [hcut]
      have hdata : (unused M used (b.skip hlen) (len - hlen)).data = b.data.drop len := by
        have : (unused M used (b.skip hlen) (len - hlen)).data =
          ((b.data.drop hlen).drop (len - hlen)) := List.nil_append _
        rw [this, List.drop_drop, Nat.add_sub_cancel' hl]
      refine ⟨_, rfl, hj.putback fun ha => hf (hun (hrem ▸ ha)), ?_, ?_, fun a ha => ?_⟩
      · rw [bytes_cons, bytes_nil, List.append_nil, Block.cut_data, Block.skip_data, bytes_cons,
          List.take_append_of_le_length (Nat.le_of_lt (Nat.lt_of_not_le hi)), List.drop_take]
      · have he : (qputback (qremove q).1 (unused M used (b.skip hlen) (len - hlen))).bfirst =
            unused M used (b.skip hlen) (len - hlen) :: next := by rw [← hrem]; rfl
        rw [he, bytes_cons, hdata, bytes_cons,
          List.drop_append_of_le_length (Nat.le_of_lt (Nat.lt_of_not_le hi))]
      · rcases List.mem_cons.mp ha with rfl | ha
        · exact .inr hf
        · exact .inl (List.mem_cons_of_mem _ (hrem ▸ ha))

end NixMark.Devmnt
