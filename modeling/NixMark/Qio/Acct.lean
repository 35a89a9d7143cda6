import NixMark.Qio.Queue

/-!
# The accounting of a queue

`Acct q`: `len` and `dlen` count the storage and the data of the blocks linked from `bfirst`, and
`blast` is the last of them. Each operation has one lemma that says what it does to the chain and
that the accounting holds after it: `Wrote.Fed` for the writers, `Took.Drained` for the readers.
The exception is `pullupqueue`, which leaves `len` and `dlen` as they are
(`pullupqueue_acct_iff`).
-/

namespace NixMark.Qio

/-- The address of the last block. -/
def last (bs : List Block) : Option Addr := bs.getLast?.map (·.addr)

/-- The counts and the last block of the queue. -/
structure Acct (q : Queue) : Prop where
  dlen : q.dlen = blocklen q.bfirst
  len : q.len = blockalloclen q.bfirst
  blast : q.bfirst ≠ [] → q.blast = last q.bfirst

/-- The accounting, and the blocks of the chain are distinct. -/
structure Queue.Ok (q : Queue) : Prop extends Acct q where
  nodup : (addrs q.bfirst).Nodup

/-- The fields that only opening, closing and reopening change. -/
structure SameMode (q q' : Queue) : Prop where
  limit : q'.limit = q.limit
  Qmsg : q'.Qmsg = q.Qmsg
  Qclosed : q'.Qclosed = q.Qclosed
  Qcoalesce : q'.Qcoalesce = q.Qcoalesce
  noblock : q'.noblock = q.noblock
  bypass : q'.bypass = q.bypass

theorem SameMode.refl (q : Queue) : SameMode q q := ⟨rfl, rfl, rfl, rfl, rfl, rfl⟩

variable {q' : Queue}

theorem SameMode.trans {q q'' : Queue} (h : SameMode q q') (h' : SameMode q' q'') :
    SameMode q q'' where
  limit := h'.limit.trans h.limit
  Qmsg := h'.Qmsg.trans h.Qmsg
  Qclosed := h'.Qclosed.trans h.Qclosed
  Qcoalesce := h'.Qcoalesce.trans h.Qcoalesce
  noblock := h'.noblock.trans h.noblock
  bypass := h'.bypass.trans h.bypass

variable {q : Queue}

/-! ## The last block -/

@[simp] theorem last_singleton (b : Block) : last [b] = some b.addr := rfl

@[simp] theorem last_cons_cons (b c : Block) (bs : List Block) :
    last (b :: c :: bs) = last (c :: bs) := rfl

variable {b : Block} {bs : List Block}

theorem last_cons (h : bs ≠ []) : last (b :: bs) = last bs := by
  cases bs with
  | nil => exact absurd rfl h
  | cons c bs => rfl

theorem last_append {cs : List Block} (h : cs ≠ []) : last (bs ++ cs) = last cs := by
  simp [last, List.getLast?_append_of_ne_nil _ h]

variable {b' : Block}

/-- Replacing the first block by one at its address keeps the last address. -/
theorem last_head (h : b'.addr = b.addr) (bs : List Block) : last (b' :: bs) = last (b :: bs) := by
  cases bs with
  | nil => simp [h]
  | cons c bs => rfl

/-- Linking behind the last block appends. -/
theorem setnext_last (b : List Block) (hn : (addrs bs).Nodup) (h : bs ≠ []) :
    setnext (last bs) b bs = bs ++ b := by
  induction bs with
  | nil => exact absurd rfl h
  | cons c bs ih =>
    cases bs with
    | nil => simp [setnext]
    | cons d ds =>
      have hne : last (d :: ds) ≠ some c.addr := by
        intro he
        obtain ⟨x, hx, hxc⟩ := Option.map_eq_some_iff.mp he
        have hmem : x.addr ∈ addrs (d :: ds) := List.mem_map_of_mem (List.mem_of_getLast? hx)
        rw [hxc] at hmem
        exact (List.nodup_cons.mp hn).1 hmem
      rw [last_cons_cons, setnext, if_neg hne, ih (List.nodup_cons.mp hn).2 (by simp)]
      rfl

/-! ## Adding blocks -/

theorem Queue.Ok.link (h : q.Ok) (b : List Block) : (q.link b).bfirst = q.bfirst ++ b := by
  unfold Queue.link
  by_cases hq : q.bfirst = []
  · simp [hq]
  · simp only [hq, if_false]
    rw [h.blast hq, setnext_last b h.nodup hq]

theorem qaddlist_bfirst (h : q.Ok) (b : List Block) : (qaddlist q b).bfirst = q.bfirst ++ b :=
  h.link b

theorem qaddlist_ok (h : q.Ok) {b : List Block} (hb : b ≠ []) (hn : (addrs b).Nodup)
    (hf : ∀ a ∈ addrs b, a ∉ addrs q.bfirst) : (qaddlist q b).Ok := by
  have hbf := qaddlist_bfirst h b
  refine ⟨⟨?_, ?_, ?_⟩, ?_⟩
  · rw [hbf, blocklen_append, Int.natCast_add, ← h.dlen]
    rfl
  · rw [hbf, blockalloclen_append, Int.natCast_add, ← h.len]
    rfl
  · rw [hbf, last_append hb]
    exact fun _ => rfl
  · rw [hbf, addrs_append]
    exact List.nodup_append.mpr ⟨h.nodup, hn, fun x hx y hy hxy => hf y hy (hxy ▸ hx)⟩

/-- A chain that may be linked behind the blocks of the queue. -/
structure Linkable (q : Queue) (b : List Block) : Prop where
  nonNil : b ≠ []
  nodup : (addrs b).Nodup
  fresh : ∀ a ∈ addrs b, a ∉ addrs q.bfirst

/-- What the section of a writer does with the blocks `b`. -/
structure Wrote.Fed (q : Queue) (b : List Block) (w : Wrote) : Prop where
  mode : SameMode q w.q
  bfirst : w.q.bfirst = q.bfirst ++ (if w.queued then b else [])
  ok : (w.queued = true → Linkable q b) → w.q.Ok

theorem refused_fed (h : q.Ok) (b : List Block) (ret : Int) : (q.refused ret).Fed q b :=
  ⟨.refl q, by simp [Queue.refused], fun _ => h⟩

/-- Queueing the blocks `b`, whatever it does to the flags `Qstarve` and `Qflow`. -/
theorem qaddlist_fed (h : q.Ok) (b : List Block) (flow starve : Bool) (ret : Int)
    (dowakeup : Bool) :
    Wrote.Fed q b { q := { qaddlist q b with Qflow := flow, Qstarve := starve }, ret := ret,
                    queued := true, dowakeup := dowakeup } where
  mode := ⟨rfl, rfl, rfl, rfl, rfl, rfl⟩
  bfirst := qaddlist_bfirst h b
  ok hb :=
    have := qaddlist_ok h (hb rfl).nonNil (hb rfl).nodup (hb rfl).fresh
    ⟨⟨this.dlen, this.len, this.blast⟩, this.nodup⟩

theorem qpassnolim_fed (h : q.Ok) (b : List Block) : (qpassnolim q b).Fed q b := by
  unfold qpassnolim
  split
  · exact refused_fed h b _
  · dsimp only
    split
    · exact qaddlist_fed h b true false _ _
    · exact qaddlist_fed h b q.Qflow false _ _

theorem qpass_fed (h : q.Ok) (b : List Block) : (qpass q b).Fed q b := by
  unfold qpass
  split
  · exact refused_fed h b _
  · exact qpassnolim_fed h b

theorem qbwrite_fed (h : q.Ok) (b : Block) : (qbwrite q b).Fed q [b] := by
  unfold qbwrite
  split
  · exact refused_fed h _ _
  · split
    · exact refused_fed h _ _
    · exact qaddlist_fed h [b] q.Qflow false _ _

theorem qiwrite_fed (h : q.Ok) (b : Block) : (qiwrite q b).Fed q [b] := by
  unfold qiwrite
  split
  · exact refused_fed h _ _
  · exact qaddlist_fed h [b] q.Qflow false _ _

/-- `qproduce` queues one block with the data, at the address that `allocb` gives. -/
theorem qproduce_fed (h : q.Ok) (m : Option Nat) (p : List UInt8) :
    ∃ b : Block, b.data = p ∧ (qproduce q m p).Fed q [b] ∧
      ((qproduce q m p).queued = true → ∃ a, m = some a ∧ b.addr = (allocb a p.length).addr) := by
  have hfull : ∀ b, Wrote.Fed q b (Queue.refused { q with Qflow := true } (-1)) := fun b =>
    ⟨⟨rfl, rfl, rfl, rfl, rfl, rfl⟩, by simp [Queue.refused],
      fun _ => ⟨⟨h.dlen, h.len, h.blast⟩, h.nodup⟩⟩
  unfold qproduce
  split
  · exact ⟨⟨0, 0, p, 0, true⟩, rfl, hfull _, by simp [Queue.refused]⟩
  · cases m with
    | none =>
      exact ⟨⟨0, 0, p, 0, true⟩, rfl, refused_fed h _ _, by simp [iallocb, Queue.refused]⟩
    | some a =>
      refine ⟨Block.put { allocb a p.length with intr := true } p, by simp [allocb], ?_,
        fun _ => ⟨a, rfl, rfl⟩⟩
      simp only [iallocb, Option.map_some]
      split
      · exact qaddlist_fed h _ true false _ _
      · exact qaddlist_fed h _ q.Qflow false _ _

/-! ## Taking blocks -/

theorem qremove_nil (hq : q.bfirst = []) : qremove q = (q, none) := by
  simp [qremove, hq]

variable {next : List Block}

theorem qremove_cons (hq : q.bfirst = b :: next) :
    qremove q = ({ q with bfirst := next, dlen := q.dlen - BLEN b, len := q.len - BALLOC b },
      some b) := by
  simp [qremove, hq]

theorem qremove_mode (q : Queue) : SameMode q (qremove q).1 := by
  unfold qremove
  split <;> exact ⟨rfl, rfl, rfl, rfl, rfl, rfl⟩

/-- Dropping the first block, or replacing it by one of the same storage at the same address. -/
theorem Queue.Ok.tail (h : q.Ok) (hq : q.bfirst = b :: next) :
    Queue.Ok { q with bfirst := next, dlen := q.dlen - BLEN b, len := q.len - BALLOC b } := by
  have hd := h.dlen
  have hl := h.len
  have hn := h.nodup
  rw [hq] at hd hl hn
  simp only [blocklen_cons, blockalloclen_cons, Int.natCast_add] at hd hl
  refine ⟨⟨?_, ?_, ?_⟩, (List.nodup_cons.mp hn).2⟩
  · show q.dlen - BLEN b = blocklen next
    omega
  · show q.len - BALLOC b = blockalloclen next
    omega
  · intro hne
    have := h.blast (by rw [hq]; simp)
    rwa [hq, last_cons hne] at this

variable {n : Nat}

theorem Queue.Ok.head (h : q.Ok) (hq : q.bfirst = b :: next) (ha : b'.addr = b.addr)
    (hs : BALLOC b' = BALLOC b) (hl : BLEN b = BLEN b' + n) :
    Queue.Ok { q with bfirst := b' :: next, dlen := q.dlen - n } := by
  have hd := h.dlen
  have hlen := h.len
  have hn := h.nodup
  rw [hq] at hd hlen hn
  simp only [blocklen_cons, blockalloclen_cons, Int.natCast_add] at hd hlen
  refine ⟨⟨?_, ?_, ?_⟩, ?_⟩
  · simp only [blocklen_cons, Int.natCast_add]
    omega
  · simp only [blockalloclen_cons, Int.natCast_add]
    omega
  · intro _
    show q.blast = last (b' :: next)
    have := h.blast (by rw [hq]; simp)
    rw [this, hq, last_head ha]
  · show (addrs (b' :: next)).Nodup
    rwa [addrs_cons, ha]

theorem qremove_ok (h : q.Ok) : (qremove q).1.Ok := by
  unfold qremove
  split
  · exact h
  · rename_i b next hq
    exact h.tail hq

theorem qputback_ok (h : q.Ok) (hf : b.addr ∉ addrs q.bfirst) : (qputback q b).Ok := by
  refine ⟨⟨?_, ?_, ?_⟩, ?_⟩
  · simp only [qputback, blocklen_cons, Int.natCast_add, h.dlen]
    omega
  · simp only [qputback, blockalloclen_cons, Int.natCast_add, h.len]
    omega
  · intro _
    by_cases hq : q.bfirst = []
    · simp [qputback, hq]
    · simp only [qputback, hq, if_false]
      rw [last_cons hq]
      exact h.blast hq
  · exact List.nodup_cons.mpr ⟨hf, h.nodup⟩

/-- What the section of a reader does: it takes `out` off the front. `new` are the addresses of
the blocks that it allocates. -/
structure Took.Drained (q : Queue) (new : List Addr) (t : Took) : Prop where
  mode : SameMode q t.q
  addrs : ∀ a ∈ addrs t.q.bfirst, a ∈ Qio.addrs q.bfirst ∨ a ∈ new
  bytes : q.Qmsg = false → bytes q.bfirst = t.out ++ bytes t.q.bfirst
  ok : (∀ a ∈ new, a ∉ Qio.addrs q.bfirst) → t.q.Ok

theorem qwakeup_iunlock_eq (q : Queue) :
    (qwakeup_iunlock q).1 = { q with Qflow := q.Qflow && !(qwakeup_iunlock q).2 } := by
  unfold qwakeup_iunlock
  split
  · simp
  · simp

theorem Queue.took_mode {q : Queue} (hm : SameMode q q') (out : List UInt8) (ret : Int) :
    SameMode q (q'.took out ret).q := by
  have he : (q'.took out ret).q = { q' with Qflow := q'.Qflow && !(qwakeup_iunlock q').2 } :=
    qwakeup_iunlock_eq q'
  rw [he]
  exact ⟨hm.limit, hm.Qmsg, hm.Qclosed, hm.Qcoalesce, hm.noblock, hm.bypass⟩

/-- The flow control test at the end of a section touches the flag `Qflow` only. -/
theorem Queue.took_drained {q : Queue} {new : List Addr} {out : List UInt8} {ret : Int}
    (hm : SameMode q q') (ha : ∀ a ∈ addrs q'.bfirst, a ∈ addrs q.bfirst ∨ a ∈ new)
    (hb : q.Qmsg = false → bytes q.bfirst = out ++ bytes q'.bfirst)
    (ho : (∀ a ∈ new, a ∉ addrs q.bfirst) → q'.Ok) : (q'.took out ret).Drained q new := by
  have he : (q'.took out ret).q = { q' with Qflow := q'.Qflow && !(qwakeup_iunlock q').2 } :=
    qwakeup_iunlock_eq q'
  refine ⟨took_mode hm out ret, ?_, ?_, ?_⟩
  · rw [he]
    exact ha
  · rw [he]
    exact hb
  · rw [he]
    exact fun hn => ⟨⟨(ho hn).dlen, (ho hn).len, (ho hn).blast⟩, (ho hn).nodup⟩

/-- A reader that finds nothing, and at most asks to be woken. -/
theorem starved_drained {q : Queue} (hm : SameMode q q') (ha : addrs q'.bfirst ⊆ addrs q.bfirst)
    (hb : bytes q.bfirst = bytes q'.bfirst) (ho : q'.Ok) (new : List Addr) (ret : Int) :
    Took.Drained q new { q := { q' with Qstarve := true }, out := [], ret := ret,
                         dowakeup := false } where
  mode := ⟨hm.limit, hm.Qmsg, hm.Qclosed, hm.Qcoalesce, hm.noblock, hm.bypass⟩
  addrs := fun _ h => .inl (ha h)
  bytes := fun _ => hb
  ok := fun _ => ⟨⟨ho.dlen, ho.len, ho.blast⟩, ho.nodup⟩

theorem qget_drained (h : q.Ok) : (qget q).Drained q [] := by
  unfold qget
  match hq : q.bfirst with
  | [] =>
    rw [qremove_nil hq]
    exact starved_drained (.refl q) (List.Subset.refl _) rfl h [] 0
  | b :: next =>
    rw [qremove_cons hq]
    refine Queue.took_drained ⟨rfl, rfl, rfl, rfl, rfl, rfl⟩ ?_ ?_ fun _ => h.tail hq
    · rw [hq]
      exact fun a ha => .inl (List.mem_cons_of_mem _ ha)
    · rw [hq]
      exact fun _ => rfl

theorem qdiscardLoop_spec (h : q.Ok) (hq : q.bfirst = bs) (len : Nat) :
    SameMode q (qdiscardLoop bs q len).1 ∧
    addrs (qdiscardLoop bs q len).1.bfirst ⊆ addrs bs ∧
    bytes bs = (qdiscardLoop bs q len).2 ++ bytes (qdiscardLoop bs q len).1.bfirst ∧
    (qdiscardLoop bs q len).2.length ≤ len ∧
    (qdiscardLoop bs q len).1.Ok := by
  induction bs generalizing q len with
  | nil =>
    rw [qdiscardLoop]
    exact ⟨.refl q, by simp [hq], by simp [hq], by simp, h⟩
  | cons b next ih =>
    rw [qdiscardLoop]
    split
    · exact ⟨.refl q, by simp [hq], by simp [hq], by simp, h⟩
    · split
      · rename_i hlen
        have hr := qremove_cons hq
        obtain ⟨i1, i2, i3, i4, i5⟩ := ih (q := (qremove q).1) (qremove_ok h) (by rw [hr])
          (len - BLEN b)
        refine ⟨(qremove_mode q).trans i1, ?_, ?_, ?_, i5⟩
        · exact fun a ha => List.mem_cons_of_mem _ (i2 ha)
        · simp only [bytes_cons, List.append_assoc]
          rw [i3]
        · rw [List.length_append, ← BLEN_eq b]
          omega
      · rename_i hlen
        refine ⟨⟨rfl, rfl, rfl, rfl, rfl, rfl⟩, by simp, ?_, by simp, ?_⟩
        · simp only [bytes_cons, Block.skip_data, ← List.append_assoc, List.take_append_drop]
        · refine h.head hq (b.skip_addr len) (BALLOC_skip (by omega)) ?_
          rw [BLEN_skip]
          omega

theorem qdiscard_drained (h : q.Ok) (len : Nat) : (qdiscard q len).Drained q [] := by
  obtain ⟨i1, i2, i3, -, i5⟩ := qdiscardLoop_spec h rfl len
  exact Queue.took_drained i1 (fun a ha => .inl (i2 ha)) (fun _ => i3) fun _ => i5

theorem skipempty_spec (h : q.Ok) (hq : q.bfirst = bs) :
    SameMode q (skipempty bs q) ∧
    (∃ es, bs = es ++ (skipempty bs q).bfirst) ∧
    bytes bs = bytes (skipempty bs q).bfirst ∧
    (skipempty bs q).Ok := by
  induction bs generalizing q with
  | nil => exact ⟨.refl q, ⟨[], by simp [skipempty, hq]⟩, by simp [skipempty, hq], h⟩
  | cons b next ih =>
    rw [skipempty]
    split
    · exact ⟨.refl q, ⟨[], by simp [hq]⟩, by simp [hq], h⟩
    · rename_i hb
      have hb0 : b.data = [] := List.length_eq_zero_iff.mp (Nat.le_zero.mp (Nat.le_of_not_lt hb))
      have ht := h.tail hq
      rw [show BLEN b = 0 by simp [BLEN, hb0], Int.natCast_zero, Int.sub_zero] at ht
      obtain ⟨i1, ⟨es, i2⟩, i3, i4⟩ := ih ht rfl
      have hm : SameMode q { q with bfirst := next, len := q.len - BALLOC b } :=
        ⟨rfl, rfl, rfl, rfl, rfl, rfl⟩
      refine ⟨hm.trans i1, ⟨b :: es, ?_⟩, ?_, i4⟩
      · rw [List.cons_append, ← i2]
      · rw [bytes_cons, hb0, List.nil_append, i3]

theorem consumeblock_drained (h : q.Ok) (hq : q.bfirst = b :: next) (len : Nat) :
    (consumeblock q b next len).Drained q [] := by
  unfold consumeblock
  generalize hlen : (if BLEN b < len then BLEN b else len) = l
  have hl : l ≤ BLEN b := by
    rw [← hlen]
    split <;> omega
  have hok : Queue.Ok { q with bfirst := b.skip l :: next, dlen := q.dlen - l } :=
    h.head hq (b.skip_addr l) (BALLOC_skip hl) (by rw [BLEN_skip]; omega)
  dsimp only
  rw [hlen]
  split
  · rename_i hdone
    have hm : SameMode q { q with bfirst := b.skip l :: next, dlen := q.dlen - l } :=
      ⟨rfl, rfl, rfl, rfl, rfl, rfl⟩
    refine Queue.took_drained (hm.trans (qremove_mode _)) ?_ ?_ fun _ => qremove_ok hok
    · rw [hq]
      exact fun a ha => .inl (List.mem_cons_of_mem _ ha)
    · intro hmsg
      have : l = b.data.length := by
        rw [hmsg, Bool.false_or] at hdone
        exact of_decide_eq_true hdone
      rw [hq, bytes_cons, this, List.take_length]
      rfl
  · refine Queue.took_drained ⟨rfl, rfl, rfl, rfl, rfl, rfl⟩ ?_ (fun _ => ?_) fun _ => hok
    · rw [hq]
      exact fun a ha => .inl ha
    · rw [hq]
      simp only [bytes_cons, Block.skip_data, ← List.append_assoc, List.take_append_drop]

theorem qconsume_drained (h : q.Ok) (len : Nat) : (qconsume q len).Drained q [] := by
  obtain ⟨i1, ⟨es, i2⟩, i3, i4⟩ := skipempty_spec h rfl
  have hsub : addrs (skipempty q.bfirst q).bfirst ⊆ addrs q.bfirst := by
    intro a ha
    rw [i2, addrs_append]
    exact List.mem_append_right _ ha
  unfold qconsume
  generalize skipempty q.bfirst q = q' at i1 i3 i4 hsub
  dsimp only
  split
  · exact starved_drained i1 hsub i3 i4 [] (-1)
  · rename_i b next hq
    have hd := consumeblock_drained i4 hq len
    refine ⟨i1.trans hd.mode, fun a ha => ?_, fun hmsg => ?_, fun _ => hd.ok (by simp)⟩
    · exact .inl (hsub ((hd.addrs a ha).resolve_right (by simp)))
    · rw [i3, hd.bytes (by rw [i1.Qmsg, hmsg])]

theorem qbread_drained (h : q.Ok) (m len : Nat) (hq : q.bfirst = b :: next) :
    (qbread q m len).Drained q [(allocb m (BLEN b - len)).addr] := by
  simp only [qbread, qremove_cons hq]
  have hok := h.tail hq
  split
  · split
    · rename_i hmsg
      refine Queue.took_drained ⟨rfl, rfl, rfl, rfl, rfl, rfl⟩ ?_ ?_ fun _ => hok
      · rw [hq]
        exact fun a ha => .inl (List.mem_cons_of_mem _ ha)
      · intro hmsg'
        rw [hmsg'] at hmsg
        exact absurd hmsg (by simp)
    · refine Queue.took_drained ⟨rfl, rfl, rfl, rfl, rfl, rfl⟩ ?_ ?_ fun hn => qputback_ok hok ?_
      · intro a ha
        rcases List.mem_cons.mp ha with rfl | ha
        · exact .inr (by simp)
        · exact .inl (by rw [hq]; exact List.mem_cons_of_mem _ ha)
      · intro _
        rw [hq]
        simp only [bytes_cons, qputback, Block.cut_data, Block.put_data, ← List.append_assoc]
        simp [allocb]
      · rw [hq] at hn
        exact fun hmem => hn _ (List.mem_singleton_self _) (List.mem_cons_of_mem _ hmem)
  · refine Queue.took_drained ⟨rfl, rfl, rfl, rfl, rfl, rfl⟩ ?_ ?_ fun _ => hok
    · rw [hq]
      exact fun a ha => .inl (List.mem_cons_of_mem _ ha)
    · rw [hq]
      exact fun _ => rfl

/-! ## qread -/

/-- `qwait` touches `eof` and `Qstarve` only. -/
theorem qwait_eq (q : Queue) : ∃ e v, (qwait q).1 = { q with eof := e, Qstarve := v } := by
  unfold qwait
  dsimp only
  split
  · exact ⟨q.eof, q.Qstarve, rfl⟩
  · split
    · split
      · exact ⟨_, _, rfl⟩
      · split <;> exact ⟨_, _, rfl⟩
    · exact ⟨_, _, rfl⟩

theorem qwait_data : (qwait q).2 = .data ↔ q.bfirst ≠ [] := by
  unfold qwait
  by_cases hq : q.bfirst = []
  · simp only [hq, ne_eq, not_true_eq_false, if_false, iff_false]
    split
    · split
      · simp
      · split <;> simp
    · simp
  · simp [hq]

/-- `qbread` after `qwait`. -/
theorem qbread_waited (h : q.Ok) (hq : q.bfirst = b :: next) {e : Nat} {v : Bool}
    (hw : q' = { q with eof := e, Qstarve := v }) (m len : Nat) :
    (qbread q' m len).Drained q [(allocb m (BLEN b - len)).addr] := by
  have hok : q'.Ok := by
    rw [hw]
    exact ⟨⟨h.dlen, h.len, h.blast⟩, h.nodup⟩
  have hd := qbread_drained hok m len (show q'.bfirst = b :: next by rw [hw, ← hq])
  rw [hw] at hd ⊢
  exact ⟨⟨hd.mode.limit, hd.mode.Qmsg, hd.mode.Qclosed, hd.mode.Qcoalesce, hd.mode.noblock,
    hd.mode.bypass⟩, hd.addrs, hd.bytes, hd.ok⟩

theorem dropempty_spec (h : q.Ok) (hq : q.bfirst = bs) :
    SameMode q (dropempty bs q) ∧
    (∃ es, bytes es = [] ∧ bs = es ++ (dropempty bs q).bfirst) ∧
    (dropempty bs q).Ok := by
  induction bs generalizing q with
  | nil => exact ⟨.refl q, ⟨[], rfl, by simp [dropempty, hq]⟩, h⟩
  | cons b next ih =>
    rw [dropempty]
    split
    · exact ⟨.refl q, ⟨[], rfl, by simp [hq]⟩, h⟩
    · rename_i hb
      have hb0 : b.data = [] := List.length_eq_zero_iff.mp (Nat.le_zero.mp (Nat.le_of_not_lt hb))
      have hr := qremove_cons hq
      obtain ⟨i1, ⟨es, i2, i3⟩, i4⟩ := ih (qremove_ok h) (by rw [hr])
      refine ⟨(qremove_mode q).trans i1, ⟨b :: es, ?_, ?_⟩, i4⟩
      · rw [bytes_cons, hb0, i2]
        rfl
      · rw [List.cons_append, ← i3]

/-- The blocks that `qread` takes: one block, or blocks that fit in the read. -/
structure Fits (len : Nat) (first : List Block) (n : Nat) : Prop where
  count : n = blocklen first
  fits : n ≤ len ∨ ∃ b, first = [b]

theorem gather_spec (h : q.Ok) (hq : q.bfirst = bs) (len n : Nat) :
    SameMode q (gather len bs q n).1 ∧
    bs = (gather len bs q n).2.1 ++ (gather len bs q n).1.bfirst ∧
    (gather len bs q n).2.2 = n + blocklen (gather len bs q n).2.1 ∧
    ((gather len bs q n).2.2 ≤ len ∨ bs.take 1 = (gather len bs q n).2.1) ∧
    (gather len bs q n).1.Ok := by
  induction bs generalizing q n with
  | nil => exact ⟨.refl q, by simp [gather, hq], by simp [gather], by simp [gather], h⟩
  | cons b next ih =>
    have hr := qremove_cons hq
    have hq' : (qremove q).1.bfirst = next := by rw [hr]
    have hok := qremove_ok h
    unfold gather
    dsimp only
    split
    · exact ⟨qremove_mode q, by simp [hq'], by simp, by simp, hok⟩
    · rename_i c cs
      split
      · exact ⟨qremove_mode q, by simp [hq'], by simp, by simp, hok⟩
      · rename_i hfit
        obtain ⟨i1, i2, i3, i4, i5⟩ := ih hok hq' (n + BLEN b)
        refine ⟨(qremove_mode q).trans i1, ?_, ?_, .inl ?_, i5⟩
        · rw [List.cons_append, ← i2]
        · rw [i3, blocklen_cons]
          omega
        · rcases i4 with i4 | i4
          · exact i4
          · rw [i3, ← i4]
            simp
            omega

/-- What the first section of `qread` does: it drops the empty blocks `es` and takes `first`. -/
structure Grabbed.Spec (q : Queue) (len : Nat) (g : Grabbed) : Prop where
  mode : SameMode q g.q
  chain : ∃ es, bytes es = [] ∧ q.bfirst = es ++ (g.first ++ g.q.bfirst)
  fits : Fits len g.first g.n
  none : g.wait ≠ .data → g.first = [] ∧ g.q.bfirst = []
  ok : g.q.Ok

theorem qreadGrab_spec (h : q.Ok) (len : Nat) : (qreadGrab q len).Spec q len := by
  have hdrop : ∃ q', (if q.Qcoalesce then dropempty q.bfirst q else q) = q' ∧ SameMode q q' ∧
      (∃ es, bytes es = [] ∧ q.bfirst = es ++ q'.bfirst) ∧ q'.Ok := by
    split
    · exact ⟨_, rfl, dropempty_spec h rfl⟩
    · exact ⟨q, rfl, .refl q, ⟨[], rfl, rfl⟩, h⟩
  obtain ⟨q', he, hm, ⟨es, hes, hch⟩, hok⟩ := hdrop
  obtain ⟨e, v, hw⟩ := qwait_eq q'
  have hdata := qwait_data (q := q')
  have hok' : (qwait q').1.Ok := by
    rw [hw]
    exact ⟨⟨hok.dlen, hok.len, hok.blast⟩, hok.nodup⟩
  have hm' : SameMode q (qwait q').1 := by
    rw [hw]
    exact ⟨hm.limit, hm.Qmsg, hm.Qclosed, hm.Qcoalesce, hm.noblock, hm.bypass⟩
  have hbf : (qwait q').1.bfirst = q'.bfirst := by rw [hw]
  rw [← hbf] at hch hdata
  unfold qreadGrab
  dsimp only
  rw [he]
  generalize qwait q' = r at hok' hm' hch hdata
  obtain ⟨q₁, w⟩ := r
  have hnone : w ≠ .data → Grabbed.Spec q len { q := q₁, wait := w, first := [], n := 0 } := by
    intro hne
    have hnil : q₁.bfirst = [] := by
      by_contra hc
      exact hne (hdata.mpr hc)
    exact ⟨hm', ⟨es, hes, hch⟩, ⟨rfl, .inl (Nat.zero_le _)⟩, fun _ => ⟨rfl, hnil⟩, hok'⟩
  cases w with
  | data =>
    dsimp only
    have hne := hdata.mp rfl
    dsimp only at hok' hm' hch hne
    split
    · obtain ⟨i1, i2, i3, i4, i5⟩ := gather_spec hok' rfl len 0
      refine ⟨hm'.trans i1, ⟨es, hes, by rw [← i2, hch]⟩, ⟨by simpa using i3, ?_⟩, by simp, i5⟩
      refine i4.imp_right fun i4 => ?_
      obtain ⟨b, next, hb⟩ := List.exists_cons_of_ne_nil hne
      exact ⟨b, by rw [← i4, hb]; rfl⟩
    · obtain ⟨b, next, hb⟩ := List.exists_cons_of_ne_nil hne
      rw [qremove_cons hb]
      refine ⟨hm'.trans ⟨rfl, rfl, rfl, rfl, rfl, rfl⟩, ⟨es, hes, ?_⟩, ⟨by simp, .inr ⟨b, rfl⟩⟩,
        by simp, hok'.tail hb⟩
      rw [hch, hb]
      rfl
  | closed => exact hnone (by simp)
  | error => exact hnone (by simp)
  | sleep => exact hnone (by simp)

theorem bl2mem_spec (bs : List Block) (n : Nat) :
    bytes bs = (bl2mem bs n).1 ++ bytes (bl2mem bs n).2 ∧
    (bl2mem bs n).1.length ≤ n ∧
    (bl2mem bs n).2.length ≤ bs.length ∧
    (addrs (bl2mem bs n).2) ⊆ addrs bs ∧
    (blocklen bs ≤ n → (bl2mem bs n).2 = []) := by
  induction bs generalizing n with
  | nil => simp [bl2mem]
  | cons b next ih =>
    obtain ⟨i1, i2, i3, i4, i5⟩ := ih (n - BLEN b)
    rw [bl2mem]
    split
    · rename_i hn
      refine ⟨?_, by simp, by simp, by simp, fun hc => ?_⟩
      · simp only [bytes_cons, Block.skip_data, ← List.append_assoc, List.take_append_drop]
      · rw [blocklen_cons] at hc
        omega
    · refine ⟨?_, ?_, ?_, ?_, fun hc => ?_⟩
      · rw [bytes_cons, i1, List.append_assoc]
      · rw [List.length_append, ← BLEN_eq b]
        omega
      · exact Nat.le_succ_of_le i3
      · exact fun a ha => List.mem_cons_of_mem _ (i4 ha)
      · rw [blocklen_cons] at hc
        exact i5 (by omega)

/-- What the last section of `qread` does with the blocks `first` that it holds. -/
structure Took.Copied (q : Queue) (len : Nat) (first : List Block) (t : Took) : Prop where
  mode : SameMode q t.q
  addrs : ∀ a ∈ addrs t.q.bfirst, a ∈ Qio.addrs q.bfirst ∨ a ∈ Qio.addrs first
  bytes : q.Qmsg = false → Qio.bytes first ++ Qio.bytes q.bfirst = t.out ++ Qio.bytes t.q.bfirst
  ok : (∀ a ∈ Qio.addrs first, a ∉ Qio.addrs q.bfirst) → t.q.Ok
  asked : t.out.length ≤ len
  ret : t.ret = t.out.length

/-- As `took_drained`, for the blocks that the read holds. -/
theorem Queue.took_copied {q : Queue} {len : Nat} {first : List Block} {out : List UInt8}
    {ret : Int} (hm : SameMode q q')
    (ha : ∀ a ∈ addrs q'.bfirst, a ∈ addrs q.bfirst ∨ a ∈ addrs first)
    (hb : q.Qmsg = false → bytes first ++ bytes q.bfirst = out ++ bytes q'.bfirst)
    (ho : (∀ a ∈ addrs first, a ∉ addrs q.bfirst) → q'.Ok) (hl : out.length ≤ len)
    (hr : ret = out.length) : (q'.took out ret).Copied q len first := by
  have he : (q'.took out ret).q = { q' with Qflow := q'.Qflow && !(qwakeup_iunlock q').2 } :=
    qwakeup_iunlock_eq q'
  refine ⟨took_mode hm out ret, ?_, ?_, ?_, hl, hr⟩
  · rw [he]
    exact ha
  · rw [he]
    exact hb
  · rw [he]
    exact fun hn => ⟨⟨(ho hn).dlen, (ho hn).len, (ho hn).blast⟩, (ho hn).nodup⟩

theorem qreadDone_copied (h : q.Ok) {len : Nat} {first : List Block} (hf : Fits len first n) :
    (qreadDone q len first n).Copied q len first := by
  have hspec := bl2mem_spec first len
  unfold qreadDone
  generalize bl2mem first len = r at hspec
  obtain ⟨out, rest⟩ := r
  obtain ⟨i1, i2, i3, i4, i5⟩ := hspec
  dsimp only at i1 i2 i3 i4 i5
  have hret : (n : Int) - (blocklen rest : Nat) = out.length := by
    rw [hf.count, blocklen_eq, i1, List.length_append, ← blocklen_eq]
    omega
  -- a chain of more than one block is used up, so at most one block is left
  have hrest : rest.length ≤ 1 := by
    rcases hf.fits with hfit | ⟨b, hb⟩
    · rw [i5 (hf.count ▸ hfit)]
      exact Nat.zero_le 1
    · rw [hb] at i3
      exact i3
  match rest, hrest with
  | [], _ =>
    refine Queue.took_copied (.refl q) (fun a ha => .inl ha) (fun _ => ?_) (fun _ => h) i2 ?_
    · rw [i1, bytes_nil, List.append_nil]
    · simpa using hret
  | [b], _ =>
    have hb : b.addr ∈ addrs first := i4 (by simp)
    simp only [bytes_cons, bytes_nil, List.append_nil] at i1
    simp only [blocklen_cons, blocklen_nil, Nat.add_zero] at hret
    refine Queue.took_copied ?_ ?_ (fun hmsg => ?_) (fun hn => ?_) i2 hret
    · split <;> exact ⟨rfl, rfl, rfl, rfl, rfl, rfl⟩
    · split
      · exact fun a ha => .inl ha
      · intro a ha
        rcases List.mem_cons.mp ha with rfl | ha
        · exact .inr hb
        · exact .inl ha
    · rw [hmsg, i1, List.append_assoc]
      rfl
    · split
      · exact h
      · exact qputback_ok h (hn _ hb)
  | _ :: _ :: _, hlen => exact absurd hlen (by simp)

/-! ## pullupqueue -/

/-- The storage of the blocks that `pullupblock` frees to get `n` more bytes from the chain. -/
def spanned (n : Nat) : List Block → Nat
  | [] => 0
  | b :: next =>
    if BLEN b > n then 0
    else if n - BLEN b = 0 then BALLOC b
    else BALLOC b + spanned (n - BLEN b) next

/-- The storage that `pullupqueue` allocates. -/
def pullalloc (m n : Nat) (b : Block) : Nat :=
  if BLEN b + b.tail < n then BALLOC (allocb m n) else 0

/-- The storage that `pullupqueue` frees. -/
def pullfree (n : Nat) (b : Block) (next : List Block) : Nat :=
  if BLEN b + b.tail < n then spanned n (b :: next) else spanned (n - BLEN b) next

/-- `pullupqueue` finds the bytes in the first block, or it finds them further on and frees as
much storage as it allocates. -/
def PullKeeps (m n : Nat) : List Block → Prop
  | [] => True
  | b :: next =>
    n ≤ BLEN b ∨ n ≤ blocklen (b :: next) ∧ pullalloc m n b = pullfree n b next

/-- The loop moves the bytes, or frees all the blocks when there are too few. -/
theorem pullupLoop_spec {bp : Block} (bs : List Block) (hn : 0 < n) (hr : n ≤ bp.tail) :
    (blocklen bs < n ∧ pullupLoop bp n bs = []) ∨
    (n ≤ blocklen bs ∧ ∃ b' next, pullupLoop bp n bs = b' :: next ∧ b'.addr = bp.addr ∧
      (addrs next).Sublist (addrs bs) ∧
      bytes (pullupLoop bp n bs) = bytes (bp :: bs) ∧
      blockalloclen (pullupLoop bp n bs) + spanned n bs = blockalloclen (bp :: bs)) := by
  induction bs generalizing bp n with
  | nil => exact .inl ⟨hn, rfl⟩
  | cons b next ih =>
    rw [pullupLoop, spanned]
    by_cases hi : BLEN b > n
    · refine .inr ⟨by rw [blocklen_cons]; omega, ?_⟩
      simp only [hi, if_true]
      refine ⟨_, _, rfl, rfl, by simp, ?_, ?_⟩
      · simp only [bytes_cons, Block.put_data, Block.skip_data, List.append_assoc]
        rw [← List.append_assoc (b.data.take n), List.take_append_drop]
      · simp only [blockalloclen_cons]
        rw [BALLOC_put (by simp; omega), BALLOC_skip (by omega)]
        rfl
    · have hle : BLEN b ≤ n := by omega
      have hput : BALLOC (bp.put b.data) = BALLOC bp := BALLOC_put (by rw [← BLEN_eq]; omega)
      simp only [hi, if_false]
      by_cases h0 : n - BLEN b = 0
      · refine .inr ⟨by rw [blocklen_cons]; omega, ?_⟩
        simp only [h0, if_true]
        refine ⟨_, _, rfl, rfl, by simp, ?_, ?_⟩
        · simp only [bytes_cons, Block.put_data, List.append_assoc]
        · simp only [blockalloclen_cons, hput]
          omega
      · simp only [h0, if_false, blocklen_cons]
        have hroom : n - BLEN b ≤ (bp.put b.data).tail := by
          rw [Block.put_tail, ← BLEN_eq]
          omega
        rcases ih (by omega) hroom with ⟨j1, j2⟩ | ⟨j1, b', rest, j2, j3, j4, j5, j6⟩
        · exact .inl ⟨by omega, j2⟩
        · refine .inr ⟨by omega, b', rest, j2, j3, j4.trans (List.sublist_cons_self _ _), ?_, ?_⟩
          · rw [j5]
            simp only [bytes_cons, Block.put_data, List.append_assoc]
          · rw [blockalloclen_cons, hput] at j6
            simp only [blockalloclen_cons]
            omega

/-- `pullupblock` keeps the data, and its storage is that of the chain with the difference of what
it allocates and frees; or it frees the chain, which is too short. -/
theorem pullupblock_spec (m : Nat) (next : List Block) (hn : BLEN b < n) :
    (blocklen (b :: next) < n ∧ pullupblock m b next n = []) ∨
    (n ≤ blocklen (b :: next) ∧ pullupblock m b next n ≠ [] ∧
      (addrs (pullupblock m b next n)).Sublist ((allocb m n).addr :: addrs (b :: next)) ∧
      bytes (pullupblock m b next n) = bytes (b :: next) ∧
      blockalloclen (pullupblock m b next n) + pullfree n b next =
        blockalloclen (b :: next) + pullalloc m n b) := by
  unfold pullupblock pullfree pullalloc
  rw [if_neg (by omega)]
  split
  · rcases pullupLoop_spec (b :: next) (show 0 < n by omega) (allocb_room m n) with
      ⟨j1, j2⟩ | ⟨j1, b', rest, j2, j3, j4, j5, j6⟩
    · exact .inl ⟨j1, j2⟩
    · refine .inr ⟨j1, by simp [j2], ?_, ?_, ?_⟩
      · rw [j2, addrs_cons, j3]
        exact j4.cons_cons _
      · rw [j5]
        simp [allocb]
      · rw [j6, blockalloclen_cons]
        omega
  · rcases pullupLoop_spec next (show 0 < n - BLEN b by omega)
      (show n - BLEN b ≤ b.tail by omega) with
      ⟨j1, j2⟩ | ⟨j1, b', rest, j2, j3, j4, j5, j6⟩
    · exact .inl ⟨by rw [blocklen_cons]; omega, j2⟩
    · refine .inr ⟨by rw [blocklen_cons]; omega, by simp [j2], ?_, j5, by omega⟩
      rw [j2, addrs_cons, j3, addrs_cons]
      exact (j4.cons_cons _).trans (List.sublist_cons_self _ _)

theorem pullupLoop_head {bp : Block} (h : pullupLoop bp n bs = b' :: next) :
    BLEN b' = BLEN bp + n := by
  induction bs generalizing bp n with
  | nil => simp [pullupLoop] at h
  | cons b rest ih =>
    have hput : BLEN (bp.put b.data) = BLEN bp + BLEN b := by simp [BLEN]
    rw [pullupLoop] at h
    split at h
    · rename_i hi
      rw [← (List.cons.inj h).1]
      simp only [BLEN, Block.put_data, List.length_append, List.length_take]
      rw [BLEN_eq] at hi
      omega
    · split at h
      · rw [← (List.cons.inj h).1, hput]
        omega
      · rw [ih h, hput]
        omega

variable {m : Nat}

/-- The first block then holds just the bytes asked for. -/
theorem pullupblock_head {rest : List Block} (hn : BLEN b < n)
    (h : pullupblock m b next n = b' :: rest) : BLEN b' = n := by
  unfold pullupblock at h
  rw [if_neg (by omega)] at h
  split at h
  · rw [pullupLoop_head h]
    simp [allocb, BLEN]
  · rw [pullupLoop_head h]
    omega

theorem pullupqueue_cons (hq : q.bfirst = b :: next) (hn : BLEN b < n) : pullupqueue q m n =
      some { q with bfirst := pullupblock m b next n, blast := last (pullupblock m b next n) } := by
  simp only [pullupqueue, hq]
  rw [if_neg (by omega)]
  rfl

/-- `pullupqueue` keeps the accounting, on blocks with storage, exactly if it frees as much storage
as it allocates and does not run out of data. -/
theorem pullupqueue_acct_iff (h : q.Ok) (hpos : ∀ b ∈ q.bfirst, 0 < BALLOC b)
    (hp : pullupqueue q m n = some q') : Acct q' ↔ PullKeeps m n q.bfirst := by
  match hq : q.bfirst with
  | [] => simp [pullupqueue, hq] at hp
  | b :: next =>
    by_cases hn : n ≤ BLEN b
    · simp only [pullupqueue, hq, hn, if_true, Option.some.injEq] at hp
      rw [← hp]
      exact ⟨fun _ => .inl hn, fun _ => h.toAcct⟩
    · rw [pullupqueue_cons hq (by omega), Option.some.injEq] at hp
      have hl := h.len
      have hd := h.dlen
      have hb := hpos b (by simp [hq])
      rw [hq] at hl hd
      rw [blockalloclen_cons] at hl
      simp only [PullKeeps, hn, false_or]
      rw [← hp]
      rcases pullupblock_spec m next (Nat.lt_of_not_le hn) with ⟨j1, j2⟩ | ⟨j1, -, -, j4, j5⟩
      · refine ⟨fun hA => ?_, fun hk => absurd hk.1 (by omega)⟩
        have := hA.len
        simp only [j2, blockalloclen_nil] at this
        omega
      · refine ⟨fun hA => ⟨j1, ?_⟩, fun hk => ⟨?_, ?_, fun _ => rfl⟩⟩
        · have := hA.len
          simp only [hl] at this
          rw [blockalloclen_cons] at j5
          omega
        · rw [blocklen_eq, j4, ← blocklen_eq]
          exact hd
        · rw [blockalloclen_cons] at j5
          simp only [hl]
          omega

theorem pullupqueue_ok (h : q.Ok) (hp : pullupqueue q m n = some q') (hk : PullKeeps m n q.bfirst)
    (hf : (allocb m n).addr ∉ addrs q.bfirst) :
    SameMode q q' ∧ bytes q'.bfirst = bytes q.bfirst ∧
    (∀ a ∈ addrs q'.bfirst, a ∈ addrs q.bfirst ∨ a = (allocb m n).addr) ∧ q'.Ok := by
  match hq : q.bfirst with
  | [] => simp [pullupqueue, hq] at hp
  | b :: next =>
    by_cases hn : n ≤ BLEN b
    · simp only [pullupqueue, hq, hn, if_true, Option.some.injEq] at hp
      rw [← hp, hq]
      exact ⟨.refl q, rfl, fun _ ha => .inl ha, h⟩
    · rw [pullupqueue_cons hq (by omega), Option.some.injEq] at hp
      have hl := h.len
      have hd := h.dlen
      have hnd := h.nodup
      rw [hq] at hl hd hnd hf
      simp only [hq, PullKeeps, hn, false_or] at hk
      rw [← hp]
      rcases pullupblock_spec m next (Nat.lt_of_not_le hn) with ⟨j1, -⟩ | ⟨j1, j2, j3, j4, j5⟩
      · exact absurd hk.1 (by omega)
      · refine ⟨⟨rfl, rfl, rfl, rfl, rfl, rfl⟩, j4, fun a ha => ?_, ⟨⟨?_, ?_, fun _ => rfl⟩, ?_⟩⟩
        · rcases List.mem_cons.mp (j3.subset ha) with rfl | ha
          · exact .inr rfl
          · exact .inl ha
        · rw [blocklen_eq, j4, ← blocklen_eq]
          exact hd
        · simp only [hl]
          omega
        · exact (List.nodup_cons.mpr ⟨hf, hnd⟩).sublist j3

end NixMark.Qio
