import NixMark.Qio.Fifo

/-!
# Flow control

A writer that finds the queue full sets `Qflow` and sleeps; a reader that leaves less than half of
the limit clears `Qflow` and wakes it. `Sys.Stranded`: a writer is asleep on an open, blocking and
empty queue, and no wakeup is to come.

* `Sys.Flow`: the invariant. A sleeping writer has `Qflow` set or a wakeup to come, and a writer on
  its way to sleep has `Qflow` set or finds the queue not full.
* `Guard`: the steps that keep it. The limit is at least 2; a block that is queued without setting
  `Qflow` does not fill the queue while a writer is on its way to sleep; and a reader does not
  empty the queue of blocks without data while a writer is asleep.
* `not_stranded_of_guard`, `flow_stranded`: no writer is stranded when the steps meet `Guard`, and
  a run in which one is.
-/

namespace NixMark.Qio

open Lib

/-! ## What the readers do to `len` and `Qflow` -/

/-- The queue holds no more storage, and `Qflow` is as it was. -/
structure Shrinks (q q' : Queue) : Prop where
  len : q'.len ≤ q.len
  Qflow : q'.Qflow = q.Qflow

theorem Shrinks.refl (q : Queue) : Shrinks q q := ⟨Int.le_refl _, rfl⟩

variable {q : Queue}

theorem Shrinks.trans {q' q'' : Queue} (h : Shrinks q q') (h' : Shrinks q' q'') : Shrinks q q'' :=
  ⟨Int.le_trans h'.len h.len, h'.Qflow.trans h.Qflow⟩

theorem qremove_shrinks (q : Queue) : Shrinks q (qremove q).1 := by
  unfold qremove
  split
  · exact .refl q
  · exact ⟨by dsimp only; omega, rfl⟩

theorem qdiscardLoop_shrinks (bs : List Block) (q : Queue) (len : Nat) :
    Shrinks q (qdiscardLoop bs q len).1 := by
  induction bs generalizing q len with
  | nil => exact .refl q
  | cons b next ih =>
    rw [qdiscardLoop]
    split
    · exact .refl q
    · split
      · exact (qremove_shrinks q).trans (ih _ _)
      · exact ⟨Int.le_refl _, rfl⟩

theorem skipempty_shrinks (bs : List Block) (q : Queue) : Shrinks q (skipempty bs q) := by
  induction bs generalizing q with
  | nil => exact .refl q
  | cons b next ih =>
    rw [skipempty]
    split
    · exact .refl q
    · have h : Shrinks q { q with bfirst := next, len := q.len - BALLOC b } :=
        ⟨by dsimp only; omega, rfl⟩
      exact h.trans (ih _)

theorem dropempty_shrinks (bs : List Block) (q : Queue) : Shrinks q (dropempty bs q) := by
  induction bs generalizing q with
  | nil => exact .refl q
  | cons b next ih =>
    rw [dropempty]
    split
    · exact .refl q
    · exact (qremove_shrinks q).trans (ih _)

theorem gather_shrinks (len : Nat) (bs : List Block) (q : Queue) (n : Nat) :
    Shrinks q (gather len bs q n).1 := by
  induction bs generalizing q n with
  | nil => exact .refl q
  | cons b next ih =>
    unfold gather
    dsimp only
    split
    · exact qremove_shrinks q
    · split
      · exact qremove_shrinks q
      · exact (qremove_shrinks q).trans (ih _ _)

theorem qwait_shrinks (q : Queue) : Shrinks q (qwait q).1 := by
  obtain ⟨e, v, h⟩ := qwait_eq q
  rw [h]
  exact ⟨Int.le_refl _, rfl⟩

variable {len : Nat}

/-- A `qread` that does not coalesce drops no blocks. -/
theorem qreadGrab_nil (hc : q.Qcoalesce = false) (hw : (qreadGrab q len).wait ≠ .data) :
    q.bfirst = [] := by
  by_contra hne
  refine hw ?_
  have hd := qwait_data.mpr hne
  unfold qreadGrab
  simp only [hc, Bool.false_eq_true, if_false]
  split
  · split
    · rfl
    · split <;> rfl
  · rename_i q' w hx heq
    rw [heq] at hd
    exact hd

theorem qreadGrab_shrinks (q : Queue) (len : Nat) : Shrinks q (qreadGrab q len).q := by
  have hdrop : Shrinks q (if q.Qcoalesce then dropempty q.bfirst q else q) := by
    split
    · exact dropempty_shrinks _ _
    · exact .refl q
  unfold qreadGrab
  dsimp only
  generalize (if q.Qcoalesce then dropempty q.bfirst q else q) = q' at hdrop
  have hw := hdrop.trans (qwait_shrinks q')
  generalize qwait q' = r at hw
  obtain ⟨q₁, w⟩ := r
  cases w with
  | data =>
    dsimp only
    split
    · exact hw.trans (gather_shrinks _ _ _ _)
    · have hr := hw.trans (qremove_shrinks q₁)
      split
      · rename_i heq
        rw [heq] at hr
        exact hr
      · rename_i heq
        rw [heq] at hr
        exact hr
  | _ => exact hw

/-- `qconsume` finds no data, and drops all blocks, or it ends with the flow control test. -/
theorem qconsume_cases (h : q.Ok) (len : Nat) :
    (∃ q', qconsume q len =
        { q := { q' with Qstarve := true }, out := [], ret := -1, dowakeup := false } ∧
      SameMode q q' ∧ Shrinks q q' ∧ bytes q.bfirst = []) ∨
    ∃ q' out ret, qconsume q len = q'.took out ret ∧ SameMode q q' ∧ Shrinks q q' := by
  obtain ⟨i1, -, i3, -⟩ := skipempty_spec h rfl
  have hs := skipempty_shrinks q.bfirst q
  unfold qconsume
  generalize skipempty q.bfirst q = q₁ at i1 i3 hs
  dsimp only
  split
  · rename_i hq
    exact .inl ⟨q₁, rfl, i1, hs, by rw [i3, hq]; rfl⟩
  · rename_i b next hq
    refine .inr ?_
    unfold consumeblock
    dsimp only
    generalize (if BLEN b < len then BLEN b else len) = l
    have hm : SameMode q { q₁ with bfirst := b.skip l :: next, dlen := q₁.dlen - l } :=
      i1.trans ⟨rfl, rfl, rfl, rfl, rfl, rfl⟩
    have hs' : Shrinks q { q₁ with bfirst := b.skip l :: next, dlen := q₁.dlen - l } :=
      hs.trans ⟨Int.le_refl _, rfl⟩
    split
    · exact ⟨_, _, _, rfl, hm.trans (qremove_mode _), hs'.trans (qremove_shrinks _)⟩
    · exact ⟨_, _, _, rfl, hm, hs'⟩

/-- The flow control test that ends the section of a reader. -/
theorem took_cases (q : Queue) (out : List UInt8) (ret : Int) :
    (q.took out ret).dowakeup = true ∧ (q.took out ret).q.Qflow = false ∧
        (q.took out ret).q.len < q.limit.tdiv 2 ∨
      (q.took out ret).dowakeup = false ∧ (q.took out ret).q = q ∧
        (q.Qflow = true → q.limit.tdiv 2 ≤ q.len) := by
  unfold Queue.took qwakeup_iunlock
  dsimp only
  split
  · rename_i h
    exact .inl ⟨rfl, rfl, h.2⟩
  · rename_i h
    exact .inr ⟨rfl, rfl, fun hf => Int.not_lt.mp fun hl => h ⟨hf, hl⟩⟩

/-- `qpass` sets `Qflow` on a queue that is at least half full. -/
theorem qpass_flow (q : Queue) (b : List Block) :
    (qpass q b).queued = false ∧ (qpass q b).q = q ∨
    (qpass q b).queued = true ∧ ((qpass q b).q.Qflow = true ∨
      (qpass q b).q.Qflow = q.Qflow ∧ (qpass q b).q.len < q.limit.tdiv 2) := by
  unfold qpass
  split
  · exact .inl ⟨rfl, rfl⟩
  · unfold qpassnolim
    split
    · exact .inl ⟨rfl, rfl⟩
    · dsimp only
      split
      · exact .inr ⟨rfl, .inl rfl⟩
      · rename_i hl
        exact .inr ⟨rfl, .inr ⟨rfl, Int.not_le.mp hl⟩⟩

/-- `qproduce` sets `Qflow` on a full queue. -/
theorem qproduce_flow (q : Queue) (m : Option Nat) (p : List UInt8) :
    (q.Qflow = true → (qproduce q m p).q.Qflow = true) ∧
      ((qproduce q m p).q.Qflow = true ∨ (qproduce q m p).q.len < q.limit) ∧
      ((qproduce q m p).queued = false → (qproduce q m p).q.bfirst = q.bfirst ∧
        ((qproduce q m p).q.Qflow = q.Qflow ∨ q.limit ≤ q.len)) := by
  unfold qproduce
  split
  · rename_i hl
    exact ⟨fun _ => rfl, .inl rfl, fun _ => ⟨rfl, .inr hl⟩⟩
  · rename_i hl
    cases m with
    | none => exact ⟨id, .inr (Int.not_le.mp hl), fun _ => ⟨rfl, .inl rfl⟩⟩
    | some a =>
      simp only [iallocb, Option.map_some]
      split
      · exact ⟨fun _ => rfl, .inl rfl, fun hq => by cases hq⟩
      · rename_i hl'
        exact ⟨id, .inr (Int.not_le.mp hl'), fun hq => by cases hq⟩

/-- `qiwrite` leaves `Qflow` as it is, whatever it queues. -/
theorem qiwrite_flow (q : Queue) (b : Block) :
    (qiwrite q b).q.Qflow = q.Qflow ∧
      ((qiwrite q b).queued = true → q.dlen < 32 * 1024 ∧ (qiwrite q b).q.len = q.len + BALLOC b) := by
  unfold qiwrite
  split
  · exact ⟨rfl, fun h => by cases h⟩
  · rename_i hd
    refine ⟨rfl, fun _ => ⟨Int.not_le.mp hd, ?_⟩⟩
    show q.len + blockalloclen [b] = _
    simp

/-- The block that is left by the copy of a `qread` is the one that it took. -/
theorem bl2mem_left {n : Nat} {first rest : List Block} {b : Block} (h : Fits len first n)
    (hb : (bl2mem first len).2 = b :: rest) : len < n ∧ BALLOC b = blockalloclen first := by
  have hn : ¬ n ≤ len := by
    intro hn
    rw [(bl2mem_spec first len).2.2.2.2 (h.count ▸ hn)] at hb
    cases hb
  obtain ⟨b', rfl⟩ := h.fits.resolve_left hn
  have hl : BLEN b' > len := by
    have := h.count
    simp only [blocklen_cons, blocklen_nil] at this
    omega
  rw [bl2mem, if_pos hl] at hb
  cases hb
  exact ⟨by omega, by rw [BALLOC_skip (by omega)]; simp⟩

/-! ## The processes -/

/-- The process is about to wake the writer. -/
def Pc.wakes : Pc → Prop
  | .wakeup .w _ => True
  | .wakeup .r k => k.wakes
  | _ => False

/-- The process is neither asleep as a writer nor on its way there. -/
def Pc.Clear : Pc → Prop
  | .sleep x _ | .asleep x _ => x = .r
  | _ => True

theorem Pc.Cont.clear {k : Pc} (h : k.Cont) : k.Clear := by
  cases k <;> trivial

theorem Pc.Rest.clear {k : Pc} (h : k.Rest) : k.Clear := by
  cases k <;> trivial

variable {x : Side}

theorem Pc.Wakes.clear {k : Pc} (h : k.Wakes x) : k.Clear := by
  cases k <;> trivial

namespace Sys

/-- A writer is asleep. -/
def Asleep (s : Sys) : Prop := ∃ p k, s.pc p = .asleep .w k

/-- A writer has set `Qflow` and is on its way to sleep. -/
def Flagged (s : Sys) : Prop := ∃ p k, s.pc p = .sleep .w k

/-- A process is about to wake the writer. -/
def Waking (s : Sys) : Prop := ∃ p, (s.pc p).wakes

/-- A `qread` is copying; it makes the flow control test when it is done. -/
def Copying (s : Sys) : Prop := ∃ p len first n, s.pc p = .copy len first n

/-- A wakeup of the writer is to come. -/
def Pending (s : Sys) : Prop := s.Waking ∨ s.q.Qflow = true ∧ s.Copying

/-- A writer is asleep, the queue is open, blocking and empty, and no wakeup is to come. -/
structure Stranded (s : Sys) : Prop where
  asleep : s.Asleep
  isOpen : s.q.Qclosed = false
  blocking : s.q.noblock = false
  empty : s.q.bfirst = []
  lost : ¬ s.Pending

/-- The invariant of flow control. -/
structure Flow (s : Sys) : Prop where
  inv : s.Inv
  limit : 2 ≤ s.q.limit
  isOpen : s.q.Qclosed = false
  asleep : s.Asleep → s.q.Qflow = true ∨ s.Waking
  flagged : s.Flagged → s.q.Qflow = true ∨ s.q.len < s.q.limit
  empty : s.Asleep → s.q.Qflow = true → s.q.bfirst = [] → s.Copying ∨ s.Waking

variable {s : Sys} {p : Pid} {k : Pc}

theorem Flow.not_stranded (h : s.Flow) : ¬ s.Stranded := by
  intro hs
  have hq : s.q.Qflow = true := (h.asleep hs.asleep).resolve_right fun hw => hs.lost (.inl hw)
  rcases h.empty hs.asleep hq hs.empty with hc | hw
  · exact hs.lost (.inr ⟨hq, hc⟩)
  · exact hs.lost (.inl hw)

theorem Asleep.of_goto (hk : k.Clear) (h : ((s.setq q).goto p k).Asleep) : s.Asleep := by
  obtain ⟨p', k', h⟩ := h
  by_cases hp : p' = p
  · rw [hp, goto_self] at h
    rw [h] at hk
    cases hk
  · rw [goto_ne _ _ hp] at h
    exact ⟨p', k', h⟩

theorem Flagged.of_goto (hk : k.Clear) (h : ((s.setq q).goto p k).Flagged) : s.Flagged := by
  obtain ⟨p', k', h⟩ := h
  by_cases hp : p' = p
  · rw [hp, goto_self] at h
    rw [h] at hk
    cases hk
  · rw [goto_ne _ _ hp] at h
    exact ⟨p', k', h⟩

theorem Waking.goto (hp : (s.pc p).wakes → k.wakes) (h : s.Waking) :
    ((s.setq q).goto p k).Waking := by
  obtain ⟨p', h⟩ := h
  by_cases hpp : p' = p
  · exact ⟨p, by rw [goto_self]; exact hp (hpp ▸ h)⟩
  · exact ⟨p', by rw [goto_ne _ _ hpp]; exact h⟩

theorem Copying.goto (hc : ∀ len first n, s.pc p ≠ .copy len first n) (h : s.Copying) :
    ((s.setq q).goto p k).Copying := by
  obtain ⟨p', len, first, n, h⟩ := h
  by_cases hpp : p' = p
  · exact absurd (hpp ▸ h) (hc len first n)
  · exact ⟨p', len, first, n, by rw [goto_ne _ _ hpp]; exact h⟩

/-- A step to `k` that keeps `Qflow`. -/
theorem Flow.goto (h : s.Flow) (hI : Inv ((s.setq q).goto p k)) (hm : SameMode s.q q) (hk : k.Clear)
    (hw : (s.pc p).wakes → k.wakes) (hflow : s.q.Qflow = true → q.Qflow = true)
    (hflag : s.Flagged → q.Qflow = true ∨ q.len < s.q.limit)
    (hempty : s.Asleep → q.Qflow = true → q.bfirst = [] →
      ((s.setq q).goto p k).Copying ∨ ((s.setq q).goto p k).Waking) :
    Flow ((s.setq q).goto p k) where
  inv := hI
  limit := hm.limit ▸ h.limit
  isOpen := hm.Qclosed ▸ h.isOpen
  asleep ha := (h.asleep (ha.of_goto hk)).imp hflow (Waking.goto hw)
  flagged hf := by
    rw [goto_q, setq_q, hm.limit]
    exact hflag (hf.of_goto hk)
  empty ha := hempty (ha.of_goto hk)

/-- A step to `k` that keeps the chain, `len` and `Qflow`. -/
theorem Flow.quiet (h : s.Flow) (hI : Inv ((s.setq q).goto p k)) (hm : SameMode s.q q)
    (hk : k.Clear) (hw : (s.pc p).wakes → k.wakes) (hc : ∀ len first n, s.pc p ≠ .copy len first n)
    (hflow : q.Qflow = s.q.Qflow) (hlen : q.len = s.q.len) (hb : q.bfirst = s.q.bfirst) :
    Flow ((s.setq q).goto p k) := by
  refine h.goto hI hm hk hw (hflow ▸ id) (fun hf => ?_) fun ha hq he => ?_
  · rw [hflow, hlen]
    exact h.flagged hf
  · exact (h.empty ha (hflow ▸ hq) (hb ▸ he)).imp (Copying.goto hc) (Waking.goto hw)

variable {s' : Sys}

/-- A step to `k` that changes the locks or the rendezvous. -/
theorem Flow.relock (h : s.Flow) (he : (s'.q, s'.pc) = (s.q, s.pc)) (hk : k.Clear)
    (hw : (s.pc p).wakes → k.wakes) (hc : ∀ len first n, s.pc p ≠ .copy len first n)
    (hI : Inv (s'.goto p k)) : Flow (s'.goto p k) := by
  obtain ⟨q, pc, lock, rendez⟩ := s'
  cases he
  exact ⟨hI, h.limit, h.isOpen, fun ha => (h.asleep (ha.of_goto hk)).imp_right (Waking.goto hw),
    fun hf => h.flagged (hf.of_goto hk), fun ha hq hb =>
      (h.empty (ha.of_goto hk) hq hb).imp (Copying.goto hc) (Waking.goto hw)⟩

/-- Taking a free lock. -/
theorem Flow.setlock (h : s.Flow) (hx : s.lock x = none) (p : Pid) : Flow (s.setlock x (some p)) :=
  ⟨h.inv.setlock hx p, h.limit, h.isOpen, h.asleep, h.flagged, h.empty⟩

/-- The section of a reader that ends with the flow control test. -/
theorem Flow.took (h : s.Flow) {out : List UInt8} {ret : Int} {asked : Option Nat}
    (hI : Inv (s.took p (q.took out ret) asked k).1) (hm : SameMode s.q q) (hk : k.Cont)
    (hp : ¬ (s.pc p).wakes) (hflow : q.Qflow = s.q.Qflow)
    (hlen : s.Flagged → s.q.Qflow = true ∨ q.len < s.q.limit) :
    Flow (s.took p (q.took out ret) asked k).1 := by
  have hlim : (1 : Int) ≤ s.q.limit.tdiv 2 ∧ s.q.limit.tdiv 2 ≤ s.q.limit := by
    have := h.limit
    rw [Int.tdiv_eq_ediv_of_nonneg (by omega)]
    omega
  have hcl : (after .w (q.took out ret).dowakeup k).Clear := (after_cont hk).clear
  have hm' := Queue.took_mode hm out ret
  rcases took_cases q out ret with ⟨hd, hf, hl⟩ | ⟨hd, hq, hl⟩
  · -- the test wakes the writer
    have hwk : (s.took p (q.took out ret) asked k).1.Waking :=
      ⟨p, by simp [Sys.took, hd, after, Pc.wakes]⟩
    refine ⟨hI, hm'.limit ▸ h.limit, hm'.Qclosed ▸ h.isOpen, fun _ => .inr hwk, fun _ => .inr ?_,
      fun _ _ _ => .inr hwk⟩
    show (q.took out ret).q.len < (q.took out ret).q.limit
    rw [hm'.limit]
    rw [hm.limit] at hl
    omega
  · refine h.goto hI hm' hcl (fun hw => absurd hw hp) ?_ ?_ ?_
    · rw [hq, hflow]
      exact id
    · rw [hq, hflow]
      exact hlen
    · -- an empty queue with `Qflow` set would have been woken
      intro _ hqf he
      have hA := hI.ok.len
      rw [show (s.took p (q.took out ret) asked k).1.q = q from hq] at hA
      rw [hq] at hqf he
      have := hl hqf
      rw [hm.limit] at this
      rw [he, blockalloclen_nil] at hA
      omega

/-! ## The steps -/

/-- Storage `n` more does not fill the queue, or a writer that finds it full has set `Qflow`. -/
def Room (s : Sys) (n : Int) : Prop :=
  s.q.len + n < s.q.limit ∨ s.q.Qflow = true ∨ ¬ s.Flagged

end Sys

/-- The step is a `qread` of a queue that coalesces, or a `qconsume`; these drop blocks without
data. -/
def DropsEmpty (s : Sys) (l : Label) : Prop :=
  (∃ len m, l.act = .call (.qconsume len) m) ∨
  s.q.Qcoalesce = true ∧
    ((∃ len m, l.act = .call (.qread len) m) ∨ ∃ len m, s.pc l.pid = .qread len ∧ l.act = .go m)

/-- The step is the section of `qbread` of `len` bytes, where `malloc` returns `m`. -/
def Splits (s : Sys) (l : Label) (len m : Nat) : Prop :=
  l.act = .call (.qbread len) (some m) ∨ s.pc l.pid = .qbread len ∧ l.act = .go (some m)

/-- The conditions under which a step keeps the flow control. -/
structure Guard (s : Sys) (l : Label) : Prop where
  limit : 2 ≤ s.q.limit
  /-- the block that `qiwrite` queues -/
  qiwrite : ∀ d w m, s.pc l.pid = .qiwrite d w → l.act = .go (some m) →
    s.q.dlen < 32 * 1024 → s.Room (BALLOC (allocb m (Sys.chunk d).length))
  /-- the partial block that `qread` puts back -/
  qread : ∀ len first n m, s.pc l.pid = .copy len first n → l.act = .go m →
    s.q.Qmsg = false → len < n → s.Room (blockalloclen first)
  /-- the block that `qbread` splits in two -/
  qbread : ∀ len m b next, Splits s l len m → s.q.bfirst = b :: next → s.q.Qmsg = false →
    len < BLEN b → s.Room (BALLOC (allocb m (BLEN b - len)) - BALLOC b)
  /-- the blocks without data that a reader drops -/
  empties : DropsEmpty s l → s.q.bfirst ≠ [] → bytes s.q.bfirst = [] → s.Asleep → s.Pending

/-- The step is one of a call on a stream; the queue may be one of messages. -/
def FlowStep (l : Label) : Prop := ∀ op m, l.act = .call op m → op.Streams

/-- The runs of the processes that the flow control is about. -/
def flows : Lts Sys Label where
  init s := ∃ limit msg coalesce, 0 ≤ limit ∧ s = Sys.start (qopen limit msg coalesce)
  step s l s' := lts.step s l s' ∧ FlowStep l

namespace Sys

variable {s : Sys} {p : Pid} {k : Pc}

/-- No writer is asleep or on its way there while `wlock` is free or another process has it. -/
theorem Inv.alone (h : s.Inv) (hw : ∀ p, s.lock .w = some p → (s.pc p).Clear) :
    ¬ s.Asleep ∧ ¬ s.Flagged := by
  constructor
  · rintro ⟨p, k, hp⟩
    have := hw p (h.lock p .w (by rw [hp]; rfl))
    rw [hp] at this
    cases this
  · rintro ⟨p, k, hp⟩
    have := hw p (h.lock p .w (by rw [hp]; rfl))
    rw [hp] at this
    cases this

/-- A step with no writer asleep or on its way there. -/
theorem Flow.alone {s s' : Sys} (h : s.Flow) (hI : s'.Inv) (hm : SameMode s.q s'.q)
    (ha : ¬ s'.Asleep) (hf : ¬ s'.Flagged) : s'.Flow where
  inv := hI
  limit := hm.limit ▸ h.limit
  isOpen := hm.Qclosed ▸ h.isOpen
  asleep hc := absurd hc ha
  flagged hc := absurd hc hf
  empty hc := absurd hc ha

/-- `qbwrite` takes `wlock`, so it is the only process in the flow control loop. -/
theorem Flow.qbwriteStep (h : s.Flow) {b : Block} (hl : s.lock .w = none)
    (hI : Inv (s.qbwriteStep p b k).1) : Flow (s.qbwriteStep p b k).1 := by
  have hn := h.inv.alone fun p' hp' => by rw [hl] at hp'; cases hp'
  have hcont : (if (qbwrite s.q b).queued then Pc.flow k
      else .qunlock .w (if s.q.Qclosed then .idle else k)).Cont := by
    split <;> trivial
  have hcl := (after_cont (x := .r) (w := (qbwrite s.q b).dowakeup) hcont).clear
  exact h.alone hI (qbwrite_fed h.inv.ok b).mode
    (fun ha => hn.1 (Asleep.of_goto (s := s.setlock .w (some p)) hcl ha))
    fun hf => hn.2 (Flagged.of_goto (s := s.setlock .w (some p)) hcl hf)

/-- The section of a writer that does not take `wlock`. -/
theorem Flow.wrote (h : s.Flow) {w : Wrote} {b : List Block} {d : List UInt8}
    (hI : Inv (s.wrote p w d k).1) (hw : w.Fed s.q b) (hb : w.queued = true → b ≠ []) (hk : k.Cont)
    (hp : ¬ (s.pc p).wakes) (hc : ∀ len first n, s.pc p ≠ .copy len first n)
    (hflow : s.q.Qflow = true → w.q.Qflow = true)
    (hflag : s.Flagged → w.q.Qflow = true ∨ w.q.len < s.q.limit)
    (hset : w.queued = false → w.q.Qflow = true → s.q.Qflow = true ∨ w.q.bfirst ≠ []) :
    Flow (s.wrote p w d k).1 := by
  refine h.goto hI hw.mode (after_cont hk).clear (fun hx => absurd hx hp) hflow hflag ?_
  intro ha hq he
  have hbf := hw.bfirst
  rw [he] at hbf
  cases hqd : w.queued with
  | true =>
    rw [hqd, if_pos rfl] at hbf
    exact absurd (List.append_eq_nil_iff.mp hbf.symm).2 (hb hqd)
  | false =>
    rw [hqd] at hbf
    have hs : s.q.bfirst = [] := by simpa using hbf.symm
    have hsq : s.q.Qflow = true := (hset hqd hq).resolve_right fun hne => hne he
    exact (h.empty ha hsq hs).imp (Copying.goto hc) (Waking.goto fun hx => absurd hx hp)

theorem Flow.qread (h : s.Flow) (hI : Inv (s.qreadStep p len).1) (hp : ¬ (s.pc p).wakes)
    (hc : ∀ len first n, s.pc p ≠ .copy len first n)
    (he : s.q.Qcoalesce = true → s.q.bfirst ≠ [] → bytes s.q.bfirst = [] → s.Asleep → s.Pending) :
    Flow (s.qreadStep p len).1 := by
  have hg := qreadGrab_spec h.inv.ok len
  have hs := qreadGrab_shrinks s.q len
  obtain ⟨es, hes, hch⟩ := hg.chain
  have hflag : s.Flagged → (qreadGrab s.q len).q.Qflow = true ∨
      (qreadGrab s.q len).q.len < s.q.limit := fun hf => by
    rw [hs.Qflow]
    exact (h.flagged hf).imp_right fun hl => Int.lt_of_le_of_lt hs.len hl
  -- a queue that was emptied of its data, or that was empty
  have hkeep : ∀ k : Pc, k.Clear → (qreadGrab s.q len).wait ≠ .data →
      Inv ((s.setq (qreadGrab s.q len).q).goto p k) →
      Flow ((s.setq (qreadGrab s.q len).q).goto p k) := by
    intro k hk hw hI
    refine h.goto hI hg.mode hk (fun hx => absurd hx hp) (hs.Qflow ▸ id) hflag ?_
    intro ha hq _
    rw [hs.Qflow] at hq
    obtain ⟨hf, hn⟩ := hg.none hw
    rw [hf, hn] at hch
    have hpend : s.Copying ∨ s.Waking := by
      by_cases hb : s.q.bfirst = []
      · exact h.empty ha hq hb
      · have hco : s.q.Qcoalesce = true := by
          by_contra hco
          exact hb (qreadGrab_nil (by simpa using hco) hw)
        have hby : bytes s.q.bfirst = [] := by
          rw [hch]
          simpa using hes
        exact ((he hco hb hby ha).imp_right And.right).symm
    exact hpend.imp (Copying.goto hc) (Waking.goto fun hx => absurd hx hp)
  unfold Sys.qreadStep at hI ⊢
  dsimp only at hI ⊢
  split
  · rename_i hw
    rw [hw] at hI
    refine h.goto hI hg.mode trivial (fun hx => absurd hx hp) (hs.Qflow ▸ id) hflag ?_
    exact fun _ _ _ => .inl ⟨p, _, _, _, goto_self _ _ _⟩
  · rename_i hw
    rw [hw] at hI
    exact hkeep _ trivial (by simp [hw]) hI
  · rename_i hw
    rw [hw] at hI
    exact hkeep _ trivial (by simp [hw]) hI
  · rename_i hw
    rw [hw] at hI
    exact hkeep _ rfl (by simp [hw]) hI

theorem Flow.qbread (h : s.Flow) {m : Nat} (hI : Inv (s.qbreadStep p m len).1)
    (hp : ¬ (s.pc p).wakes) (hc : ∀ len first n, s.pc p ≠ .copy len first n)
    (hg : ∀ b next, s.q.bfirst = b :: next → s.q.Qmsg = false → len < BLEN b →
      s.Room (BALLOC (allocb m (BLEN b - len)) - BALLOC b)) : Flow (s.qbreadStep p m len).1 := by
  unfold Sys.qbreadStep at hI ⊢
  obtain ⟨e, v, hw⟩ := qwait_eq s.q
  have hdata := qwait_data (q := s.q)
  generalize qwait s.q = r at hw hdata hI
  obtain ⟨q, w⟩ := r
  dsimp only at hw hdata
  have hquiet : ∀ k : Pc, k.Clear → Inv ((s.setq q).goto p k) → Flow ((s.setq q).goto p k) := by
    intro k hk hI
    rw [hw] at hI ⊢
    exact h.quiet hI ⟨rfl, rfl, rfl, rfl, rfl, rfl⟩ hk (fun hx => absurd hx hp) hc rfl rfl rfl
  cases w with
  | data =>
    dsimp only at hI ⊢
    match hq : s.q.bfirst with
    | [] => exact absurd hq (hdata.mp rfl)
    | b :: next =>
      have hqb : q.bfirst = b :: next := by rw [hw, ← hq]
      -- what is left in the queue without the block `b`
      have hless : s.Flagged → s.q.Qflow = true ∨ q.len - BALLOC b < s.q.limit := fun hf => by
        refine (h.flagged hf).imp_right fun hl => ?_
        rw [hw]
        dsimp only
        omega
      simp only [Qio.qbread, qremove_cons hqb] at hI ⊢
      split
      · rename_i hl
        rw [if_pos hl] at hI
        refine h.took hI ?_ trivial hp ?_ fun hf => ?_
        · rw [hw]
          split <;> exact ⟨rfl, rfl, rfl, rfl, rfl, rfl⟩
        · rw [hw]
          split <;> rfl
        · split
          · exact hless hf
          · rename_i hm
            have hput : BALLOC ((allocb m (BLEN b - len)).put (b.data.drop len)) =
                BALLOC (allocb m (BLEN b - len)) := BALLOC_put (by
              have := allocb_room m (BLEN b - len)
              rw [List.length_drop, ← BLEN_eq]
              omega)
            rcases hg b next hq (by rw [hw] at hm; simpa using hm) hl with hr | hr | hr
            · refine .inr ?_
              simp only [qputback, hput]
              rw [hw]
              dsimp only
              omega
            · exact .inl hr
            · exact absurd hf hr
      · rename_i hl
        rw [if_neg hl] at hI
        refine h.took hI ?_ trivial hp ?_ hless
        · rw [hw]
          exact ⟨rfl, rfl, rfl, rfl, rfl, rfl⟩
        · rw [hw]
  | closed => exact hquiet _ trivial hI
  | error => exact hquiet _ trivial hI
  | sleep => exact hquiet _ rfl hI

theorem Flow.qconsume (h : s.Flow) (hI : Inv (s.took p (Qio.qconsume s.q len) (some len) .idle).1)
    (hp : ¬ (s.pc p).wakes) (hc : ∀ len first n, s.pc p ≠ .copy len first n)
    (he : s.q.bfirst ≠ [] → bytes s.q.bfirst = [] → s.Asleep → s.Pending) :
    Flow (s.took p (Qio.qconsume s.q len) (some len) .idle).1 := by
  have hless : ∀ {q : Queue}, Shrinks s.q q → s.Flagged →
      s.q.Qflow = true ∨ q.len < s.q.limit := fun hs hf =>
    (h.flagged hf).imp_right fun hl => Int.lt_of_le_of_lt hs.len hl
  rcases qconsume_cases h.inv.ok len with ⟨q, hq, hm, hs, hb⟩ | ⟨q, out, ret, hq, hm, hs⟩
  · rw [hq] at hI ⊢
    refine h.goto hI ⟨hm.limit, hm.Qmsg, hm.Qclosed, hm.Qcoalesce, hm.noblock, hm.bypass⟩ trivial
      (fun hx => absurd hx hp) (hs.Qflow ▸ id) (fun hf => ?_) fun ha hqf _ => ?_
    · exact (hless hs hf).imp_left fun hq => hs.Qflow.trans hq
    · have hqf' : s.q.Qflow = true := hs.Qflow ▸ hqf
      have hpend : s.Copying ∨ s.Waking := by
        by_cases hne : s.q.bfirst = []
        · exact h.empty ha hqf' hne
        · exact ((he hne hb ha).imp_right And.right).symm
      exact hpend.imp (Copying.goto hc) (Waking.goto fun hx => absurd hx hp)
  · rw [hq] at hI ⊢
    exact h.took hI hm trivial hp hs.Qflow (hless hs)

theorem Flow.copy (h : s.Flow) {n : Nat} {first : List Block}
    (hI : Inv (s.took p (qreadDone s.q len first n) (some len) (.qunlock .r .idle)).1)
    (hp : s.pc p = .copy len first n) (hf : Fits len first n)
    (hg : s.q.Qmsg = false → len < n → s.Room (blockalloclen first)) :
    Flow (s.took p (qreadDone s.q len first n) (some len) (.qunlock .r .idle)).1 := by
  have hp' : ¬ (s.pc p).wakes := by rw [hp]; exact id
  unfold qreadDone at hI ⊢
  cases hr : bl2mem first len with
  | mk out rest =>
    rw [hr] at hI
    have hleft : ∀ b next, rest = b :: next → len < n ∧ BALLOC b = blockalloclen first :=
      fun b next he => bl2mem_left hf (by rw [hr, he])
    cases rest with
    | nil => exact h.took hI (.refl _) trivial hp' rfl h.flagged
    | cons b next =>
      obtain ⟨hl, hb⟩ := hleft b next rfl
      dsimp only at hI ⊢
      refine h.took hI ?_ trivial hp' ?_ fun hfl => ?_
      · split <;> exact ⟨rfl, rfl, rfl, rfl, rfl, rfl⟩
      · split <;> rfl
      · split
        · exact h.flagged hfl
        · rename_i hm
          rcases hg (by simpa using hm) hl with hr | hr | hr
          · refine .inr ?_
            show s.q.len + BALLOC b < s.q.limit
            rw [hb]
            exact hr
          · exact .inl hr
          · exact absurd hfl hr

/-- After a wakeup of `q->wr` no writer is asleep. -/
theorem Inv.wake_asleep (h : s.Inv) : ¬ (s.wake .w).Asleep := by
  rintro ⟨p, k, hp⟩
  unfold Sys.wake at hp
  cases hr : s.rendez .w with
  | none =>
    rw [hr] at hp
    exact absurd (h.rendez p .w k hp) (by simp [hr])
  | some p' =>
    rw [hr] at hp
    dsimp only at hp
    by_cases hpp : p = p'
    · rw [hpp, goto_self] at hp
      have hwf := h.wf p'
      cases hpc : s.pc p' with
      | asleep y k' =>
        rw [hpc] at hp hwf
        have hk : k'.Wakes y := hwf
        exact hk.plain.awake _ _ hp
      | _ => rw [hpc] at hp; cases hp
    · rw [goto_ne _ _ hpp] at hp
      have := h.rendez p .w k hp
      rw [hr] at this
      exact hpp (Option.some.inj this).symm

/-- A wakeup moves no process towards sleep. -/
theorem Inv.wake_pc (h : s.Inv) (x : Side) (p : Pid) :
    (s.wake x).pc p = s.pc p ∨ ∃ y k, s.pc p = .asleep y k ∧ (s.wake x).pc p = k ∧ k.Wakes y := by
  unfold Sys.wake
  cases hr : s.rendez x with
  | none => exact .inl rfl
  | some p' =>
    dsimp only
    by_cases hpp : p = p'
    · rw [hpp, goto_self]
      have hwf := h.wf p'
      cases hpc : s.pc p' with
      | asleep y k =>
        rw [hpc] at hwf
        exact .inr ⟨y, k, rfl, rfl, hwf⟩
      | _ => exact .inl rfl
    · exact .inl (goto_ne _ _ hpp)

theorem Inv.wake_flagged (h : s.Inv) (hf : (s.wake x).Flagged) : s.Flagged := by
  obtain ⟨p, k, hp⟩ := hf
  rcases h.wake_pc x p with he | ⟨y, k', -, he, hk⟩
  · exact ⟨p, k, he ▸ hp⟩
  · rw [he] at hp
    rw [hp] at hk
    cases hk

/-- A wakeup of the readers leaves the writers as they are. -/
theorem Flow.wake_r (h : s.Flow) : Flow (s.wake .r) := by
  have hpc := h.inv.wake_pc .r
  have hw : s.Waking → (s.wake .r).Waking := by
    rintro ⟨p, hp⟩
    rcases hpc p with he | ⟨y, k, he, -, -⟩
    · exact ⟨p, he ▸ hp⟩
    · rw [he] at hp
      cases hp
  have hc : s.Copying → (s.wake .r).Copying := by
    rintro ⟨p, len, first, n, hp⟩
    rcases hpc p with he | ⟨y, k, he, -, -⟩
    · exact ⟨p, len, first, n, he.trans hp⟩
    · rw [he] at hp
      cases hp
  have ha : (s.wake .r).Asleep → s.Asleep := by
    rintro ⟨p, k, hp⟩
    rcases hpc p with he | ⟨y, k', -, he, hk⟩
    · exact ⟨p, k, he ▸ hp⟩
    · exact absurd (he.symm.trans hp) (hk.plain.awake _ _)
  refine ⟨h.inv.wake .r, ?_, ?_, ?_, ?_, ?_⟩
  · rw [wake_q]
    exact h.limit
  · rw [wake_q]
    exact h.isOpen
  · rw [wake_q]
    exact fun hs => (h.asleep (ha hs)).imp_right hw
  · rw [wake_q]
    exact fun hf => h.flagged (h.inv.wake_flagged hf)
  · rw [wake_q]
    exact fun hs hq he => (h.empty (ha hs) hq he).imp hc hw

/-- A writer that commits to its sleep found the queue full, so `Qflow` is still set. -/
theorem Flow.commit (h : s.Flow) (hp : s.pc p = .sleep .w k) (hr : s.ready .w = false)
    (hI : Inv ((s.setrendez .w (some p)).goto p (.asleep .w k))) :
    Flow ((s.setrendez .w (some p)).goto p (.asleep .w k)) := by
  have hfull : s.q.limit ≤ s.q.len := by
    have : qnotfull s.q = false := hr
    simp only [qnotfull, h.isOpen, Bool.or_false, decide_eq_false_iff_not, Int.not_lt] at this
    exact this
  have hq : s.q.Qflow = true := (h.flagged ⟨p, k, hp⟩).resolve_right (Int.not_lt.mpr hfull)
  refine ⟨hI, h.limit, h.isOpen, fun _ => .inl hq, fun _ => .inl hq, fun _ _ hb => ?_⟩
  have hlen := h.inv.ok.len
  rw [show s.q.bfirst = [] from hb, blockalloclen_nil] at hlen
  have := h.limit
  omega

variable {r : Sys × Out}

theorem Flow.call (h : s.Flow) {m : Option Nat} {op : Op} (hI : r.1.Inv)
    (hr : s.call p m op = some r) (hpc : s.pc p = .idle) (ho : op.Streams) (hb : op.NonNil)
    (hsplit : ∀ len a, op = .qbread len → m = some a → ∀ b next, s.q.bfirst = b :: next →
      s.q.Qmsg = false → len < BLEN b → s.Room (BALLOC (allocb a (BLEN b - len)) - BALLOC b))
    (hdrop : ((∃ len, op = .qconsume len) ∨ s.q.Qcoalesce = true ∧ ∃ len, op = .qread len) →
      s.q.bfirst ≠ [] → bytes s.q.bfirst = [] → s.Asleep → s.Pending) : r.1.Flow := by
  have hp : ¬ (s.pc p).wakes := by rw [hpc]; exact id
  have hc : ∀ len first n, s.pc p ≠ .copy len first n := by rw [hpc]; simp
  have hnone : ∀ k : Pc, k.Clear → Inv (s.goto p k) → Flow (s.goto p k) := fun k hk hI =>
    h.quiet (q := s.q) hI (.refl _) hk (fun hx => absurd hx hp) hc rfl rfl rfl
  cases op with
  | qpass b =>
    have he := Option.some.inj hr
    rw [← he] at hI ⊢
    have hw := qpass_fed h.inv.ok b
    rcases qpass_flow s.q b with ⟨hq, he⟩ | ⟨hq, hflow⟩
    · refine h.wrote hI hw (fun _ => hb) trivial hp hc ?_ ?_ ?_ <;> rw [he]
      · exact id
      · exact h.flagged
      · exact fun _ => .inl
    · refine h.wrote hI hw (fun _ => hb) trivial hp hc ?_ ?_ fun hq' => ?_
      · rcases hflow with hf | ⟨hf, -⟩
        · exact fun _ => hf
        · exact hf ▸ id
      · refine fun _ => hflow.imp_right fun hl => Int.lt_of_lt_of_le hl.2 ?_
        have := h.limit
        rw [Int.tdiv_eq_ediv_of_nonneg (by omega)]
        omega
      · rw [hq] at hq'
        cases hq'
  | qproduce d =>
    have he := Option.some.inj hr
    rw [← he] at hI ⊢
    obtain ⟨b, -, hw, -⟩ := qproduce_fed h.inv.ok m d
    obtain ⟨i1, i2, i3⟩ := qproduce_flow s.q m d
    refine h.wrote hI hw (by simp) trivial hp hc i1 (fun _ => i2) fun hq hqf => ?_
    obtain ⟨hbf, hfl⟩ := i3 hq
    rcases hfl with hfl | hfl
    · exact .inl (hfl ▸ hqf)
    · refine .inr fun hnil => ?_
      have hlen := h.inv.ok.len
      rw [← hbf, hnil, blockalloclen_nil] at hlen
      have := h.limit
      omega
  | qbwrite b =>
    simp only [Sys.call] at hr
    split at hr
    · have he := Option.some.inj hr
      rw [← he]
      exact h
    · split at hr
      · rename_i hl
        have he := Option.some.inj hr
        rw [← he] at hI ⊢
        exact h.qbwriteStep hl hI
      · cases hr
  | qwrite d =>
    have he := Option.some.inj hr
    rw [← he] at hI ⊢
    exact hnone _ trivial hI
  | qiwrite d =>
    have he := Option.some.inj hr
    rw [← he] at hI ⊢
    exact hnone _ trivial hI
  | qget =>
    have he := Option.some.inj hr
    rw [← he] at hI ⊢
    unfold Qio.qget at hI ⊢
    by_cases hnil : s.q.bfirst = []
    · rw [qremove_nil hnil] at hI ⊢
      exact h.quiet hI ⟨rfl, rfl, rfl, rfl, rfl, rfl⟩ trivial (fun hx => absurd hx hp) hc rfl rfl rfl
    · obtain ⟨b, next, hq⟩ := List.exists_cons_of_ne_nil hnil
      rw [qremove_cons hq] at hI ⊢
      refine h.took hI ⟨rfl, rfl, rfl, rfl, rfl, rfl⟩ trivial hp rfl fun hf => ?_
      refine (h.flagged hf).imp_right fun hl => ?_
      dsimp only
      omega
  | qdiscard len =>
    have he := Option.some.inj hr
    rw [← he] at hI ⊢
    have hs := qdiscardLoop_shrinks s.q.bfirst s.q len
    refine h.took hI (qdiscardLoop_spec h.inv.ok rfl len).1 trivial hp hs.Qflow fun hf => ?_
    exact (h.flagged hf).imp_right fun hl => Int.lt_of_le_of_lt hs.len hl
  | qconsume len =>
    have he := Option.some.inj hr
    rw [← he] at hI ⊢
    exact h.qconsume hI hp hc (hdrop (.inl ⟨len, rfl⟩))
  | qread len =>
    simp only [Sys.call] at hr
    split at hr
    · rename_i hl
      have he := Option.some.inj hr
      rw [← he] at hI ⊢
      exact (h.setlock hl p).qread hI hp hc fun hco => hdrop (.inr ⟨hco, len, rfl⟩)
    · cases hr
  | qbread len =>
    cases m with
    | none => cases hr
    | some a =>
      simp only [Sys.call] at hr
      split at hr
      · rename_i hl
        have he := Option.some.inj hr
        rw [← he] at hI ⊢
        exact (h.setlock hl p).qbread hI hp hc (hsplit len a rfl rfl)
      · cases hr
  | _ => cases ho

theorem Flow.go (h : s.Flow) {m : Option Nat} (hI : r.1.Inv) (hr : s.go p m = some r)
    (hqi : ∀ d w a, s.pc p = .qiwrite d w → m = some a → s.q.dlen < 32 * 1024 →
      s.Room (BALLOC (allocb a (chunk d).length)))
    (hcopy : ∀ len first n, s.pc p = .copy len first n → s.q.Qmsg = false → len < n →
      s.Room (blockalloclen first))
    (hsplit : ∀ len a, s.pc p = .qbread len → m = some a → ∀ b next, s.q.bfirst = b :: next →
      s.q.Qmsg = false → len < BLEN b → s.Room (BALLOC (allocb a (BLEN b - len)) - BALLOC b))
    (hdrop : s.q.Qcoalesce = true → (∃ len, s.pc p = .qread len) → s.q.bfirst ≠ [] →
      bytes s.q.bfirst = [] → s.Asleep → s.Pending) : r.1.Flow := by
  have hwf := h.inv.wf p
  have hlock := h.inv.lock p
  -- a step of a process that is neither copying nor waking, with the queue as it was
  have hquiet : ∀ {k₀ k : Pc}, s.pc p = k₀ → k.Clear → (k₀.wakes → k.wakes) →
      (∀ len first n, k₀ ≠ .copy len first n) → Inv (s.goto p k) → Flow (s.goto p k) := by
    rintro k₀ k rfl hk hw hc hI
    exact h.quiet (q := s.q) hI (.refl _) hk hw hc rfl rfl rfl
  unfold Sys.go at hr
  cases hpc : s.pc p with
  | idle => simp [hpc] at hr
  | wakeup x k =>
    rw [hpc] at hr hwf hlock
    have he := Option.some.inj hr
    rw [← he] at hI ⊢
    have hg : Inv (s.goto p k) := h.inv.step_to h.inv.ok hwf.1 (fun x hx => hlock x hx)
      hwf.2.plain fun _ ha => .inl ha
    cases x with
    | r => exact (hquiet hpc hwf.2.clear id (by simp) hg).wake_r
    | w =>
      have hq : ((s.goto p k).wake .w).q = s.q := wake_q _ _
      refine ⟨hI, hq ▸ h.limit, hq ▸ h.isOpen, fun ha => absurd ha hg.wake_asleep, fun hf => ?_,
        fun ha => absurd ha hg.wake_asleep⟩
      rw [hq]
      exact h.flagged (Flagged.of_goto (q := s.q) hwf.2.clear (hg.wake_flagged hf))
  | sleep x k =>
    rw [hpc] at hr hwf hlock
    have hk : k.Wakes x := hwf
    simp only at hr
    split at hr
    · have he := Option.some.inj hr
      rw [← he] at hI ⊢
      exact hquiet hpc hk.clear (fun hx => absurd hx id) (by simp) hI
    · rename_i hready
      have he := Option.some.inj hr
      rw [← he] at hI ⊢
      cases x with
      | r => exact h.relock rfl rfl (by rw [hpc]; exact id) (by rw [hpc]; simp) hI
      | w => exact h.commit hpc (by simpa using hready) hI
  | asleep x k => simp [hpc] at hr
  | qunlock x k =>
    rw [hpc] at hr hwf
    have he := Option.some.inj hr
    rw [← he] at hI ⊢
    exact h.relock rfl (Pc.Rest.clear hwf) (by rw [hpc]; exact fun hx => absurd hx id)
      (by rw [hpc]; simp) hI
  | flow k =>
    rw [hpc] at hr
    have he := Option.some.inj hr
    rw [← he] at hI ⊢
    refine hquiet hpc ?_ (fun hx => absurd hx id) (by simp) hI
    split <;> trivial
  | setflow k =>
    rw [hpc] at hr
    have he := Option.some.inj hr
    rw [← he] at hI ⊢
    have hn : ¬ Asleep ((s.setq { s.q with Qflow := true }).goto p (.sleep .w (.flow k))) := by
      rintro ⟨p', k', hp'⟩
      have hl := hI.lock p' .w (by rw [hp']; rfl)
      have hl' := hI.lock p .w (by rw [goto_self]; rfl)
      rw [Option.some.inj (hl.symm.trans hl'), goto_self] at hp'
      cases hp'
    exact ⟨hI, h.limit, h.isOpen, fun ha => absurd ha hn, fun _ => .inl rfl, fun ha => absurd ha hn⟩
  | qwrite d =>
    rw [hpc] at hr
    obtain ⟨a, rfl, hr⟩ := Option.bind_eq_some_iff.mp hr
    unfold Sys.qwriteStep at hr
    dsimp only at hr
    split at hr
    · have he := Option.some.inj hr
      rw [← he] at hI ⊢
      refine hquiet hpc ?_ (fun hx => absurd hx id) (by simp) hI
      split <;> trivial
    · split at hr
      · rename_i hl
        have he := Option.some.inj hr
        rw [← he] at hI ⊢
        exact h.qbwriteStep hl hI
      · cases hr
  | qiwrite d w =>
    rw [hpc] at hr
    have he := Option.some.inj hr
    rw [← he] at hI ⊢
    have hp : ¬ (s.pc p).wakes := by rw [hpc]; exact id
    have hidle : Inv (s.goto p .idle) → Flow (s.goto p .idle) :=
      hquiet hpc trivial (fun hx => absurd hx id) (by simp)
    unfold Sys.qiwriteStep at hI ⊢
    cases m with
    | none => exact hidle hI
    | some a =>
      have hroom := hqi d w a hpc rfl
      simp only [iallocb, Option.map_some] at hI ⊢
      have hb : BALLOC (Block.put { allocb a (chunk d).length with intr := true } (chunk d)) =
          BALLOC (allocb a (chunk d).length) := BALLOC_put (allocb_room a _)
      generalize Block.put { allocb a (chunk d).length with intr := true } (chunk d) = b at hI hb ⊢
      have hw := qiwrite_fed h.inv.ok b
      split
      · rename_i hq
        rw [if_pos hq] at hI
        refine h.wrote (b := [b]) hI ⟨hw.mode, hw.bfirst, hw.ok⟩ (by simp) ?_ hp
          (by rw [hpc]; simp) ?_ (fun hf => ?_) fun hq' => ?_
        · split <;> trivial
        · exact (qiwrite_flow s.q b).1 ▸ id
        · obtain ⟨i1, i2⟩ := qiwrite_flow s.q b
          obtain ⟨hd, hl⟩ := i2 hq
          dsimp only
          rw [i1, hl, hb]
          rcases hroom hd with hr | hr | hr
          · exact .inr hr
          · exact .inl hr
          · exact absurd hf hr
        · exact absurd (hq.symm.trans hq') (by simp)
      · rename_i hq
        rw [if_neg hq] at hI
        exact hidle hI
  | qread len =>
    rw [hpc] at hr
    have he := Option.some.inj hr
    rw [← he] at hI ⊢
    exact h.qread hI (by rw [hpc]; exact id) (by rw [hpc]; simp) fun hco => hdrop hco ⟨len, hpc⟩
  | qbread len =>
    rw [hpc] at hr
    obtain ⟨a, rfl, he⟩ := Option.map_eq_some_iff.mp hr
    rw [← he] at hI ⊢
    exact h.qbread hI (by rw [hpc]; exact id) (by rw [hpc]; simp) (hsplit len a hpc rfl)
  | copy len first n =>
    rw [hpc] at hr hwf
    have he := Option.some.inj hr
    rw [← he] at hI ⊢
    exact h.copy hI hpc hwf.1 (hcopy len first n hpc)

theorem Flow.note (h : s.Flow) (hI : r.1.Inv) (hr : s.note p = some r) : r.1.Flow := by
  unfold Sys.note at hr
  cases hpc : s.pc p with
  | sleep x k =>
    rw [hpc] at hr
    have he := Option.some.inj hr
    rw [← he] at hI ⊢
    exact h.quiet (q := s.q) hI (.refl _) trivial (by rw [hpc]; exact fun hx => absurd hx id)
      (by rw [hpc]; simp) rfl rfl rfl
  | asleep x k =>
    rw [hpc] at hr
    have he := Option.some.inj hr
    rw [← he] at hI ⊢
    exact h.relock rfl trivial (by rw [hpc]; exact fun hx => absurd hx id) (by rw [hpc]; simp) hI
  | _ => simp [hpc] at hr

end Sys

/-! ## Runs -/

theorem FlowStep.pullStep {l : Label} (h : FlowStep l) (s : Sys) : PullStep s l :=
  fun _ _ ha => absurd (h _ _ ha) id

/-- One step that meets the conditions keeps the flow control. -/
theorem Sys.Flow.step {s s' : Sys} {l : Label} (h : s.Flow) (hs : lts.step s l s')
    (hf : FlowStep l) (hg : Guard s l) : s'.Flow := by
  have hI := h.inv.step hs (hf.pullStep s)
  obtain ⟨ho, hn⟩ := hs
  obtain ⟨p, a, out⟩ := l
  cases a with
  | call op m =>
    simp only [Sys.next] at hn
    split at hn
    · rename_i hpc
      refine h.call (r := (s', out)) hI hn hpc (hf op m rfl) ho.nonNil ?_ ?_
      · rintro len a rfl rfl
        exact fun b next hb => hg.qbread len a b next (.inl rfl) hb
      · rintro (⟨len, rfl⟩ | ⟨hco, len, rfl⟩)
        · exact hg.empties (.inl ⟨len, m, rfl⟩)
        · exact hg.empties (.inr ⟨hco, .inl ⟨len, m, rfl⟩⟩)
    · cases hn
  | go m =>
    refine h.go (r := (s', out)) hI hn ?_ ?_ ?_ ?_
    · rintro d w a hpc rfl
      exact hg.qiwrite d w a hpc rfl
    · exact fun len first n hpc => hg.qread len first n m hpc rfl
    · rintro len a hpc rfl
      exact fun b next hb => hg.qbread len a b next (.inr ⟨hpc, rfl⟩) hb
    · rintro hco ⟨len, hpc⟩
      exact hg.empties (.inr ⟨hco, .inr ⟨len, m, hpc, rfl⟩⟩)
  | note => exact h.note (r := (s', out)) hI hn

theorem flows_inv : flows.Inductive Sys.Inv where
  init := by
    rintro s ⟨limit, msg, coalesce, -, rfl⟩
    exact .start (.qopen limit msg coalesce)
  step s l s' h hs := h.step hs.1 (hs.2.pullStep s)

/-- The flow control holds, or the limit is too small and nothing has happened. -/
theorem flows_inductive :
    (flows.restrict Guard).Inductive fun s => s.Flow ∨ ¬ s.Asleep ∧ s.q.limit < 2 where
  init := by
    rintro s ⟨limit, msg, coalesce, hl, rfl⟩
    have ha : ¬ (Sys.start (qopen limit msg coalesce)).Asleep := by
      rintro ⟨p, k, hp⟩
      cases hp
    by_cases h2 : 2 ≤ limit
    · refine .inl ⟨.start (.qopen limit msg coalesce), h2, rfl, fun h => absurd h ha, ?_,
        fun h => absurd h ha⟩
      rintro ⟨p, k, hp⟩
      cases hp
    · exact .inr ⟨ha, Int.not_le.mp h2⟩
  step s l s' h hs := by
    rcases h with h | ⟨-, hl⟩
    · exact .inl (h.step hs.1.1 hs.1.2 hs.2)
    · exact absurd hs.2.limit (Int.not_le.mpr hl)

/-- The steps `as` one after the other; a step that is not enabled is left out. -/
def exec (s : Sys) : List (Pid × Act) → Sys
  | [] => s
  | (p, a) :: as => exec ((s.next p a).elim s Prod.fst) as

/-- A call on a stream, given a chain where it takes one. -/
def Act.Streams : Act → Bool
  | .call (.qpass b) _ => !b.isEmpty
  | .call (.qwrite _) _ | .call (.qbwrite _) _ | .call (.qproduce _) _ | .call (.qiwrite _) _ => true
  | .call (.qread _) _ | .call (.qbread _) _ | .call (.qconsume _) _ => true
  | .call .qget _ | .call (.qdiscard _) _ => true
  | .call _ _ => false
  | .go _ | .note => true

/-- The steps are enabled calls on streams that bring blocks of their own, and no read holds
blocks meanwhile. -/
def Runs (s : Sys) : List (Pid × Act) → Bool
  | [] => true
  | (p, a) :: as => (s.next p a).isSome && s.lock .r = none && a.Streams &&
      (s.incoming p a).Nodup && (s.incoming p a).all (fun x => x ∉ addrs s.q.bfirst) &&
      Runs ((s.next p a).elim s Prod.fst) as

theorem Act.Streams.spec {a : Act} (h : a.Streams = true) :
    a.NonNil ∧ ∀ op m, a = .call op m → op.Streams := by
  cases a with
  | call op m =>
    cases op with
    | qpass b =>
      refine ⟨?_, fun op m he => by cases he; trivial⟩
      rintro rfl
      cases h
    | qpassnolim _ | qaddlist _ | qremove | qputback _ | pullupqueue _ | qflush | qclose
    | qhangup _ | qreopen => cases h
    | _ => exact ⟨trivial, fun op m he => by cases he; trivial⟩
  | _ => exact ⟨trivial, fun op m he => by cases he⟩

theorem Sys.Inv.not_held {s : Sys} (h : s.Inv) (hl : s.lock .r = none) (p : Pid) :
    (s.pc p).held = [] := by
  cases hpc : s.pc p with
  | copy len first n =>
    have := h.lock p .r (by rw [hpc]; rfl)
    rw [hl] at this
    cases this
  | _ => rfl

theorem reach_exec {s : Sys} (h : flows.Reach s) (as : List (Pid × Act)) (hr : Runs s as = true) :
    flows.Reach (exec s as) := by
  induction as generalizing s with
  | nil => exact h
  | cons a as ih =>
    obtain ⟨p, a⟩ := a
    simp only [Runs, Bool.and_eq_true, decide_eq_true_eq, List.all_eq_true] at hr
    obtain ⟨⟨⟨⟨⟨hn, hl⟩, hop⟩, hnd⟩, hfr⟩, hr⟩ := hr
    obtain ⟨hnn, hop⟩ := Act.Streams.spec hop
    obtain ⟨⟨s', out⟩, hn⟩ := Option.isSome_iff_exists.mp hn
    refine ih (h.step (e := ⟨p, a, out⟩) ⟨⟨⟨hnn, hnd, fun x hx hu => ?_⟩, ?_⟩, hop⟩) hr
    · rcases hu with hu | ⟨p', hu⟩
      · exact hfr x hx hu
      · rw [(flows_inv.reach h).not_held hl p'] at hu
        exact absurd hu List.not_mem_nil
    · rw [hn]
      rfl

/-- A writer (process 0) fills a queue of limit 200 and sets `Qflow`; before it sleeps, a reader
(process 1) empties the queue, clears `Qflow` and wakes nobody, and `qiwrite` (process 2) fills the
queue again. Then the writer sleeps, and the reader empties the queue. -/
def lostWakeup : List (Pid × Act) :=
  [(0, .call (.qbwrite { addr := 1, head := 64, data := [7], tail := 191, intr := false }) none),
   (0, .go none), (0, .go none), (0, .go none),
   (1, .call .qget none), (1, .go none),
   (2, .call (.qiwrite [8]) none), (2, .go (some 4096)),
   (0, .go none),
   (1, .call .qget none)]

end NixMark.Qio
