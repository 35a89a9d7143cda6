import NixMark.Qio.Runs

/-!
# What `qwrite` reports

* `Calls`: for each process that is in a call of `qwrite`, or has come back from one, the bytes that
  it was given and those of the blocks that it queued; `calls`: the runs of a queue with these.
* `Reports`: the value returned counts the bytes that were queued.
* `qwrite_reports`: it is so for byte streams and for what fits into one block.
-/

namespace NixMark.Qio

open Lib

/-- A call of `qwrite` that has not failed. -/
structure Call where
  data : List UInt8
  blocks : List (List UInt8)

/-- The value that the call returns: `len`. -/
def Call.ret (c : Call) : Nat := c.data.length

abbrev Calls := Pid → Option Call

/-- The bytes of the block that a step queues. -/
def Out.queued : Out → List (List UInt8)
  | .accept p => [p]
  | _ => []

/-- The call after a step from `k`. The error of a closed queue ends it. -/
def Call.go (c : Call) (q : Queue) (k : Pc) (out : Out) : Option Call :=
  match k with
  | .qwrite _ => if q.Qclosed then none else some { c with blocks := c.blocks ++ out.queued }
  | _ => some c

/-- A note is an error too; another call forgets this one. -/
def Calls.next (g : Calls) (s : Sys) (l : Label) : Calls :=
  Function.update g l.pid <|
    match l.act with
    | .call (.qwrite d) _ => some ⟨d, []⟩
    | .call _ _ => none
    | .note => none
    | .go _ => (g l.pid).bind fun c => c.go s.q (s.pc l.pid) l.out

/-- The runs of a queue, with the calls of `qwrite`. -/
def calls : Lts (Sys × Calls) Label where
  init s := (∃ limit msg coalesce, s.1 = Sys.start (qopen limit msg coalesce)) ∧
    s.2 = fun _ => none
  step s l s' := lts.step s.1 l s'.1 ∧ s'.2 = s.2.next s.1 l

/-- The bytes that the call queued are the first ones, as many as it returns, in blocks of at most
`Maxatomic` bytes of which all but the last are full. -/
structure Reports (c : Call) : Prop where
  bytes : c.blocks.flatten = c.data.take c.ret
  atomic : ∀ b ∈ c.blocks, b.length ≤ Maxatomic
  full : ∀ b ∈ c.blocks.dropLast, b.length = Maxatomic

/-! ## What stays as it was opened -/

/-- No step makes a queue one of messages, or one that does not block. -/
structure Fixed (q q' : Queue) : Prop where
  Qmsg : q'.Qmsg = q.Qmsg
  bypass : q'.bypass = q.bypass
  noblock : q.noblock = false → q'.noblock = false

namespace Fixed

variable {q q' q'' : Queue}

theorem refl (q : Queue) : Fixed q q := ⟨rfl, rfl, id⟩

theorem trans (h : Fixed q q') (h' : Fixed q' q'') : Fixed q q'' :=
  ⟨h'.Qmsg.trans h.Qmsg, h'.bypass.trans h.bypass, fun hn => h'.noblock (h.noblock hn)⟩

theorem qaddlist (q : Queue) (b : List Block) : Fixed q (qaddlist q b) := ⟨rfl, rfl, id⟩

theorem qpassnolim (q : Queue) (b : List Block) : Fixed q (qpassnolim q b).q := by
  unfold Qio.qpassnolim
  split
  · exact refl q
  · simp only [Queue.fed]
    split <;> exact ⟨rfl, rfl, id⟩

theorem qpass (q : Queue) (b : List Block) : Fixed q (qpass q b).q := by
  unfold Qio.qpass
  split
  · exact refl q
  · exact qpassnolim q b

theorem qproduce (q : Queue) (m : Option Nat) (p : List UInt8) : Fixed q (qproduce q m p).q := by
  unfold Qio.qproduce
  split
  · exact ⟨rfl, rfl, id⟩
  · split
    · exact refl q
    · dsimp only
      split <;> exact ⟨rfl, rfl, id⟩

theorem qbwrite (q : Queue) (b : Block) : Fixed q (qbwrite q b).q := by
  unfold Qio.qbwrite
  split
  · exact refl q
  · split
    · exact refl q
    · exact ⟨rfl, rfl, id⟩

theorem qiwrite (q : Queue) (b : Block) : Fixed q (qiwrite q b).q := by
  unfold Qio.qiwrite
  split
  · exact refl q
  · exact ⟨rfl, rfl, id⟩

theorem qremove (q : Queue) : Fixed q (qremove q).1 := by
  unfold Qio.qremove
  split <;> exact ⟨rfl, rfl, id⟩

theorem took (q : Queue) (out : List UInt8) (ret : Int) : Fixed q (q.took out ret).q := by
  simp only [Queue.took, qwakeup_iunlock]
  split <;> exact ⟨rfl, rfl, id⟩

theorem qget (q : Queue) : Fixed q (qget q).q := by
  have hr := qremove q
  unfold Qio.qget
  split
  · next he =>
    rw [he] at hr
    exact hr.trans ⟨rfl, rfl, id⟩
  · next he =>
    rw [he] at hr
    exact hr.trans (took _ _ _)

theorem qdiscardLoop (bs : List Block) (q : Queue) (len : Nat) :
    Fixed q (qdiscardLoop bs q len).1 := by
  induction bs generalizing q len with
  | nil => exact refl q
  | cons b bs ih =>
    unfold Qio.qdiscardLoop
    split
    · exact refl q
    · split
      · exact (qremove q).trans (ih _ _)
      · exact ⟨rfl, rfl, id⟩

theorem skipempty (bs : List Block) (q : Queue) : Fixed q (skipempty bs q) := by
  induction bs generalizing q with
  | nil => exact refl q
  | cons b bs ih =>
    unfold Qio.skipempty
    split
    · exact refl q
    · have h := ih { q with bfirst := bs, len := q.len - BALLOC b }
      exact ⟨h.Qmsg, h.bypass, h.noblock⟩

theorem dropempty (bs : List Block) (q : Queue) : Fixed q (dropempty bs q) := by
  induction bs generalizing q with
  | nil => exact refl q
  | cons b bs ih =>
    unfold Qio.dropempty
    split
    · exact refl q
    · exact (qremove q).trans (ih _)

theorem gather (len : Nat) (bs : List Block) (q : Queue) (n : Nat) :
    Fixed q (gather len bs q n).1 := by
  induction bs generalizing q n with
  | nil => exact refl q
  | cons b bs ih =>
    unfold Qio.gather
    dsimp only
    split
    · exact qremove q
    · split
      · exact qremove q
      · exact (qremove q).trans (ih _ _)

theorem consumeblock (q : Queue) (b : Block) (next : List Block) (len : Nat) :
    Fixed q (consumeblock q b next len).q := by
  unfold Qio.consumeblock
  dsimp only
  refine Fixed.trans ?_ (took _ _ _)
  generalize (if BLEN b < len then BLEN b else len) = n
  split
  · have h := qremove { q with bfirst := b.skip n :: next, dlen := q.dlen - n }
    exact ⟨h.Qmsg, h.bypass, h.noblock⟩
  · exact ⟨rfl, rfl, id⟩

theorem qconsume (q : Queue) (len : Nat) : Fixed q (qconsume q len).q := by
  have hs := skipempty q.bfirst q
  unfold Qio.qconsume
  dsimp only
  split
  · exact hs.trans ⟨rfl, rfl, id⟩
  · exact hs.trans (consumeblock _ _ _ _)

theorem qwait (q : Queue) : Fixed q (qwait q).1 := by
  unfold Qio.qwait
  split
  · exact refl q
  · split
    · dsimp only
      split
      · exact ⟨rfl, rfl, id⟩
      · split <;> exact ⟨rfl, rfl, id⟩
    · exact ⟨rfl, rfl, id⟩

theorem qputback (q : Queue) (b : Block) : Fixed q (qputback q b) := ⟨rfl, rfl, id⟩

theorem qflush (q : Queue) : Fixed q (qflush q) := ⟨rfl, rfl, id⟩

theorem qclose (q : Queue) : Fixed q (qclose q) := ⟨rfl, rfl, fun _ => rfl⟩

theorem qhangup (q : Queue) (msg : String) : Fixed q (qhangup q msg) := ⟨rfl, rfl, id⟩

theorem qreopen (q : Queue) : Fixed q (qreopen q) := ⟨rfl, rfl, id⟩

theorem qbread (q : Queue) (m len : Nat) : Fixed q (qbread q m len).q := by
  have hr := qremove q
  unfold Qio.qbread
  split
  · next he =>
    rw [he] at hr
    exact hr.trans (took _ _ _)
  · next he =>
    rw [he] at hr
    split
    · dsimp only
      split
      · exact hr.trans (took _ _ _)
      · exact hr.trans ((qputback _ _).trans (took _ _ _))
    · exact hr.trans (took _ _ _)

theorem qreadGrab (q : Queue) (len : Nat) : Fixed q (qreadGrab q len).q := by
  unfold Qio.qreadGrab
  dsimp only
  have h₀ : Fixed q (if q.Qcoalesce then Qio.dropempty q.bfirst q else q) := by
    split
    · exact dropempty _ q
    · exact refl q
  generalize (if q.Qcoalesce then Qio.dropempty q.bfirst q else q) = q₁ at h₀
  have hw := h₀.trans (qwait q₁)
  split
  · next he =>
    rw [he] at hw
    split
    · exact hw.trans (gather _ _ _ _)
    · have hr := hw.trans (qremove _)
      split
      · next he =>
        rw [he] at hr
        exact hr
      · next he =>
        rw [he] at hr
        exact hr
  · next he =>
    rw [he] at hw
    exact hw

theorem qreadDone (q : Queue) (len : Nat) (first : List Block) (n : Nat) :
    Fixed q (qreadDone q len first n).q := by
  unfold Qio.qreadDone
  split
  · exact took _ _ _
  · dsimp only
    split
    · exact took _ _ _
    · exact (qputback _ _).trans (took _ _ _)

variable {m : Nat}

theorem pullupqueue {n : Nat} (h : pullupqueue q m n = some q') : Fixed q q' := by
  unfold Qio.pullupqueue at h
  split at h
  · cases h
  · split at h
    · cases h
      exact refl q
    · cases h
      exact ⟨rfl, rfl, id⟩

end Fixed

namespace Sys

variable {s : Sys} {p : Pid}

/-- What a step leaves of the modes, and where the other processes go on. -/
structure Frame (s : Sys) (p : Pid) (s' : Sys) : Prop where
  fixed : Fixed s.q s'.q
  others : ∀ p', p' ≠ p → s'.pc p' = s.pc p' ∨ ∃ x, s.pc p' = .asleep x (s'.pc p')

theorem Frame.goto {q : Queue} (h : Fixed s.q q) (lock rendez : Side → Option Pid) (k : Pc) :
    Frame s p ({ q := q, pc := s.pc, lock := lock, rendez := rendez : Sys }.goto p k) :=
  ⟨h, fun _ hp => .inl (goto_ne _ k hp)⟩

theorem wake_others (s : Sys) (x : Side) (p' : Pid) :
    (s.wake x).pc p' = s.pc p' ∨ ∃ y, s.pc p' = .asleep y ((s.wake x).pc p') := by
  unfold wake
  cases hr : s.rendez x with
  | none => exact .inl rfl
  | some p =>
    by_cases hpp : p' = p
    · subst hpp
      simp only [goto_self]
      cases hk : s.pc p' with
      | asleep y k => exact .inr ⟨y, rfl⟩
      | _ => exact .inl rfl
    · exact .inl (goto_ne _ _ hpp)

theorem frame_qbwriteStep (b : Block) (k : Pc) : Frame s p (s.qbwriteStep p b k).1 :=
  .goto (Fixed.qbwrite s.q b) _ _ _

variable {d : List UInt8} {r : Sys × Out}

theorem frame_qwriteStep {m : Nat} (hr : s.qwriteStep p m d = some r) : Frame s p r.1 := by
  unfold qwriteStep at hr
  dsimp only at hr
  split at hr
  · rw [← Option.some.inj hr]
    exact .goto (.refl _) _ _ _
  · split at hr
    · rw [← Option.some.inj hr]
      exact frame_qbwriteStep _ _
    · cases hr

theorem frame_qiwriteStep (m : Option Nat) (d : List UInt8) (w : Bool) :
    Frame s p (s.qiwriteStep p m d w).1 := by
  unfold qiwriteStep
  split
  · exact .goto (.refl _) _ _ _
  · dsimp only
    split
    · exact .goto (Fixed.qiwrite s.q _) _ _ _
    · exact .goto (.refl _) _ _ _

theorem frame_qreadStep (l : Side → Option Pid) (len : Nat) :
    Frame s p (qreadStep { s with lock := l } p len).1 := by
  unfold qreadStep
  dsimp only
  split <;> exact .goto (Fixed.qreadGrab s.q len) _ _ _

theorem frame_qbreadStep (l : Side → Option Pid) (m len : Nat) :
    Frame s p (qbreadStep { s with lock := l } p m len).1 := by
  have hw := Fixed.qwait s.q
  unfold qbreadStep
  split
  · next he =>
    rw [he] at hw
    exact .goto (hw.trans (Fixed.qbread _ _ _)) _ _ _
  all_goals
    next he =>
    rw [he] at hw
    exact .goto hw _ _ _

theorem frame_call {m : Option Nat} {op : Op} (hr : s.call p m op = some r) : Frame s p r.1 := by
  have hstay : ∀ q, Fixed s.q q → Frame s p (s.setq q) := fun _ h => ⟨h, fun _ _ => .inl rfl⟩
  cases op with
  | qpass b => cases hr; exact .goto (Fixed.qpass s.q b) _ _ _
  | qpassnolim b => cases hr; exact .goto (Fixed.qpassnolim s.q b) _ _ _
  | qproduce d => cases hr; exact .goto (Fixed.qproduce s.q m d) _ _ _
  | qbwrite b =>
    simp only [call] at hr
    split at hr
    · cases hr
      exact ⟨.refl _, fun _ _ => .inl rfl⟩
    · split at hr
      · cases hr
        exact frame_qbwriteStep b .idle
      · cases hr
  | qwrite d => cases hr; exact .goto (.refl _) _ _ _
  | qiwrite d => cases hr; exact .goto (.refl _) _ _ _
  | qaddlist b => cases hr; exact hstay _ (.qaddlist s.q b)
  | qget => cases hr; exact .goto (Fixed.qget s.q) _ _ _
  | qdiscard len =>
    cases hr
    exact .goto ((Fixed.qdiscardLoop _ s.q len).trans (Fixed.took _ _ _)) _ _ _
  | qconsume len => cases hr; exact .goto (Fixed.qconsume s.q len) _ _ _
  | qread len =>
    simp only [call] at hr
    split at hr
    · cases hr
      exact frame_qreadStep _ len
    · cases hr
  | qbread len =>
    cases m with
    | none => cases hr
    | some a =>
      simp only [call] at hr
      split at hr
      · cases hr
        exact frame_qbreadStep _ a len
      · cases hr
  | qremove => cases hr; exact hstay _ (.qremove s.q)
  | qputback b => cases hr; exact hstay _ (.qputback s.q b)
  | pullupqueue n =>
    cases m with
    | none => cases hr
    | some a =>
      obtain ⟨q, hq, rfl⟩ := Option.map_eq_some_iff.mp hr
      exact hstay q (.pullupqueue hq)
  | qflush => cases hr; exact .goto (.qflush s.q) _ _ _
  | qclose => cases hr; exact .goto (.qclose s.q) _ _ _
  | qhangup msg => cases hr; exact .goto (.qhangup s.q msg) _ _ _
  | qreopen => cases hr; exact hstay _ (.qreopen s.q)

theorem frame_go {m : Option Nat} (hr : s.go p m = some r) : Frame s p r.1 := by
  unfold go at hr
  cases hk : s.pc p with
  | idle => simp [hk] at hr
  | asleep x k => simp [hk] at hr
  | wakeup x k =>
    rw [hk] at hr
    cases hr
    refine ⟨?_, fun p' hp => ?_⟩
    · unfold wake
      split <;> exact .refl _
    · have := wake_others (s.goto p k) x p'
      rwa [goto_ne _ _ hp] at this
  | sleep x k =>
    rw [hk] at hr
    simp only at hr
    split at hr <;> cases hr <;> exact .goto (.refl _) _ _ _
  | qunlock x k => rw [hk] at hr; cases hr; exact .goto (.refl _) _ _ _
  | flow k => rw [hk] at hr; cases hr; exact .goto (.refl _) _ _ _
  | setflow k =>
    rw [hk] at hr
    cases hr
    exact Frame.goto (q := { s.q with Qflow := true }) ⟨rfl, rfl, id⟩ _ _ _
  | qwrite d =>
    rw [hk] at hr
    obtain ⟨a, -, hr⟩ := Option.bind_eq_some_iff.mp hr
    exact frame_qwriteStep hr
  | qiwrite d w => rw [hk] at hr; cases hr; exact frame_qiwriteStep m d w
  | qread len => rw [hk] at hr; cases hr; exact frame_qreadStep s.lock len
  | qbread len =>
    rw [hk] at hr
    obtain ⟨a, -, rfl⟩ := Option.map_eq_some_iff.mp hr
    exact frame_qbreadStep s.lock a len
  | copy len first n =>
    rw [hk] at hr
    cases hr
    exact .goto (Fixed.qreadDone s.q len first n) _ _ _

theorem frame_next {a : Act} (hr : s.next p a = some r) : Frame s p r.1 := by
  cases a with
  | call op m =>
    simp only [next] at hr
    split at hr
    · exact frame_call hr
    · cases hr
  | go m => exact frame_go hr
  | note =>
    simp only [next, note] at hr
    split at hr <;> cases hr <;> exact .goto (.refl _) _ _ _

end Sys

/-! ## The rounds of a call -/

/-- Where the process goes on when its sections are over. -/
def Pc.ends : Pc → Pc
  | .wakeup _ k | .sleep _ k | .asleep _ k | .qunlock _ k | .flow k | .setflow k => k.ends
  | k => k

/-- The call has queued its full blocks, with `rest` to come; or it is done. -/
inductive Progress (msg : Bool) (c : Call) : Pc → Prop
  | round (rest : List UInt8) (all : c.blocks.flatten ++ rest = c.data)
      (full : ∀ b ∈ c.blocks, b.length = Maxatomic) (first : msg = true → c.blocks = []) :
      Progress msg c (.qwrite rest)
  | done (bs : List (List UInt8)) (rest : List UInt8) (blocks : c.blocks = bs ++ [Sys.chunk rest])
      (all : bs.flatten ++ rest = c.data) (full : ∀ b ∈ bs, b.length = Maxatomic)
      (first : msg = true → bs = []) (last : rest.length ≤ Maxatomic ∨ msg = true) :
      Progress msg c .idle

variable {msg : Bool}

/-- A call that is done reports what it queued if all of it went. -/
theorem Progress.reports_iff {c : Call} (h : Progress msg c .idle) :
    Reports c ↔ msg = false ∨ c.data.length ≤ Maxatomic := by
  cases h with
  | done bs rest blocks all full first last =>
    have hflat : c.blocks.flatten = bs.flatten ++ Sys.chunk rest := by
      rw [blocks, List.flatten_append]
      simp
    have hret : c.data.take c.ret = c.data := List.take_length
    constructor
    · intro hr
      by_cases hm : msg = true
      · right
        have hb := hr.bytes
        rw [hflat, hret, first hm] at hb
        rw [first hm] at all
        simp only [List.flatten_nil, List.nil_append] at hb all
        rw [← hb, Sys.chunk, List.length_take]
        exact Nat.min_le_left _ _
      · exact .inl (Bool.not_eq_true _ ▸ hm)
    · intro hc
      have hrest : rest.length ≤ Maxatomic := by
        rcases last with hl | hm
        · exact hl
        · rcases hc with hc | hc
          · cases hc.symm.trans hm
          · rw [← all, List.length_append] at hc
            exact (Nat.le_add_left _ _).trans hc
      have hchunk : Sys.chunk rest = rest := List.take_of_length_le hrest
      refine ⟨?_, ?_, ?_⟩
      · rw [hflat, hret, hchunk, all]
      · rw [blocks, hchunk]
        intro b hb
        rcases List.mem_append.mp hb with hb | hb
        · exact (full b hb).le
        · rw [List.mem_singleton.mp hb]
          exact hrest
      · rw [blocks, List.dropLast_concat]
        exact full

namespace Sys

variable {s : Sys} {p : Pid} {c : Call}

/-- The step queues a block of these bytes behind the ones in the queue. -/
def Queues (s : Sys) (x : List UInt8) (s' : Sys) : Prop :=
  ∃ b : Block, b.data = x ∧ s'.q = { qaddlist s.q [b] with Qstarve := false }

/-- A round of `qwrite` on a queue that is open. -/
theorem qwriteStep_spec {m : Nat} {d : List UInt8} {r : Sys × Out} (hb : s.q.bypass = false)
    (hn : s.q.noblock = false) (ho : s.q.Qclosed = false)
    (hr : s.qwriteStep p m d = some r) : r.2 = .accept (chunk d) ∧ s.Queues (chunk d) r.1 ∧
      (r.1.pc p).ends = if s.lastchunk d then .idle else .qwrite (d.drop Maxatomic) := by
  unfold qwriteStep at hr
  dsimp only at hr
  rw [hb, if_neg Bool.false_ne_true] at hr
  split at hr
  · cases hr
    have hw : Qio.qbwrite s.q ((allocb m (chunk d).length).put (chunk d)) =
        (qaddlist s.q [(allocb m (chunk d).length).put (chunk d)]).fed
          (BLEN ((allocb m (chunk d).length).put (chunk d))) := by
      rw [Qio.qbwrite, if_neg (by rw [ho]; exact Bool.false_ne_true), if_neg (by simp [hn])]
    have hk : ∀ v k, ((after .r v (.flow k)).ends) = k.ends := by
      intro v k
      unfold after
      split <;> rfl
    refine ⟨?_, ⟨(allocb m (chunk d).length).put (chunk d), rfl, ?_⟩, ?_⟩
    · simp only [qbwriteStep, wrote, hw, Queue.fed, if_true]
      rfl
    · simp only [qbwriteStep, wrote, hw, Queue.fed, goto_q, setq_q]
    · simp only [qbwriteStep, wrote, hw, Queue.fed, if_true, goto_self, hk]
      split <;> rfl
  · cases hr

/-- On a queue that is closed, the call fails. -/
theorem qwriteStep_closed {m : Nat} {d : List UInt8} {r : Sys × Out} (hb : s.q.bypass = false)
    (ho : s.q.Qclosed = true) (hr : s.qwriteStep p m d = some r) :
    r.1.q = s.q ∧ r.2 = .silent := by
  unfold qwriteStep at hr
  dsimp only at hr
  rw [hb, if_neg Bool.false_ne_true] at hr
  split at hr
  · cases hr
    simp [qbwriteStep, wrote, Qio.qbwrite, ho, Queue.refused]
  · cases hr

/-- A step inside of a round leads where the round goes on. -/
theorem go_ends {m : Option Nat} {r : Sys × Out} (hr : s.go p m = some r)
    (hp : (∃ d, (s.pc p).ends = .qwrite d) ∨ (s.pc p).ends = .idle)
    (hne : ∀ d, s.pc p ≠ .qwrite d) : (r.1.pc p).ends = (s.pc p).ends := by
  unfold go at hr
  cases hk : s.pc p with
  | idle => simp [hk] at hr
  | asleep x k => simp [hk] at hr
  | wakeup x k =>
    rw [hk] at hr
    cases hr
    change (((s.goto p k).wake x).pc p).ends = k.ends
    have hw := wake_others (s.goto p k) x p
    rw [goto_self] at hw
    generalize ((s.goto p k).wake x).pc p = k' at hw ⊢
    rcases hw with rfl | ⟨y, rfl⟩ <;> rfl
  | sleep x k =>
    rw [hk] at hr
    simp only at hr
    split at hr <;> cases hr <;> rw [goto_self] <;> rfl
  | qunlock x k | setflow k =>
    rw [hk] at hr
    cases hr
    rw [goto_self]
    rfl
  | flow k =>
    rw [hk] at hr
    cases hr
    rw [goto_self]
    split <;> rfl
  | qwrite d => exact absurd hk (hne d)
  | _ =>
    rw [hk] at hp
    rcases hp with ⟨d, hp⟩ | hp <;> cases hp

end Sys

/-- Every call that goes on has made progress, and the queue keeps its modes. -/
structure Calls.Inv (s : Sys) (g : Calls) : Prop where
  bypass : s.q.bypass = false
  noblock : s.q.noblock = false
  progress : ∀ p c, g p = some c → Progress s.q.Qmsg c (s.pc p).ends

theorem Progress.ends {c : Call} {k : Pc} (h : Progress msg c k) :
    (∃ d, k = .qwrite d) ∨ k = .idle := by
  cases h with
  | round rest => exact .inl ⟨rest, rfl⟩
  | done => exact .inr rfl

/-- A block goes out of what is left. -/
theorem Progress.round_step {c : Call} {d : List UInt8} (h : Progress msg c (.qwrite d)) :
    Progress msg { c with blocks := c.blocks ++ [Sys.chunk d] }
      (if d.length ≤ Maxatomic || msg then .idle else .qwrite (d.drop Maxatomic)) := by
  cases h with
  | round _ all full first =>
    split
    · next hl =>
      refine .done c.blocks d rfl all full first ?_
      simpa using hl
    · next hl =>
      simp only [Bool.or_eq_true, decide_eq_true_eq, not_or, not_le] at hl
      refine .round _ ?_ ?_ fun hm => absurd hm hl.2
      · simp only [List.flatten_append, List.flatten_cons, List.flatten_nil, List.append_nil,
          List.append_assoc, Sys.chunk, List.take_append_drop]
        exact all
      · intro b hb
        rcases List.mem_append.mp hb with hb | hb
        · exact full b hb
        · rw [List.mem_singleton.mp hb, Sys.chunk, List.length_take]
          exact Nat.min_eq_left hl.1.le

theorem Calls.Inv.step {s s' : Sys} {g : Calls} {l : Label} (h : g.Inv s)
    (hs : s.next l.pid l.act = some (s', l.out)) : (g.next s l).Inv s' := by
  obtain ⟨hfix, hoth⟩ := Sys.frame_next hs
  refine ⟨hfix.bypass.trans h.bypass, hfix.noblock h.noblock, fun p c hp => ?_⟩
  rw [hfix.Qmsg]
  by_cases hpl : p = l.pid
  · subst hpl
    obtain ⟨p, a, out⟩ := l
    simp only [Calls.next, Function.update_self] at hp
    cases a with
    | note => cases hp
    | call op m =>
      cases op with
      | qwrite d =>
        cases hp
        simp only [Sys.next] at hs
        split at hs
        · cases hs
          simp only [Sys.goto_self]
          exact .round d rfl (by simp) fun _ => rfl
        · cases hs
      | _ => cases hp
    | go m =>
      obtain ⟨c₀, hc₀, hgo⟩ := Option.bind_eq_some_iff.mp hp
      have hpr := h.progress p c₀ hc₀
      by_cases hd : ∃ d, s.pc p = .qwrite d
      · obtain ⟨d, hd⟩ := hd
        rw [hd] at hpr
        simp only [Call.go, hd] at hgo
        split at hgo
        · cases hgo
        · next ho =>
          cases hgo
          have hs : s.go p m = some (s', out) := hs
          unfold Sys.go at hs
          rw [hd] at hs
          obtain ⟨m, -, hs⟩ := Option.bind_eq_some_iff.mp hs
          obtain ⟨hout, -, hends⟩ := Sys.qwriteStep_spec h.bypass h.noblock
            (Bool.not_eq_true _ ▸ ho) hs
          simp only at hout hends
          rw [hends, hout]
          exact hpr.round_step
      · have hne : ∀ d, s.pc p ≠ .qwrite d := fun d he => hd ⟨d, he⟩
        have hc : c₀ = c := by
          unfold Call.go at hgo
          split at hgo
          · next d he => exact absurd he (hne d)
          · exact Option.some.inj hgo
        rw [show (s'.pc p).ends = _ from Sys.go_ends hs hpr.ends hne, ← hc]
        exact hpr
  · simp only [Calls.next, Function.update_of_ne hpl] at hp
    have hpr := h.progress p c hp
    rcases hoth p hpl with he | ⟨x, he⟩
    · rw [he]
      exact hpr
    · rw [he] at hpr
      exact hpr

theorem Calls.inductive_inv : calls.Inductive fun s => s.2.Inv s.1 where
  init := by
    rintro ⟨s, g⟩ ⟨⟨limit, msg, coalesce, rfl⟩, rfl⟩
    exact ⟨rfl, rfl, fun p c hp => nomatch hp⟩
  step := by
    rintro ⟨s, g⟩ l ⟨s', g'⟩ h ⟨⟨-, hs⟩, rfl⟩
    exact Calls.Inv.step h hs

/-- In every run on a queue made by `qopen`: a process that has come back from `qwrite` has queued
what the call returned exactly if the queue is not one of messages or the bytes fit into one block;
and each of its blocks was put behind those in the queue. -/
theorem qwrite_reports {s : Sys} {g : Calls} (h : calls.Reach (s, g)) :
    (∀ p c, g p = some c → s.pc p = .idle →
      (Reports c ↔ s.q.Qmsg = false ∨ c.data.length ≤ Maxatomic)) ∧
    ∀ (l : Label) (s' : Sys) (d x : List UInt8), s.next l.pid l.act = some (s', l.out) → (∃ m, l.act = .go m) →
      s.pc l.pid = .qwrite d → l.out = .accept x → s.Queues x s' := by
  have hI := Calls.inductive_inv.reach h
  refine ⟨fun p c hp hpc => ?_, ?_⟩
  · have hpr := hI.progress p c hp
    rw [hpc] at hpr
    exact Progress.reports_iff hpr
  · rintro ⟨p, a, out⟩ s' d x hs ⟨m, rfl⟩ hpc rfl
    have hs : s.go p m = some (s', .accept x) := hs
    unfold Sys.go at hs
    rw [hpc] at hs
    obtain ⟨m, -, hs⟩ := Option.bind_eq_some_iff.mp hs
    by_cases ho : s.q.Qclosed = true
    · have hout := (Sys.qwriteStep_closed hI.bypass ho hs).2
      cases hout
    · obtain ⟨hout, hq, -⟩ := Sys.qwriteStep_spec hI.bypass hI.noblock (Bool.not_eq_true _ ▸ ho) hs
      cases hout
      exact hq

/-! ## A message of more than one block -/

/-- The block of a round. -/
private def parcel (d : List UInt8) : Block :=
  (allocb 4096 (Sys.chunk d).length).put (Sys.chunk d)

/-- Process 0 in a call of one round on a new queue, at `k`. -/
private def midway (limit : Int) (msg : Bool) (d : List UInt8) (held : Bool) (k : Pc) : Sys where
  q := { qaddlist (qopen limit msg false) [parcel d] with Qstarve := false }
  pc := Function.update (fun _ => .idle) 0 k
  lock := Function.update (fun _ => none) .w (if held then some 0 else none)
  rendez _ := none

theorem moves_on {s s' : Sys} {g : Calls} {a : Act} {out : Out}
    (h : calls.Reach (s, g)) (ho : s.Owned 0 a) (hs : s.next 0 a = some (s', out)) :
    calls.Reach (s', g.next s ⟨0, a, out⟩) := by
  have hst : calls.step (s, g) ⟨0, a, out⟩ (s', g.next s ⟨0, a, out⟩) := ⟨⟨ho, hs⟩, rfl⟩
  exact h.step hst

theorem owned_go (s : Sys) : s.Owned 0 (.go none) :=
  ⟨trivial, List.nodup_nil, by simp [Sys.incoming]⟩

/-- A call of one round on a new queue with room for it. -/
theorem qwrite_returns (limit : Int) (msg : Bool) (d : List UInt8)
    (hl : d.length ≤ Maxatomic ∨ msg = true) (hroom : (BALLOC (parcel d) : Int) < limit) :
    ∃ g, calls.Reach (midway limit msg d false .idle, g) ∧ g 0 = some ⟨d, [Sys.chunk d]⟩ := by
  have h₀ : calls.Reach (Sys.start (qopen limit msg false), fun _ => none) :=
    ⟨[], .init ⟨⟨limit, msg, false, rfl⟩, rfl⟩⟩
  have hlast : Sys.lastchunk ((Sys.start (qopen limit msg false)).goto 0 (.qwrite d)) d = true := by
    rcases hl with h | h
    · simp [Sys.lastchunk, h]
    · simp [Sys.lastchunk, Sys.start, qopen, h]
  have hcall : (Sys.start (qopen limit msg false)).next 0 (.call (.qwrite d) none) =
      some ((Sys.start (qopen limit msg false)).goto 0 (.qwrite d), .silent) := rfl
  have hown : Sys.Owned (Sys.start (qopen limit msg false)) 0 (.call (.qwrite d) none) :=
    ⟨trivial, List.nodup_nil, by simp [Sys.incoming]⟩
  have h₁ := moves_on h₀ hown hcall
  have hround : Sys.next ((Sys.start (qopen limit msg false)).goto 0 (.qwrite d)) 0
      (.go (some 4096)) =
      some (midway limit msg d true (.wakeup .r (.flow .idle)), .accept (Sys.chunk d)) := by
    simp only [Sys.next, Sys.go, Sys.goto_self, Option.bind_some, Sys.qwriteStep, hlast, if_true]
    rw [if_neg (by simp [Sys.start, qopen]),
      if_pos (show Sys.lock ((Sys.start _).goto _ _) .w = none from rfl)]
    simp [Sys.qbwriteStep, Sys.wrote, Qio.qbwrite, Queue.fed, midway, parcel, Sys.start, qopen,
      Sys.goto, Sys.setq, Sys.setlock, Sys.after]
    exact ⟨rfl, rfl⟩
  have hfresh : Sys.Owned ((Sys.start (qopen limit msg false)).goto 0 (.qwrite d)) 0
      (.go (some 4096)) := by
    refine ⟨trivial, by simp [Sys.incoming], ?_⟩
    rintro x - (hu | ⟨p, hp⟩)
    · cases hu
    · by_cases hp0 : p = 0
      · rw [hp0, Sys.goto_self] at hp
        cases hp
      · rw [Sys.goto_ne _ _ hp0] at hp
        cases hp
  have h₂ := moves_on h₁ hfresh hround
  have hwake : (midway limit msg d true (.wakeup .r (.flow .idle))).next 0 (.go none) =
      some (midway limit msg d true (.flow .idle), .silent) := by
    simp [Sys.next, Sys.go, midway, Sys.goto, Sys.wake]
  have hlen : qnotfull { qaddlist (qopen limit msg false) [parcel d] with Qstarve := false } =
      true := by
    simpa [qnotfull, qaddlist, Queue.link, qopen] using hroom
  have hflow : (midway limit msg d true (.flow .idle)).next 0 (.go none) =
      some (midway limit msg d true (.qunlock .w .idle), .silent) := by
    simp [Sys.next, Sys.go, midway, Sys.goto, hlen]
  have hunlock : (midway limit msg d true (.qunlock .w .idle)).next 0 (.go none) =
      some (midway limit msg d false .idle, .silent) := by
    simp [Sys.next, Sys.go, midway, Sys.goto, Sys.setlock]
  have h₃ := moves_on (moves_on (moves_on h₂ (owned_go _) hwake) (owned_go _) hflow)
    (owned_go _) hunlock
  refine ⟨_, h₃, ?_⟩
  simp [Calls.next, Call.go, Out.queued, midway, Sys.start, qopen]

theorem qwrite_reports_byte : ∃ s g c, calls.Reach (s, g) ∧ g 0 = some c ∧ s.pc 0 = .idle ∧
    c.data = [7] ∧ Reports c := by
  obtain ⟨g, h, hg⟩ := qwrite_returns 1000 true [7] (.inr rfl)
    (by decide)
  exact ⟨_, g, _, h, hg, rfl, rfl, ((qwrite_reports h).1 0 _ hg rfl).mpr (.inr (by decide))⟩

/-- A message of one byte more than a block: the last byte is not queued, but it is counted. -/
theorem qwrite_short : ¬ ∀ (s : Sys) (g : Calls) (p : Pid) (c : Call), calls.Reach (s, g) →
    g p = some c → s.pc p = .idle → Reports c := by
  intro hall
  have hlen : (Sys.chunk (List.replicate (Maxatomic + 1) (0 : UInt8))).length = Maxatomic := by
    rw [Sys.chunk, List.length_take, List.length_replicate]
    exact Nat.min_eq_left (Nat.le_succ _)
  obtain ⟨g, h, hg⟩ := qwrite_returns 1000000 true (List.replicate (Maxatomic + 1) 0) (.inr rfl) (by
      rw [parcel, BALLOC_put (allocb_room _ _), hlen]
      decide +kernel)
  have hr := hall _ g 0 _ h hg rfl
  have hb := congrArg List.length hr.bytes
  simp only [List.flatten_cons, List.flatten_nil, List.append_nil, hlen, Call.ret,
    List.length_take, List.length_replicate, Nat.min_self] at hb
  exact absurd hb (by decide)

end NixMark.Qio
