import NixMark.Lib.Fifo
import NixMark.Qio.Runs

/-!
# A byte-stream queue is a FIFO

The calls `qwrite`, `qbwrite`, `qpass`, `qproduce` and `qiwrite` on one side, and `qread`,
`qbread`, `qconsume`, `qget` and `qdiscard` on the other, on a queue opened without `Qmsg`.

* `Sys.contents`: the bytes in the hands of a `qread` that is copying, then the bytes queued.
* `moves_step`: each step pushes to the back of the contents or pops from the front, so the queue
  refines the abstract one, and `stream_fifo`: what the readers got, and then the contents, is what
  the writers queued.
-/

namespace NixMark.Qio

open Lib

/-- The calls on a byte stream. -/
def Op.Streams : Op → Prop
  | .qwrite _ | .qbwrite _ | .qpass _ | .qproduce _ | .qiwrite _ => True
  | .qread _ | .qbread _ | .qconsume _ | .qget | .qdiscard _ => True
  | _ => False

/-- The calls of the readers. -/
def Op.Reads : Op → Prop
  | .qread _ | .qbread _ | .qconsume _ | .qget | .qdiscard _ => True
  | _ => False

/-- The step is one of a call on a byte stream, and no reader calls while another one is in
`qread` or `qbread`. -/
structure StreamStep (s : Sys) (l : Label) : Prop where
  op : ∀ op m, l.act = .call op m → op.Streams
  alone : ∀ op m, l.act = .call op m → op.Reads → ∀ p, ¬ (s.pc p).holds .r

/-- The runs of byte streams. -/
def streams : Lts Sys Label where
  init s := ∃ limit coalesce, s = Sys.start (qopen limit false coalesce)
  step s l s' := lts.step s l s' ∧ StreamStep s l

/-- What a step pushes to or pops from the stream. -/
def Out.event : Out → Option (FifoEvent UInt8)
  | .silent => none
  | .accept p => some (.push p)
  | .deliver _ p _ => some (.pop p)

/-- The bytes that the writers queued. -/
def accepted (ls : List Label) : List UInt8 :=
  (ls.flatMap fun l => l.out.event.toList).flatMap FifoEvent.pushed

/-- The bytes that the readers got or discarded. -/
def delivered (ls : List Label) : List UInt8 :=
  (ls.flatMap fun l => l.out.event.toList).flatMap FifoEvent.popped

/-- A reader gets at most what it asked for, and the value returned to it is no more. -/
def Out.Asked : Out → Prop
  | .deliver (some n) p ret => p.length ≤ n ∧ ret ≤ n
  | _ => True

variable {q : Queue}

theorem qdiscard_asked (h : q.Ok) (len : Nat) :
    (Out.deliver (some len) (qdiscard q len).out (qdiscard q len).ret).Asked := by
  obtain ⟨-, -, -, i4, -⟩ := qdiscardLoop_spec h rfl len
  exact ⟨i4, Int.ofNat_le.mpr i4⟩

theorem qconsume_asked (q : Queue) (len : Nat) :
    (Out.deliver (some len) (qconsume q len).out (qconsume q len).ret).Asked := by
  unfold qconsume
  dsimp only
  split
  · simp [Out.Asked]
  · rename_i b next _
    have hl : (if BLEN b < len then BLEN b else len) ≤ len := by split <;> omega
    exact ⟨(List.length_take_le _ _).trans hl, Int.ofNat_le.mpr hl⟩

theorem qbread_asked (q : Queue) (m len : Nat) :
    (Out.deliver (some len) (qbread q m len).out (qbread q m len).ret).Asked := by
  unfold qbread
  split
  · simp [Out.Asked, Queue.took]
  · rename_i b _
    split
    · have hl : (b.data.take len).length ≤ len := List.length_take_le _ _
      exact ⟨hl, Int.ofNat_le.mpr hl⟩
    · rename_i hb
      have hl : b.data.length ≤ len := Nat.le_of_not_lt hb
      exact ⟨hl, Int.ofNat_le.mpr hl⟩

namespace Sys

/-- The blocks that the process with `rlock` holds. -/
def inflight (s : Sys) : List Block := (s.lock .r).elim [] fun p => (s.pc p).held

/-- The bytes of the stream that are not delivered yet. -/
def contents (s : Sys) : List UInt8 := bytes s.inflight ++ bytes s.q.bfirst

variable {s : Sys} {p : Pid}

variable {k : Pc}

theorem inflight_goto (hp : (s.pc p).held = []) (hk : k.held = []) (q : Queue) :
    ((s.setq q).goto p k).inflight = s.inflight := by
  unfold inflight
  rw [goto_lock, setq_lock]
  cases s.lock .r with
  | none => rfl
  | some p' =>
    by_cases h : p' = p
    · simp [h, hp, hk]
    · simp [goto_ne _ _ h]

theorem inflight_nil (h : ∀ p, ¬ (s.pc p).holds .r) : s.inflight = [] := by
  unfold inflight
  cases s.lock .r with
  | none => rfl
  | some p =>
    have hp := h p
    cases hpc : s.pc p with
    | copy _ _ _ =>
      rw [hpc] at hp
      exact absurd rfl hp
    | _ => simp [Pc.held, hpc]

theorem contents_goto (hp : (s.pc p).held = []) (hk : k.held = [])
    (hq : bytes q.bfirst = bytes s.q.bfirst) : ((s.setq q).goto p k).contents = s.contents := by
  rw [contents, inflight_goto hp hk, contents, goto_q, setq_q, hq]

/-- What a step does to the stream. -/
structure Moves (s : Sys) (r : Sys × Out) : Prop where
  mode : SameMode s.q r.1.q
  effect : Effect s.contents r.1.contents r.2.event
  asked : r.2.Asked

/-- The section of a writer pushes the data of the blocks that it queues. -/
theorem moves_wrote {w : Wrote} {b : List Block} {d : List UInt8} (hw : w.Fed s.q b)
    (hd : w.queued = true → d = bytes b) (hp : (s.pc p).held = []) (hk : k.held = []) :
    Moves s (s.wrote p w d k) := by
  have hc : (s.wrote p w d k).1.contents =
      s.contents ++ bytes (if w.queued then b else []) := by
    show ((s.setq w.q).goto p (after .r w.dowakeup k)).contents = _
    have hk' : (after .r w.dowakeup k).held = [] := by
      unfold after
      split
      · rfl
      · exact hk
    rw [contents, inflight_goto hp hk', goto_q, setq_q, hw.bfirst, bytes_append, contents,
      List.append_assoc]
  refine ⟨hw.mode, ?_, ?_⟩
  · rw [hc]
    unfold Sys.wrote
    dsimp only
    split
    · rename_i hq
      rw [hd hq]
      rfl
    · exact List.append_nil _
  · unfold Sys.wrote
    dsimp only
    split <;> trivial

/-- The section of a reader pops what it takes out, when no read is copying. -/
theorem moves_took {t : Took} {new : List Addr} {asked : Option Nat} (ht : t.Drained s.q new)
    (hm : s.q.Qmsg = false) (hp : (s.pc p).held = []) (hk : k.held = []) (hs : s.inflight = [])
    (ha : (Out.deliver asked t.out t.ret).Asked) : Moves s (s.took p t asked k) := by
  have hk' : (after .w t.dowakeup k).held = [] := by
    unfold after
    split
    · rfl
    · exact hk
  refine ⟨ht.mode, ?_, ha⟩
  show s.contents = t.out ++ ((s.setq t.q).goto p (after .w t.dowakeup k)).contents
  rw [contents, contents, inflight_goto hp hk', hs, goto_q, setq_q, ht.bytes hm]
  rfl

theorem setlock_w_contents (s : Sys) (p : Option Pid) : (s.setlock .w p).contents = s.contents := by
  unfold contents inflight
  rw [setlock_ne s p (by decide)]
  rfl

theorem moves_qbwriteStep (h : s.Inv) (b : Block) (k : Pc) (hp : (s.pc p).held = []) :
    Moves s (s.qbwriteStep p b k) := by
  unfold Sys.qbwriteStep
  have hm := moves_wrote (s := s.setlock .w (some p)) (p := p) (w := qbwrite s.q b) (b := [b])
    (d := b.data) (k := if (qbwrite s.q b).queued then .flow k
      else .qunlock .w (if s.q.Qclosed then .idle else k)) (qbwrite_fed h.ok b)
    (fun _ => by simp) hp (by split <;> rfl)
  exact ⟨hm.mode, setlock_w_contents s (some p) ▸ hm.effect, hm.asked⟩

theorem inflight_holder (hl : s.lock .r = some p) : s.inflight = (s.pc p).held := by
  rw [inflight, hl]
  rfl

theorem moves_qreadStep (h : s.Inv) (len : Nat) (hl : s.lock .r = some p)
    (hp : (s.pc p).held = []) : Moves s (s.qreadStep p len) := by
  have hg := qreadGrab_spec h.ok len
  obtain ⟨es, hes, hch⟩ := hg.chain
  have hin : s.inflight = [] := (inflight_holder hl).trans hp
  have hb : s.contents =
      bytes (qreadGrab s.q len).first ++ bytes (qreadGrab s.q len).q.bfirst := by
    rw [contents, hin, hch, bytes_append, hes, bytes_append]
    rfl
  -- the read holds the blocks `first` as it goes to its copy, and none when it found no data
  have hk : ∀ k : Pc, bytes k.held = bytes (qreadGrab s.q len).first →
      ((s.setq (qreadGrab s.q len).q).goto p k).contents = s.contents := by
    intro k hk
    rw [contents, inflight_holder (p := p) (by exact hl), goto_self, hk, hb, goto_q, setq_q]
  unfold Sys.qreadStep
  dsimp only
  split
  · exact ⟨hg.mode, hk _ rfl, trivial⟩
  · rename_i hw
    have hn := (hg.none (by simp [hw])).1
    exact ⟨hg.mode, (hk _ (by rw [hn]; rfl)).symm, by simp [Out.Asked]⟩
  · rename_i hw
    have hn := (hg.none (by simp [hw])).1
    exact ⟨hg.mode, hk _ (by rw [hn]; rfl), trivial⟩
  · rename_i hw
    have hn := (hg.none (by simp [hw])).1
    exact ⟨hg.mode, hk _ (by rw [hn]; rfl), trivial⟩

theorem moves_qbreadStep (h : s.Inv) (m len : Nat) (hm : s.q.Qmsg = false)
    (hl : s.lock .r = some p) (hp : (s.pc p).held = []) : Moves s (s.qbreadStep p m len) := by
  have hin : s.inflight = [] := (inflight_holder hl).trans hp
  unfold Sys.qbreadStep
  obtain ⟨e, v, hw⟩ := qwait_eq s.q
  have hdata := qwait_data (q := s.q)
  generalize qwait s.q = r at hw hdata
  obtain ⟨q, w⟩ := r
  dsimp only at hw hdata
  have hmode : SameMode s.q q := by
    rw [hw]
    exact ⟨rfl, rfl, rfl, rfl, rfl, rfl⟩
  have hk : ∀ k : Pc, k.held = [] → ((s.setq q).goto p k).contents = s.contents := by
    intro k hk
    exact contents_goto hp hk (by rw [hw])
  cases w with
  | data =>
    match hq : s.q.bfirst with
    | [] => exact absurd hq (hdata.mp rfl)
    | b :: next =>
      exact moves_took (qbread_waited h.ok hq hw m len) hm hp rfl hin (qbread_asked q m len)
  | closed => exact ⟨hmode, (hk _ rfl).symm, by simp [Out.Asked]⟩
  | error => exact ⟨hmode, hk _ rfl, trivial⟩
  | sleep => exact ⟨hmode, hk _ rfl, trivial⟩

/-- Taking the lock of the readers, or releasing it after a copy, is no move of the stream. -/
theorem setlock_r_contents (hl : s.lock .r = none) (hp : (s.pc p).held = []) :
    (s.setlock .r (some p)).contents = s.contents := by
  rw [contents, inflight_holder (setlock_self s .r (some p)), setlock_pc, hp, contents, inflight, hl]
  rfl

theorem unlock_r_contents (hl : s.lock .r = some p) (hp : (s.pc p).held = []) :
    (s.setlock .r none).contents = s.contents := by
  rw [contents, inflight, setlock_self, contents, inflight_holder hl, hp]
  rfl

theorem wake_q (s : Sys) (x : Side) : (s.wake x).q = s.q := by
  unfold Sys.wake
  split <;> rfl

theorem wake_contents (h : s.Inv) (x : Side) : (s.wake x).contents = s.contents := by
  unfold Sys.wake
  cases hr : s.rendez x with
  | none => rfl
  | some p =>
    dsimp only
    have hwf := h.wf p
    cases hpc : s.pc p with
    | asleep y k =>
      rw [hpc] at hwf
      have hk : k.Wakes y := hwf
      exact contents_goto (s := s.setrendez x none) (q := s.q) (by rw [setrendez_pc, hpc]; rfl)
        hk.plain.held rfl
    | _ =>
      have hid : ∀ k, s.pc p = k → ((s.setrendez x none).goto p k).contents = s.contents := by
        rintro k rfl
        show contents { s with rendez := _, pc := Function.update s.pc p (s.pc p) } = _
        rw [Function.update_eq_self]
        rfl
      exact hid _ hpc

/-- A step that leaves the chain and the blocks of the reads as they are. -/
theorem moves_quiet (hm : SameMode s.q q) (hq : q.bfirst = s.q.bfirst) (hp : (s.pc p).held = [])
    (hk : k.held = []) : Moves s ((s.setq q).goto p k, .silent) :=
  ⟨hm, contents_goto hp hk (by rw [hq]), trivial⟩

theorem moves_call (h : s.Inv) (hm : s.q.Qmsg = false) {m : Option Nat} {op : Op}
    {r : Sys × Out} (hr : s.call p m op = some r) (hpc : s.pc p = .idle) (ho : op.Streams)
    (ha : op.Reads → ∀ p, ¬ (s.pc p).holds .r) : Moves s r := by
  have hp : (s.pc p).held = [] := by rw [hpc]; rfl
  cases op with
  | qpass b =>
    rw [← Option.some.inj hr]
    exact moves_wrote (qpass_fed h.ok b) (fun _ => rfl) hp rfl
  | qproduce d =>
    rw [← Option.some.inj hr]
    obtain ⟨b, hb, hw, -⟩ := qproduce_fed h.ok m d
    exact moves_wrote hw (fun _ => by simp [hb]) hp rfl
  | qbwrite b =>
    simp only [Sys.call] at hr
    split at hr
    · rw [← Option.some.inj hr]
      exact ⟨.refl _, rfl, trivial⟩
    · split at hr
      · rw [← Option.some.inj hr]
        exact moves_qbwriteStep h b .idle hp
      · cases hr
  | qwrite d =>
    rw [← Option.some.inj hr]
    exact moves_quiet (k := .qwrite d) (.refl _) rfl hp rfl
  | qiwrite d =>
    rw [← Option.some.inj hr]
    exact moves_quiet (k := .qiwrite d false) (.refl _) rfl hp rfl
  | qget =>
    rw [← Option.some.inj hr]
    exact moves_took (qget_drained h.ok) hm hp rfl (inflight_nil (ha trivial)) trivial
  | qdiscard len =>
    rw [← Option.some.inj hr]
    exact moves_took (qdiscard_drained h.ok len) hm hp rfl (inflight_nil (ha trivial))
      (qdiscard_asked h.ok len)
  | qconsume len =>
    rw [← Option.some.inj hr]
    exact moves_took (qconsume_drained h.ok len) hm hp rfl (inflight_nil (ha trivial))
      (qconsume_asked s.q len)
  | qread len =>
    simp only [Sys.call] at hr
    split at hr
    · rename_i hl
      rw [← Option.some.inj hr]
      have hs := moves_qreadStep (h.setlock hl p) len (setlock_self s .r _) hp
      exact ⟨hs.mode, setlock_r_contents hl hp ▸ hs.effect, hs.asked⟩
    · cases hr
  | qbread len =>
    cases m with
    | none => cases hr
    | some a =>
      simp only [Sys.call] at hr
      split at hr
      · rename_i hl
        rw [← Option.some.inj hr]
        have hs := moves_qbreadStep (h.setlock hl p) a len hm (setlock_self s .r _) hp
        exact ⟨hs.mode, setlock_r_contents hl hp ▸ hs.effect, hs.asked⟩
      · cases hr
  | _ => cases ho

theorem moves_go (h : s.Inv) (hm : s.q.Qmsg = false) {m : Option Nat} {r : Sys × Out}
    (hr : s.go p m = some r) : Moves s r := by
  have hwf := h.wf p
  have hlock := h.lock p
  unfold Sys.go at hr
  cases hpc : s.pc p with
  | idle => simp [hpc] at hr
  | wakeup x k =>
    rw [hpc] at hr hwf hlock
    rw [← Option.some.inj hr]
    have hg : Inv (s.goto p k) := h.step_to h.ok hwf.1 (fun x hx => hlock x hx) hwf.2.plain
      fun _ ha => .inl ha
    refine ⟨?_, ?_, trivial⟩
    · rw [wake_q]
      exact .refl _
    · exact (wake_contents hg x).trans (contents_goto (by rw [hpc]; rfl) hwf.2.plain.held rfl)
  | sleep x k =>
    rw [hpc] at hr hwf
    have hk : k.Wakes x := hwf
    have hp : (s.pc p).held = [] := by rw [hpc]; rfl
    simp only at hr
    split at hr
    · rw [← Option.some.inj hr]
      exact moves_quiet (.refl _) rfl hp hk.plain.held
    · rw [← Option.some.inj hr]
      exact ⟨.refl _, contents_goto (s := s.setrendez x (some p)) (q := s.q) hp rfl rfl, trivial⟩
  | asleep x k => simp [hpc] at hr
  | qunlock x k =>
    rw [hpc] at hr hwf hlock
    have hk : k.Rest := hwf
    have hp : (s.pc p).held = [] := by rw [hpc]; rfl
    rw [← Option.some.inj hr]
    refine ⟨.refl _, ?_, trivial⟩
    have hg : ((s.setlock x none).goto p k).contents = (s.setlock x none).contents :=
      contents_goto (s := s.setlock x none) (q := s.q) hp hk.plain.held rfl
    refine hg.trans ?_
    cases x with
    | r => exact unlock_r_contents (hlock .r rfl) hp
    | w => exact setlock_w_contents s none
  | flow k =>
    rw [hpc] at hr
    rw [← Option.some.inj hr]
    exact moves_quiet (.refl _) rfl (by rw [hpc]; rfl) (by split <;> rfl)
  | setflow k =>
    rw [hpc] at hr
    rw [← Option.some.inj hr]
    exact moves_quiet ⟨rfl, rfl, rfl, rfl, rfl, rfl⟩ rfl (by rw [hpc]; rfl) rfl
  | qwrite d =>
    rw [hpc] at hr
    have hp : (s.pc p).held = [] := by rw [hpc]; rfl
    obtain ⟨a, rfl, hr⟩ := Option.bind_eq_some_iff.mp hr
    unfold Sys.qwriteStep at hr
    dsimp only at hr
    split at hr
    · rw [← Option.some.inj hr]
      exact moves_quiet (.refl _) rfl hp (by split <;> rfl)
    · split at hr
      · rw [← Option.some.inj hr]
        exact moves_qbwriteStep h _ _ hp
      · cases hr
  | qiwrite d w =>
    rw [hpc] at hr
    have hp : (s.pc p).held = [] := by rw [hpc]; rfl
    rw [← Option.some.inj hr]
    have hidle : Moves s (s.goto p .idle, .silent) := moves_quiet (.refl _) rfl hp rfl
    unfold Sys.qiwriteStep
    split
    · exact hidle
    · rename_i b hb
      have hw := qiwrite_fed h.ok (b.put (chunk d))
      have hd : b.data = [] := by
        obtain ⟨a, -, rfl⟩ := Option.map_eq_some_iff.mp hb
        rfl
      dsimp only
      split
      · exact moves_wrote ⟨hw.mode, hw.bfirst, hw.ok⟩ (fun _ => by simp [hd]) hp (by split <;> rfl)
      · exact hidle
  | qread len =>
    rw [hpc] at hr hlock
    rw [← Option.some.inj hr]
    exact moves_qreadStep h len (hlock .r rfl) (by rw [hpc]; rfl)
  | qbread len =>
    rw [hpc] at hr hlock
    obtain ⟨a, rfl, rfl⟩ := Option.map_eq_some_iff.mp hr
    exact moves_qbreadStep h a len hm (hlock .r rfl) (by rw [hpc]; rfl)
  | copy len first n =>
    rw [hpc] at hr hwf hlock
    rw [← Option.some.inj hr]
    have hc := qreadDone_copied h.ok hwf.1
    have hl : s.lock .r = some p := hlock .r rfl
    refine ⟨hc.mode, ?_, hc.asked, hc.ret ▸ Int.ofNat_le.mpr hc.asked⟩
    show s.contents = _ ++ ((s.setq _).goto p (after .w _ _)).contents
    have hk : ∀ v, (after .w v (.qunlock .r .idle)).held = [] := by
      intro v
      unfold after
      split <;> rfl
    rw [contents, inflight_holder hl, hpc, contents, inflight_holder (p := p) (by exact hl),
      goto_self, hk, goto_q, setq_q]
    exact hc.bytes hm

end Sys

/-! ## Runs -/

theorem moves_step {s s' : Sys} {l : Label} (h : s.Inv) (hm : s.q.Qmsg = false)
    (hs : lts.step s l s') (hst : StreamStep s l) : s.Moves (s', l.out) := by
  obtain ⟨-, hn⟩ := hs
  obtain ⟨p, a, out⟩ := l
  cases a with
  | call op m =>
    simp only [Sys.next] at hn
    split at hn
    · rename_i hpc
      exact Sys.moves_call h hm hn hpc (hst.op op m rfl) (hst.alone op m rfl)
    · cases hn
  | go m => exact Sys.moves_go h hm hn
  | note =>
    simp only [Sys.next, Sys.note] at hn
    split at hn
    · rename_i hpc
      rw [← Option.some.inj hn]
      exact Sys.moves_quiet (.refl _) rfl (by rw [hpc]; rfl) rfl
    · rename_i x _ hpc
      rw [← Option.some.inj hn]
      exact ⟨.refl _, Sys.contents_goto (s := s.setrendez x none) (q := s.q)
        (by rw [Sys.setrendez_pc, hpc]; rfl) rfl rfl, trivial⟩
    · cases hn

/-- A stream step makes no call of `pullupqueue`. -/
theorem StreamStep.pullStep {s : Sys} {l : Label} (h : StreamStep s l) : PullStep s l :=
  fun _ _ ha => absurd (h.op _ _ ha) id

theorem streams_inductive : streams.Inductive fun s => s.Inv ∧ s.q.Qmsg = false where
  init := by
    rintro s ⟨limit, coalesce, rfl⟩
    exact ⟨.start (.qopen limit false coalesce), rfl⟩
  step s l s' h hs := by
    refine ⟨h.1.step hs.1 hs.2.pullStep, ?_⟩
    rw [(moves_step h.1 h.2 hs.1 hs.2).mode.Qmsg]
    exact h.2

/-- Process 1 is copying one byte out of the queue of `passed`. -/
def copying : Sys := ((passed.setlock .r (some 1)).qreadStep 1 1).1

end NixMark.Qio
