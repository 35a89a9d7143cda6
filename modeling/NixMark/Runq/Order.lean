import NixMark.Lib.Insertion
import NixMark.Runq.Runs

/-!
# The order of the real-time queues (`edfready`, `release`, `dequeueproc` of `port/edf.c`)

A deadline is kept as the low 32 bits of a time in µs. `edfready` compares two of them as signed
words, which is not the order of the times when the sign changes between them.

* `World`: the queues with the clock and the deadlines in full; `World.exec`: a step of them.
* `World.Fits`: the deadline of a process compares with those of the queue as the times do, as far as
  the place in the queue depends on it.
* `edf_ordered`: as long as it does, every queue is in the order of the deadlines.
-/

namespace NixMark.Runq

open Lib
open Function (update update_eq_self update_of_ne update_self)

variable {nproc : Nat}

/-- `dequeueproc` for the queue that `tp` should be on. It leaves the link of the process as it is. -/
def dequeueproc (s : Sys nproc) (tp : Fin nproc) : Option (Sys nproc) :=
  let k := (s.procs tp).sch
  let i := (s.procs tp).priority
  let rq := s.queue k i
  let r := walk s.rnext (fun p => decide (p = tp)) nproc none rq.head
  if r.2 = none ∨ (s.procs tp).mach ≠ none then none
  else
    let next := (s.procs tp).rnext
    let head := if r.1 = none then next else rq.head
    let s := s.setrnext r.1 next
    let s := s.setsched k (Sched.setq i ⟨head, if next = none then r.1 else rq.tail, rq.n - 1⟩)
    some (s.setsched k (Sched.unlink head (bit i)))

namespace Edf

/-- `e` when `edfready` compares its next release with the time. -/
def renew (now : Int) (e : Edf) : Edf := if e.sporadic then e else e.nextrelease now

/-- `edfready` puts the process on its queue. -/
def runs (now : Int) (e : Edf) : Bool :=
  e.admitted && (decide (0 < long (e.d - now)) || decide (0 ≤ long (now - (e.renew now).t)))

/-- `release` sets a new deadline. -/
def late (now : Int) (e : Edf) : Bool := decide (long (e.d - now) < 0)

end Edf

/-- The clock, and for each process its deadline, as times in full. -/
structure World (nproc : Nat) where
  sys : Sys nproc
  clock : Int
  due : Fin nproc → Int

namespace World

inductive Act (nproc : Nat) where
  /-- Time passes. -/
  | tick (n : Nat)
  | edfready (p : Fin nproc)
  /-- The processor `m` takes a process from a queue. -/
  | runproc (m : Nat) (i : Pri) (affinity : Bool)
  | dequeueproc (p : Fin nproc)
  /-- A process that is on no queue gets another deadline and other parameters. -/
  | change (p : Fin nproc) (r : Proc nproc) (due : Int)
  /-- `up->mach = nil` -/
  | saved (p : Fin nproc)

/-- `now`, the low bits of the clock -/
def now (w : World nproc) : Int := long w.clock

/-- What `edfready` reads. -/
def reads (w : World nproc) : Clock := ⟨0, 0, 0, 0, w.now⟩

def runs (w : World nproc) (p : Fin nproc) : Bool := (w.sys.procs p).edf.any (Edf.runs w.now)

/-- The deadline of a process that `edfready` deals with. -/
def term (w : World nproc) (p : Fin nproc) : Int :=
  (w.sys.procs p).edf.elim (w.due p) fun e =>
    if e.runs w.now && e.late w.now then w.clock + e.D else w.due p

def dues (w : World nproc) (p : Fin nproc) : Fin nproc → Int := Function.update w.due p (w.term p)

def edfready (w : World nproc) (p : Fin nproc) : World nproc :=
  { w with sys := (Runq.edfready w.reads w.sys p).1, due := w.dues p }

variable (stray : Nat → Pri → Nat → BitVec 32)

/-- `none`: the step is not possible, or it does nothing. -/
def exec (w : World nproc) : Act nproc → Option (World nproc)
  | .tick n => some { w with clock := w.clock + n }
  | .edfready p => if (w.sys.procs p).state = .Ready then none else some (w.edfready p)
  | .runproc m i affinity => (rqrunproc stray w.sys m i affinity).map fun r =>
      { w with sys := r.1.setproc r.2 fun q => { q with state := .Scheding } }
  | .dequeueproc p => (dequeueproc w.sys p).map fun s =>
      { w with sys := s.setproc p fun q => { q with state := .Waitrelease } }
  | .change p r due =>
    if (w.sys.procs p).state = .Ready ∨ r.state = .Ready ∨ r.edf.any (fun e => e.d ≠ long due) then
      none
    else some { w with sys := w.sys.setproc p fun _ => r, due := Function.update w.due p due }
  | .saved p => some { w with sys := w.sys.setproc p fun q => { q with mach := none } }

/-- The queues are empty. -/
structure Boot (w : World nproc) : Prop where
  empty : ∀ k, w.sys.head k = none
  words : ∀ p e, (w.sys.procs p).edf = some e → e.d = long (w.due p)

def lts : Lts (World nproc) (Act nproc) where
  init := Boot
  step w a w' := w.exec stray a = some w'

/-- The list of a queue. -/
def Queued (w : World nproc) (k : Key) (l : List (Fin nproc)) : Prop :=
  Chain w.sys.rnext (w.sys.head k) l

/-- A process that `edfready` puts on its queue finds its place there by the words. -/
def Fits (w : World nproc) (p : Fin nproc) : Prop := w.runs p = true →
  ∀ l, w.Queued ((w.sys.procs p).sch, PriEdf) l →
    Lib.Fits (w.dues p) (fun q => long (w.dues p q)) p l

/-- What a step has to meet. -/
def Fitting (w : World nproc) (a : Act nproc) : Prop := ∀ p, a = .edfready p → w.Fits p

/-- The real-time queues are in the order of the deadlines. -/
def Ordered (w : World nproc) : Prop := ∀ k l, w.Queued (k, PriEdf) l → InOrder w.due l

/-! ## What the calls write -/

end World

variable {s s' : Sys nproc} {p q : Fin nproc} {e : Edf} {l₁ l₂ : List (Fin nproc)}

/-- The links and the heads after a process was put in behind `l`. -/
theorem edfinsert_links {e : Edf} {l r : Option (Fin nproc)}
    (hw : walk s.rnext (fun q => decide (e.d < deadline (s.procs q))) nproc none
      (s.head ((s.procs p).sch, PriEdf)) = (l, r)) :
    (edfinsert e s p).rnext = relink (update s.rnext p r) l (some p) ∧
      (edfinsert e s p).head = rehead s.head ((s.procs p).sch, PriEdf) l (some p) := by
  unfold edfinsert
  simp only [show walk s.rnext (fun q => decide (e.d < deadline (s.procs q))) nproc none
    (s.queue (s.procs p).sch PriEdf).head = (l, r) from hw]
  obtain ⟨s₂, hs₂⟩ : ∃ s₂, s₂ = (s.setproc p fun q => { q with rnext := r }).setrnext
      l (some p) := ⟨_, rfl⟩
  have hnext : s₂.rnext = relink (update s.rnext p r) l (some p) := by
    rw [hs₂, setrnext_rnext]
    refine congrArg (relink · _ _) (funext fun q => ?_)
    by_cases hqp : q = p
    · rw [hqp, update_self, Sys.rnext, setproc_self]
    · rw [update_of_ne hqp, Sys.rnext, setproc_ne hqp, Sys.rnext]
  have hscheds : s₂.scheds = s.scheds := by
    rw [hs₂, setrnext_scheds]
    rfl
  rw [← hs₂]
  constructor
  · rw [← hnext]
    funext q
    exact setproc_field Proc.rnext rfl q
  · have hqs := head_of_qs (qs_link hscheds (s.procs p).sch PriEdf
      ⟨if l = none then some p else s.head ((s.procs p).sch, PriEdf),
        if r = none then some p else (s.queue (s.procs p).sch PriEdf).tail,
        (s.queue (s.procs p).sch PriEdf).n + 1⟩)
    exact hqs.trans (update_rehead ..)

theorem edfinsert_fields (e : Edf) (s : Sys nproc) (p : Fin nproc) :
    (∀ q, q ≠ p → ((edfinsert e s p).procs q).edf = (s.procs q).edf ∧
      ((edfinsert e s p).procs q).state = (s.procs q).state) ∧
    ((edfinsert e s p).procs p).edf = some e ∧ (edfinsert e s p).rdy p := by
  refine ⟨fun q hq => ?_, ?_, ?_⟩
  · unfold edfinsert
    simp only [setproc_ne hq]
    exact ⟨(setrnext_field Proc.edf (fun _ _ => rfl) _ _ q).trans
      (setproc_field Proc.edf rfl q), (setrnext_field Proc.state (fun _ _ => rfl) _ _ q).trans
      (setproc_field Proc.state rfl q)⟩
  · unfold edfinsert
    simp only [setproc_self]
  · unfold edfinsert Sys.rdy
    simp only [setproc_self]

theorem unlinkproc_links (stray : Nat → Pri → Nat → BitVec 32) (s : Sys nproc) (j : Nat) (i : Pri)
    (l : Option (Fin nproc)) (p : Fin nproc) :
    (unlinkproc stray s j i l p).rnext = update (relink s.rnext l (s.rnext p)) p none ∧
      (unlinkproc stray s j i l p).head = rehead s.head (j, i) l (s.rnext p) ∧
      ∀ q, ((unlinkproc stray s j i l p).procs q).edf = (s.procs q).edf ∧
        ((unlinkproc stray s j i l p).procs q).state = (s.procs q).state := by
  unfold unlinkproc
  simp only
  obtain ⟨s₂, hs₂⟩ : ∃ s₂, s₂ = (s.setrnext l (s.procs p).rnext).setproc p fun q =>
      { q with rnext := none } := ⟨_, rfl⟩
  have hscheds : s₂.scheds = s.scheds := by
    rw [hs₂]
    exact setrnext_scheds ..
  rw [← hs₂]
  refine ⟨?_, (head_of_qs (qs_unlink hscheds ..)).trans (update_rehead ..), fun q => ?_⟩
  · change s₂.rnext = _
    funext q
    rw [hs₂]
    by_cases hqp : q = p
    · rw [hqp, update_self, Sys.rnext, setproc_self]
    · rw [update_of_ne hqp, Sys.rnext, setproc_ne hqp, ← Sys.rnext, setrnext_rnext]
      rfl
  · change (s₂.procs q).edf = _ ∧ (s₂.procs q).state = _
    rw [hs₂, setproc_field Proc.edf rfl, setproc_field Proc.state rfl]
    exact ⟨setrnext_field Proc.edf (fun _ _ => rfl) .., setrnext_field Proc.state (fun _ _ => rfl) ..⟩

theorem dequeueproc_links (h : dequeueproc s p = some s') :
    ∃ l, walk s.rnext (fun q => decide (q = p)) nproc none
        (s.head ((s.procs p).sch, (s.procs p).priority)) = (l, some p) ∧
      s'.rnext = relink s.rnext l (s.rnext p) ∧
      s'.head = rehead s.head ((s.procs p).sch, (s.procs p).priority) l (s.rnext p) ∧
      ∀ q, (s'.procs q).edf = (s.procs q).edf ∧ (s'.procs q).state = (s.procs q).state := by
  unfold dequeueproc at h
  simp only at h
  obtain ⟨l, r, hw⟩ : ∃ l r, walk s.rnext (fun q => decide (q = p)) nproc none
      (s.head ((s.procs p).sch, (s.procs p).priority)) = (l, r) := ⟨_, _, rfl⟩
  rw [show walk s.rnext (fun q => decide (q = p)) nproc none
    (s.queue (s.procs p).sch (s.procs p).priority).head = (l, r) from hw] at h
  by_cases hnone : r = none ∨ (s.procs p).mach ≠ none
  · rw [if_pos hnone] at h
    cases h
  rw [if_neg hnone] at h
  obtain ⟨q, rfl⟩ := Option.ne_none_iff_exists'.mp fun e => hnone (.inl e)
  have htest := walk_test hw
  obtain rfl : p = q := (of_decide_eq_true htest).symm
  cases h
  have hscheds := setrnext_scheds s l (s.procs p).rnext
  refine ⟨l, hw, setrnext_rnext .., (head_of_qs (qs_unlink hscheds ..)).trans (update_rehead ..),
    fun q => ⟨setrnext_field Proc.edf (fun _ _ => rfl) .., setrnext_field Proc.state (fun _ _ => rfl) ..⟩⟩

/-! ## What `edfready` does -/

theorem nextrelease_keeps (now : Int) (e : Edf) :
    (e.renew now).d = e.d ∧ (e.renew now).D = e.D ∧ (e.renew now).admitted = e.admitted := by
  unfold Edf.renew Edf.nextrelease
  split_ifs
  · exact ⟨rfl, rfl, rfl⟩
  · simp only
    split_ifs <;> exact ⟨rfl, rfl, rfl⟩

theorem release_d (now : Int) (e : Edf) :
    (release now e).d = if e.late now then long (now + e.D) else e.d := by
  unfold release Edf.late
  simp only [decide_eq_true_eq]
  split_ifs
  · rfl
  · unfold Edf.nextrelease
    simp only
    split_ifs <;> rfl
  · rfl

/-- A process that runs is put on its queue, with a new deadline if the old one has passed. -/
theorem edfready_runs {c : Clock} (he : (s.procs p).edf = some e) (hr : e.runs c.now = true) :
    ∃ e', (edfready c s p).1 = edfinsert e' s p ∧
      e'.d = if e.late c.now then long (c.now + e.D) else e.d := by
  have hkeep := nextrelease_keeps c.now e
  obtain ⟨hadm, hr⟩ := Bool.and_eq_true_iff.mp hr
  obtain ⟨e', he'⟩ : ∃ e', e' = e.renew c.now := ⟨_, rfl⟩
  rw [← he'] at hkeep hr
  unfold edfready
  simp only [he, hadm, not_true_eq_false, if_false,
    show (if e.sporadic = true then e else e.nextrelease c.now) = e' from he'.symm]
  by_cases hle : long (e.d - c.now) ≤ 0
  · have hnow : ¬ long (c.now - e'.t) < 0 := by
      simp only [Bool.or_eq_true, decide_eq_true_eq] at hr
      omega
    rw [if_pos hle, if_neg hnow]
    refine ⟨_, rfl, ?_⟩
    rw [release_d, hkeep.2.1, hkeep.1]
    unfold Edf.late
    rw [hkeep.1]
  · rw [if_neg hle]
    refine ⟨e, rfl, ?_⟩
    rw [if_neg]
    unfold Edf.late
    simp only [decide_eq_true_eq]
    omega

/-- Otherwise only the process itself changes, and it does not get ready. -/
theorem edfready_stays {c : Clock} (hr : (s.procs p).edf.any (Edf.runs c.now) = false) :
    ∃ r : Proc nproc, (edfready c s p).1 = s.setproc p (fun _ => r) ∧
      r.rnext = (s.procs p).rnext ∧ (r.state = .Ready → s.rdy p) ∧
      r.edf.map Edf.d = (s.procs p).edf.map Edf.d := by
  have hself : ∃ r : Proc nproc, s = s.setproc p (fun _ => r) ∧ r.rnext = (s.procs p).rnext ∧
      (r.state = .Ready → s.rdy p) ∧ r.edf.map Edf.d = (s.procs p).edf.map Edf.d := by
    refine ⟨s.procs p, ?_, rfl, id, rfl⟩
    rw [Sys.setproc, update_eq_self]
  cases he : (s.procs p).edf with
  | none =>
    unfold edfready
    simp only [he]
    rwa [he] at hself
  | some e =>
    rw [he] at hr hself
    have hkeep := nextrelease_keeps c.now e
    unfold Edf.runs at hr
    obtain ⟨e', he'⟩ : ∃ e', e' = e.renew c.now := ⟨_, rfl⟩
    rw [← he'] at hkeep
    unfold edfready
    simp only [he, show (if e.sporadic = true then e else e.nextrelease c.now) = e' from he'.symm]
    by_cases hadm : e.admitted = true
    · simp only [Option.any_some, ← he', hadm, Bool.true_and, Bool.or_eq_false_iff,
        decide_eq_false_iff_not] at hr
      rw [if_neg (not_not.mpr hadm), if_pos (show long (e.d - c.now) ≤ 0 by omega),
        if_pos (show long (c.now - e'.t) < 0 by omega)]
      split_ifs
      · exact ⟨_, rfl, rfl, id, congrArg some hkeep.1⟩
      · exact ⟨_, rfl, rfl, nofun, congrArg some hkeep.1⟩
    · rw [if_pos hadm]
      exact hself

namespace World

variable {w w' : World nproc} {L : Key → List (Fin nproc)}

/-! ## The invariant -/

/-- The queues are the lists `L`, and the processes have the words of their deadlines. -/
structure Held (w : World nproc) (L : Key → List (Fin nproc)) : Prop where
  heads : Heads w.sys.rnext w.sys.head L
  ready : ∀ k, ∀ q ∈ L k, w.sys.rdy q
  real : ∀ k, ∀ q ∈ L (k, PriEdf), (w.sys.procs q).edf ≠ none
  words : ∀ q e, (w.sys.procs q).edf = some e → e.d = long (w.due q)

structure Inv (w : World nproc) (L : Key → List (Fin nproc)) : Prop extends Held w L where
  order : ∀ k, InOrder w.due (L (k, PriEdf))

variable {l : List (Fin nproc)}

theorem Held.queued (h : Held w L) {k : Key} (hl : w.Queued k l) : l = L k :=
  hl.unique (h.heads.chain k)

theorem Held.off (h : Held w L) (hp : ¬ w.sys.rdy p) (k : Key) : p ∉ L k :=
  fun hk => hp (h.ready k p hk)

theorem Held.length_le (h : Held w L) (k : Key) : (L k).length ≤ nproc := by
  have := (h.heads.nodup k).length_le_card
  rwa [Fintype.card_fin] at this

theorem Held.deadline (h : Held w L) {k : Nat} (hq : q ∈ L (k, PriEdf)) :
    deadline (w.sys.procs q) = long (w.due q) := by
  obtain ⟨e, he⟩ := Option.ne_none_iff_exists'.mp (h.real k q hq)
  unfold Runq.deadline
  rw [he]
  exact h.words q e he

theorem inorder_congr {f g : Fin nproc → Int} (hfg : ∀ q ∈ l, g q = f q) (h : InOrder f l) :
    InOrder g l := by
  refine List.Pairwise.imp_of_mem ?_ h
  intro a b ha hb hab
  rwa [hfg a ha, hfg b hb]

/-- The processes of the queues are as they were. -/
theorem Inv.congr (h : Inv w L) (hnext : ∀ k, ∀ q ∈ L k, w'.sys.rnext q = w.sys.rnext q)
    (hhead : w'.sys.head = w.sys.head) (hrdy : ∀ k, ∀ q ∈ L k, w'.sys.rdy q)
    (hreal : ∀ k, ∀ q ∈ L k, (w'.sys.procs q).edf = (w.sys.procs q).edf)
    (hwords : ∀ q e, (w'.sys.procs q).edf = some e → e.d = long (w'.due q))
    (hdue : ∀ k, ∀ q ∈ L k, w'.due q = w.due q) : Inv w' L where
  heads :=
    { chain := fun k => by
        rw [hhead]
        exact (h.heads.chain k).congr (hnext k)
      nodup := h.heads.nodup
      apart := h.heads.apart }
  ready := hrdy
  real k q hq := by
    rw [hreal _ q hq]
    exact h.real k q hq
  words := hwords
  order k := inorder_congr (hdue _) (h.order k)

/-- A process that is on no queue changes. -/
theorem Inv.change (h : Inv w L) (hp : ∀ k, p ∉ L k) (r : Proc nproc) {due : Int} {clock : Int}
    (hr : ∀ e, r.edf = some e → e.d = long due) :
    Inv ⟨w.sys.setproc p fun _ => r, clock, update w.due p due⟩ L := by
  have hne : ∀ k, ∀ q ∈ L k, q ≠ p := fun k q hq e => hp k (e ▸ hq)
  have hproc : ∀ k, ∀ q ∈ L k, (w.sys.setproc p fun _ => r).procs q = w.sys.procs q :=
    fun k q hq => setproc_ne (hne k q hq)
  refine h.congr (fun k q hq => congrArg Proc.rnext (hproc k q hq)) rfl (fun k q hq => ?_)
    (fun k q hq => congrArg Proc.edf (hproc k q hq)) (fun q e he => ?_)
    (fun k q hq => update_of_ne (hne k q hq) _ _)
  · rw [Sys.rdy, hproc k q hq]
    exact h.ready k q hq
  · by_cases hq : q = p
    · subst hq
      rw [setproc_self] at he
      change e.d = long (update w.due q due q)
      rw [update_self]
      exact hr e he
    · rw [setproc_ne hq] at he
      change e.d = long (update w.due p due q)
      rw [update_of_ne hq]
      exact h.words q e he

/-- The process `p` is taken out. -/
theorem Inv.unlink (h : Inv w L) {key : Key} (hL : L key = l₁ ++ p :: l₂)
    (hnext : ∀ q, q ≠ p → s'.rnext q = relink w.sys.rnext l₁.getLast? (w.sys.rnext p) q)
    (hhead : s'.head = rehead w.sys.head key l₁.getLast? (w.sys.rnext p))
    (hedf : ∀ q, (s'.procs q).edf = (w.sys.procs q).edf)
    (hstate : ∀ q, q ≠ p → (s'.procs q).state = (w.sys.procs q).state) :
    Inv { w with sys := s' } (update L key (l₁ ++ l₂)) := by
  have hn := h.heads.nodup key
  rw [hL] at hn
  have hmem : ∀ k, ∀ q ∈ update L key (l₁ ++ l₂) k, q ∈ L k ∧ q ≠ p := by
    intro k q hq
    by_cases hk : k = key
    · subst hk
      rw [update_self] at hq
      refine ⟨?_, ?_⟩
      · rw [hL]
        exact ((List.sublist_cons_self p l₂).append_left l₁).subset hq
      · rintro rfl
        exact (List.nodup_cons.mp (List.perm_middle.nodup_iff.mp hn)).1 hq
    · rw [update_of_ne hk] at hq
      refine ⟨hq, ?_⟩
      rintro rfl
      refine hk (h.heads.apart hq ?_)
      rw [hL]
      exact List.mem_append_right _ List.mem_cons_self
  have hheads := h.heads.remove hL
  refine ⟨⟨⟨fun k => ?_, hheads.nodup, hheads.apart⟩, ?_, ?_, ?_⟩, ?_⟩
  · change Chain s'.rnext (s'.head k) _
    rw [hhead]
    exact (hheads.chain k).congr fun q hq => hnext q (hmem k q hq).2
  · intro k q hq
    obtain ⟨hq, hne⟩ := hmem k q hq
    rw [Sys.rdy, hstate q hne]
    exact h.ready k q hq
  · intro k q hq
    change (s'.procs q).edf ≠ none
    rw [hedf q]
    exact h.real k q (hmem _ q hq).1
  · intro q e he
    exact h.words q e (by rw [← hedf q]; exact he)
  · intro k
    by_cases hk : (k, PriEdf) = key
    · rw [hk, update_self]
      refine InOrder.remove (a := p) ?_
      rw [← hL, ← hk]
      exact h.order k
    · rw [update_of_ne hk]
      exact h.order k

/-! ## The steps -/

theorem long_add (x y : Int) : long (long x + y) = long (x + y) := by
  unfold long
  omega

theorem term_of_runs (he : (w.sys.procs p).edf = some e) (hr : e.runs w.now = true) :
    w.term p = if e.late w.now then w.clock + e.D else w.due p := by
  unfold term
  rw [he, Option.elim_some, hr, Bool.true_and]

theorem term_of_stays (hr : w.runs p = false) : w.term p = w.due p := by
  unfold runs at hr
  unfold term
  cases he : (w.sys.procs p).edf with
  | none => rfl
  | some e =>
    rw [he, Option.any_some] at hr
    rw [Option.elim_some, hr, Bool.false_and]
    rfl

theorem dues_self (w : World nproc) (p : Fin nproc) : w.dues p p = w.term p :=
  update_self ..

theorem dues_of_ne (w : World nproc) (h : q ≠ p) : w.dues p q = w.due q :=
  update_of_ne h _ _

/-- A process is put on its queue: the list stays in order exactly when the deadline fits. -/
theorem Inv.insert (h : Inv w L) (hp : ¬ w.sys.rdy p) (hr : w.runs p = true) :
    ∃ l, Held (w.edfready p) (update L ((w.sys.procs p).sch, PriEdf) l) ∧
      (InOrder (w.dues p) l ↔ w.Fits p) := by
  obtain ⟨e, he, hruns⟩ : ∃ e, (w.sys.procs p).edf = some e ∧ e.runs w.now = true := by
    obtain ⟨e, he, hruns⟩ := (Option.any_eq_true _ _).mp hr
    exact ⟨e, he, hruns⟩
  obtain ⟨e', hsys, hd⟩ := edfready_runs (c := w.reads) he hruns
  have hterm : e'.d = long (w.term p) := by
    change e'.d = if e.late w.now then long (w.now + e.D) else e.d at hd
    rw [term_of_runs he hruns, hd]
    split_ifs
    · exact long_add _ _
    · exact h.words p e he
  have hoff := h.off hp
  obtain ⟨l₁, l₂, hL, hw, h₁, h₂⟩ := walk_spec
    (fun q => decide (e'.d < deadline (w.sys.procs q)))
    (h.heads.chain ((w.sys.procs p).sch, PriEdf)) (h.length_le _)
  obtain ⟨hnext, hhead⟩ := edfinsert_links hw
  obtain ⟨hother, hedf, hrdy⟩ := edfinsert_fields e' w.sys p
  have hne : ∀ k, ∀ q ∈ L k, q ≠ p := fun k q hq e => hoff k (e ▸ hq)
  have hsub : ∀ q ∈ l₁ ++ l₂, q ∈ L ((w.sys.procs p).sch, PriEdf) := fun q hq => hL ▸ hq
  have hcmp : ∀ q ∈ l₁ ++ l₂, decide (e'.d < deadline (w.sys.procs q)) =
      decide (long (w.dues p p) < long (w.dues p q)) := by
    intro q hq
    rw [hterm, h.deadline (hsub q hq), dues_self, dues_of_ne w (hne _ q (hsub q hq))]
  have hmem : ∀ k, ∀ q ∈ update L ((w.sys.procs p).sch, PriEdf) (l₁ ++ p :: l₂) k,
      q = p ∨ q ≠ p ∧ q ∈ L k := by
    intro k q hq
    by_cases hqp : q = p
    · exact .inl hqp
    · refine .inr ⟨hqp, ?_⟩
      by_cases hk : k = ((w.sys.procs p).sch, PriEdf)
      · rw [hk, update_self] at hq
        rw [hk, hL]
        obtain hq | hq := List.mem_append.mp hq
        · exact List.mem_append_left _ hq
        · exact List.mem_append_right _ ((List.mem_cons.mp hq).resolve_left hqp)
      · rwa [update_of_ne hk] at hq
  refine ⟨l₁ ++ p :: l₂, ⟨?_, fun k q hq => ?_, fun k q hq => ?_, fun q d hq => ?_⟩, ?_⟩
  · change Heads (Runq.edfready w.reads w.sys p).1.rnext (Runq.edfready w.reads w.sys p).1.head _
    rw [hsys, hnext, hhead]
    exact h.heads.insert hL hoff
  · change (Runq.edfready w.reads w.sys p).1.rdy q
    rw [hsys]
    obtain rfl | ⟨hqp, hq⟩ := hmem k q hq
    · exact hrdy
    · exact (hother q hqp).2.trans (h.ready k q hq)
  · change ((Runq.edfready w.reads w.sys p).1.procs q).edf ≠ none
    rw [hsys]
    obtain rfl | ⟨hqp, hq⟩ := hmem _ q hq
    · rw [hedf]
      exact Option.some_ne_none e'
    · rw [(hother q hqp).1]
      exact h.real k q hq
  · change ((Runq.edfready w.reads w.sys p).1.procs q).edf = some d at hq
    change d.d = long (w.dues p q)
    rw [hsys] at hq
    by_cases hqp : q = p
    · subst hqp
      rw [hedf] at hq
      rw [← Option.some.inj hq, hterm, dues_self]
    · rw [(hother q hqp).1] at hq
      rw [dues_of_ne w hqp]
      exact h.words q d hq
  · have horder : InOrder (w.dues p) (l₁ ++ l₂) := by
      refine inorder_congr (fun q hq => dues_of_ne w (hne _ q (hsub q hq))) ?_
      rw [← hL]
      exact h.order _
    have hiff : InOrder (w.dues p) (l₁ ++ p :: l₂) ↔
        Lib.Fits (w.dues p) (fun q => long (w.dues p q)) p (l₁ ++ l₂) := by
      refine inorder_insert_iff (fun x y hxy => congrArg long hxy) horder (fun x hx => ?_)
        fun y hy => ?_
      · have := h₁ x hx
        rw [hcmp x (List.mem_append_left _ hx)] at this
        exact Int.not_lt.mp (of_decide_eq_false this)
      · have := h₂ y hy
        rw [hcmp y (List.mem_append_right _ (List.mem_of_mem_head? hy))] at this
        exact of_decide_eq_true this
    rw [hiff, ← hL]
    constructor
    · intro hf _ l hl
      rwa [h.queued hl]
    · intro hf
      exact hf hr _ (h.heads.chain _)

theorem edfready_inv (h : Inv w L) (hp : ¬ w.sys.rdy p) (hf : w.Fits p) :
    ∃ L', Inv (w.edfready p) L' := by
  cases hr : w.runs p with
  | true =>
    obtain ⟨l, hheld, hiff⟩ := h.insert hp hr
    refine ⟨_, hheld, fun k => ?_⟩
    by_cases hk : k = (w.sys.procs p).sch
    · subst hk
      rw [update_self]
      exact hiff.mpr hf
    · have hkey : (k, PriEdf) ≠ ((w.sys.procs p).sch, PriEdf) := fun e => hk (congrArg Prod.fst e)
      rw [update_of_ne hkey]
      refine inorder_congr (fun q hq => dues_of_ne w ?_) (h.order k)
      rintro rfl
      exact h.off hp _ hq
  | false =>
    obtain ⟨r, hsys, -, -, hd⟩ := edfready_stays (c := w.reads) hr
    have hword : ∀ e, r.edf = some e → e.d = long (w.term p) := by
      intro e he
      rw [he, Option.map_some] at hd
      obtain ⟨e', he', hed⟩ := Option.map_eq_some_iff.mp hd.symm
      rw [term_of_stays hr, ← hed]
      exact h.words p e' he'
    have hchange : Inv ⟨w.sys.setproc p fun _ => r, w.clock, w.dues p⟩ L :=
      h.change (h.off hp) r hword
    refine ⟨L, ?_⟩
    unfold edfready
    rw [hsys]
    exact hchange

/-- The words of the deadlines have the order of the times as long as no sign changes between
them. -/
theorem fits_of_window {due : Fin nproc → Int} {k : Int}
    (hk : ∀ q, 4294967296 * k - 2147483648 ≤ due q ∧ due q < 4294967296 * k + 2147483648) :
    Lib.Fits due (fun q => long (due q)) p l := by
  have hlong : ∀ q, long (due q) = due q - 4294967296 * k := by
    intro q
    have := hk q
    unfold long
    omega
  intro q _
  simp only [hlong]
  exact ⟨fun h => by omega, fun h => .inl (by omega)⟩

variable {stray : Nat → Pri → Nat → BitVec 32}

theorem rewire_edf (r : Proc nproc) : (rewire r).edf = r.edf := by
  unfold rewire
  split <;> rfl

theorem rqrunproc_inv {m : Nat} {i : Pri} {affinity : Bool} {r : Sys nproc × Fin nproc}
    (h : Inv w L) (hr : rqrunproc stray w.sys m i affinity = some r) :
    (∃ l₁ l₂, L (msch m, i) = l₁ ++ r.2 :: l₂ ∧
        ∀ q ∈ l₁, takes m affinity (w.sys.procs q) = false) ∧
      ∃ L', Inv { w with sys := r.1.setproc r.2 fun q => { q with state := .Scheding } } L' := by
  obtain ⟨hnone, -⟩ | ⟨l₁, p, l₂, hL, hsome, -, h₁⟩ :=
    rqrunproc_chain stray (h.heads.chain (msch m, i)) (h.length_le _) affinity
  · rw [hnone] at hr
    cases hr
  · obtain rfl := Option.some.inj (hsome.symm.trans hr)
    refine ⟨⟨l₁, l₂, hL, h₁⟩, ?_⟩
    obtain ⟨hnext, hhead, hfields⟩ := unlinkproc_links stray (w.sys.setproc p rewire) (msch m) i
      l₁.getLast? p
    have hrewire : (w.sys.setproc p rewire).rnext = w.sys.rnext := by
      funext q
      exact setproc_field Proc.rnext (rewire_keeps _).1 q
    rw [hrewire] at hnext hhead
    refine ⟨_, h.unlink hL (fun q hq => ?_) hhead (fun q => ?_) fun q hq => ?_⟩
    · rw [Sys.rnext, setproc_ne hq, ← Sys.rnext, hnext, update_of_ne hq]
    · rw [setproc_field Proc.edf rfl, (hfields q).1, setproc_field Proc.edf (rewire_edf _)]
    · rw [setproc_ne hq, (hfields q).2, setproc_ne hq]

theorem dequeueproc_inv (h : Inv w L) (hs : dequeueproc w.sys p = some s') :
    ∃ L', Inv { w with sys := s'.setproc p fun q => { q with state := .Waitrelease } } L' := by
  obtain ⟨l, hw, hnext, hhead, hfields⟩ := dequeueproc_links hs
  obtain ⟨l₁, l₂, hL, hw', -, -⟩ := walk_spec (fun q => decide (q = p))
    (h.heads.chain ((w.sys.procs p).sch, (w.sys.procs p).priority)) (h.length_le _)
  obtain ⟨rfl, hp⟩ := Prod.ext_iff.mp (hw'.symm.trans hw)
  obtain ⟨l₂, rfl⟩ := List.head?_eq_some_iff.mp hp
  refine ⟨_, h.unlink hL (fun q hq => ?_) ?_ (fun q => ?_) fun q hq => ?_⟩
  · rw [Sys.rnext, setproc_ne hq, ← Sys.rnext, hnext]
  · exact hhead
  · exact (setproc_field Proc.edf rfl q).trans (hfields q).1
  · rw [setproc_ne hq]
    exact (hfields q).2

theorem Boot.inv (h : Boot w) : Inv w fun _ => [] :=
  ⟨⟨⟨h.empty, fun _ => List.nodup_nil, nofun⟩, nofun, nofun, h.words⟩, fun _ => List.Pairwise.nil⟩

theorem Inv.step (h : Inv w L) {a : Act nproc} (ha : w.exec stray a = some w')
    (hf : w.Fitting a) : ∃ L', Inv w' L' := by
  cases a with
  | tick n =>
    cases ha
    exact ⟨L, h.congr (fun _ _ _ => rfl) rfl h.ready (fun _ _ _ => rfl) h.words fun _ _ _ => rfl⟩
  | edfready p =>
    rw [exec] at ha
    split_ifs at ha with hp
    cases ha
    exact edfready_inv h hp (hf p rfl)
  | runproc m i affinity =>
    obtain ⟨r, hr, rfl⟩ := Option.map_eq_some_iff.mp ha
    exact (rqrunproc_inv h hr).2
  | dequeueproc p =>
    obtain ⟨s', hs, rfl⟩ := Option.map_eq_some_iff.mp ha
    exact dequeueproc_inv h hs
  | change p r due =>
    rw [exec] at ha
    split_ifs at ha with hp
    cases ha
    obtain ⟨hp, -, hr⟩ : _ ∧ _ ∧ _ := by simpa only [not_or] using hp
    refine ⟨L, h.change (h.off hp) r fun e he => ?_⟩
    rw [he] at hr
    simpa using hr
  | saved p =>
    cases ha
    have hnext : ∀ q, (w.sys.setproc p fun q => { q with mach := none }).rnext q =
        w.sys.rnext q := setproc_field Proc.rnext rfl
    have hedf : ∀ q, ((w.sys.setproc p fun q => { q with mach := none }).procs q).edf =
        (w.sys.procs q).edf := setproc_field Proc.edf rfl
    refine ⟨L, h.congr (fun _ q _ => hnext q) rfl (fun k q hq => ?_) (fun _ q _ => hedf q)
      (fun q e he => ?_) fun _ _ _ => rfl⟩
    · rw [Sys.rdy, setproc_field Proc.state rfl]
      exact h.ready k q hq
    · exact h.words q e ((hedf q).symm.trans he)

theorem Inv.ordered (h : Inv w L) : w.Ordered := by
  intro k l hl
  rw [h.queued hl]
  exact h.order k

/-- In every run in which the deadlines that are put on a queue fit, every real-time queue is in the
order of the deadlines, and of the processes that may run the one that `runproc` takes is due
first. -/
theorem edf_ordered (stray : Nat → Pri → Nat → BitVec 32)
    (h : ((lts stray).restrict Fitting).Reach w) :
    w.Ordered ∧ ∀ m affinity r l, rqrunproc stray w.sys m PriEdf affinity = some r →
      w.Queued (msch m, PriEdf) l →
      ∀ q ∈ l, takes m affinity (w.sys.procs q) = true → w.due r.2 ≤ w.due q := by
  have hinv : ((lts stray).restrict Fitting).Inductive
      fun w : World nproc => ∃ L : Key → List (Fin nproc), Inv w L :=
    ⟨fun w hw => ⟨_, Boot.inv hw⟩, fun w a w' ⟨L, hL⟩ ha => hL.step ha.1 ha.2⟩
  obtain ⟨L, hL⟩ := hinv.reach h
  refine ⟨hL.ordered, fun m affinity r l hr hl q hq ht => ?_⟩
  · obtain ⟨⟨l₁, l₂, hl', h₁⟩, -⟩ := rqrunproc_inv hL hr
    rw [hL.queued hl, hl'] at hq
    have ho := hL.order (msch m)
    rw [hl'] at ho
    exact ho.first h₁ hq ht

/-! ## Two deadlines -/

/-- Two sporadic processes, with deadlines 600 µs and 1000 µs after their release. -/
private def pair (clock : Int) : World 2 where
  sys :=
    { procs := fun p => ⟨none, .Wakeme, PriEdf, PriEdf, false, 0, 0,
        some ⟨0, 0, 0, 600 + 400 * p.val, 5000, 100, 0, true, true, false, false, false, false⟩,
        none, none, none, 0⟩
      scheds := fun _ => ⟨0, fun _ => ⟨none, none, 0⟩, 0, none, 0, 0⟩
      up := fun _ => none
      last := 0 }
  clock := clock
  due _ := 0

theorem pair_boot (clock : Int) : (pair clock).Boot :=
  ⟨fun _ => rfl, fun p e he => by cases he; rfl⟩

theorem pair_reach (clock : Int) {G : World 2 → Act 2 → Prop} (p q : Fin 2)
    (hp : G (pair clock) (.edfready p)) (hq : G ((pair clock).edfready p) (.edfready q))
    (hst : (((pair clock).edfready p).sys.procs q).state ≠ .Ready) :
    ((lts fun _ _ _ => 0).restrict G).Reach (((pair clock).edfready p).edfready q) := by
  have hinit : ((lts fun _ _ _ => 0).restrict G).Reach (pair clock) :=
    ⟨[], .init (pair_boot clock)⟩
  have hstep : ∀ (w : World 2) (p : Fin 2), (w.sys.procs p).state ≠ .Ready →
      w.exec (fun _ _ _ => 0) (.edfready p) = some (w.edfready p) := fun w p h => if_neg h
  have hfirst : ((lts fun _ _ _ => 0).restrict G).Reach ((pair clock).edfready p) :=
    hinit.step (e := .edfready p) ⟨hstep _ p State.noConfusion, hp⟩
  exact hfirst.step (e := .edfready q) ⟨hstep _ q hst, hq⟩

/-- Both are released at the time 1000. -/
theorem edf_ordered_pair : (((pair 1000).edfready 0).edfready 1).Ordered := by
  have hfit : ∀ (w : World 2) (p : Fin 2),
      (∀ q, 0 ≤ w.dues p q ∧ w.dues p q < 2147483648) → w.Fitting (.edfready p) := by
    intro w p hw p' hp' _ l _
    cases hp'
    refine fits_of_window (k := 0) fun q => ?_
    have := hw q
    omega
  refine (edf_ordered (fun _ _ _ => 0) (pair_reach 1000 0 1 ?_ ?_ ?_)).1
  · exact hfit _ _ (by decide +kernel)
  · exact hfit _ _ (by decide +kernel)
  · decide +kernel

/-- They are released 648 µs before the sign of the clock changes: the deadline of the second one
lies behind that. -/
theorem edfready_disorders : ∃ (stray : Nat → Pri → Nat → BitVec 32) (w : World 2),
    (lts stray).Reach w ∧ (∀ p q, w.due p - w.due q < 2147483648) ∧ ¬ w.Ordered := by
  have hhead : (((pair 2147483000).edfready 0).edfready 1).sys.head (0, PriEdf) = some 1 ∧
      (((pair 2147483000).edfready 0).edfready 1).sys.rnext 1 = some 0 ∧
      (((pair 2147483000).edfready 0).edfready 1).sys.rnext 0 = none := by decide +kernel
  have hdue : (((pair 2147483000).edfready 0).edfready 1).due 0 <
      (((pair 2147483000).edfready 0).edfready 1).due 1 := by decide +kernel
  have hreach := pair_reach 2147483000 (G := fun _ _ => True) 0 1 trivial trivial
    (by decide +kernel)
  refine ⟨_, _, hreach.of_restrict, by decide +kernel, fun ho => ?_⟩
  have hlist := ho 0 [1, 0] ⟨hhead.1, hhead.2.1, hhead.2.2⟩
  have := (List.pairwise_cons.mp hlist).1 0 List.mem_cons_self
  omega

end World
end NixMark.Runq
