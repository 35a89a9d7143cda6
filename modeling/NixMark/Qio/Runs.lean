import NixMark.Qio.Sys
import NixMark.Qio.Acct

/-!
# Runs of the processes on a queue

`Sys.Inv`: the queue has its accounting, a process that is in a part of a call that needs a lock
holds it, and the blocks that a process holds are not linked in the queue. Every step keeps it,
except a `pullupqueue` that changes the storage (`Inv.step`), so the accounting holds in all runs
without one (`acct_iff_pullKeeps`).
-/

namespace NixMark.Qio

open Lib

/-! ## Program points -/

/-- The process holds the lock of the side `x`. -/
def Pc.holds (x : Side) : Pc → Prop
  | .idle | .qwrite _ | .qiwrite _ _ => False
  | .wakeup _ k => k.holds x
  | .sleep y _ | .asleep y _ | .qunlock y _ => x = y
  | .flow _ | .setflow _ => x = .w
  | .qread _ | .qbread _ | .copy _ _ _ => x = .r

/-- The process holds no blocks and is not asleep. -/
structure Pc.Plain (k : Pc) : Prop where
  held : k.held = []
  awake : ∀ x k', k ≠ .asleep x k'

/-- Where a process goes on after a wakeup. -/
def Pc.Cont : Pc → Prop
  | .idle | .wakeup _ _ | .qunlock _ _ | .flow _ | .qiwrite _ _ => True
  | _ => False

/-- Where a writer goes on after `qbwrite`. -/
def Pc.Rest : Pc → Prop
  | .idle | .qwrite _ => True
  | _ => False

/-- Where a process goes on after a sleep on the side `x`. -/
def Pc.Wakes (x : Side) : Pc → Prop
  | .qread _ | .qbread _ => x = .r
  | .flow k => x = .w ∧ k.Rest
  | _ => False

/-- The program points that the calls reach. -/
def Pc.Wf : Pc → Prop
  | .idle | .qwrite _ | .qiwrite _ _ | .qread _ | .qbread _ => True
  | .wakeup _ k => k.Wf ∧ k.Cont
  | .sleep x k | .asleep x k => k.Wakes x
  | .qunlock _ k | .flow k | .setflow k => k.Rest
  | .copy len first n => Fits len first n ∧ (addrs first).Nodup

variable {k : Pc}

theorem Pc.Cont.plain (h : k.Cont) : k.Plain := by
  cases k with
  | idle | wakeup _ _ | qunlock _ _ | flow _ | qiwrite _ _ => exact ⟨rfl, by simp⟩
  | _ => cases h

theorem Pc.Rest.wf (h : k.Rest) : k.Wf := by
  cases k <;> trivial

theorem Pc.Rest.plain (h : k.Rest) : k.Plain := by
  cases k with
  | idle | qwrite _ => exact ⟨rfl, by simp⟩
  | _ => cases h

theorem Pc.Rest.not_holds (h : k.Rest) (x : Side) : ¬ k.holds x := by
  cases k <;> first | exact id | cases h

variable {x : Side}

theorem Pc.Wakes.wf (h : k.Wakes x) : k.Wf := by
  cases k <;> first | trivial | exact h.2

theorem Pc.Wakes.plain (h : k.Wakes x) : k.Plain := by
  cases k with
  | qread _ | qbread _ | flow _ => exact ⟨rfl, by simp⟩
  | _ => cases h

variable {y : Side}

theorem Pc.Wakes.holds (h : k.Wakes x) (hk : k.holds y) : y = x := by
  cases k with
  | qread _ => exact hk.trans h.symm
  | qbread _ => exact hk.trans h.symm
  | flow _ => exact hk.trans h.1.symm
  | _ => cases h

namespace Sys

variable {w : Bool}

theorem after_holds (h : (after x w k).holds y) : k.holds y := by
  unfold after at h
  split at h
  · exact h
  · exact h

theorem after_wf (h : k.Wf) (hk : k.Cont) : (after x w k).Wf := by
  unfold after
  split
  · exact ⟨h, hk⟩
  · exact h

theorem after_cont (hk : k.Cont) : (after x w k).Cont := by
  unfold after
  split
  · trivial
  · exact hk

@[simp] theorem goto_q (s : Sys) (p : Pid) (k : Pc) : (s.goto p k).q = s.q := rfl
@[simp] theorem goto_lock (s : Sys) (p : Pid) (k : Pc) : (s.goto p k).lock = s.lock := rfl
@[simp] theorem goto_rendez (s : Sys) (p : Pid) (k : Pc) : (s.goto p k).rendez = s.rendez := rfl
@[simp] theorem goto_self (s : Sys) (p : Pid) (k : Pc) : (s.goto p k).pc p = k := by
  simp [goto]
variable {p : Pid}

theorem goto_ne (s : Sys) {p' : Pid} (k : Pc) (h : p' ≠ p) : (s.goto p k).pc p' = s.pc p' := by
  simp [goto, h]
@[simp] theorem setq_q (s : Sys) (q : Queue) : (s.setq q).q = q := rfl
@[simp] theorem setq_pc (s : Sys) (q : Queue) : (s.setq q).pc = s.pc := rfl
@[simp] theorem setq_lock (s : Sys) (q : Queue) : (s.setq q).lock = s.lock := rfl
@[simp] theorem setlock_pc (s : Sys) (x : Side) (p : Option Pid) : (s.setlock x p).pc = s.pc := rfl
@[simp] theorem setlock_self (s : Sys) (x : Side) (p : Option Pid) :
    (s.setlock x p).lock x = p := by
  simp [setlock]
theorem setlock_ne (s : Sys) (p : Option Pid) (h : y ≠ x) : (s.setlock x p).lock y = s.lock y := by
  simp [setlock, h]
@[simp] theorem setrendez_pc (s : Sys) (x : Side) (p : Option Pid) :
    (s.setrendez x p).pc = s.pc := rfl
@[simp] theorem setrendez_self (s : Sys) (x : Side) (p : Option Pid) :
    (s.setrendez x p).rendez x = p := by
  simp [setrendez]
theorem setrendez_ne (s : Sys) (p : Option Pid) (h : y ≠ x) :
    (s.setrendez x p).rendez y = s.rendez y := by
  simp [setrendez, h]

/-! ## The invariant -/

/-- The queue and the processes of a run. -/
structure Inv (s : Sys) : Prop where
  ok : s.q.Ok
  wf : ∀ p, (s.pc p).Wf
  lock : ∀ p x, (s.pc p).holds x → s.lock x = some p
  held : ∀ p, ∀ a ∈ addrs (s.pc p).held, a ∉ addrs s.q.bfirst
  rendez : ∀ p x k, s.pc p = .asleep x k → s.rendez x = some p

variable {s : Sys}

/-- Only the process with `rlock` holds blocks. -/
theorem Inv.held_unique (h : s.Inv) {p' : Pid} (hr : (s.pc p).holds .r) (hp : p' ≠ p) :
    (s.pc p').held = [] := by
  by_contra hne
  have hh : (s.pc p').holds .r := by
    cases hk : s.pc p' with
    | copy len first n => rfl
    | _ => simp [hk, Pc.held] at hne
  exact hp (Option.some.inj ((h.lock p' _ hh).symm.trans (h.lock p _ hr)))

variable {q : Queue}

/-- Process `p` goes to `k`, which asks for no more locks, and leaves the queue `q`. -/
theorem Inv.goto (h : s.Inv) (hok : q.Ok) (hwf : k.Wf) (hlock : ∀ x, k.holds x → s.lock x = some p)
    (hheld : ∀ a ∈ addrs k.held, a ∉ addrs q.bfirst)
    (hsleep : ∀ x k', k = .asleep x k' → s.rendez x = some p)
    (hnew : ∀ p', p' ≠ p → ∀ a ∈ addrs (s.pc p').held, a ∉ addrs q.bfirst) :
    Inv ((s.setq q).goto p k) where
  ok := hok
  wf p' := by
    by_cases hp : p' = p
    · rw [hp, goto_self]
      exact hwf
    · rw [goto_ne _ _ hp]
      exact h.wf p'
  lock p' x hx := by
    by_cases hp : p' = p
    · rw [hp, goto_self] at hx
      rw [hp]
      exact hlock x hx
    · rw [goto_ne _ _ hp] at hx
      exact h.lock p' x hx
  held p' := by
    by_cases hp : p' = p
    · rw [hp, goto_self]
      exact hheld
    · rw [goto_ne _ _ hp]
      exact hnew p' hp
  rendez p' x k' hx := by
    by_cases hp : p' = p
    · rw [hp, goto_self] at hx
      rw [hp]
      exact hsleep x k' hx
    · rw [goto_ne _ _ hp] at hx
      exact h.rendez p' x k' hx

/-- As `Inv.goto`, where the queue keeps its chain up to blocks that were not in use, and `k` is
neither a copy nor asleep. -/
theorem Inv.step_to (h : s.Inv) (hok : q.Ok) (hwf : k.Wf)
    (hlock : ∀ x, k.holds x → s.lock x = some p) (hk : k.Plain)
    (hnew : ∀ a ∈ addrs q.bfirst, a ∈ addrs s.q.bfirst ∨ ¬ s.InUse a) :
    Inv ((s.setq q).goto p k) := by
  refine h.goto hok hwf hlock (by simp [hk.held]) (fun x k' he => absurd he (hk.awake x k')) ?_
  intro p' _ a ha hq
  rcases hnew a hq with hc | hc
  · exact h.held p' a ha hc
  · exact hc (.inr ⟨p', ha⟩)

/-- Taking a free lock. -/
theorem Inv.setlock (h : s.Inv) (hx : s.lock x = none) (p : Pid) : Inv (s.setlock x (some p)) where
  ok := h.ok
  wf := h.wf
  held := h.held
  rendez := h.rendez
  lock p' y hy := by
    have := h.lock p' y hy
    by_cases hxy : y = x
    · rw [hxy, hx] at this
      cases this
    · rwa [setlock_ne _ _ hxy]

/-- The holder of a lock releases it. -/
theorem Inv.unlock (h : s.Inv) (hx : s.lock x = some p) (hk : k.Rest) :
    Inv ((s.setlock x none).goto p k) where
  ok := h.ok
  wf p' := by
    by_cases hp : p' = p
    · rw [hp, goto_self]
      exact hk.wf
    · rw [goto_ne _ _ hp]
      exact h.wf p'
  lock p' y hy := by
    by_cases hp : p' = p
    · rw [hp, goto_self] at hy
      exact absurd hy (hk.not_holds y)
    · rw [goto_ne _ _ hp] at hy
      have := h.lock p' y hy
      by_cases hxy : y = x
      · rw [hxy, hx] at this
        exact absurd (Option.some.inj this).symm hp
      · rw [goto_lock, setlock_ne _ _ hxy]
        exact this
  held p' := by
    by_cases hp : p' = p
    · rw [hp, goto_self, hk.plain.held]
      simp
    · rw [goto_ne _ _ hp]
      exact h.held p'
  rendez p' y k' hy := by
    by_cases hp : p' = p
    · rw [hp, goto_self] at hy
      rw [hy] at hk
      exact absurd hk id
    · rw [goto_ne _ _ hp] at hy
      exact h.rendez p' y k' hy

/-- The holder of a lock goes to sleep on its rendezvous: no other process sleeps there. -/
theorem Inv.commit (h : s.Inv) (hx : s.lock x = some p) (hk : k.Wakes x) :
    Inv ((s.setrendez x (some p)).goto p (.asleep x k)) where
  ok := h.ok
  wf p' := by
    by_cases hp : p' = p
    · rw [hp, goto_self]
      exact hk
    · rw [goto_ne _ _ hp]
      exact h.wf p'
  lock p' y hy := by
    by_cases hp : p' = p
    · rw [hp, goto_self] at hy
      rw [hp, show y = x from hy]
      exact hx
    · rw [goto_ne _ _ hp] at hy
      exact h.lock p' y hy
  held p' := by
    by_cases hp : p' = p
    · rw [hp, goto_self]
      simp [Pc.held]
    · rw [goto_ne _ _ hp]
      exact h.held p'
  rendez p' y k' hy := by
    by_cases hp : p' = p
    · rw [hp, goto_self] at hy
      cases hy
      rw [hp, goto_rendez, setrendez_self]
    · rw [goto_ne _ _ hp] at hy
      have hl := h.lock p' y (by rw [show s.pc p' = _ from hy]; rfl)
      have hyx : y ≠ x := by
        intro he
        rw [he, hx] at hl
        exact hp (Option.some.inj hl).symm
      rw [goto_rendez, setrendez_ne _ _ hyx]
      exact h.rendez p' y k' hy

/-- A process leaves its rendezvous. -/
theorem Inv.leave (h : s.Inv) (hx : s.rendez x = some p) (hwf : k.Wf)
    (hlock : ∀ y, k.holds y → s.lock y = some p) (hheld : ∀ a ∈ addrs k.held, a ∉ addrs s.q.bfirst)
    (hk : ∀ y k', k ≠ .asleep y k') :
    Inv ((s.setrendez x none).goto p k) where
  ok := h.ok
  wf p' := by
    by_cases hp : p' = p
    · rw [hp, goto_self]
      exact hwf
    · rw [goto_ne _ _ hp]
      exact h.wf p'
  lock p' y hy := by
    by_cases hp : p' = p
    · rw [hp, goto_self] at hy
      rw [hp]
      exact hlock y hy
    · rw [goto_ne _ _ hp] at hy
      exact h.lock p' y hy
  held p' := by
    by_cases hp : p' = p
    · rw [hp, goto_self]
      exact hheld
    · rw [goto_ne _ _ hp]
      exact h.held p'
  rendez p' y k' hy := by
    by_cases hp : p' = p
    · rw [hp, goto_self] at hy
      exact absurd hy (hk y k')
    · rw [goto_ne _ _ hp] at hy
      have hs := h.rendez p' y k' hy
      have hyx : y ≠ x := by
        intro he
        rw [he, hx] at hs
        exact hp (Option.some.inj hs).symm
      rw [goto_rendez, setrendez_ne _ _ hyx]
      exact hs

/-- `wakeup` clears the rendezvous of the process that it wakes. -/
theorem Inv.wake (h : s.Inv) (x : Side) : Inv (s.wake x) := by
  unfold Sys.wake
  cases hr : s.rendez x with
  | none => exact h
  | some p =>
    have hwf := h.wf p
    have hlock := h.lock p
    have hheld := h.held p
    dsimp only
    cases hpc : s.pc p with
    | asleep y k =>
      rw [hpc] at hwf hlock
      have hk : k.Wakes y := hwf
      refine h.leave (k := k) hr hk.wf (fun z hz => ?_) (by simp [hk.plain.held]) hk.plain.awake
      rw [hk.holds hz]
      exact hlock y rfl
    | _ =>
      rw [hpc] at hwf hlock hheld
      exact h.leave hr hwf hlock hheld (by simp [woken])

/-! ## Sections -/

/-- A chain of blocks that are not in use. -/
structure Fresh (s : Sys) (b : List Block) : Prop where
  nonNil : b ≠ []
  nodup : (addrs b).Nodup
  fresh : ∀ a ∈ addrs b, ¬ s.InUse a

theorem Fresh.linkable {b : List Block} (h : Fresh s b) : Linkable s.q b :=
  ⟨h.nonNil, h.nodup, fun a ha hq => h.fresh a ha (.inl hq)⟩

theorem Fresh.singleton {b : Block} (h : ¬ s.InUse b.addr) : Fresh s [b] :=
  ⟨by simp, by simp, fun _ ha => List.mem_singleton.mp ha ▸ h⟩

variable {d : List UInt8}

/-- The section of a writer that queues the blocks `b`. -/
theorem Inv.wrote (h : s.Inv) {w : Wrote} {b : List Block} (hw : w.Fed s.q b)
    (hb : w.queued = true → Fresh s b) (hwf : k.Wf) (hk : k.Cont)
    (hlock : ∀ x, k.holds x → s.lock x = some p) : Inv (s.wrote p w d k).1 := by
  refine h.step_to (hw.ok fun hq => (hb hq).linkable) (after_wf hwf hk)
    (fun x hx => hlock x (after_holds hx)) (after_cont hk).plain ?_
  intro a ha
  rw [hw.bfirst, addrs_append] at ha
  rcases List.mem_append.mp ha with ha | ha
  · exact .inl ha
  · split at ha
    · rename_i hq
      exact .inr ((hb hq).fresh a ha)
    · simp at ha

/-- The section of a reader that allocates blocks at `new`. -/
theorem Inv.took (h : s.Inv) {t : Took} {new : List Addr} {asked : Option Nat}
    (ht : t.Drained s.q new) (hf : ∀ a ∈ new, ¬ s.InUse a) (hwf : k.Wf) (hk : k.Cont)
    (hlock : ∀ x, k.holds x → s.lock x = some p) : Inv (s.took p t asked k).1 :=
  h.step_to (ht.ok fun a ha hq => hf a ha (.inl hq)) (after_wf hwf hk)
    (fun x hx => hlock x (after_holds hx)) (after_cont hk).plain
    fun a ha => (ht.addrs a ha).imp_right (hf a)

theorem Inv.qbwriteStep (h : s.Inv) {b : Block} (hl : s.lock .w = none) (hf : ¬ s.InUse b.addr)
    (hk : k.Rest) : Inv (s.qbwriteStep p b k).1 := by
  unfold Sys.qbwriteStep
  have hrest : (if s.q.Qclosed then Pc.idle else k).Rest := by
    split
    · trivial
    · exact hk
  refine (h.setlock hl p).wrote (qbwrite_fed h.ok b) (fun _ => Fresh.singleton hf) ?_ ?_ ?_
  · split
    · exact hk
    · exact hrest
  · split <;> exact trivial
  · intro x hx
    have : x = .w := by
      split at hx
      · exact hx
      · exact hx
    rw [this, setlock_self]

theorem Inv.qreadStep (h : s.Inv) {len : Nat} (hl : s.lock .r = some p) :
    Inv (s.qreadStep p len).1 := by
  have hg := qreadGrab_spec h.ok len
  obtain ⟨es, -, hch⟩ := hg.chain
  have hnd := h.ok.nodup
  rw [hch, addrs_append, addrs_append] at hnd
  have hnd' := List.nodup_append.mp (List.nodup_append.mp hnd).2.1
  have hsub : ∀ a ∈ addrs (qreadGrab s.q len).q.bfirst, a ∈ addrs s.q.bfirst := by
    intro a ha
    rw [hch, addrs_append, addrs_append]
    exact List.mem_append_right _ (List.mem_append_right _ ha)
  unfold Sys.qreadStep
  have hstep : ∀ k : Pc, k.Wf → (∀ x, k.holds x → x = .r) → k.Plain →
      Inv ((s.setq (qreadGrab s.q len).q).goto p k) := fun k hwf hk hplain =>
    h.step_to hg.ok hwf (fun x hx => hk x hx ▸ hl) hplain fun a ha => .inl (hsub a ha)
  dsimp only
  split
  · refine h.goto hg.ok ⟨hg.fits, hnd'.1⟩ (fun x hx => hx ▸ hl) ?_ (by simp) ?_
    · exact fun a ha hq => hnd'.2.2 a ha a hq rfl
    · exact fun p' _ a ha hq => h.held p' a ha (hsub a hq)
  · exact hstep _ trivial (fun x hx => hx) ⟨rfl, by simp⟩
  · exact hstep _ trivial (fun x hx => hx) ⟨rfl, by simp⟩
  · exact hstep _ rfl (fun x hx => hx) ⟨rfl, by simp⟩

theorem Inv.qbreadStep (h : s.Inv) {m len : Nat} (hl : s.lock .r = some p)
    (hf : ¬ s.InUse (allocb m (firstlen s.q.bfirst - len)).addr) :
    Inv (s.qbreadStep p m len).1 := by
  unfold Sys.qbreadStep
  obtain ⟨e, v, hw⟩ := qwait_eq s.q
  have hdata := qwait_data (q := s.q)
  generalize qwait s.q = r at hw hdata
  obtain ⟨q, w⟩ := r
  dsimp only at hw hdata
  have hok : q.Ok := by
    rw [hw]
    exact ⟨⟨h.ok.dlen, h.ok.len, h.ok.blast⟩, h.ok.nodup⟩
  have hstep : ∀ k : Pc, k.Wf → (∀ x, k.holds x → x = .r) → k.Plain →
      Inv ((s.setq q).goto p k) := by
    refine fun k hwf hk hplain => h.step_to hok hwf (fun x hx => hk x hx ▸ hl) hplain ?_
    rw [hw]
    exact fun a ha => .inl ha
  cases w with
  | data =>
    have hne := hdata.mp rfl
    match hq : s.q.bfirst with
    | [] => exact absurd hq hne
    | b :: next =>
      rw [hq] at hf
      exact h.took (qbread_waited h.ok hq hw m len) (fun a ha => List.mem_singleton.mp ha ▸ hf)
        trivial trivial (fun x hx => hx ▸ hl)
  | closed => exact hstep _ trivial (fun x hx => hx) ⟨rfl, by simp⟩
  | error => exact hstep _ trivial (fun x hx => hx) ⟨rfl, by simp⟩
  | sleep => exact hstep _ rfl (fun x hx => hx) ⟨rfl, by simp⟩

theorem Inv.setq (h : s.Inv) (hok : q.Ok)
    (hnew : ∀ a ∈ addrs q.bfirst, a ∈ addrs s.q.bfirst ∨ ¬ s.InUse a) : Inv (s.setq q) where
  ok := hok
  wf := h.wf
  lock := h.lock
  held p a ha hq := by
    rcases hnew a hq with hc | hc
    · exact h.held p a ha hc
    · exact hc (.inr ⟨p, ha⟩)
  rendez := h.rendez

variable {r : Sys × Out}

theorem Inv.qwriteStep (h : s.Inv) {m : Nat} (hf : ¬ s.InUse (allocb m (chunk d).length).addr)
    (hr : s.qwriteStep p m d = some r) : Inv r.1 := by
  have hk : (if s.lastchunk d then Pc.idle else .qwrite (d.drop Maxatomic)).Rest := by
    split <;> trivial
  unfold Sys.qwriteStep at hr
  dsimp only at hr
  split at hr
  · rw [← Option.some.inj hr]
    exact h.step_to h.ok hk.wf (fun x hx => absurd hx (hk.not_holds x)) hk.plain fun a ha => .inl ha
  · split at hr
    · rename_i hl
      rw [← Option.some.inj hr]
      exact h.qbwriteStep hl hf hk
    · cases hr

variable {m : Option Nat}

theorem Inv.qiwriteStep (h : s.Inv)
    (hf : ∀ a, m = some a → ¬ s.InUse (allocb a (chunk d).length).addr) :
    Inv (s.qiwriteStep p m d w).1 := by
  have hidle : Inv (s.goto p .idle) := h.step_to h.ok trivial (fun _ hx => absurd hx id)
    ⟨rfl, by simp⟩ fun a ha => .inl ha
  cases m with
  | none => exact hidle
  | some a =>
    simp only [Sys.qiwriteStep, iallocb, Option.map_some]
    have hw := qiwrite_fed h.ok (Block.put { allocb a (chunk d).length with intr := true } (chunk d))
    split
    · have hk : (if s.lastchunk d then Pc.idle else .qiwrite (d.drop Maxatomic)
          (w || (Qio.qiwrite s.q (Block.put { allocb a (chunk d).length with intr := true }
            (chunk d))).dowakeup)).Cont := by
        split <;> trivial
      refine h.wrote (b := [Block.put { allocb a (chunk d).length with intr := true } (chunk d)])
        ⟨hw.mode, hw.bfirst, hw.ok⟩ (fun _ => Fresh.singleton (hf a rfl)) ?_ hk ?_
      · split <;> trivial
      · intro x hx
        split at hx <;> exact absurd hx id
    · exact hidle

/-! ## Steps -/

theorem Inv.call (h : s.Inv) {op : Op} (ho : s.Owned p (.call op m)) (hr : s.call p m op = some r)
    (hk : ∀ n a, op = .pullupqueue n → m = some a → PullKeeps a n s.q.bfirst) : Inv r.1 := by
  have hidle : ∀ {t : Took} {asked : Option Nat}, t.Drained s.q [] →
      Inv (s.took p t asked .idle).1 := fun ht =>
    h.took ht (by simp) trivial trivial fun _ hx => absurd hx id
  have hstate : ∀ {q : Queue} {k : Pc}, q.Ok → (∀ a ∈ addrs q.bfirst, a ∈ addrs s.q.bfirst) →
      k.Wf → (∀ x, ¬ k.holds x) → k.Plain → Inv ((s.setq q).goto p k) :=
    fun hq hs hwf hlock hk =>
      h.step_to hq hwf (fun x hx => absurd hx (hlock x)) hk fun a ha => .inl (hs a ha)
  have hfresh := ho.fresh
  cases op with
  | qpass b =>
    rw [← Option.some.inj hr]
    exact h.wrote (qpass_fed h.ok b) (fun _ => ⟨ho.nonNil, ho.nodup, hfresh⟩) trivial
      trivial fun _ hx => absurd hx id
  | qpassnolim b =>
    rw [← Option.some.inj hr]
    exact h.wrote (qpassnolim_fed h.ok b) (fun _ => ⟨ho.nonNil, ho.nodup, hfresh⟩) trivial
      trivial fun _ hx => absurd hx id
  | qproduce d =>
    rw [← Option.some.inj hr]
    obtain ⟨b, -, hw, hm⟩ := qproduce_fed h.ok m d
    refine h.wrote hw (fun hq => ?_) trivial trivial fun _ hx => absurd hx id
    obtain ⟨a, rfl, ha⟩ := hm hq
    exact Fresh.singleton (ha ▸ hfresh _ (List.mem_singleton_self _))
  | qbwrite b =>
    simp only [Sys.call] at hr
    split at hr
    · rw [← Option.some.inj hr]
      exact h
    · split at hr
      · rename_i hl
        rw [← Option.some.inj hr]
        exact h.qbwriteStep hl (hfresh _ (List.mem_singleton_self _)) trivial
      · cases hr
  | qwrite d =>
    rw [← Option.some.inj hr]
    exact hstate (k := .qwrite d) h.ok (fun _ ha => ha) trivial (fun _ hx => hx) ⟨rfl, by simp⟩
  | qiwrite d =>
    rw [← Option.some.inj hr]
    exact hstate (k := .qiwrite d false) h.ok (fun _ ha => ha) trivial (fun _ hx => hx)
      ⟨rfl, by simp⟩
  | qaddlist b =>
    rw [← Option.some.inj hr]
    refine h.setq (qaddlist_ok h.ok ho.nonNil ho.nodup fun a ha hq => hfresh a ha (.inl hq)) ?_
    intro a ha
    rw [qaddlist_bfirst h.ok, addrs_append] at ha
    exact (List.mem_append.mp ha).imp_right (hfresh a)
  | qget =>
    rw [← Option.some.inj hr]
    exact hidle (qget_drained h.ok)
  | qdiscard len =>
    rw [← Option.some.inj hr]
    exact hidle (qdiscard_drained h.ok len)
  | qconsume len =>
    rw [← Option.some.inj hr]
    exact hidle (qconsume_drained h.ok len)
  | qread len =>
    simp only [Sys.call] at hr
    split at hr
    · rename_i hl
      rw [← Option.some.inj hr]
      exact (h.setlock hl p).qreadStep (setlock_self s .r _)
    · cases hr
  | qbread len =>
    cases m with
    | none => cases hr
    | some a =>
      simp only [Sys.call] at hr
      split at hr
      · rename_i hl
        rw [← Option.some.inj hr]
        exact (h.setlock hl p).qbreadStep (setlock_self s .r _)
          (hfresh _ (List.mem_singleton_self _))
      · cases hr
  | qremove =>
    rw [← Option.some.inj hr]
    refine h.setq (qremove_ok h.ok) fun a ha => .inl ?_
    unfold Qio.qremove at ha
    split at ha
    · exact ha
    · rename_i hq
      rw [hq]
      exact List.mem_cons_of_mem _ ha
  | qputback b =>
    rw [← Option.some.inj hr]
    have hb := hfresh _ (List.mem_singleton_self _)
    refine h.setq (qputback_ok h.ok fun hq => hb (.inl hq)) fun a ha => ?_
    rcases List.mem_cons.mp ha with rfl | ha
    · exact .inr hb
    · exact .inl ha
  | pullupqueue n =>
    cases m with
    | none => cases hr
    | some a =>
      obtain ⟨q, hq, rfl⟩ := Option.map_eq_some_iff.mp hr
      have hb := hfresh _ (List.mem_singleton_self _)
      obtain ⟨-, -, i3, i4⟩ := pullupqueue_ok h.ok hq (hk n a rfl rfl) fun hc => hb (.inl hc)
      refine h.setq i4 fun x hx => (i3 x hx).imp_right ?_
      rintro rfl
      exact hb
  | qflush =>
    rw [← Option.some.inj hr]
    exact hstate ⟨⟨rfl, rfl, by simp [Qio.qflush]⟩, by simp [Qio.qflush]⟩ (by simp [Qio.qflush])
      ⟨trivial, trivial⟩ (fun _ hx => hx) ⟨rfl, by simp⟩
  | qclose =>
    rw [← Option.some.inj hr]
    exact hstate ⟨⟨rfl, rfl, by simp [Qio.qclose]⟩, by simp [Qio.qclose]⟩ (by simp [Qio.qclose])
      ⟨⟨trivial, trivial⟩, trivial⟩ (fun _ hx => hx) ⟨rfl, by simp⟩
  | qhangup msg =>
    rw [← Option.some.inj hr]
    exact hstate ⟨⟨h.ok.dlen, h.ok.len, h.ok.blast⟩, h.ok.nodup⟩ (fun _ ha => ha)
      ⟨⟨trivial, trivial⟩, trivial⟩ (fun _ hx => hx) ⟨rfl, by simp⟩
  | qreopen =>
    rw [← Option.some.inj hr]
    exact h.setq ⟨⟨h.ok.dlen, h.ok.len, h.ok.blast⟩, h.ok.nodup⟩ fun _ ha => .inl ha

theorem Inv.go (h : s.Inv) (ho : s.Owned p (.go m)) (hr : s.go p m = some r) : Inv r.1 := by
  have hwf := h.wf p
  have hlock := h.lock p
  have hheld := h.held p
  have hfresh := ho.fresh
  have hquiet : ∀ {q : Queue} {k : Pc}, q.Ok → (∀ a ∈ addrs q.bfirst, a ∈ addrs s.q.bfirst) →
      k.Wf → (∀ x, k.holds x → (s.pc p).holds x) → k.Plain → Inv ((s.setq q).goto p k) :=
    fun hq hs hwf hk hplain =>
      h.step_to hq hwf (fun x hx => hlock x (hk x hx)) hplain fun a ha => .inl (hs a ha)
  unfold Sys.go at hr
  cases hpc : s.pc p with
  | idle => simp [hpc] at hr
  | wakeup x k =>
    rw [hpc] at hr hwf hlock hquiet
    rw [← Option.some.inj hr]
    exact (hquiet h.ok (fun _ ha => ha) hwf.1 (fun x hx => hx) hwf.2.plain).wake x
  | sleep x k =>
    rw [hpc] at hr hwf hlock hquiet
    have hk : k.Wakes x := hwf
    simp only at hr
    split at hr
    · rw [← Option.some.inj hr]
      exact hquiet h.ok (fun _ ha => ha) hk.wf (fun y hy => hk.holds hy) hk.plain
    · rw [← Option.some.inj hr]
      exact h.commit (hlock x rfl) hk
  | asleep x k => simp [hpc] at hr
  | qunlock x k =>
    rw [hpc] at hr hwf hlock
    rw [← Option.some.inj hr]
    exact h.unlock (hlock x rfl) hwf
  | flow k =>
    rw [hpc] at hr hwf hquiet
    rw [← Option.some.inj hr]
    refine hquiet h.ok (fun _ ha => ha) ?_ (fun x hx => ?_) ?_
    · split <;> exact hwf
    · split at hx <;> exact hx
    · split <;> exact ⟨rfl, by simp⟩
  | setflow k =>
    rw [hpc] at hr hwf hquiet
    rw [← Option.some.inj hr]
    exact hquiet ⟨⟨h.ok.dlen, h.ok.len, h.ok.blast⟩, h.ok.nodup⟩ (fun _ ha => ha) ⟨rfl, hwf⟩
      (fun x hx => hx) ⟨rfl, by simp⟩
  | qwrite d =>
    rw [hpc] at hr
    obtain ⟨a, rfl, hr⟩ := Option.bind_eq_some_iff.mp hr
    refine h.qwriteStep (hfresh _ ?_) hr
    simp [incoming, hpc]
  | qiwrite d w =>
    rw [hpc] at hr
    rw [← Option.some.inj hr]
    refine h.qiwriteStep fun a ha => hfresh _ ?_
    simp [incoming, hpc, ha]
  | qread len =>
    rw [hpc] at hr hlock
    rw [← Option.some.inj hr]
    exact h.qreadStep (hlock .r rfl)
  | qbread len =>
    rw [hpc] at hr hlock
    obtain ⟨a, rfl, rfl⟩ := Option.map_eq_some_iff.mp hr
    refine h.qbreadStep (hlock .r rfl) (hfresh _ ?_)
    simp [incoming, hpc]
  | copy len first n =>
    rw [hpc] at hr hwf hlock hheld
    rw [← Option.some.inj hr]
    have hc := qreadDone_copied h.ok hwf.1
    have hplain : (Pc.qunlock .r .idle).Cont := trivial
    have hlock' : ∀ x, (Pc.qunlock .r .idle).holds x → s.lock x = some p := fun x hx => hlock x hx
    refine h.goto (hc.ok hheld) (after_wf trivial hplain) (fun x hx => hlock' x (after_holds hx)) ?_
      (fun x k' he => absurd he ((after_cont hplain).plain.awake x k')) ?_
    · simp [(after_cont hplain).plain.held]
    · intro p' hp' a ha
      rw [h.held_unique (p := p) (by rw [hpc]; rfl) hp'] at ha
      simp at ha

theorem Inv.note (h : s.Inv) (hr : s.note p = some r) : Inv r.1 := by
  have hlock := h.lock p
  unfold Sys.note at hr
  cases hpc : s.pc p with
  | sleep x k =>
    rw [hpc] at hr hlock
    rw [← Option.some.inj hr]
    exact h.step_to h.ok trivial (fun y hy => hlock y hy) ⟨rfl, by simp⟩ fun _ ha => .inl ha
  | asleep x k =>
    rw [hpc] at hr hlock
    rw [← Option.some.inj hr]
    exact h.leave (h.rendez p x k hpc) trivial (fun y hy => hlock y hy) (by simp [Pc.held])
      (by simp)
  | _ => simp [hpc] at hr

end Sys

/-- A `pullupqueue` of the step finds its bytes without a change of the storage. -/
def PullStep (s : Sys) (l : Label) : Prop :=
  ∀ n m, l.act = .call (.pullupqueue n) (some m) → PullKeeps m n s.q.bfirst

/-- One step keeps the invariant. -/
theorem Sys.Inv.step {s s' : Sys} {l : Label} (h : s.Inv) (hs : lts.step s l s')
    (hk : PullStep s l) : s'.Inv := by
  obtain ⟨ho, hn⟩ := hs
  obtain ⟨p, a, out⟩ := l
  cases a with
  | call op m =>
    simp only [Sys.next] at hn
    split at hn
    · exact h.call (r := (s', out)) ho hn fun n a hop hm => hk n a (by rw [hop, hm])
    · cases hn
  | go m => exact h.go (r := (s', out)) ho hn
  | note => exact h.note (r := (s', out)) hn

theorem Opened.ok {q : Queue} (h : Opened q) : q.Ok := by
  cases h with
  | qopen limit msg coalesce => exact ⟨⟨rfl, rfl, fun hne => absurd rfl hne⟩, List.nodup_nil⟩
  | qbypass => exact ⟨⟨rfl, rfl, fun hne => absurd rfl hne⟩, List.nodup_nil⟩

theorem Sys.Inv.start {q : Queue} (h : Opened q) : (Sys.start q).Inv where
  ok := h.ok
  wf _ := trivial
  lock _ _ hx := absurd hx id
  held _ := by simp [Sys.start, Pc.held]
  rendez _ _ _ hx := by simp [Sys.start] at hx

theorem inductive_inv : (lts.restrict PullStep).Inductive Sys.Inv where
  init := by
    rintro s ⟨q, hq, rfl⟩
    exact .start hq
  step _ _ _ h hs := h.step hs.1 hs.2

/-- The accounting holds in every run in which each `pullupqueue` keeps the storage; and in such a
run a step that does not keep it, on blocks with storage, breaks the accounting. -/
theorem acct_iff_pullKeeps {s : Sys} (hs : (lts.restrict PullStep).Reach s) :
    Acct s.q ∧ ∀ l s', (∀ b ∈ s.q.bfirst, 0 < BALLOC b) → lts.step s l s' →
      (Acct s'.q ↔ PullStep s l) := by
  have h := inductive_inv.reach hs
  refine ⟨h.ok.toAcct, fun l s' hpos hst => ⟨fun hA n m hact => ?_, fun hk => ?_⟩⟩
  · have hn := hst.2
    rw [hact] at hn
    simp only [Sys.next] at hn
    split at hn
    · obtain ⟨q, hq, hr⟩ := Option.map_eq_some_iff.mp hn
      rw [show s' = s.setq q from (congrArg Prod.fst hr).symm] at hA
      exact (pullupqueue_acct_iff h.ok hpos hq).mp hA
    · cases hn
  · exact (h.step hst hk).ok.toAcct

/-! ## A run of two calls -/

/-- A block of 128 bytes that holds `x`. -/
def oneByte (a : Addr) (x : UInt8) : Block :=
  { addr := a, head := 64, data := [x], tail := 63, intr := false }

/-- Process 0 has called `qpass` with two blocks on a new queue. -/
def passed : Sys :=
  ((Sys.start (qopen 1000 false false)).wrote 0
    (qpass (qopen 1000 false false) [oneByte 1 7, oneByte 2 8]) [7, 8] .idle).1

theorem passed_held (p : Pid) : (passed.pc p).held = [] := by
  by_cases hp : p = 0
  · subst hp
    rfl
  · rw [passed, Sys.wrote, Sys.goto_ne _ _ hp]
    rfl

/-- The call that leads to `passed`. -/
def passLabel : Label := ⟨0, .call (.qpass [oneByte 1 7, oneByte 2 8]) none, .accept [7, 8]⟩

theorem passed_step : lts.step (Sys.start (qopen 1000 false false)) passLabel passed := by
  refine ⟨⟨by simp [passLabel, Act.NonNil, Op.NonNil], by decide, fun x _ hu => ?_⟩, rfl⟩
  rcases hu with hu | ⟨p, hu⟩
  · exact absurd hu List.not_mem_nil
  · exact absurd hu List.not_mem_nil

/-- A `pullupqueue` of the bytes of two blocks frees the second one, and `len` counts it still. -/
theorem pullupqueue_not_acct : ¬ ∀ s, lts.Reach s → Acct s.q := by
  intro h
  have hr : lts.Reach passed := Lts.Reach.step ⟨[], .init ⟨_, .qopen 1000 false false, rfl⟩⟩ passed_step
  have hs : lts.step passed ⟨1, .call (.pullupqueue 2) (some 4096), .silent⟩
      (passed.setq { passed.q with bfirst := [(oneByte 1 7).put [8]], blast := some 1 }) := by
    refine ⟨⟨trivial, by decide, fun x hx hu => ?_⟩, rfl⟩
    rcases hu with hu | ⟨p, hu⟩
    · revert x
      decide
    · rw [passed_held p] at hu
      exact absurd hu List.not_mem_nil
  exact absurd (h _ (hr.step hs)).len (by decide)

theorem acct_iff_pullKeeps_passed : Acct passed.q ∧
    ∀ s', lts.step passed ⟨1, .call (.pullupqueue 1) (some 4096), .silent⟩ s' → Acct s'.q := by
  have hr : (lts.restrict PullStep).Reach passed :=
    Lts.Reach.step ⟨[], .init ⟨_, .qopen 1000 false false, rfl⟩⟩
      ⟨passed_step, fun n m h => by simp [passLabel] at h⟩
  refine ⟨(acct_iff_pullKeeps hr).1, fun s' hs => ?_⟩
  refine ((acct_iff_pullKeeps hr).2 _ s' (by decide) hs).mpr fun n m h => ?_
  cases h
  exact .inl (by decide)

end NixMark.Qio
