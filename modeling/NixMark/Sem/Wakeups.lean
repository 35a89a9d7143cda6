import NixMark.Lib.Sums
import NixMark.Sem.Phore

/-!
# No wakeup is lost

* `Inv`: who holds the lock and who is on the list.
* `tok`: how many wakeups a process has yet to use or to pass on, as seen by a process that is about
  to sleep; `Wake`: while such a process waits, there are as many of them as units.
* `no_lost_wakeup`: a unit and a process that waits for it are never alone.
-/

namespace NixMark.Sem

open Lib
open Function (update update_apply update_of_ne update_self)

variable {P A : Type}

/-! ## The list and its lock -/

/-- The semaphore whose list the process is on. -/
def Pc.queued : Pc P A → Option A
  | .top c | .retry c | .cas c _ | .sleep c | .asleep c | .woke c | .dequeue c _ => some c.addr
  | _ => none

/-- It holds the lock of the list. -/
def Pc.scans : Pc P A → Bool
  | .scan _ _ _ | .wake _ _ _ _ => true
  | _ => false

/-- Whom it has yet to look at. -/
def Pc.rest : Pc P A → List P
  | .scan _ rest _ | .wake _ _ rest _ => rest
  | _ => []

structure Inv (s : Sys P A) : Prop where
  lock : ∀ t, s.lock = some t ↔ (s.pc t).scans = true
  mem : ∀ p, p ∈ s.list ↔ (s.pc p).queued.isSome = true
  nodup : s.list.Nodup
  addr : ∀ p a, (s.pc p).queued = some a → s.addr p = some a
  rest : ∀ t, (s.pc t).rest ⊆ s.list
  /-- who sleeps although it was chosen is about to be woken -/
  awoken : ∀ p c, s.pc p = .asleep c → s.waiting p = false →
    ∃ t k rest n, s.pc t = .wake k p rest n ∧ k.addr = c.addr

variable [DecidableEq P] {s s' : Sys P A} {p q t : P} {a : A} {k : Pc P A}

@[simp] theorem goto_pc : (s.goto p k).pc t = if t = p then k else s.pc t :=
  update_apply ..

@[simp] theorem goto_list : (s.goto p k).list = s.list := rfl

@[simp] theorem goto_lock : (s.goto p k).lock = s.lock := rfl

@[simp] theorem goto_addr : (s.goto p k).addr = s.addr := rfl

@[simp] theorem goto_waiting : (s.goto p k).waiting = s.waiting := rfl

@[simp] theorem goto_value : (s.goto p k).value = s.value := rfl

variable {w : Bool}

@[simp] theorem setwaiting_waiting :
    (s.setwaiting p w).waiting t = if t = p then w else s.waiting t := update_apply ..

@[simp] theorem setwaiting_pc : (s.setwaiting p w).pc = s.pc := rfl

@[simp] theorem setwaiting_list : (s.setwaiting p w).list = s.list := rfl

@[simp] theorem setwaiting_lock : (s.setwaiting p w).lock = s.lock := rfl

@[simp] theorem setwaiting_value : (s.setwaiting p w).value = s.value := rfl

variable {l : Option P}

section
omit [DecidableEq P]

@[simp] theorem setlock_pc : (s.setlock l).pc = s.pc := rfl

@[simp] theorem setlock_lock : (s.setlock l).lock = l := rfl

@[simp] theorem setlock_list : (s.setlock l).list = s.list := rfl

@[simp] theorem setlock_waiting : (s.setlock l).waiting = s.waiting := rfl

end

@[simp] theorem enqueue_pc : (s.enqueue p a).pc = s.pc := rfl

@[simp] theorem enqueue_list : (s.enqueue p a).list = s.list ++ [p] := rfl

@[simp] theorem enqueue_lock : (s.enqueue p a).lock = s.lock := rfl

@[simp] theorem enqueue_addr :
    (s.enqueue p a).addr t = if t = p then some a else s.addr t := update_apply ..

@[simp] theorem enqueue_waiting :
    (s.enqueue p a).waiting t = if t = p then false else s.waiting t := update_apply ..

@[simp] theorem enqueue_value : (s.enqueue p a).value = s.value := rfl

@[simp] theorem unqueue_pc : (s.unqueue p).pc = s.pc := rfl

@[simp] theorem unqueue_list : (s.unqueue p).list = s.list.erase p := rfl

@[simp] theorem unqueue_lock : (s.unqueue p).lock = s.lock := rfl

@[simp] theorem unqueue_waiting : (s.unqueue p).waiting = s.waiting := rfl

/-- A statement that leaves the list and the flags alone. -/
theorem Inv.goto (h : Inv s) (hq : k.queued = (s.pc p).queued) (hs : k.scans = (s.pc p).scans)
    (hr : k.rest ⊆ (s.pc p).rest) (ha : ∀ c, k = .asleep c → s.waiting p = true)
    (hw : ∀ k' q rest n, s.pc p ≠ .wake k' q rest n) : Inv (s.goto p k) where
  lock t := by
    rw [goto_lock, h.lock, goto_pc]
    split
    · rename_i ht
      rw [ht, hs]
    · rfl
  mem q := by
    rw [goto_list, h.mem, goto_pc]
    split
    · rename_i ht
      rw [ht, hq]
    · rfl
  nodup := h.nodup
  addr q a hqa := by
    refine h.addr q a ?_
    rw [goto_pc] at hqa
    split at hqa
    · rename_i ht
      rwa [ht, ← hq]
    · exact hqa
  rest t x hx := by
    rw [goto_pc] at hx
    split at hx
    · exact h.rest p (hr hx)
    · exact h.rest t hx
  awoken q c hc hwait := by
    rw [goto_pc] at hc
    split at hc
    · rename_i ht
      rw [goto_waiting, ht, ha c hc] at hwait
      cases hwait
    · obtain ⟨t, k', rest, n, ht, hk⟩ := h.awoken q c hc hwait
      have htp : t ≠ p := fun he => hw k' q rest n (he ▸ ht)
      exact ⟨t, k', rest, n, by rw [goto_pc, if_neg htp, ht], hk⟩

section
omit [DecidableEq P]

/-- The values and the counters do not matter. -/
theorem Inv.frame (h : Inv s) (hlist : s'.list = s.list) (hlock : s'.lock = s.lock)
    (haddr : s'.addr = s.addr) (hwait : s'.waiting = s.waiting) (hpc : s'.pc = s.pc) : Inv s' where
  lock := by rw [hlock, hpc]; exact h.lock
  mem := by rw [hlist, hpc]; exact h.mem
  nodup := by rw [hlist]; exact h.nodup
  addr := by rw [haddr, hpc]; exact h.addr
  rest := by rw [hlist, hpc]; exact h.rest
  awoken := by rw [hpc, hwait]; exact h.awoken

theorem Inv.unlocked (h : Inv s) (hl : s.lock = none) (t : P) : (s.pc t).scans = false := by
  have ht := (h.lock t).not
  rw [hl] at ht
  simpa using ht

theorem Pc.rest_eq_nil {k : Pc P A} (h : k.scans = false) : k.rest = [] := by
  cases k <;> simp_all [Pc.scans, Pc.rest]

theorem Pc.not_wake {k : Pc P A} (h : k.scans = false) (k' : Caller A) (q : P) (rest : List P)
    (n : Nat) : k ≠ .wake k' q rest n := by
  rintro rfl
  cases h

end

variable {c : Call A}

omit [DecidableEq P] in
/-- While the lock is free nobody sleeps who was chosen. -/
theorem Inv.sleeps (h : Inv s) (hl : s.lock = none) (hc : s.pc p = .asleep c) :
    s.waiting p = true := by
  by_contra hw
  obtain ⟨t, k, rest, n, ht, -⟩ := h.awoken p c hc (Bool.eq_false_iff.mpr hw)
  exact Pc.not_wake (h.unlocked hl t) k p rest n ht

/-- `semqueue` -/
theorem Inv.queue (h : Inv s) (hl : s.lock = none) (hp : s.pc p = .queue c) :
    Inv ((s.enqueue p c.addr).goto p (.top c)) where
  lock t := by
    rw [goto_lock, enqueue_lock, h.lock, goto_pc]
    split
    · rename_i ht
      rw [ht, hp]
      rfl
    · rfl
  mem q := by
    rw [goto_list, enqueue_list, List.mem_append, List.mem_singleton, goto_pc, h.mem]
    split
    · rename_i hq
      simp [hq, Pc.queued]
    · rename_i hq
      simp [hq]
  nodup := by
    refine List.nodup_append.mpr ⟨h.nodup, List.nodup_singleton p, fun x hx y hy hxy => ?_⟩
    rw [hxy, List.mem_singleton.mp hy, h.mem, hp] at hx
    cases hx
  addr q a hq := by
    rw [goto_pc] at hq
    rw [goto_addr, enqueue_addr]
    split at hq
    · rename_i hqp
      rw [if_pos hqp]
      exact hq
    · rename_i hqp
      rw [if_neg hqp]
      exact h.addr q a hq
  rest t x hx := by
    rw [goto_pc, enqueue_pc] at hx
    split at hx
    · cases hx
    · rw [Pc.rest_eq_nil (h.unlocked hl t)] at hx
      cases hx
  awoken q c' hc hwait := by
    rw [goto_pc] at hc
    rw [goto_waiting, enqueue_waiting] at hwait
    split at hc
    · cases hc
    · rename_i hq
      rw [if_neg hq, h.sleeps hl hc] at hwait
      cases hwait

/-- `semdequeue` -/
theorem Inv.dequeue (h : Inv s) (hl : s.lock = none) {acq : Bool} (hp : s.pc p = .dequeue c acq) :
    Inv ((s.unqueue p).goto p (.pass c acq)) where
  lock t := by
    rw [goto_lock, unqueue_lock, h.lock, goto_pc, unqueue_pc]
    split
    · rename_i ht
      rw [ht, hp]
      rfl
    · rfl
  mem q := by
    rw [goto_list, unqueue_list, h.nodup.mem_erase_iff, goto_pc, unqueue_pc, h.mem]
    split
    · rename_i hq
      simp [hq, Pc.queued]
    · rename_i hq
      simp [hq]
  nodup := h.nodup.erase p
  addr q a hq := by
    rw [goto_pc, unqueue_pc] at hq
    split at hq
    · cases hq
    · exact h.addr q a hq
  rest t x hx := by
    rw [goto_pc, unqueue_pc] at hx
    split at hx
    · cases hx
    · rw [Pc.rest_eq_nil (h.unlocked hl t)] at hx
      cases hx
  awoken q c' hc hwait := by
    rw [goto_pc, unqueue_pc] at hc
    split at hc
    · cases hc
    · rw [goto_waiting, unqueue_waiting, h.sleeps hl hc] at hwait
      cases hwait

/-- `phore.waiting = 1` -/
theorem Inv.top (h : Inv s) (hp : s.pc p = .top c) :
    Inv ((s.setwaiting p true).goto p (.retry c)) := by
  have hmid : Inv (s.setwaiting p true) := by
    refine ⟨h.lock, h.mem, h.nodup, h.addr, h.rest, fun q c' hc hwait => ?_⟩
    rw [setwaiting_waiting] at hwait
    split at hwait
    · cases hwait
    · exact h.awoken q c' hc hwait
  refine hmid.goto ?_ ?_ (List.nil_subset _) (fun _ h => nomatch h) ?_
  · rw [setwaiting_pc, hp]
    rfl
  · rw [setwaiting_pc, hp]
    rfl
  · rw [setwaiting_pc, hp]
    intro _ _ _ _ h
    cases h

variable {n : Nat}

/-- `lock(&s->sema)` in `semwakeup` -/
theorem Inv.wlock (h : Inv s) (hl : s.lock = none) {k : Caller A} (hp : s.pc p = .wlock k n) :
    Inv ((s.setlock (some p)).goto p (.scan k s.list n)) where
  lock t := by
    rw [goto_lock, setlock_lock, goto_pc, setlock_pc]
    split
    · rename_i ht
      simp [ht, Pc.scans]
    · rename_i ht
      rw [h.unlocked hl t]
      simp [Ne.symm ht]
  mem q := by
    rw [goto_list, setlock_list, h.mem, goto_pc, setlock_pc]
    split
    · rename_i hq
      simp [hq, hp, Pc.queued]
    · rfl
  nodup := h.nodup
  addr q a hq := by
    rw [goto_pc, setlock_pc] at hq
    split at hq
    · cases hq
    · exact h.addr q a hq
  rest t x hx := by
    rw [goto_pc, setlock_pc] at hx
    split at hx
    · exact hx
    · exact h.rest t hx
  awoken q c' hc hwait := by
    rw [goto_pc, setlock_pc] at hc
    split at hc
    · cases hc
    · rw [goto_waiting, setlock_waiting, h.sleeps hl hc] at hwait
      cases hwait

omit [DecidableEq P] in
/-- Only one process holds the lock. -/
theorem Inv.only (h : Inv s) (hp : (s.pc p).scans = true) (ht : (s.pc t).scans = true) : t = p :=
  Option.some.inj (((h.lock t).mpr ht).symm.trans ((h.lock p).mpr hp))

/-- The end of `semwakeup` -/
theorem Inv.unlock (h : Inv s) {k : Caller A} {rest : List P} (hp : s.pc p = .scan k rest n) :
    Inv (s.unlock p k) := by
  have hother : ∀ t ≠ p, (s.pc t).scans = false := fun t ht => by
    by_contra hs
    exact ht (h.only (p := p) (by rw [hp]; rfl) (Bool.not_eq_false _ ▸ hs))
  have hscans : ((s.unlock p k).pc p).scans = false ∧ ((s.unlock p k).pc p).queued = none ∧
      ∀ c, (s.unlock p k).pc p ≠ .asleep c := by
    unfold Sys.unlock
    rw [goto_pc, if_pos rfl]
    cases k with
    | acquire c acq => exact ⟨rfl, rfl, fun _ h => nomatch h⟩
    | release a => exact ⟨rfl, rfl, fun _ h => nomatch h⟩
  have hpc : ∀ t ≠ p, (s.unlock p k).pc t = s.pc t := fun t ht => update_of_ne ht _ _
  refine ⟨fun t => ?_, fun q => ?_, h.nodup, fun q a hq => ?_, fun t => ?_, fun q c hc hwait => ?_⟩
  · by_cases ht : t = p
    · rw [ht, hscans.1]
      simp [Sys.unlock, Sys.goto]
    · rw [hpc t ht, hother t ht]
      simp [Sys.unlock, Sys.goto]
  · rw [show (s.unlock p k).list = s.list from rfl, h.mem]
    by_cases hq : q = p
    · rw [hq, hp, hscans.2.1]
      rfl
    · rw [hpc q hq]
  · by_cases hqp : q = p
    · rw [hqp, hscans.2.1] at hq
      cases hq
    · exact h.addr q a (hpc q hqp ▸ hq)
  · by_cases ht : t = p
    · rw [ht, Pc.rest_eq_nil hscans.1]
      exact List.nil_subset _
    · rw [hpc t ht, Pc.rest_eq_nil (hother t ht)]
      exact List.nil_subset _
  · by_cases hqp : q = p
    · exact absurd (hqp ▸ hc) (hscans.2.2 c)
    · rw [hpc q hqp] at hc
      obtain ⟨t, k', rest', n', ht, -⟩ := h.awoken q c hc hwait
      by_cases htp : t = p
      · rw [htp, hp] at ht
        cases ht
      · exact absurd ht (Pc.not_wake (hother t htp) _ _ _ _)

/-- The flag of a waiting process is cleared. -/
theorem Inv.choose (h : Inv s) {k : Caller A} {rest : List P}
    (hp : s.pc p = .scan k (q :: rest) (n + 1)) (hq : s.addr q = some k.addr) :
    Inv ((s.setwaiting q false).goto p (.wake k q rest n)) where
  lock t := by
    rw [goto_lock, setwaiting_lock, h.lock, goto_pc, setwaiting_pc]
    split
    · rename_i ht
      rw [ht, hp]
      rfl
    · rfl
  mem x := by
    rw [goto_list, setwaiting_list, h.mem, goto_pc, setwaiting_pc]
    split
    · rename_i hx
      rw [hx, hp]
      rfl
    · rfl
  nodup := h.nodup
  addr x a hx := by
    rw [goto_pc, setwaiting_pc] at hx
    split at hx
    · cases hx
    · exact h.addr x a hx
  rest t x hx := by
    rw [goto_pc, setwaiting_pc] at hx
    split at hx
    · refine h.rest p ?_
      rw [hp]
      exact List.mem_cons_of_mem q hx
    · exact h.rest t hx
  awoken x c hc hwait := by
    rw [goto_pc, setwaiting_pc] at hc
    split at hc
    · cases hc
    · by_cases hxq : x = q
      · subst hxq
        have haddr := h.addr x c.addr (by rw [hc]; rfl)
        rw [hq] at haddr
        exact ⟨p, k, rest, n, by rw [goto_pc, if_pos rfl], Option.some.inj haddr⟩
      · have hx : s.waiting x = false := by
          rwa [goto_waiting, setwaiting_waiting, if_neg hxq] at hwait
        obtain ⟨t, k', rest', n', ht, -⟩ := h.awoken x c hc hx
        have htp := h.only (p := p) (t := t) (by rw [hp]; rfl) (by rw [ht]; rfl)
        rw [htp, hp] at ht
        cases ht

/-- `wakeup(q)` -/
theorem Inv.wake (h : Inv s) {k : Caller A} {rest : List P} (hp : s.pc p = .wake k q rest n) :
    Inv ((s.wakeup q).goto p (.scan k rest n)) := by
  have hqp : ∀ c, s.pc q = .asleep c → q ≠ p := by
    rintro c hc rfl
    rw [hp] at hc
    cases hc
  have hpc : ∀ t ≠ p, (s.wakeup q).pc t = s.pc t ∨
      t = q ∧ ∃ c, s.pc q = .asleep c ∧ (s.wakeup q).pc t = .woke c := by
    intro t _
    unfold Sys.wakeup
    split
    · rename_i c hc
      by_cases htq : t = q
      · exact .inr ⟨htq, c, hc, by rw [htq]; exact update_self ..⟩
      · exact .inl (update_of_ne htq _ _)
    · exact .inl rfl
  have hsame : (s.wakeup q).list = s.list ∧ (s.wakeup q).lock = s.lock ∧
      (s.wakeup q).addr = s.addr ∧ (s.wakeup q).waiting = s.waiting := by
    unfold Sys.wakeup
    split <;> exact ⟨rfl, rfl, rfl, rfl⟩
  obtain ⟨hlist, hlock, haddr, hwaiting⟩ := hsame
  have hget : ∀ t ≠ p, ((s.wakeup q).goto p (.scan k rest n)).pc t = (s.wakeup q).pc t :=
    fun t ht => update_of_ne ht _ _
  have hself : ((s.wakeup q).goto p (.scan k rest n)).pc p = .scan k rest n :=
    update_self ..
  have hkeep : ∀ t ≠ p, ((s.wakeup q).pc t).queued = (s.pc t).queued ∧
      ((s.wakeup q).pc t).scans = (s.pc t).scans ∧ ((s.wakeup q).pc t).rest = (s.pc t).rest := by
    intro t ht
    rcases hpc t ht with he | ⟨rfl, c, hc, he⟩
    · rw [he]
      exact ⟨rfl, rfl, rfl⟩
    · rw [he, hc]
      exact ⟨rfl, rfl, rfl⟩
  refine ⟨fun t => ?_, fun x => ?_, ?_, fun x a hx => ?_, fun t => ?_, fun x c hc hwait => ?_⟩
  · rw [show ((s.wakeup q).goto p (.scan k rest n)).lock = (s.wakeup q).lock from rfl, hlock, h.lock]
    by_cases ht : t = p
    · rw [ht, hself, hp]
      rfl
    · rw [hget t ht, (hkeep t ht).2.1]
  · rw [show ((s.wakeup q).goto p (.scan k rest n)).list = (s.wakeup q).list from rfl, hlist, h.mem]
    by_cases hx : x = p
    · rw [hx, hself, hp]
      rfl
    · rw [hget x hx, (hkeep x hx).1]
  · rw [show ((s.wakeup q).goto p (.scan k rest n)).list = (s.wakeup q).list from rfl, hlist]
    exact h.nodup
  · rw [show ((s.wakeup q).goto p (.scan k rest n)).addr = (s.wakeup q).addr from rfl, haddr]
    by_cases hxp : x = p
    · rw [hxp, hself] at hx
      cases hx
    · rw [hget x hxp, (hkeep x hxp).1] at hx
      exact h.addr x a hx
  · rw [show ((s.wakeup q).goto p (.scan k rest n)).list = (s.wakeup q).list from rfl, hlist]
    by_cases ht : t = p
    · rw [ht, hself]
      have hrest := h.rest p
      rw [hp] at hrest
      exact hrest
    · rw [hget t ht, (hkeep t ht).2.2]
      exact h.rest t
  · by_cases hxp : x = p
    · rw [hxp, hself] at hc
      cases hc
    rw [hget x hxp] at hc
    rw [show ((s.wakeup q).goto p (.scan k rest n)).waiting = (s.wakeup q).waiting from rfl,
      hwaiting] at hwait
    rcases hpc x hxp with he | ⟨-, c', -, he⟩
    · -- the only process that was about to be woken is `q`, which no longer sleeps
      have hcx : s.pc x = .asleep c := he ▸ hc
      obtain ⟨t, k', rest', n', ht, -⟩ := h.awoken x c hcx hwait
      have htp := h.only (p := p) (t := t) (by rw [hp]; rfl) (by rw [ht]; rfl)
      rw [htp, hp] at ht
      cases ht
      unfold Sys.wakeup at hc
      rw [hcx] at hc
      simp [Sys.goto] at hc
    · rw [he] at hc
      cases hc

/-! ## Steps -/

/-- The semaphore that it waits for, with its last try behind it. -/
def Pc.commits : Pc P A → Option A
  | .sleep c | .asleep c => some c.addr
  | _ => none

/-- It is waiting for the semaphore and nobody has chosen it. -/
def Waits (s : Sys P A) (q : P) (a : A) : Prop :=
  (s.pc q).commits = some a ∧ s.waiting q = true

/-- An acquire that has not taken its unit does not return 1. -/
@[simp] theorem result_false {k : Kind} : k.result false ≠ .one := by
  cases k with
  | sem block => simp [Kind.result]
  | tsem ms => by_cases hms : ms ≤ 0 <;> simp [Kind.result, hms]

/-- The semaphore of an acquire that is about to return 1. -/
def Pc.gets : Pc P A → Option A
  | .dequeue c acquired | .pass c acquired | .wlock (.acquire c acquired) _
  | .scan (.acquire c acquired) _ _ | .wake (.acquire c acquired) _ _ _ =>
    if c.kind.result acquired = .one then some c.addr else none
  | .ret a r => if r = .one then some a else none
  | _ => none

variable [DecidableEq A]

/-- The tries and wakeups that a process has in hand when its `waiting` is `w`; those of a
`semwakeup` count for `q` until it has gone past `q`. -/
def Pc.tok (q : P) (a : A) (w : Bool) : Pc P A → Nat
  | .retry c | .cas c _ => if c.addr = a then (if w then 1 else 2) else 0
  | .top c | .sleep c | .asleep c | .woke c | .dequeue c _ | .pass c _ =>
    if c.addr = a ∧ w = false then 1 else 0
  | .wlock k n => if k.addr = a then n else 0
  | .scan k rest n | .wake k _ rest n => if k.addr = a ∧ q ∈ rest then n else 0
  | _ => 0

omit [DecidableEq P] [DecidableEq A] in
theorem Pc.queued_of_commits {k : Pc P A} (h : k.commits = some a) : k.queued = some a := by
  cases k <;> first | exact h | cases h

/-- The values and counts that a process goes by are those that its tests let through. -/
def Pc.Sane : Pc P A → Prop
  | .cas0 _ v | .cas _ v => 0 < v
  | .relread _ delta | .relcas _ delta _ => 0 ≤ delta
  | _ => True

/-- A statement that only moves on. -/
structure Plain (s : Sys P A) (p : P) (k : Pc P A) : Prop where
  queued : k.queued = (s.pc p).queued
  scans : (s.pc p).scans = false
  scans' : k.scans = false
  awake : ∀ c, k = .asleep c → s.waiting p = true
  tok : ∀ q a, (s.pc p).tok q a (s.waiting p) ≤ k.tok q a (s.waiting p) ∨ s.value a ≤ 0
  commits : ∀ a, k.commits = some a → (s.pc p).commits = some a ∨ s.value a ≤ 0
  sane : (s.pc p).Sane → k.Sane
  gets : k.gets = (s.pc p).gets

/-- What a step of `p` can do; `plain` is every step that changes nothing but where `p` is. -/
inductive Move (s : Sys P A) (p : P) : Sys P A → Prop
  | plain {k : Pc P A} : s.pc p ≠ .idle → Plain s p k → Move s p (s.goto p k)
  | begin {k : Pc P A} : s.pc p = .idle → Plain s p k → Move s p ((s.begin p).goto p k)
  | count {a : A} {r : Res} : s.pc p = .ret a r → Move s p ((s.count a r).goto p .idle)
  | take0 {c : Call A} {v : Int} : s.pc p = .cas0 c v → s.value c.addr = v →
      Move s p ((s.take p c.addr).goto p (.ret c.addr .one))
  | take {c : Call A} {v : Int} : s.pc p = .cas c v → s.value c.addr = v →
      Move s p ((s.take p c.addr).goto p (.dequeue c true))
  | release {a : A} {delta v : Int} : s.pc p = .relcas a delta v → s.value a = v →
      Move s p ((s.release a delta).goto p (.wlock (.release a) delta.toNat))
  | queue {c : Call A} : s.pc p = .queue c → s.lock = none →
      Move s p ((s.enqueue p c.addr).goto p (.top c))
  | dequeue {c : Call A} {acq : Bool} : s.pc p = .dequeue c acq → s.lock = none →
      Move s p ((s.unqueue p).goto p (.pass c acq))
  | top {c : Call A} : s.pc p = .top c → Move s p ((s.setwaiting p true).goto p (.retry c))
  | wlock {k : Caller A} {n : Nat} : s.pc p = .wlock k n → s.lock = none →
      Move s p ((s.setlock (some p)).goto p (.scan k s.list n))
  | unlock {k : Caller A} {rest : List P} {n : Nat} : s.pc p = .scan k rest n →
      rest = [] ∨ n = 0 → Move s p (s.unlock p k)
  | choose {k : Caller A} {q : P} {rest : List P} {n : Nat} :
      s.pc p = .scan k (q :: rest) (n + 1) → s.addr q = some k.addr → s.waiting q = true →
      Move s p ((s.setwaiting q false).goto p (.wake k q rest n))
  | skip {k : Caller A} {q : P} {rest : List P} {n : Nat} :
      s.pc p = .scan k (q :: rest) (n + 1) → ¬ (s.addr q = some k.addr ∧ s.waiting q = true) →
      Move s p (s.goto p (.scan k rest (n + 1)))
  | wake {k : Caller A} {q : P} {rest : List P} {n : Nat} : s.pc p = .wake k q rest n →
      Move s p ((s.wakeup q).goto p (.scan k rest n))

section
attribute [local simp] Pc.queued Pc.scans Pc.tok Pc.commits Pc.Sane Pc.gets

theorem go_cases (h : s.go p = some s') : Move s p s' := by
  unfold Sys.go at h
  have hidle : s.pc p ≠ .idle := fun hk => by
    rw [hk] at h
    cases h
  cases hk : s.pc p with
  | idle | asleep c =>
    rw [hk] at h
    cases h
  | enter c | relread a delta =>
    rw [hk] at h
    cases h
    refine .plain hidle ?_
    try split
    all_goals constructor <;> simp [hk]
  | try0 c =>
    rw [hk] at h
    cases h
    refine .plain hidle ?_
    split
    · rename_i hv
      constructor <;> simp [hk, hv]
    · split <;> constructor <;> simp [hk]
  | rel a delta =>
    rw [hk] at h
    cases h
    refine .plain hidle ?_
    split
    · constructor <;> simp [hk]
    · rename_i hd
      rw [not_or, Int.not_lt] at hd
      constructor <;> simp [hk, hd.1]
  | cas0 c v =>
    rw [hk] at h
    simp only at h
    split at h
    · cases h
      exact .take0 hk ‹_›
    · cases h
      refine .plain hidle ?_
      constructor <;> simp [hk]
  | queue c =>
    rw [hk] at h
    obtain ⟨hl, h⟩ := Option.ite_none_right_eq_some.mp h
    cases h
    exact .queue hk hl
  | top c =>
    rw [hk] at h
    cases h
    exact .top hk
  | retry c =>
    rw [hk] at h
    cases h
    refine .plain hidle ?_
    split
    · rename_i hv
      constructor <;> simp [hk, hv]
    · rename_i hv
      refine ⟨by simp [hk], by rw [hk]; rfl, rfl, by simp, fun q a => ?_, ?_,
        fun _ => trivial, by rw [hk]; rfl⟩
      · by_cases ha : c.addr = a
        · exact .inr (ha ▸ Int.not_lt.mp hv)
        · simp [hk, ha]
      · rintro a ⟨⟩
        exact .inr (Int.not_lt.mp hv)
  | cas c v =>
    rw [hk] at h
    simp only at h
    split at h
    · cases h
      exact .take hk ‹_›
    · cases h
      refine .plain hidle ?_
      constructor <;> simp [hk]
  | sleep c =>
    rw [hk] at h
    cases h
    refine .plain hidle ?_
    by_cases hw : s.waiting p = true <;> constructor <;> simp [hk, hw]
  | woke c =>
    rw [hk] at h
    simp only at h
    split at h
    · cases h
      refine .plain hidle ?_
      constructor <;> simp [hk]
    · cases h
  | dequeue c acq =>
    rw [hk] at h
    obtain ⟨hl, h⟩ := Option.ite_none_right_eq_some.mp h
    cases h
    exact .dequeue hk hl
  | pass c acq =>
    rw [hk] at h
    cases h
    refine .plain hidle ?_
    split
    · rename_i hw
      constructor <;> simp [hk, hw]
    · rename_i hw
      refine ⟨by simp [hk], by rw [hk]; rfl, rfl, by simp, fun q a => .inl ?_,
        fun a h => (nomatch h), fun _ => trivial, by rw [hk]; rfl⟩
      by_cases ha : c.addr = a <;> simp [hk, hw, ha, Caller.addr]
  | wlock k n =>
    rw [hk] at h
    obtain ⟨hl, h⟩ := Option.ite_none_right_eq_some.mp h
    cases h
    exact .wlock hk hl
  | scan k rest n =>
    rw [hk] at h
    cases rest with
    | nil =>
      cases h
      exact .unlock hk (.inl rfl)
    | cons q rest =>
      cases n with
      | zero =>
        cases h
        exact .unlock hk (.inr rfl)
      | succ n =>
        simp only at h
        split at h
        · rename_i hc
          cases h
          exact .choose hk hc.1 hc.2
        · cases h
          exact .skip hk ‹_›
  | wake k q rest n =>
    rw [hk] at h
    cases h
    exact .wake hk
  | relcas a delta v =>
    rw [hk] at h
    simp only at h
    split at h
    · cases h
      exact .release hk ‹_›
    · cases h
      refine .plain hidle ?_
      constructor <;> simp [hk]
  | ret a r =>
    rw [hk] at h
    cases h
    exact .count hk

theorem start_cases (h : s.start p k = some s') (hq : k.queued = none) (hs : k.scans = false)
    (hc : k.commits = none) (hsane : k.Sane) (hg : k.gets = none) : Move s p s' := by
  unfold Sys.start at h
  split at h
  · rename_i hk
    cases h
    refine .begin hk ⟨by rw [hq, hk]; rfl, by rw [hk]; rfl, hs, ?_, fun q a => ?_, fun a ha => ?_,
      fun _ => hsane, by rw [hg, hk]; rfl⟩
    · rintro c rfl
      cases hc
    · rw [hk]
      exact .inl (Nat.zero_le _)
    · rw [hc] at ha
      cases ha
  · cases h

theorem act_cases {act : Act A} (h : s.act p act = some s') : Move s p s' := by
  cases act with
  | semacquire a block | tsemacquire a ms | semrelease a delta =>
    exact start_cases h rfl rfl rfl trivial rfl
  | go => exact go_cases h
  | note | timer =>
    unfold Sys.act at h
    simp only at h
    split at h <;> cases h <;> rename_i hk <;>
      refine .plain (by simp [hk]) ?_ <;> constructor <;> simp [hk]
  | ticks d =>
    unfold Sys.act at h
    simp only at h
    split at h
    · rename_i hk
      cases h
      refine .plain (by simp [hk]) ?_
      split <;> constructor <;> simp [hk]
    · cases h

end

/-- The list and its lock are kept by every step. -/
theorem Inv.move (h : Inv s) (hm : Move s p s') : Inv s' := by
  have hplain : ∀ {k : Pc P A}, Plain s p k → Inv (s.goto p k) := fun {k} hk =>
    h.goto hk.queued (hk.scans'.trans hk.scans.symm)
      (Pc.rest_eq_nil hk.scans' ▸ List.nil_subset _) hk.awake (Pc.not_wake hk.scans)
  -- the values and counters change
  have hside : ∀ {s₁ : Sys P A} {k : Pc P A}, s₁.list = s.list → s₁.lock = s.lock →
      s₁.addr = s.addr → s₁.waiting = s.waiting → s₁.pc = s.pc → k.queued = (s.pc p).queued →
      (s.pc p).scans = false → k.scans = false → (∀ c, k ≠ .asleep c) → Inv (s₁.goto p k) := by
    intro s₁ k h₁ h₂ h₃ h₄ h₅ hq hs hk ha
    refine (h.frame h₁ h₂ h₃ h₄ h₅).goto ?_ ?_ (Pc.rest_eq_nil hk ▸ List.nil_subset _)
      (fun c hc => absurd hc (ha c)) ?_ <;> rw [h₅]
    · exact hq
    · exact hk.trans hs.symm
    · exact Pc.not_wake hs
  cases hm with
  | plain _ hk => exact hplain hk
  | begin hp hk => exact (hplain hk).frame rfl rfl rfl rfl rfl
  | count hp => exact hside rfl rfl rfl rfl rfl (by rw [hp]; rfl) (by rw [hp]; rfl) rfl nofun
  | take0 hp hv => exact hside rfl rfl rfl rfl rfl (by rw [hp]; rfl) (by rw [hp]; rfl) rfl nofun
  | take hp hv => exact hside rfl rfl rfl rfl rfl (by rw [hp]; rfl) (by rw [hp]; rfl) rfl nofun
  | release hp hv => exact hside rfl rfl rfl rfl rfl (by rw [hp]; rfl) (by rw [hp]; rfl) rfl nofun
  | queue hp hl => exact h.queue hl hp
  | dequeue hp hl => exact h.dequeue hl hp
  | top hp => exact h.top hp
  | wlock hp hl => exact h.wlock hl hp
  | unlock hp _ => exact h.unlock hp
  | choose hp hq _ => exact h.choose hp hq
  | @skip k q rest n hp _ =>
    refine h.goto ?_ ?_ ?_ (fun _ h => nomatch h) ?_
    · simp [hp, Pc.queued]
    · simp [hp, Pc.scans]
    · rw [hp]
      exact List.subset_cons_self q rest
    · simp [hp]
  | wake hp => exact h.wake hp

/-- What the processes go by is sane, and a value does not leave its word. -/
structure Words (s : Sys P A) : Prop where
  sane : ∀ p, (s.pc p).Sane
  value : ∀ a, -2147483648 ≤ s.value a

omit [DecidableEq A] in
theorem Words.goto (h : Words s) (hk : k.Sane) : Words (s.goto p k) where
  sane t := by
    rw [goto_pc]
    split
    · exact hk
    · exact h.sane t
  value := h.value

omit [DecidableEq P] in
theorem Words.set (h : Words s) (v : Int) (hp : s'.pc = s.pc)
    (hv : s'.value = update s.value a (long v)) : Words s' where
  sane := by rw [hp]; exact h.sane
  value b := by
    rw [hv, update_apply]
    split
    · exact (long_range v).1
    · exact h.value b

theorem Words.move (h : Words s) (hm : Move s p s') : Words s' := by
  cases hm with
  | plain _ hk => exact h.goto (hk.sane (h.sane p))
  | begin _ hk => exact ⟨(h.goto (hk.sane (h.sane p))).sane, h.value⟩
  | @take0 c v =>
    have ht : Words (s.take p c.addr) := h.set _ rfl rfl
    exact ht.goto (by trivial)
  | @take c v =>
    have ht : Words (s.take p c.addr) := h.set _ rfl rfl
    exact ht.goto (by trivial)
  | @release a delta v =>
    have ht : Words (s.release a delta) := h.set _ rfl rfl
    exact ht.goto (by trivial)
  | wake hp =>
    refine Words.goto ?_ (by trivial)
    unfold Sys.wakeup
    split
    · exact h.goto (by trivial)
    · exact h
  | @unlock k rest n hp _ =>
    refine Words.goto ⟨h.sane, h.value⟩ ?_
    cases k <;> trivial
  | skip => exact h.goto (by trivial)
  | _ => exact Words.goto ⟨h.sane, h.value⟩ (by trivial)

/-! ## Wakeups -/

variable [Fintype P]

/-- The tries and wakeups that all processes have in hand. -/
def tokens (s : Sys P A) (q : P) (a : A) : Nat := ∑ t, (s.pc t).tok q a (s.waiting t)

/-- While a process waits that nobody has chosen, there are tries and wakeups for all units. -/
def Wake (s : Sys P A) : Prop := ∀ q a, Waits s q a → s.value a ≤ tokens s q a

omit [DecidableEq A] [Fintype P] in
theorem waits_goto (h : Waits (s.goto p k) q a) (hk : ∀ a, k.commits = some a →
    (s.pc p).commits = some a ∨ s.value a ≤ 0) : Waits s q a ∨ s.value a ≤ 0 := by
  obtain ⟨hc, hw⟩ := h
  rw [goto_pc] at hc
  split at hc
  · rename_i hq
    rcases hk a hc with hc | hv
    · exact .inl ⟨hq ▸ hc, hw⟩
    · exact .inr hv
  · exact .inl ⟨hc, hw⟩

/-- What the process gains or gives up is gained or given up by all. -/
theorem tokens_goto {m : Nat} (h : (s.pc p).tok q a (s.waiting p) + m ≤ k.tok q a (s.waiting p) + n)
    :
    tokens s q a + m ≤ tokens (s.goto p k) q a + n := by
  refine sum_le_of_off (i := p) (fun t ht => ?_) ?_
  · rw [goto_pc, if_neg ht, goto_waiting]
  · rwa [goto_pc, if_pos rfl, goto_waiting]

theorem Wake.goto (h : Wake s) (hk : ∀ a, k.commits = some a →
      (s.pc p).commits = some a ∨ s.value a ≤ 0)
    (ht : ∀ q a, Waits s q a → (s.pc p).tok q a (s.waiting p) ≤ k.tok q a (s.waiting p) ∨
      s.value a ≤ 0) : Wake (s.goto p k) := by
  intro q a hw
  rw [goto_value]
  rcases waits_goto hw hk with hw | hv
  · rcases ht q a hw with hle | hv
    · have hs := h q a hw
      have htok := tokens_goto (k := k) (m := 0) (n := 0) hle
      omega
    · omega
  · omega

omit [DecidableEq A] [Fintype P] in
theorem waits_of_goto (h : Waits (s.goto p k) q a) (hk : k.commits = none) : Waits s q a := by
  obtain ⟨hc, hw⟩ := h
  rw [goto_pc] at hc
  split at hc
  · rw [hk] at hc
    cases hc
  · exact ⟨hc, hw⟩

/-- `p` uses a try for the unit that it takes. -/
theorem Wake.take (h : Wake s) {b : A} (hpos : 0 < s.value b) (hk : k.commits = none)
    (ht : ∀ q a, (s.pc p).tok q a (s.waiting p) ≤
      k.tok q a (s.waiting p) + if b = a then 1 else 0) :
    Wake ((s.take p b).goto p k) := by
  intro q a hw
  have hs := h q a (waits_of_goto (s := s) hw hk)
  have htok : tokens s q a ≤ tokens ((s.take p b).goto p k) q a + if b = a then 1 else 0 :=
    tokens_goto (m := 0) (ht q a)
  have hv : ((s.take p b).goto p k).value a = if a = b then long (s.value b - 1) else s.value a :=
    update_apply ..
  have hlong : long (s.value b - 1) ≤ s.value b - 1 := by
    unfold long
    omega
  rw [hv]
  by_cases hab : a = b
  · subst hab
    rw [if_pos rfl] at htok ⊢
    omega
  · rw [if_neg (Ne.symm hab)] at htok
    rw [if_neg hab]
    omega

/-- A release comes with as many wakeups as units. -/
theorem Wake.release (h : Wake s) (hw : Words s) {b : A} {delta v : Int}
    (hp : s.pc p = .relcas b delta v) (hd : 0 ≤ delta) :
    Wake ((s.release b delta).goto p (.wlock (.release b) delta.toNat)) := by
  intro q a hwait
  have hs := h q a (waits_of_goto (s := s) hwait rfl)
  have htok : tokens s q a + (if b = a then delta.toNat else 0) ≤
      tokens (s.goto p (.wlock (.release b) delta.toNat)) q a := by
    refine tokens_goto (n := 0) ?_
    by_cases hb : b = a <;> simp [hp, hb, Pc.tok, Caller.addr]
  have hv : ((s.release b delta).goto p (.wlock (.release b) delta.toNat)).value a =
      if a = b then long (s.value b + delta) else s.value a := update_apply ..
  have hlong : long (s.value b + delta) ≤ s.value b + delta := by
    have hval := hw.value b
    unfold long
    omega
  rw [hv]
  change _ ≤ ((tokens (s.goto p (.wlock (.release b) delta.toNat)) q a : Nat) : Int)
  by_cases hab : a = b
  · subst hab
    rw [if_pos rfl] at htok ⊢
    omega
  · rw [if_neg (Ne.symm hab)] at htok
    rw [if_neg hab]
    omega

omit [Fintype P] in
/-- Who is chosen has a wakeup in hand. -/
theorem Pc.tok_clear (q : P) (a : A) (k : Pc P A) :
    k.tok q a true + (if k.queued = some a then 1 else 0) ≤ k.tok q a false := by
  cases k <;> simp only [Pc.tok, Pc.queued] <;> split_ifs <;> simp_all

/-- The flag of another process goes from `p`'s hands to that process's. -/
theorem Wake.choose (h : Wake s) (hi : Inv s) {c : Caller A} {x : P} {rest : List P}
    (hp : s.pc p = .scan c (x :: rest) (n + 1)) (hx : s.addr x = some c.addr)
    (hw : s.waiting x = true) : Wake ((s.setwaiting x false).goto p (.wake c x rest n)) := by
  intro q a hwait
  have hq : q ≠ x ∧ Waits s q a := by
    have hwait' := waits_of_goto hwait rfl
    obtain ⟨hc, hwq⟩ := hwait'
    rw [setwaiting_waiting] at hwq
    split at hwq
    · cases hwq
    · exact ⟨‹_›, hc, hwq⟩
  have hxp : x ≠ p := by
    rintro rfl
    have hmem := hi.rest x (by rw [hp]; exact List.mem_cons_self)
    rw [hi.mem, hp] at hmem
    cases hmem
  have hqueued : (s.pc x).queued = some c.addr := by
    have hmem := hi.rest p (by rw [hp]; exact List.mem_cons_self)
    rw [hi.mem] at hmem
    obtain ⟨a', ha'⟩ := Option.isSome_iff_exists.mp hmem
    have haddr := hi.addr x a' ha'
    rw [hx] at haddr
    rw [ha', ← Option.some.inj haddr]
  have htok : tokens s q a ≤ tokens ((s.setwaiting x false).goto p (.wake c x rest n)) q a := by
    refine sum_le_of_off₂ hxp.symm (fun t htp htx => ?_) ?_
    · rw [goto_pc, if_neg htp, goto_waiting, setwaiting_waiting, if_neg htx, setwaiting_pc]
    · rw [goto_pc, if_pos rfl, goto_pc, if_neg hxp, setwaiting_pc, goto_waiting, setwaiting_waiting,
        if_neg hxp.symm, setwaiting_waiting, if_pos rfl, hp, hw]
      have hscan : (Pc.scan c (x :: rest) (n + 1)).tok q a (s.waiting p) ≤
          (Pc.wake c x rest n).tok q a (s.waiting p) + if c.addr = a then 1 else 0 := by
        simp only [Pc.tok, List.mem_cons, or_iff_right hq.1]
        split_ifs <;> simp_all
      have hclear := Pc.tok_clear q a (s.pc x)
      simp only [hqueued, Option.some.injEq] at hclear
      omega
  have hs := h q a hq.2
  rw [goto_value, setwaiting_value]
  omega

/-- `wakeup(x)` -/
theorem Wake.wake (h : Wake s) {c : Caller A} {x : P} {rest : List P}
    (hp : s.pc p = .wake c x rest n) : Wake ((s.wakeup x).goto p (.scan c rest n)) := by
  unfold Sys.wakeup
  split
  · rename_i c' hc
    have hmid : Wake (s.goto x (.woke c')) := by
      refine h.goto (fun a ha => nomatch ha) fun q a _ => .inl ?_
      rw [hc]
      exact Nat.le_refl _
    have hxp : p ≠ x := by
      rintro rfl
      rw [hp] at hc
      cases hc
    refine hmid.goto (fun a ha => nomatch ha) fun q a _ => .inl ?_
    rw [goto_pc, if_neg hxp, hp]
    exact Nat.le_refl _
  · refine h.goto (fun a ha => nomatch ha) fun q a _ => .inl ?_
    rw [hp]
    exact Nat.le_refl _

/-- `semqueue` -/
theorem Wake.queue (h : Wake s) (hp : s.pc p = .queue c) :
    Wake ((s.enqueue p c.addr).goto p (.top c)) := by
  intro q a hwait
  have hq : q ≠ p ∧ Waits s q a := by
    obtain ⟨hc, hw⟩ := waits_of_goto hwait rfl
    rw [enqueue_waiting] at hw
    split at hw
    · cases hw
    · exact ⟨‹_›, hc, hw⟩
  have htok : tokens s q a + 0 ≤ tokens ((s.enqueue p c.addr).goto p (.top c)) q a + 0 := by
    refine sum_le_of_off (i := p) (fun t ht => ?_) ?_
    · rw [goto_pc, if_neg ht, goto_waiting, enqueue_waiting, if_neg ht, enqueue_pc]
    · rw [hp]
      exact Nat.zero_le _
  have hs := h q a hq.2
  rw [goto_value, enqueue_value]
  omega

/-- The try that a process has in hand when it is woken is the one that it makes next. -/
theorem Wake.top (h : Wake s) (hp : s.pc p = .top c) :
    Wake ((s.setwaiting p true).goto p (.retry c)) := by
  intro q a hwait
  have hq : Waits s q a := by
    obtain ⟨hc, hw⟩ := waits_of_goto hwait rfl
    rw [setwaiting_waiting] at hw
    split at hw
    · rename_i hqp
      rw [setwaiting_pc, hqp, hp] at hc
      cases hc
    · exact ⟨hc, hw⟩
  have htok : tokens s q a + 0 ≤ tokens ((s.setwaiting p true).goto p (.retry c)) q a + 0 := by
    refine sum_le_of_off (i := p) (fun t ht => ?_) ?_
    · rw [goto_pc, if_neg ht, goto_waiting, setwaiting_waiting, if_neg ht, setwaiting_pc]
    · rw [goto_pc, if_pos rfl, goto_waiting, setwaiting_waiting, if_pos rfl, hp]
      by_cases ha : c.addr = a <;> cases s.waiting p <;> simp [ha, Pc.tok]
  have hs := h q a hq
  rw [goto_value, setwaiting_value]
  omega

theorem Wake.move (h : Wake s) (hi : Inv s) (hw : Words s) (hm : Move s p s') : Wake s' := by
  cases hm with
  | plain _ hk => exact h.goto hk.commits fun q a _ => hk.tok q a
  | begin _ hk => exact h.goto hk.commits fun q a _ => hk.tok q a
  | count hp =>
    refine h.goto (k := .idle) (p := p) (fun a ha => nomatch ha) fun q a _ => .inl ?_
    rw [hp]
    exact Nat.le_refl _
  | @take0 c v hp hv =>
    have hpos : 0 < v := by
      have hs := hw.sane p
      rwa [hp] at hs
    refine h.take (hv ▸ hpos) rfl fun q a => ?_
    rw [hp]
    exact Nat.zero_le _
  | @take c v hp hv =>
    have hpos : 0 < v := by
      have hs := hw.sane p
      rwa [hp] at hs
    refine h.take (hv ▸ hpos) rfl fun q a => ?_
    rw [hp]
    by_cases ha : c.addr = a <;> cases s.waiting p <;> simp [ha, Pc.tok]
  | @release a delta v hp hv =>
    have hd : 0 ≤ delta := by
      have hs := hw.sane p
      rwa [hp] at hs
    exact h.release hw hp hd
  | @queue c hp hl => exact h.queue hp
  | @dequeue c acq hp hl =>
    refine h.goto (k := .pass c acq) (p := p) (fun a ha => nomatch ha) fun q a _ => .inl ?_
    rw [hp]
    exact Nat.le_refl _
  | @top c hp => exact h.top hp
  | @wlock k n hp hl =>
    refine h.goto (k := .scan k s.list n) (p := p) (fun a ha => nomatch ha) fun q a hq => .inl ?_
    have hmem : q ∈ s.list := (hi.mem q).mpr (by rw [Pc.queued_of_commits hq.1]; rfl)
    simp [hp, Pc.tok, hmem]
  | @unlock k rest n hp hend =>
    unfold Sys.unlock
    refine Wake.goto (s := s.setlock none) h ?_ fun q a _ => .inl ?_
    · cases k <;> exact fun a ha => nomatch ha
    · rw [setlock_pc, hp]
      rcases hend with rfl | rfl <;> simp [Pc.tok]
  | choose hp hx hxw => exact h.choose hi hp hx hxw
  | @skip k x rest n hp hx =>
    refine h.goto (fun a ha => nomatch ha) fun q a hq => .inl ?_
    rw [hp]
    by_cases hqx : q = x
    · have ha := hi.addr q a (Pc.queued_of_commits hq.1)
      have hne : k.addr ≠ a := by
        rintro rfl
        exact hx ⟨hqx ▸ ha, hqx ▸ hq.2⟩
      simp [Pc.tok, hne]
    · simp [Pc.tok, hqx]
  | wake hp => exact h.wake hp

/-! ## Runs -/

/-- `p` will try for `a` again or pass a wakeup on, without being woken first. -/
def Due (s : Sys P A) (p : P) (a : A) : Prop :=
  match s.pc p with
  | .top c | .retry c | .cas c _ => c.addr = a
  | .sleep c | .woke c | .dequeue c _ | .pass c _ => c.addr = a ∧ s.waiting p = false
  | .wlock k n | .scan k _ n => k.addr = a ∧ 0 < n
  | .wake k _ _ _ => k.addr = a
  | _ => False

omit [Fintype P] in
/-- What counts as a try or a wakeup is in the hands of somebody who runs. -/
theorem Inv.due (h : Inv s) (ht : 0 < (s.pc p).tok q a (s.waiting p)) : ∃ t, Due s t a := by
  cases hp : s.pc p with
  | asleep c =>
    rw [hp] at ht
    simp only [Pc.tok] at ht
    split at ht
    · rename_i hc
      obtain ⟨t, k, rest, n, hk, haddr⟩ := h.awoken p c hp hc.2
      exact ⟨t, by rw [Due, hk]; exact haddr.trans hc.1⟩
    · cases ht
  | top c | retry c | cas c v | sleep c | woke c | dequeue c acq | pass c acq | wlock k n
  | scan k rest n | wake k x rest n =>
    rw [hp] at ht
    simp only [Pc.tok] at ht
    split at ht
    · rename_i hc
      refine ⟨p, ?_⟩
      rw [Due, hp]
      first | exact hc | exact hc.1 | exact ⟨hc, ht⟩ | exact ⟨hc.1, ht⟩
    · cases ht
  | _ =>
    rw [hp] at ht
    cases ht

omit [Fintype P] in
theorem words_init {start : A → Int} (h : (sem start).init s) : Words s := by
  obtain ⟨hv, hlong, -, -, hidle, -, -⟩ := h
  refine ⟨fun p => ?_, fun a => ?_⟩
  · rw [hidle]
    trivial
  · rw [hv, ← hlong]
    exact (long_range _).1

theorem sem_inductive (start : A → Int) :
    (sem (P := P) start).Inductive fun s => Inv s ∧ Words s ∧ Wake s where
  init := by
    intro s hinit
    have ⟨_, _, hlist, hlock, hidle, _, _⟩ := hinit
    refine ⟨⟨fun t => ?_, fun p => ?_, ?_, fun p a hp => ?_, fun t => ?_, fun p c hp => ?_⟩,
      words_init hinit, fun q a hq => ?_⟩
    · simp [hlock, hidle, Pc.scans]
    · simp [hlist, hidle, Pc.queued]
    · rw [hlist]
      exact List.nodup_nil
    · rw [hidle] at hp
      cases hp
    · rw [hidle]
      exact List.nil_subset _
    · rw [hidle] at hp
      cases hp
    · have hc := hq.1
      rw [hidle] at hc
      cases hc
  step := by
    rintro s ⟨p, act⟩ s' ⟨hi, hw, hk⟩ hs
    have hm := act_cases hs
    exact ⟨hi.move hm, hw.move hm, hk.move hi hw hm⟩

theorem no_lost_wakeup {start : A → Int} {s : Sys P A} (h : (sem start).Reach s) {q : P} {c : Call A}
    (hv : 0 < s.value c.addr) (hq : s.pc q = .asleep c) (hw : s.waiting q = true) :
    ∃ t, Due s t c.addr := by
  obtain ⟨hi, -, hk⟩ := (sem_inductive start).reach h
  have htok : s.value c.addr ≤ tokens s q c.addr := hk q c.addr ⟨by rw [hq]; rfl, hw⟩
  have hpos : 0 < tokens s q c.addr := by omega
  obtain ⟨t, -, ht⟩ := Finset.exists_ne_zero_of_sum_ne_zero (Nat.pos_iff_ne_zero.mp hpos)
  exact hi.due (Nat.pos_of_ne_zero ht)

/-- Nobody is in a call, and there are no units. -/
def atrest (P : Type) : Sys P Unit where
  value _ := 0
  list := []
  lock := none
  addr _ := none
  waiting _ := false
  pc _ := .idle
  released _ := 0
  ones _ := 0
  took _ := 0

omit [Fintype P] [DecidableEq P] in
theorem atrest_init [DecidableEq P] : (sem fun _ => 0).init (atrest P) :=
  ⟨rfl, fun _ => rfl, rfl, rfl, fun _ => rfl, fun _ => rfl, fun _ => rfl⟩

/-- One process sleeps, and the other has just put a unit there. -/
private def roused : List (Bool × Act Unit) :=
  [(false, .semacquire () true), (false, .go), (false, .go), (false, .go), (false, .go), (false, .go),
    (false, .go), (true, .semrelease () 1), (true, .go), (true, .go), (true, .go)]

theorem no_lost_wakeup_roused : ∃ s : Sys Bool Unit, (sem fun _ => 0).Reach s ∧ s.value () = 1 ∧
    s.pc false = .asleep ⟨(), .sem true⟩ ∧ s.waiting false = true ∧ ∃ t, Due s t () := by
  obtain ⟨s, hs⟩ : ∃ s, roused.foldlM (fun s e => s.act e.1 e.2) (atrest Bool) = some s := ⟨_, rfl⟩
  have hreach : (sem fun _ => 0).Reach s :=
    Lts.Reach.exec (fun _ _ _ h => h) ⟨[], .init atrest_init⟩ hs
  cases hs
  have hdue := no_lost_wakeup (q := false) (c := ⟨(), .sem true⟩) hreach (by decide) rfl rfl
  exact ⟨_, hreach, rfl, rfl, rfl, hdue⟩

end NixMark.Sem
