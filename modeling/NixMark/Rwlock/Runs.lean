import Mathlib.Algebra.Order.Ring.Nat
import Mathlib.Data.List.TakeWhile
import NixMark.Rwlock.Lock

/-!
# Runs of the readers/writer lock

* `Queue`: the processes that wait, as the list that the links are; `Waiters`: those that left it
  have the lock; `Inv`: the counts, and who is first in the queue.
* `Grant`: who gets the lock in a step.
* `rwlock_protocol`: what holds in every run.
-/

namespace NixMark.Rwlock

open Lib
open Function (update update_of_ne update_self)
open Runq (State)

variable {P : Type} {s s' : Sys P} {p q up : P} {c c' l : List P}

/-! ## The queue -/

structure Queue (s : Sys P) (c : List P) : Prop where
  chain : Chain s.qnext s.head c
  tail : s.tail = c.getLast?
  nodup : c.Nodup

theorem Queue.congr (h : Queue s c) (hn : s'.qnext = s.qnext) (hh : s'.head = s.head)
    (ht : s'.tail = s.tail) : Queue s' c where
  chain := by rw [hn, hh]; exact h.chain
  tail := by rw [ht]; exact h.tail
  nodup := h.nodup

theorem Queue.head (h : Queue s c) : s.head = c.head? := h.chain.head.symm

/-- The first process leaves. -/
theorem Queue.pop (h : Queue s (p :: c)) (hn : s'.qnext = s.qnext) (hh : s'.head = s.qnext p)
    (ht : s'.tail = if s.qnext p = none then none else s.tail) : Queue s' c where
  chain := by
    rw [hn, hh]
    exact h.chain.2
  tail := by
    have hnext : c.head? = s.qnext p := h.chain.2.head
    rw [ht, h.tail, ← hnext]
    cases c with
    | nil => rfl
    | cons a c => rw [List.head?_cons, if_neg (Option.some_ne_none a), List.getLast?_cons_cons]
  nodup := (List.nodup_cons.mp h.nodup).2

variable [DecidableEq P]

variable {st : State} {k : Pc P}

/-- A process comes to the end. -/
theorem Queue.wait (h : Queue s c) (hup : up ∉ c) : Queue (s.wait up st k) (c ++ [up]) where
  chain := by
    have hend : Chain (update s.qnext up none) (some up) [up] :=
      ⟨rfl, update_self ..⟩
    unfold Sys.wait
    rw [h.tail]
    rcases List.eq_nil_or_concat c with rfl | ⟨l, a, rfl⟩
    · exact hend
    · rw [List.concat_eq_append] at h hup ⊢
      rw [List.getLast?_concat, List.append_assoc, List.singleton_append]
      have hup' : ∀ b ∈ l ++ [a], b ≠ up := fun b hb => ne_of_mem_of_not_mem hb hup
      have hal : ∀ b ∈ l, b ≠ a := fun b hb =>
        (List.nodup_append.mp h.nodup).2.2 b hb a (List.mem_singleton_self a)
      refine h.chain.splice (fun b hb => ?_) ?_
      · change update (update s.qnext a (some up)) up none b = _
        rw [update_of_ne (hup' b (List.mem_append_left _ hb)), update_of_ne (hal b hb)]
      · change Chain (update (update s.qnext a (some up)) up none)
          (update (update s.qnext a (some up)) up none a) [up]
        rw [update_of_ne (hup' a (List.mem_append_right _ (List.mem_singleton_self a))),
          update_self]
        exact ⟨rfl, update_self ..⟩
  tail := by
    rw [List.getLast?_concat]
    rfl
  nodup := by
    rw [List.nodup_append]
    refine ⟨h.nodup, List.nodup_singleton up, fun a ha b hb => ?_⟩
    rw [List.mem_singleton.mp hb]
    exact ne_of_mem_of_not_mem ha hup

/-! ## Who waits -/

section
omit [DecidableEq P]

/-- The processes of the queue wait, and those that left it have the lock. -/
structure Waiters (s : Sys P) (c : List P) : Prop extends Queue s c where
  queued : ∀ p ∈ c, (s.state p = .QueueingR ∧ s.pc p = .rwait) ∨
    (s.state p = .QueueingW ∧ s.pc p = .wwait)
  woken : ∀ u p, s.pc u = .readies p → p ∉ c ∧ s.state p = .QueueingW ∧ s.pc p = .wwait ∧
    ∀ v, s.pc v = .readies p → v = u
  given : ∀ p, p ∉ c → (s.pc p = .rwait → 0 < s.reads p) ∧ (s.pc p = .wwait → s.writes p = true)
  panic : ∀ p, s.pc p ≠ .panic

theorem Waiters.out (h : Waiters s c) (hp : s.pc p = .out) : p ∉ c := by
  intro hc
  obtain ⟨-, h⟩ | ⟨-, h⟩ := h.queued p hc
  · rw [hp] at h
    cases h
  · rw [hp] at h
    cases h

/-- A step that changes who has the lock. -/
theorem Waiters.congr (h : Waiters s c) (hn : s'.qnext = s.qnext) (hh : s'.head = s.head)
    (ht : s'.tail = s.tail) (hst : s'.state = s.state) (hpc : s'.pc = s.pc)
    (hr : ∀ p, s.pc p = .rwait → 0 < s.reads p → 0 < s'.reads p)
    (hw : ∀ p, s.pc p = .wwait → s.writes p = true → s'.writes p = true) : Waiters s' c where
  toQueue := h.toQueue.congr hn hh ht
  queued := by rw [hst, hpc]; exact h.queued
  woken := by rw [hst, hpc]; exact h.woken
  given p hp := by
    rw [hpc]
    exact ⟨fun h' => hr p h' ((h.given p hp).1 h'), fun h' => hw p h' ((h.given p hp).2 h')⟩
  panic := by rw [hpc]; exact h.panic

end

/-- How a process waits. -/
def Waits (st : State) (k : Pc P) : Prop :=
  (st = .QueueingR ∧ k = .rwait) ∨ (st = .QueueingW ∧ k = .wwait)

omit [DecidableEq P] in
theorem Waits.spec (h : Waits st k) : k ≠ .panic ∧ (∀ q, k ≠ .readies q) := by
  obtain ⟨-, rfl⟩ | ⟨-, rfl⟩ := h <;> exact ⟨nofun, nofun⟩

theorem wait_fields (s : Sys P) (up : P) (st : State) (k : Pc P) : (s.wait up st k).state = update s.state up st ∧
    (s.wait up st k).pc = update s.pc up k ∧ (s.wait up st k).reads = s.reads ∧
    (s.wait up st k).writes = s.writes ∧ (s.wait up st k).readers = s.readers ∧
    (s.wait up st k).writer = s.writer := by
  unfold Sys.wait
  cases s.tail <;> exact ⟨rfl, rfl, rfl, rfl, rfl, rfl⟩

theorem Waiters.wait (h : Waiters s c) (hk : Waits st k) (hup : s.pc up = .out) :
    Waiters (s.wait up st k) (c ++ [up]) := by
  obtain ⟨hst, hpc, hr, hw, -, -⟩ := wait_fields s up st k
  have hne : ∀ p, p ∈ c → p ≠ up := fun p hp => ne_of_mem_of_not_mem hp (h.out hup)
  have hmem : ∀ p, p ∉ c ++ [up] → p ∉ c ∧ p ≠ up := fun p hp =>
    ⟨fun h => hp (List.mem_append_left _ h),
      fun h => hp (List.mem_append_right _ (List.mem_singleton.mpr h))⟩
  refine ⟨h.toQueue.wait (h.out hup), fun p hp => ?_, fun u p hu => ?_, fun p hp => ?_, ?_⟩
  · rw [hst, hpc]
    obtain hp | hp := List.mem_append.mp hp
    · rw [update_of_ne (hne p hp), update_of_ne (hne p hp)]
      exact h.queued p hp
    · rw [List.mem_singleton.mp hp, update_self, update_self]
      exact hk
  · rw [hpc] at hu
    have huup : u ≠ up := by
      rintro rfl
      rw [update_self] at hu
      exact hk.spec.2 p hu
    rw [update_of_ne huup] at hu
    obtain ⟨h₁, h₂, h₃, h₄⟩ := h.woken u p hu
    have hpup : p ≠ up := by
      rintro rfl
      rw [hup] at h₃
      cases h₃
    rw [hst, hpc, update_of_ne hpup, update_of_ne hpup]
    refine ⟨fun hp => ?_, h₂, h₃, fun v hv => ?_⟩
    · obtain hp | hp := List.mem_append.mp hp
      · exact h₁ hp
      · exact hpup (List.mem_singleton.mp hp)
    · have hvup : v ≠ up := by
        rintro rfl
        rw [update_self] at hv
        exact hk.spec.2 p hv
      rw [update_of_ne hvup] at hv
      exact h₄ v hv
  · obtain ⟨hp, hpup⟩ := hmem p hp
    rw [hpc, hr, hw, update_of_ne hpup]
    exact h.given p hp
  · rw [hpc]
    exact (Function.forall_update_iff s.pc fun _ k => k ≠ .panic).mpr
      ⟨hk.spec.1, fun p _ => h.panic p⟩

/-- The writer at the head of the queue gets the lock. -/
theorem Waiters.givewrite (h : Waiters s (p :: c)) (hp : s.state p = .QueueingW)
    (hup : s.pc up = .out) : Waiters (s.givewrite up p) c := by
  have hout := h.out hup
  have hpup : p ≠ up := fun e => hout (e ▸ List.mem_cons_self)
  have hpc : s.pc p = .wwait := by
    obtain ⟨h, -⟩ | ⟨-, h⟩ := h.queued p List.mem_cons_self
    · rw [hp] at h
      cases h
    · exact h
  have hpcs : (s.givewrite up p).pc = update s.pc up (.readies p) := rfl
  have hnd := List.nodup_cons.mp h.nodup
  refine ⟨h.toQueue.pop rfl rfl rfl, fun q hq => ?_, fun u q hu => ?_, fun q hq => ?_, ?_⟩
  · rw [hpcs, update_of_ne (ne_of_mem_of_not_mem (List.mem_cons_of_mem p hq) hout)]
    exact h.queued q (.tail p hq)
  · rw [hpcs] at hu ⊢
    by_cases huup : u = up
    · rw [huup, update_self] at hu
      cases hu
      refine ⟨hnd.1, hp, by rwa [update_of_ne hpup], fun v hv => ?_⟩
      by_contra hvup
      rw [huup] at hvup
      rw [update_of_ne hvup] at hv
      exact (h.woken v p hv).1 List.mem_cons_self
    · rw [update_of_ne huup] at hu
      obtain ⟨h₁, h₂, h₃, h₄⟩ := h.woken u q hu
      have hqup : q ≠ up := by
        rintro rfl
        rw [hup] at h₃
        cases h₃
      refine ⟨fun hq => h₁ (.tail p hq), h₂, by rwa [update_of_ne hqup], fun v hv => ?_⟩
      by_cases hvup : v = up
      · rw [hvup, update_self] at hv
        cases hv
        exact absurd List.mem_cons_self h₁
      · rw [update_of_ne hvup] at hv
        exact h₄ v hv
  · rw [hpcs]
    change _ ∧ (_ → update s.writes p true q = true)
    by_cases hqp : q = p
    · rw [hqp, update_self, update_of_ne hpup, hpc]
      exact ⟨nofun, fun _ => rfl⟩
    · rw [update_of_ne hqp]
      by_cases hqup : q = up
      · rw [hqup, update_self]
        exact ⟨nofun, nofun⟩
      · rw [update_of_ne hqup]
        exact h.given q fun h => (List.mem_cons.mp h).elim hqp hq
  · rw [hpcs]
    exact (Function.forall_update_iff s.pc fun _ k => k ≠ .panic).mpr ⟨nofun, fun p _ => h.panic p⟩

/-! ## The readers that are woken together -/

def isReader (s : Sys P) (p : P) : Bool := s.state p = .QueueingR

omit [DecidableEq P] in
theorem while_congr {f g : P → Bool} (h : ∀ p ∈ l, f p = g p) :
    l.takeWhile f = l.takeWhile g ∧ l.dropWhile f = l.dropWhile g := by
  induction l with
  | nil => exact ⟨rfl, rfl⟩
  | cons a l ih =>
    obtain ⟨ih₁, ih₂⟩ := ih fun p hp => h p (List.mem_cons_of_mem a hp)
    have ha := h a List.mem_cons_self
    rw [List.takeWhile_cons, List.takeWhile_cons, List.dropWhile_cons, List.dropWhile_cons, ha, ih₁,
      ih₂]
    exact ⟨rfl, rfl⟩

theorem wakereaders_spec (n : ℕ) (hc : Chain s.qnext s.head c) (hnd : c.Nodup) (hn : c.length < n) :
    ∃ s', Sys.wakereaders n s = some (c.takeWhile (isReader s), s') ∧
      Chain s.qnext s'.head (c.dropWhile (isReader s)) ∧ s'.qnext = s.qnext ∧ s'.tail = s.tail ∧
      s'.writer = s.writer ∧ s'.pc = s.pc ∧ s'.writes = s.writes ∧
      s'.readers = s.readers + (c.takeWhile (isReader s)).length ∧
      (∀ p, s'.reads p = s.reads p + if p ∈ c.takeWhile (isReader s) then 1 else 0) ∧
      ∀ p, s'.state p = if p ∈ c.takeWhile (isReader s) then .Ready else s.state p := by
  induction n generalizing s c with
  | zero => exact absurd hn (Nat.not_lt_zero _)
  | succ n ih =>
    cases c with
    | nil =>
      refine ⟨s, ?_, hc, rfl, rfl, rfl, rfl, rfl, (add_zero _).symm, fun p => rfl, fun p => rfl⟩
      rw [Sys.wakereaders, show s.head = none from hc]
      rfl
    | cons a c =>
      obtain ⟨hh, hc⟩ := hc
      obtain ⟨hac, hnd⟩ := List.nodup_cons.mp hnd
      rw [Sys.wakereaders, hh]
      by_cases ha : s.state a = .QueueingR
      · have har : isReader s a = true := decide_eq_true ha
        obtain ⟨s₁, hs₁⟩ : ∃ s₁, s₁ =
            (({ s with head := s.qnext a } : Sys P).giveread a).setstate a .Ready := ⟨_, rfl⟩
        have hst : s₁.state = update s.state a .Ready := by rw [hs₁]; rfl
        have hread : ∀ p ∈ c, isReader s₁ p = isReader s p := by
          intro p hp
          unfold isReader
          rw [hst, update_of_ne (ne_of_mem_of_not_mem hp hac)]
        obtain ⟨htake, hdrop⟩ := while_congr hread
        have hchain : Chain s₁.qnext s₁.head c := by
          rw [hs₁]
          exact hc
        obtain ⟨s', h₁, h₂, h₃, h₄, h₅, h₆, h₇, h₈, h₉, h₁₀⟩ :=
          ih hchain hnd (Nat.lt_of_succ_lt_succ hn)
        rw [htake] at h₁ h₈ h₉ h₁₀
        rw [hdrop] at h₂
        have hac' : a ∉ c.takeWhile (isReader s) := fun h => hac ((List.takeWhile_sublist _).subset h)
        rw [List.takeWhile_cons_of_pos har, List.dropWhile_cons_of_pos har]
        refine ⟨s', ?_, ?_, ?_, ?_, ?_, ?_, ?_, ?_, fun p => ?_, fun p => ?_⟩
        · simp only [if_pos ha, ← hs₁, h₁]
          rfl
        · rw [hs₁] at h₂
          exact h₂
        · rw [h₃, hs₁]
          rfl
        · rw [h₄, hs₁]
          rfl
        · rw [h₅, hs₁]
          rfl
        · rw [h₆, hs₁]
          rfl
        · rw [h₇, hs₁]
          rfl
        · rw [h₈, hs₁, List.length_cons, Nat.cast_succ]
          change s.readers + 1 + _ = _
          omega
        · rw [h₉, hs₁]
          change update s.reads a (s.reads a + 1) p + _ = _
          by_cases hpa : p = a
          · rw [hpa, update_self, if_neg hac', if_pos List.mem_cons_self]
          · simp only [update_of_ne hpa, List.mem_cons, hpa, false_or]
        · rw [h₁₀, hst]
          by_cases hpa : p = a
          · rw [hpa, update_self, if_neg hac', if_pos List.mem_cons_self]
          · simp only [update_of_ne hpa, List.mem_cons, hpa, false_or]
      · have har : ¬ isReader s a = true := fun h => ha (of_decide_eq_true h)
        rw [List.takeWhile_cons_of_neg har, List.dropWhile_cons_of_neg har]
        refine ⟨s, ?_, ⟨hh, hc⟩, rfl, rfl, rfl, rfl, rfl, (add_zero _).symm, fun p => rfl,
          fun p => rfl⟩
        simp only [if_neg ha]

omit [DecidableEq P] in
/-- A process that does not read is first behind the readers. -/
theorem Waiters.behind (h : Waiters s c) (hq : (c.dropWhile (isReader s)).head? = some q) :
    s.state q = .QueueingW := by
  have hmem : q ∈ c := (List.dropWhile_sublist _).subset (List.mem_of_head? hq)
  obtain ⟨hst, -⟩ | ⟨hst, -⟩ := h.queued q hmem
  · have := List.head?_dropWhile_not (isReader s) c
    rw [hq] at this
    exact absurd (decide_eq_true hst) (by simpa [isReader] using this)
  · exact hst

theorem Waiters.wake {D R : List P} (h : Waiters s (R ++ D)) (hR : ∀ p ∈ R, s.state p = .QueueingR)
    (hc : Chain s.qnext s'.head D) (hn : s'.qnext = s.qnext)
    (ht : s'.tail = if s'.head = none then none else s.tail) (hpc : s'.pc = s.pc)
    (hw : s'.writes = s.writes) (hr : ∀ p, s'.reads p = s.reads p + if p ∈ R then 1 else 0)
    (hst : ∀ p, s'.state p = if p ∈ R then .Ready else s.state p) : Waiters s' D where
  chain := by
    rw [hn]
    exact hc
  tail := by
    rw [ht, h.tail, ← hc.head]
    cases D with
    | nil => rfl
    | cons a D =>
      rw [List.head?_cons, if_neg (Option.some_ne_none a),
        List.getLast?_append_of_ne_nil _ (List.cons_ne_nil a D)]
  nodup := (List.nodup_append.mp h.nodup).2.1
  queued p hp := by
    have hpR : p ∉ R := fun hpR => (List.nodup_append.mp h.nodup).2.2 p hpR p hp rfl
    rw [hst, if_neg hpR, hpc]
    exact h.queued p (List.mem_append_right R hp)
  woken u p hu := by
    rw [hpc] at hu ⊢
    obtain ⟨h₁, h₂, h₃, h₄⟩ := h.woken u p hu
    have hpR : p ∉ R := fun hp => h₁ (List.mem_append_left D hp)
    rw [hst, if_neg hpR]
    exact ⟨fun hp => h₁ (List.mem_append_right R hp), h₂, h₃, h₄⟩
  given p hp := by
    rw [hpc, hr, hw]
    by_cases hpR : p ∈ R
    · have hst := hR p hpR
      obtain ⟨-, hpp⟩ | ⟨hpp, -⟩ := h.queued p (List.mem_append_left D hpR)
      · rw [hpp, if_pos hpR]
        exact ⟨fun _ => Nat.succ_pos _, nofun⟩
      · rw [hst] at hpp
        cases hpp
    · rw [if_neg hpR, Nat.add_zero]
      exact h.given p fun h => (List.mem_append.mp h).elim hpR hp
  panic := by
    rw [hpc]
    exact h.panic

/-! ## Who has the lock -/

variable [Fintype P]

omit [DecidableEq P] in
structure Inv (s : Sys P) (c : List P) : Prop extends Waiters s c where
  readers : s.readers = ((∑ p, s.reads p : ℕ) : ℤ)
  writer : (s.writer = 0 ∧ ∀ p, s.writes p = false) ∨
    (s.writer = 1 ∧ s.readers = 0 ∧ ∃ p, s.writes p = true ∧ ∀ q, s.writes q = true → q = p)
  first : ∀ p, c.head? = some p → s.writer = 0 → s.state p = .QueueingW ∧ 0 < s.readers

omit [DecidableEq P] [Fintype P] in
/-- Who gets the lock in a step, with the queue `c`: the writer or all the readers at its head, and
no other process before them. -/
structure Grant (s : Sys P) (c : List P) (r : Sys P × Option (FifoEvent P)) : Prop where
  popped : ∀ xs, r.2 = some (.pop xs) →
    (∃ p, xs = [p] ∧ s.state p = .QueueingW ∧ r.1.writes p = true) ∨
    (xs ≠ [] ∧ xs = c.takeWhile (isReader s) ∧ ∀ p ∈ xs, r.1.reads p = s.reads p + 1)
  others : c ≠ [] → ∀ p, (∀ xs, r.2 = some (.pop xs) → p ∉ xs) →
    r.1.reads p ≤ s.reads p ∧ (r.1.writes p = true → s.writes p = true)

/-- The queue after a step, and who joined it or left it. -/
def Next (s : Sys P) (c : List P) (r : Sys P × Option (FifoEvent P)) : Prop :=
  Grant s c r ∧ ∃ c', Inv r.1 c' ∧ Effect c c' r.2

section
omit [DecidableEq P] [Fintype P]

theorem Grant.keep {e : Option (FifoEvent P)} (hr : ∀ p, s'.reads p ≤ s.reads p)
    (hw : ∀ p, s'.writes p = true → s.writes p = true) (he : ∀ xs, e ≠ some (.pop xs)) :
    Grant s c (s', e) where
  popped xs hxs := absurd hxs (he xs)
  others _ p _ := ⟨hr p, hw p⟩

theorem Grant.empty (h : c = []) : Grant s c (s', none) where
  popped _ := nofun
  others hc := absurd h hc

end

omit [Fintype P] in
theorem Grant.wait : Grant s c (s.wait up st k, some (.push [up])) := by
  obtain ⟨-, -, hr, hw, -, -⟩ := wait_fields s up st k
  refine Grant.keep (fun p => ?_) (fun p hp => ?_) fun xs => nofun
  · rw [hr]
  · rwa [hw] at hp

omit [Fintype P] in
theorem Grant.writer (hp : s.state p = .QueueingW) (hs : s'.writes = update s.writes p true)
    (hr : ∀ q, s'.reads q ≤ s.reads q) : Grant s c (s', some (.pop [p])) where
  popped xs hxs := by
    cases hxs
    refine .inl ⟨p, rfl, hp, ?_⟩
    change s'.writes p = true
    rw [hs, update_self]
  others _ q hq := by
    have hqp : q ≠ p := fun h => hq [p] rfl (List.mem_singleton.mpr h)
    refine ⟨hr q, fun hw => ?_⟩
    change s'.writes q = true at hw
    rwa [hs, update_of_ne hqp] at hw

theorem sum_reads (f : P → ℕ) (p : P) (n : ℕ) : ∑ q, update f p n q + f p = ∑ q, f q + n := by
  rw [Finset.sum_update_of_mem (Finset.mem_univ p), ← Finset.add_sum_erase _ f (Finset.mem_univ p),
    Finset.sdiff_singleton_eq_erase]
  omega

theorem Inv.giveread (hi : Inv s c) (hw : s.writer = 0) (hh : s.head = none) :
    Inv (s.giveread p) c where
  toWaiters := by
    refine hi.toWaiters.congr rfl rfl rfl rfl rfl (fun q _ hr => ?_) fun _ _ h => h
    change 0 < update s.reads p (s.reads p + 1) q
    by_cases hqp : q = p
    · rw [hqp, update_self]
      exact Nat.succ_pos _
    · rwa [update_of_ne hqp]
  readers := by
    have := sum_reads s.reads p (s.reads p + 1)
    change s.readers + 1 = ((∑ q, update s.reads p (s.reads p + 1) q : ℕ) : ℤ)
    rw [hi.readers]
    omega
  writer := by
    obtain h | h := hi.writer
    · exact .inl h
    · rw [hw] at h
      cases h.1
  first q hq := by
    rw [← hi.head, hh] at hq
    cases hq

theorem Inv.wait (hi : Inv s c) (hk : Waits st k) (hup : s.pc up = .out)
    (hfirst : s.head = none → s.writer = 0 → st = .QueueingW ∧ 0 < s.readers) :
    Inv (s.wait up st k) (c ++ [up]) := by
  obtain ⟨hst, -, hr, hw, hrs, hws⟩ := wait_fields s up st k
  refine ⟨hi.toWaiters.wait hk hup, ?_, ?_, fun p hp h0 => ?_⟩
  · rw [hrs, hr]
    exact hi.readers
  · rw [hrs, hws, hw]
    exact hi.writer
  · rw [hws] at h0
    rw [hst, hrs]
    cases c with
    | nil =>
      cases hp
      rw [update_self]
      exact hfirst hi.head h0
    | cons a c =>
      have hap : a = p := Option.some.inj hp
      have hne : a ≠ up := ne_of_mem_of_not_mem List.mem_cons_self (hi.out hup)
      rw [← hap, update_of_ne hne]
      exact hi.first a rfl h0

omit [DecidableEq P] in
theorem Inv.empty (hi : Inv s c) (h : s.head = none) : c = [] := by
  rw [hi.head] at h
  exact List.head?_eq_none_iff.mp h

theorem Inv.rlock (hi : Inv s c) (hup : s.pc up = .out) : Next s c (s.rlock up) := by
  unfold Sys.rlock
  split_ifs with h
  · exact ⟨.empty (hi.empty h.2), c, hi.giveread h.1 h.2, rfl⟩
  · exact ⟨.wait, c ++ [up], hi.wait (.inl ⟨rfl, rfl⟩) hup fun hh hw => absurd ⟨hw, hh⟩ h, rfl⟩

theorem Inv.canrlock (hi : Inv s c) : Next s c (s.canrlock up) := by
  unfold Sys.canrlock
  split_ifs with h
  · exact ⟨.empty (hi.empty h.2), c, hi.giveread h.1 h.2, rfl⟩
  · exact ⟨.keep (fun _ => le_rfl) (fun _ h => h) fun _ => nofun, c, hi, rfl⟩

omit [DecidableEq P] in
theorem Inv.free (hi : Inv s c) (hr : s.readers = 0) (hw : s.writer = 0) : c = [] := by
  cases c with
  | nil => rfl
  | cons p c =>
    obtain ⟨-, h⟩ := hi.first p rfl hw
    rw [hr] at h
    cases h

omit [DecidableEq P] in
theorem Inv.readers_nonneg (hi : Inv s c) : 0 ≤ s.readers := by
  rw [hi.readers]
  exact Int.natCast_nonneg _

theorem Inv.wlock (hi : Inv s c) (hup : s.pc up = .out) : Next s c (s.wlock up) := by
  unfold Sys.wlock
  split_ifs with h
  · obtain ⟨hr, hw⟩ := h
    have hnone : ∀ p, s.writes p = false := by
      obtain ⟨-, h⟩ | ⟨h, -⟩ := hi.writer
      · exact h
      · rw [hw] at h
        cases h
    have hc : c = [] := hi.free hr hw
    refine ⟨.empty hc, c, ⟨hi.toWaiters.congr rfl rfl rfl rfl rfl (fun _ _ h => h) fun q hq h => ?_,
      hi.readers, .inr ⟨rfl, hr, up, update_self .., fun q hq => ?_⟩, fun _ _ => nofun⟩, rfl⟩
    · rw [hnone q] at h
      cases h
    · by_contra hne
      change update s.writes up true q = true at hq
      rw [update_of_ne hne, hnone q] at hq
      cases hq
  · refine ⟨.wait, c ++ [up], hi.wait (.inr ⟨rfl, rfl⟩) hup fun hh hw => ⟨rfl, ?_⟩, rfl⟩
    have := hi.readers_nonneg
    have : s.readers ≠ 0 := fun hr => h ⟨hr, hw⟩
    omega

/-- The lock goes to the writer at the head of the queue. -/
theorem Waiters.handoff (h : Waiters s (p :: c)) (hp : s.state p = .QueueingW)
    (hup : s.pc up = .out) (hr : s.readers = ((∑ p, s.reads p : ℕ) : ℤ)) (hr0 : s.readers = 0)
    (hw : s.writer = 1) (hnone : ∀ q, s.writes q = false) : Inv (s.givewrite up p) c where
  toWaiters := h.givewrite hp hup
  readers := hr
  writer := by
    refine .inr ⟨hw, hr0, p, update_self .., fun q hq => ?_⟩
    by_contra hne
    change update s.writes p true q = true at hq
    rw [update_of_ne hne, hnone q] at hq
    cases hq
  first q _ h0 := by
    rw [show (s.givewrite up p).writer = 1 from hw] at h0
    cases h0

theorem Inv.runlock (hi : Inv s c) (hup : s.pc up = .out) (hread : 0 < s.reads up) :
    Next s c (s.runlock up) := by
  have hsum : (s.takeread up).readers = ((∑ p, (s.takeread up).reads p : ℕ) : ℤ) := by
    have := sum_reads s.reads up (s.reads up - 1)
    change s.readers - 1 = ((∑ q, update s.reads up (s.reads up - 1) q : ℕ) : ℤ)
    rw [hi.readers]
    omega
  have hread' : ∀ p, (s.takeread up).reads p ≤ s.reads p := by
    intro p
    change update s.reads up (s.reads up - 1) p ≤ s.reads p
    by_cases hp : p = up
    · rw [hp, update_self]
      exact Nat.sub_le ..
    · rw [update_of_ne hp]
  have hpos : 0 < s.readers := by
    rw [hi.readers]
    have := Finset.add_sum_erase _ s.reads (Finset.mem_univ up)
    omega
  have hwriter : s.writer = 0 ∧ ∀ p, s.writes p = false := by
    obtain h | ⟨-, h, -⟩ := hi.writer
    · exact h
    · omega
  have hwait : Waiters (s.takeread up) c := by
    refine hi.toWaiters.congr rfl rfl rfl rfl rfl (fun q hq hr => ?_) fun _ _ h => h
    have hqup : q ≠ up := by
      rintro rfl
      rw [hup] at hq
      cases hq
    change 0 < update s.reads up (s.reads up - 1) q
    rwa [update_of_ne hqup]
  unfold Sys.runlock
  cases c with
  | nil =>
    simp only [show (s.takeread up).head = none from hwait.head]
    exact ⟨.empty rfl, [], ⟨hwait, hsum, .inl hwriter, nofun⟩, rfl⟩
  | cons p c =>
    have hst : (s.takeread up).state p = .QueueingW := (hi.first p rfl hwriter.1).1
    simp only [show (s.takeread up).head = some p from hwait.head, hst, ne_eq, not_true_eq_false,
      if_false]
    split_ifs with h
    · refine ⟨.keep hread' (fun _ h => h) fun _ => nofun, p :: c,
        ⟨hwait, hsum, .inl hwriter, fun q hq _ => ?_⟩, rfl⟩
      rw [← Option.some.inj (show some p = some q from hq)]
      exact ⟨hst, h⟩
    · have h0 : (s.takeread up).readers = 0 := by
        change s.readers - 1 = 0
        change ¬ 0 < s.readers - 1 at h
        omega
      have hwait' : Waiters ((s.takeread up).setwriter 1) (p :: c) :=
        hwait.congr rfl rfl rfl rfl rfl (fun _ _ h => h) fun _ _ h => h
      exact ⟨.writer hst rfl hread', c, hwait'.handoff hst hup hsum h0 rfl hwriter.2, rfl⟩

omit [Fintype P] in
theorem Grant.takewrite (up : P) {r : Sys P × Option (FifoEvent P)} (h : Grant (s.takewrite up) c r) :
    Grant s c r where
  popped := h.popped
  others hc p hp := by
    obtain ⟨h₁, h₂⟩ := h.others hc p hp
    refine ⟨h₁, fun hw => ?_⟩
    have hw := h₂ hw
    change update s.writes up false p = true at hw
    by_cases hpu : p = up
    · rw [hpu, update_self] at hw
      cases hw
    · rwa [update_of_ne hpu] at hw

theorem sum_woken {f g : P → ℕ} {R : List P} (hR : R.Nodup)
    (h : ∀ p, g p = f p + if p ∈ R then 1 else 0) : ∑ p, g p = ∑ p, f p + R.length := by
  have hmem : (Finset.univ.filter fun p => p ∈ R) = R.toFinset := by
    ext p
    rw [Finset.mem_filter, List.mem_toFinset, and_iff_right (Finset.mem_univ p)]
  have hsum : ∑ p, (if p ∈ R then 1 else 0) = R.length := by
    rw [← Finset.sum_filter, hmem, ← Finset.card_eq_sum_ones, List.toFinset_card_of_nodup hR]
  simp only [h]
  rw [Finset.sum_add_distrib, hsum]

theorem Inv.wunlock (hi : Inv s c) (hup : s.pc up = .out) (hwrite : s.writes up = true) :
    ∃ r, s.wunlock up = some r ∧ Next s c r := by
  obtain ⟨hw, hr, hone⟩ : s.writer = 1 ∧ s.readers = 0 ∧ ∀ q, s.writes q = true → q = up := by
    obtain ⟨-, h⟩ | ⟨hw, hr, p, -, hone⟩ := hi.writer
    · rw [h up] at hwrite
      cases hwrite
    · exact ⟨hw, hr, fun q hq => (hone q hq).trans (hone up hwrite).symm⟩
  have hnone : ∀ q, (s.takewrite up).writes q = false := by
    intro q
    change update s.writes up false q = false
    by_cases hq : q = up
    · rw [hq, update_self]
    · rw [update_of_ne hq]
      exact Bool.eq_false_iff.mpr fun h => hq (hone q h)
  have hwait : Waiters (s.takewrite up) c := by
    refine hi.toWaiters.congr rfl rfl rfl rfl rfl (fun _ _ h => h) fun q hq h => ?_
    have hqup : q ≠ up := by
      rintro rfl
      rw [hup] at hq
      cases hq
    change update s.writes up false q = true
    rwa [update_of_ne hqup]
  unfold Sys.wunlock
  cases c with
  | nil =>
    simp only [show (s.takewrite up).head = none from hwait.head]
    have hwait' : Waiters ((s.takewrite up).setwriter 0) [] :=
      hwait.congr rfl rfl rfl rfl rfl (fun _ _ h => h) fun _ _ h => h
    exact ⟨_, rfl, .empty rfl, [], ⟨hwait', hi.readers, .inl ⟨rfl, hnone⟩, nofun⟩, rfl⟩
  | cons p c =>
    simp only [show (s.takewrite up).head = some p from hwait.head]
    obtain ⟨hst, -⟩ | ⟨hst, -⟩ := hwait.queued p List.mem_cons_self
    · have hlen : (p :: c).length < Fintype.card P + 1 :=
        Nat.lt_succ_of_le hwait.nodup.length_le_card
      obtain ⟨s', h₁, h₂, h₃, h₄, h₅, h₆, h₇, h₈, h₉, h₁₀⟩ :=
        wakereaders_spec _ hwait.chain hwait.nodup hlen
      obtain ⟨R, hR⟩ : ∃ R, R = (p :: c).takeWhile (isReader (s.takewrite up)) := ⟨_, rfl⟩
      obtain ⟨D, hD⟩ : ∃ D, D = (p :: c).dropWhile (isReader (s.takewrite up)) := ⟨_, rfl⟩
      have hRD : p :: c = R ++ D := by rw [hR, hD, List.takeWhile_append_dropWhile]
      have hpR : p ∈ R := by
        rw [hR, List.takeWhile_cons_of_pos (show isReader (s.takewrite up) p = true from
          decide_eq_true hst)]
        exact List.mem_cons_self
      have hreaders : ∀ q ∈ R, (s.takewrite up).state q = .QueueingR := by
        intro q hq
        have : isReader (s.takewrite up) q = true := List.mem_takeWhile_imp (hR ▸ hq)
        exact of_decide_eq_true this
      have hbehind : ∀ q, D.head? = some q → (s.takewrite up).state q = .QueueingW := fun q hq =>
        hwait.behind (hD ▸ hq)
      rw [← hR] at h₁ h₈ h₉ h₁₀
      rw [hRD] at hwait
      have hsum := sum_woken (List.nodup_append.mp hwait.nodup).1 h₉
      have hwait' : Waiters s'.woken D :=
        hwait.wake hreaders (hD ▸ h₂) h₃ (by rw [← h₄]; rfl) h₆ h₇ h₉ h₁₀
      rw [h₁]
      simp only [hst]
      refine ⟨_, rfl, Grant.takewrite up ⟨fun xs hxs => ?_, fun _ q hq => ⟨?_, fun hw => ?_⟩⟩, D,
        ⟨hwait', ?_, .inl ⟨rfl, fun q => ?_⟩, fun q hq _ => ⟨?_, ?_⟩⟩, hRD⟩
      · cases hxs
        refine .inr ⟨List.ne_nil_of_mem hpR, hR, fun q hq => ?_⟩
        change s'.reads q = _
        rw [h₉, if_pos hq]
      · change s'.reads q ≤ _
        rw [h₉, if_neg (hq R rfl)]
        exact le_rfl
      · change s'.writes q = true at hw
        rwa [h₇] at hw
      · change s'.readers = _
        rw [h₈]
        change s.readers + _ = ((∑ q, s'.reads q : ℕ) : ℤ)
        rw [hi.readers, hsum, Nat.cast_add]
        rfl
      · change s'.writes q = false
        rw [h₇]
        exact hnone q
      · change s'.state q = _
        have hqR : q ∉ R := fun hqR => by
          have := hreaders q hqR
          rw [hbehind q hq] at this
          cases this
        rw [h₁₀, if_neg hqR]
        exact hbehind q hq
      · change 0 < s'.readers
        have := List.length_pos_of_mem hpR
        rw [h₈]
        change 0 < s.readers + _
        omega
    · rw [if_pos hst]
      exact ⟨_, rfl, Grant.takewrite up (.writer hst rfl fun _ => le_rfl), c,
        hwait.handoff hst hup hi.readers hr hw hnone, rfl⟩

/-! ## The steps outside the sections -/

omit [DecidableEq P] in
/-- A step that moves processes that neither wait in the queue nor are about to be made ready. -/
theorem Inv.frame (hi : Inv s c) (hs : s' = { s with state := s'.state, pc := s'.pc })
    (hpc : ∀ r, s'.pc r = s.pc r ∨ s'.pc r = .out)
    (hq : ∀ r ∈ c, s'.state r = s.state r ∧ s'.pc r = s.pc r)
    (hw : ∀ u r, s'.pc u = .readies r → s'.state r = s.state r ∧ s'.pc r = s.pc r) :
    Inv s' c := by
  have hpc' : ∀ r, s'.pc r ≠ .out → s'.pc r = s.pc r := fun r h => (hpc r).resolve_right h
  have hqueue : Queue s' c := hi.toQueue.congr (by rw [hs]) (by rw [hs]) (by rw [hs])
  refine ⟨⟨hqueue, fun r hr => ?_, fun u r hu => ?_, fun r hr => ?_, fun r hr => ?_⟩, ?_, ?_, ?_⟩
  · rw [(hq r hr).1, (hq r hr).2]
    exact hi.queued r hr
  · have hreadies : ∀ v, s'.pc v = .readies r → s.pc v = .readies r := by
      intro v hv
      rwa [← hpc' v (by rw [hv]; nofun)]
    obtain ⟨h₁, h₂, h₃, h₄⟩ := hi.woken u r (hreadies u hu)
    rw [(hw u r hu).1, (hw u r hu).2]
    exact ⟨h₁, h₂, h₃, fun v hv => h₄ v (hreadies v hv)⟩
  · obtain ⟨h₁, h₂⟩ := hi.given r hr
    rw [hs]
    refine ⟨fun h => h₁ ?_, fun h => h₂ ?_⟩
    · rwa [← hpc' r (by rw [h]; nofun)]
    · rwa [← hpc' r (by rw [h]; nofun)]
  · obtain h | h := hpc r
    · rw [h] at hr
      exact hi.panic r hr
    · rw [h] at hr
      cases hr
  · rw [hs]
    exact hi.readers
  · rw [hs]
    exact hi.writer
  · intro r hr h0
    rw [hs] at h0
    rw [(hq r (List.mem_of_head? hr)).1, hs]
    exact hi.first r hr h0

omit [DecidableEq P] in
theorem Inv.running (hi : Inv s c) (hp : s.state p = .Ready ∨ s.state p = .Running) :
    p ∉ c ∧ ∀ u, s.pc u ≠ .readies p := by
  have hne : s.state p ≠ .QueueingR ∧ s.state p ≠ .QueueingW := by
    obtain h | h := hp
    · rw [h]
      exact ⟨State.noConfusion, State.noConfusion⟩
    · rw [h]
      exact ⟨State.noConfusion, State.noConfusion⟩
  refine ⟨fun hc => ?_, fun u hu => hne.2 (hi.woken u p hu).2.1⟩
  obtain ⟨h, -⟩ | ⟨h, -⟩ := hi.queued p hc
  · exact hne.1 h
  · exact hne.2 h

theorem Inv.setstate (hi : Inv s c) (hp : s.state p = .Ready ∨ s.state p = .Running) :
    Inv (s.setstate p st) c := by
  obtain ⟨hc, hu⟩ := hi.running hp
  refine hi.frame rfl (fun r => .inl rfl) (fun r hr => ⟨?_, rfl⟩) fun u r hur => ⟨?_, rfl⟩
  · exact update_of_ne (ne_of_mem_of_not_mem hr hc) ..
  · refine update_of_ne ?_ ..
    rintro rfl
    exact hu u hur

theorem Inv.resume (hi : Inv s c) (hp : s.state p = .Running) : Inv (s.goto p .out) c := by
  obtain ⟨hc, hu⟩ := hi.running (.inr hp)
  have hpc : (s.goto p .out).pc = update s.pc p .out := rfl
  refine hi.frame rfl (fun r => ?_) (fun r hr => ⟨rfl, ?_⟩) fun u r hur => ⟨rfl, ?_⟩
  · rw [hpc]
    by_cases hr : r = p
    · rw [hr, update_self]
      exact .inr rfl
    · rw [update_of_ne hr]
      exact .inl rfl
  · exact update_of_ne (ne_of_mem_of_not_mem hr hc) ..
  · refine update_of_ne ?_ ..
    rintro rfl
    rw [hpc] at hur
    by_cases hur' : u = r
    · rw [hur', update_self] at hur
      cases hur
    · rw [update_of_ne hur'] at hur
      exact hu u hur

/-- The call of `ready` for the writer that was given the lock. -/
theorem Inv.ready (hi : Inv s c) (hp : s.pc p = .readies q) :
    Inv ((s.setstate q .Ready).goto p .out) c := by
  obtain ⟨hqc, -, hqw, hone⟩ := hi.woken p q hp
  have hpc : ((s.setstate q .Ready).goto p .out).pc = update s.pc p .out := rfl
  have hst : ((s.setstate q .Ready).goto p .out).state = update s.state q .Ready := rfl
  have hwaits : ∀ r, r ∈ c → r ≠ p := by
    rintro r hr rfl
    obtain ⟨-, h⟩ | ⟨-, h⟩ := hi.queued r hr
    · rw [hp] at h
      cases h
    · rw [hp] at h
      cases h
  refine hi.frame rfl (fun r => ?_) (fun r hr => ⟨?_, ?_⟩) fun u r hur => ?_
  · rw [hpc]
    by_cases hr : r = p
    · rw [hr, update_self]
      exact .inr rfl
    · rw [update_of_ne hr]
      exact .inl rfl
  · rw [hst, update_of_ne (ne_of_mem_of_not_mem hr hqc)]
  · rw [hpc, update_of_ne (hwaits r hr)]
  · have hup : u ≠ p := by
      rintro rfl
      rw [hpc, update_self] at hur
      cases hur
    rw [hpc, update_of_ne hup] at hur
    obtain ⟨-, -, hrw, -⟩ := hi.woken u r hur
    have hrq : r ≠ q := by
      rintro rfl
      exact hup (hone u hur)
    have hrp : r ≠ p := by
      rintro rfl
      rw [hp] at hrw
      cases hrw
    rw [hst, hpc, update_of_ne hrq, update_of_ne hrp]
    exact ⟨rfl, rfl⟩

/-! ## Runs -/

theorem Inv.init (h : (kernel P).init s) : Inv s [] := by
  obtain ⟨hh, ht, hr, hw, hp⟩ := h
  refine ⟨⟨⟨hh, ht, List.nodup_nil⟩, List.forall_mem_nil _, fun u p hu => ?_, fun p _ => ?_,
    fun p => ?_⟩, ?_, .inl ⟨hw, fun p => (hp p).2.2.2⟩, nofun⟩
  · rw [(hp u).2.1] at hu
    cases hu
  · rw [(hp p).2.1]
    exact ⟨nofun, nofun⟩
  · rw [(hp p).2.1]
    exact nofun
  · rw [hr, Finset.sum_eq_zero fun p _ => (hp p).2.2.1]
    rfl

theorem Inv.step {a : Act P} {r : Sys P × Option (FifoEvent P)} (hi : Inv s c)
    (h : a.run s = some r) : Next s c r := by
  have hstay : ∀ s', s'.reads = s.reads → s'.writes = s.writes → Inv s' c → Next s c (s', none) :=
    fun s' hr hw hi => ⟨.keep (fun p => by rw [hr]) (fun p h => by rwa [← hw]) fun _ => nofun, c, hi,
      rfl⟩
  cases a with
  | rlock p =>
    obtain ⟨hp, h⟩ := Option.ite_none_right_eq_some.mp h
    cases h
    exact hi.rlock hp.1
  | canrlock p =>
    obtain ⟨-, h⟩ := Option.ite_none_right_eq_some.mp h
    cases h
    exact hi.canrlock
  | runlock p =>
    obtain ⟨⟨hp, hr⟩, h⟩ := Option.ite_none_right_eq_some.mp h
    cases h
    exact hi.runlock hp.1 hr
  | wlock p =>
    obtain ⟨hp, h⟩ := Option.ite_none_right_eq_some.mp h
    cases h
    exact hi.wlock hp.1
  | wunlock p =>
    obtain ⟨⟨hp, hw⟩, h⟩ := Option.ite_none_right_eq_some.mp h
    obtain ⟨r', hr', hnext⟩ := hi.wunlock hp.1 hw
    rw [hr'] at h
    cases h
    exact hnext
  | ready p =>
    rw [Act.run] at h
    split at h
    · rename_i q hq
      obtain ⟨-, h⟩ := Option.ite_none_right_eq_some.mp h
      cases h
      exact hstay _ rfl rfl (hi.ready hq)
    · cases h
  | resume p =>
    obtain ⟨hp, h⟩ := Option.ite_none_right_eq_some.mp h
    cases h
    exact hstay _ rfl rfl (hi.resume hp.1)
  | dispatch p =>
    obtain ⟨hp, h⟩ := Option.ite_none_right_eq_some.mp h
    cases h
    exact hstay _ rfl rfl (hi.setstate (.inl hp))
  | preempt p =>
    obtain ⟨hp, h⟩ := Option.ite_none_right_eq_some.mp h
    cases h
    exact hstay _ rfl rfl (hi.setstate (.inr hp))

/-- What the lock guarantees, with the queue `c`. -/
structure Safe (s : Sys P) (c : List P) : Prop where
  queue : Chain s.qnext s.head c
  waits : ∀ p ∈ c, (s.state p = .QueueingR ∧ s.pc p = .rwait) ∨
    (s.state p = .QueueingW ∧ s.pc p = .wwait)
  given : ∀ p, p ∉ c → (s.pc p = .rwait → 0 < s.reads p) ∧ (s.pc p = .wwait → s.writes p = true)
  excludes : ∀ p, s.writes p = true → ∀ q, s.reads q = 0 ∧ (s.writes q = true → q = p)
  counts : s.readers = ((∑ p, s.reads p : ℕ) : ℤ)
  free : (∀ p, s.reads p = 0 ∧ s.writes p = false) → c = []
  panic : ∀ p, s.pc p ≠ .panic
  ends : ∀ p, s.Out p → s.writes p = true → ∃ r, s.wunlock p = some r

theorem Inv.safe (hi : Inv s c) : Safe s c where
  queue := hi.chain
  waits := hi.queued
  given := hi.given
  excludes p hp q := by
    obtain ⟨-, h⟩ | ⟨-, hr, p', -, hone⟩ := hi.writer
    · rw [h p] at hp
      cases hp
    · have hsum : ∑ p, s.reads p = 0 := by
        rw [hi.readers] at hr
        exact Int.natCast_eq_zero.mp hr
      refine ⟨Finset.sum_eq_zero_iff.mp hsum q (Finset.mem_univ q), fun hq => ?_⟩
      rw [hone q hq, hone p hp]
  counts := hi.readers
  free h := by
    refine hi.free ?_ ?_
    · rw [hi.readers, Finset.sum_eq_zero fun p _ => (h p).1]
      rfl
    · obtain ⟨hw, -⟩ | ⟨-, -, p, hp, -⟩ := hi.writer
      · exact hw
      · rw [(h p).2] at hp
        cases hp
  panic := hi.panic
  ends p hp hw := by
    obtain ⟨r, hr, -⟩ := hi.wunlock hp.1 hw
    exact ⟨r, hr⟩

/-- Two processes. -/
private def start : Sys Bool where
  head := none
  tail := none
  qnext _ := none
  readers := 0
  writer := 0
  state _ := .Running
  pc _ := .out
  reads _ := 0
  writes _ := false

end NixMark.Rwlock
