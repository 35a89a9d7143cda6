import NixMark.Sem.Wakeups

/-!
# The units of a semaphore are conserved

* `Units`: value, calls that have returned 1 and calls that are about to account for all units.
* `Good`: no `tsemacquire` whose time is negative takes a unit after it has queued; then it would
  return 0 with it.
* `units_conserved`, `units_lost`.
-/

namespace NixMark.Sem

open Lib
open Function (update update_apply)

variable {P A : Type} [DecidableEq P] [DecidableEq A] {s s' : Sys P A} {p q : P} {a : A} {k : Pc P A}

/-- A `tsemacquire` that takes its unit in the loop has time left. -/
def Good (s : Sys P A) (e : P × Act A) : Prop :=
  ∀ a ms v, s.pc e.1 = .cas ⟨a, .tsem ms⟩ v → s.value a = v → 0 < ms

variable [Fintype P]

/-- The acquires that are about to return 1. -/
def getting (s : Sys P A) (a : A) : Nat := ∑ p, if (s.pc p).gets = some a then 1 else 0

/-- What the units of the semaphores and of the calls add up to. -/
structure Units (start : A → Int) (s : Sys P A) : Prop where
  sum : ∀ a, start a + s.released a < 2147483648 →
    start a + s.released a = s.value a + s.ones a + getting s a
  value : ∀ a, 0 ≤ start a → start a + s.released a < 2147483648 → 0 ≤ s.value a
  took : ∀ p, s.pc p ≠ .idle → s.took p = if (s.pc p).gets.isSome then 1 else 0

theorem getting_goto : getting (s.goto p k) a + (if (s.pc p).gets = some a then 1 else 0) =
    getting s a + if k.gets = some a then 1 else 0 :=
  sum_update (fun k : Pc P A => if k.gets = some a then 1 else 0) s.pc p k

theorem getting_same (h : k.gets = (s.pc p).gets) : getting (s.goto p k) a = getting s a := by
  have hg := getting_goto (s := s) (p := p) (k := k) (a := a)
  rw [h] at hg
  exact Nat.add_right_cancel hg

variable {start : A → Int}

omit [DecidableEq P] in
/-- The list, its lock and the flags do not matter. -/
theorem Units.frame (h : Units start s) (hvalue : s'.value = s.value) (hpc : s'.pc = s.pc)
    (hreleased : s'.released = s.released) (hones : s'.ones = s.ones) (htook : s'.took = s.took) :
    Units start s' where
  sum a := by
    unfold getting
    rw [hvalue, hpc, hreleased, hones]
    exact h.sum a
  value := by rw [hvalue, hreleased]; exact h.value
  took := by rw [hpc, htook]; exact h.took

theorem Units.goto (h : Units start s) (hg : k.gets = (s.pc p).gets) (hp : s.pc p ≠ .idle) :
    Units start (s.goto p k) where
  sum a := by
    rw [getting_same hg]
    exact h.sum a
  value := h.value
  took q hq := by
    rw [goto_pc] at hq ⊢
    split
    · rename_i hqp
      rw [hg, hqp]
      exact h.took p hp
    · rename_i hqp
      rw [if_neg hqp] at hq
      exact h.took q hq

/-- A call begins. -/
theorem Units.begin (h : Units start s) (hp : s.pc p = .idle) (hk : k.gets = none) :
    Units start ((s.begin p).goto p k) where
  sum a := by
    rw [getting_same (s := s.begin p) (by rw [hk, show (s.begin p).pc p = _ from hp]; rfl)]
    exact h.sum a
  value := h.value
  took q hq := by
    change update s.took p 0 q = _
    rw [goto_pc, update_apply] at *
    split
    · rw [hk]
      rfl
    · rename_i hqp
      rw [if_neg hqp] at hq
      exact h.took q hq

/-- A unit goes to the call of `p`, which is about to return 1 with it. -/
theorem Units.take (h : Units start s) (hw : Words s) {b : A} (hpos : 0 < s.value b)
    (hp : (s.pc p).gets = none) (hidle : s.pc p ≠ .idle) (hk : k.gets = some b) :
    Units start ((s.take p b).goto p k) where
  sum a ha := by
    have hs := h.sum a ha
    have hbound : start a + (s.released a : Int) < 2147483648 := ha
    have hg := getting_goto (s := s) (p := p) (k := k) (a := a)
    simp only [hp, hk, Option.some.injEq, reduceCtorEq, if_false, Nat.add_zero] at hg
    change start a + (s.released a : Int) = update s.value b (long (s.value b - 1)) a + (s.ones a : Int) +
      (getting (s.goto p k) a : Nat)
    rw [update_apply]
    by_cases hab : a = b
    · subst hab
      have hlow := hw.value a
      rw [if_pos rfl] at hg ⊢
      rw [long_eq (by omega) (by omega)]
      omega
    · rw [if_neg (Ne.symm hab)] at hg
      rw [if_neg hab]
      omega
  value a hstart ha := by
    have hv := h.value a hstart ha
    have hs := h.sum a ha
    have hbound : start a + (s.released a : Int) < 2147483648 := ha
    change 0 ≤ update s.value b (long (s.value b - 1)) a
    rw [update_apply]
    by_cases hab : a = b
    · subst hab
      rw [if_pos rfl, long_eq (by omega) (by omega)]
      omega
    · rwa [if_neg hab]
  took q hq := by
    change update s.took p (s.took p + 1) q = _
    rw [goto_pc, update_apply] at *
    split
    · rw [hk, h.took p hidle, hp]
      rfl
    · rename_i hqp
      rw [if_neg hqp] at hq
      exact h.took q hq

theorem Units.release (h : Units start s) (hw : Words s) {b : A} {delta v : Int}
    (hp : s.pc p = .relcas b delta v) (hd : 0 ≤ delta) :
    Units start ((s.release b delta).goto p (.wlock (.release b) delta.toNat)) := by
  have hkeep : Units start (s.goto p (.wlock (.release b) delta.toNat)) :=
    h.goto (by rw [hp]; rfl) (by rw [hp]; exact fun h => nomatch h)
  have hvalue : ∀ a, start a + ((s.release b delta).released a : Nat) < 2147483648 →
      start a + s.released a < 2147483648 ∧ start a + ((s.release b delta).released a : Nat) =
        start a + s.released a + ((s.release b delta).value a - s.value a) ∧
      s.value a ≤ (s.release b delta).value a := by
    intro a ha
    change start a + ((update s.released b (s.released b + delta.toNat) a : Nat) : Int) <
      2147483648 at ha
    change _ ∧ start a + ((update s.released b (s.released b + delta.toNat) a : Nat) : Int) =
      start a + s.released a + (update s.value b (long (s.value b + delta)) a - s.value a) ∧
      s.value a ≤ update s.value b (long (s.value b + delta)) a
    rw [update_apply] at ha ⊢
    rw [update_apply]
    by_cases hab : a = b
    · subst hab
      rw [if_pos rfl] at ha ⊢
      have hs := h.sum a (by omega)
      have hlow := hw.value a
      rw [if_pos rfl, long_eq (by omega) (by omega)]
      omega
    · rw [if_neg hab] at ha ⊢
      rw [if_neg hab]
      omega
  refine ⟨fun a ha => ?_, fun a hstart ha => ?_, hkeep.took⟩
  · obtain ⟨hold, hsum, -⟩ := hvalue a ha
    have hs := hkeep.sum a hold
    change start a + ((s.release b delta).released a : Nat) = (s.release b delta).value a +
      (s.ones a : Nat) + (getting (s.goto p (.wlock (.release b) delta.toNat)) a : Nat)
    change start a + (s.released a : Nat) = s.value a + (s.ones a : Nat) + _ at hs
    omega
  · obtain ⟨hold, -, hle⟩ := hvalue a ha
    exact Int.le_trans (h.value a hstart hold) hle

/-- A call returns. -/
theorem Units.count (h : Units start s) {b : A} {r : Res} (hp : s.pc p = .ret b r) :
    Units start ((s.count b r).goto p .idle) where
  sum a ha := by
    have hs := h.sum a ha
    have hg := getting_goto (s := s) (p := p) (k := .idle) (a := a)
    rw [hp] at hg
    change start a + (s.released a : Int) =
      s.value a + (update s.ones b (s.ones b + if r = .one then 1 else 0) a : Nat) +
      (getting (s.goto p .idle) a : Nat)
    rw [update_apply]
    by_cases hr : r = .one
    · by_cases hab : a = b
      · subst hab
        simp [Pc.gets, hr] at hg ⊢
        omega
      · simp [Pc.gets, hr, hab, Ne.symm hab] at hg ⊢
        omega
    · by_cases hab : a = b
      · subst hab
        simp [Pc.gets, hr] at hg ⊢
        omega
      · simp [Pc.gets, hr, hab] at hg ⊢
        omega
  value := h.value
  took q hq := by
    rw [goto_pc] at hq ⊢
    split
    · rename_i hqp
      rw [if_pos hqp] at hq
      exact absurd rfl hq
    · rename_i hqp
      rw [if_neg hqp] at hq
      exact h.took q hq

/-- `wakeup(q)` -/
theorem Units.wakeup (h : Units start s) : Units start (s.wakeup q) := by
  unfold Sys.wakeup
  split
  · rename_i c hc
    exact h.goto (by rw [hc]; rfl) (by rw [hc]; exact fun h => nomatch h)
  · exact h

theorem Units.move (h : Units start s) (hw : Words s) (hm : Move s p s')
    (hgood : ∀ a ms v, s.pc p = .cas ⟨a, .tsem ms⟩ v → s.value a = v → 0 < ms) :
    Units start s' := by
  cases hm with
  | plain hp hk => exact h.goto hk.gets hp
  | begin hp hk => exact h.begin hp (by rw [hk.gets, hp]; rfl)
  | count hp => exact h.count hp
  | @take0 c v hp hv =>
    have hs := hw.sane p
    rw [hp] at hs
    exact h.take hw (hv ▸ hs) (by rw [hp]; rfl) (by simp [hp]) rfl
  | @take c v hp hv =>
    have hs := hw.sane p
    rw [hp] at hs
    refine h.take hw (hv ▸ hs) (by rw [hp]; rfl) (by simp [hp]) ?_
    refine if_pos ?_
    obtain ⟨a, kind⟩ := c
    cases kind with
    | sem block => rfl
    | tsem ms => simp [Kind.result, hgood a ms v hp hv]
  | @release a delta v hp hv =>
    have hs := hw.sane p
    rw [hp] at hs
    exact h.release hw hp hs
  | @queue c hp hl =>
    have hmid : Units start (s.enqueue p c.addr) := h.frame rfl rfl rfl rfl rfl
    exact hmid.goto (by rw [enqueue_pc, hp]; rfl) (by simp [enqueue_pc, hp])
  | @dequeue c acq hp hl =>
    have hmid : Units start (s.unqueue p) := h.frame rfl rfl rfl rfl rfl
    exact hmid.goto (by rw [unqueue_pc, hp]; rfl) (by simp [unqueue_pc, hp])
  | @top c hp =>
    have hmid : Units start (s.setwaiting p true) := h.frame rfl rfl rfl rfl rfl
    exact hmid.goto (by rw [setwaiting_pc, hp]; rfl) (by simp [setwaiting_pc, hp])
  | @wlock c n hp hl =>
    have hmid : Units start (s.setlock (some p)) := h.frame rfl rfl rfl rfl rfl
    refine hmid.goto ?_ (by simp [setlock_pc, hp])
    rw [setlock_pc, hp]
    cases c <;> rfl
  | @unlock c rest n hp hend =>
    have hmid : Units start (s.setlock none) := h.frame rfl rfl rfl rfl rfl
    refine hmid.goto ?_ (by simp [setlock_pc, hp])
    rw [setlock_pc, hp]
    cases c <;> rfl
  | @choose c x rest n hp hx hxw =>
    have hmid : Units start (s.setwaiting x false) := h.frame rfl rfl rfl rfl rfl
    refine hmid.goto ?_ (by simp [setwaiting_pc, hp])
    rw [setwaiting_pc, hp]
    cases c <;> rfl
  | @skip c x rest n hp hx =>
    refine h.goto ?_ (by simp [hp])
    rw [hp]
    cases c <;> rfl
  | @wake c x rest n hp =>
    have hsame : (s.wakeup x).pc p = .wake c x rest n := by
      unfold Sys.wakeup
      split
      · rename_i c' hc
        rw [goto_pc, if_neg ?_, hp]
        rintro rfl
        rw [hp] at hc
        cases hc
      · exact hp
    refine h.wakeup.goto ?_ (by simp [hsame])
    rw [hsame]
    cases c <;> rfl

/-- Units released, values and calls agree. -/
structure Conserved (start : A → Int) (s : Sys P A) : Prop where
  value : ∀ a, 0 ≤ start a → start a + s.released a < 2147483648 → 0 ≤ s.value a
  sum : ∀ a, start a + s.released a < 2147483648 →
    start a + s.released a = s.value a + s.ones a + getting s a
  ret : ∀ p a r, s.pc p = .ret a r → s.took p = if r = .one then 1 else 0

theorem units_inductive (start : A → Int) :
    ((sem (P := P) start).restrict Good).Inductive fun s => Words s ∧ Units start s where
  init := by
    rintro s ⟨hv, hlong, hlist, hlock, hidle, hreleased, hones⟩
    refine ⟨words_init ⟨hv, hlong, hlist, hlock, hidle, hreleased, hones⟩, fun a _ => ?_,
      fun a ha _ => ?_, fun p hp => ?_⟩
    · have hget : getting s a = 0 := Finset.sum_eq_zero fun p _ => by rw [hidle]; rfl
      rw [hv, hreleased, hones, hget]
      simp
    · rwa [hv]
    · exact absurd (hidle p) hp
  step := by
    rintro s ⟨p, act⟩ s' ⟨hw, hu⟩ ⟨hs, hgood⟩
    have hm := act_cases hs
    exact ⟨hw.move hm, hu.move hw hm hgood⟩

theorem units_conserved {start : A → Int} (h : ((sem start).restrict Good).Reach s) :
    Conserved start s := by
  obtain ⟨-, hu⟩ := (units_inductive start).reach h
  refine ⟨hu.value, hu.sum, fun p a r hp => ?_⟩
  rw [hu.took p (by rw [hp]; exact fun h => nomatch h), hp]
  cases r <;> rfl

/-- A `tsemacquire` finds nothing, queues, and finds the unit of a `semrelease`. -/
private def timedrun (ms : Int) : List (Bool × Act Unit) :=
  [(false, .tsemacquire () ms), (false, .go), (false, .go), (false, .go), (true, .semrelease () 1),
    (true, .go), (true, .go), (true, .go), (false, .go), (false, .go), (false, .go), (false, .go),
    (false, .go)]

/-- Steps that take no unit when no time is left. -/
private def goodact (s : Sys P A) (e : P × Act A) : Option (Sys P A) :=
  match s.pc e.1 with
  | .cas ⟨_, .tsem ms⟩ _ => if 0 < ms then s.act e.1 e.2 else none
  | _ => s.act e.1 e.2

omit [Fintype P] in
theorem goodact_step (start : A → Int) (s : Sys P A) (e : P × Act A) (s' : Sys P A)
    (h : goodact s e = some s') : ((sem start).restrict Good).step s e s' := by
  unfold goodact at h
  split at h
  · rename_i hp
    obtain ⟨hms, h⟩ := Option.ite_none_right_eq_some.mp h
    refine ⟨h, fun a ms v hp' _ => ?_⟩
    rw [hp] at hp'
    cases hp'
    exact hms
  · rename_i hp
    exact ⟨h, fun a ms v hp' _ => absurd hp' (hp _ _ _)⟩

theorem units_conserved_timed : ∃ s : Sys Bool Unit, ((sem fun _ => 0).restrict Good).Reach s ∧
    s.pc false = .ret () .one ∧ s.took false = 1 ∧ Conserved (fun _ => 0) s := by
  obtain ⟨s, hs⟩ : ∃ s, (timedrun 5).foldlM goodact (atrest Bool) = some s := ⟨_, rfl⟩
  have hreach : ((sem fun _ => 0).restrict Good).Reach s :=
    Lts.Reach.exec (goodact_step fun _ => 0) ⟨[], .init atrest_init⟩ hs
  cases hs
  exact ⟨_, hreach, rfl, rfl, units_conserved hreach⟩

/-- With -1 ms it returns 0 and keeps the unit. -/
theorem units_lost : ∃ s : Sys Bool Unit, (sem fun _ => 0).Reach s ∧ s.pc false = .ret () .zero ∧
    s.took false = 1 ∧ s.released () = 1 ∧ s.value () = 0 ∧ s.ones () = 0 ∧ getting s () = 0 ∧
    ¬ Conserved (fun _ => 0) s := by
  obtain ⟨s, hs⟩ : ∃ s, (timedrun (-1)).foldlM (fun s e => s.act e.1 e.2) (atrest Bool) = some s :=
    ⟨_, rfl⟩
  have hreach : (sem fun _ => 0).Reach s :=
    Lts.Reach.exec (fun _ _ _ h => h) ⟨[], .init atrest_init⟩ hs
  cases hs
  refine ⟨_, hreach, rfl, rfl, rfl, rfl, rfl, rfl, fun h => ?_⟩
  have hret := h.ret false () .zero rfl
  exact absurd hret (by decide)

end NixMark.Sem
