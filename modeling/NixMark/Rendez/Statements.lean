import NixMark.Rendez.Protocol

/-!
# The statements of `sleep`, `wakeup` and `postnote`

`sleep_inv`, `wakeup_inv`, `postnote_inv`: each statement keeps `Inv`, and no `check` panics.

* `Inv.turn_sleep`, `Inv.write_sleep`: the process itself. It is the only one in `sleep` on its
  `Rendez`, so it finds `r->p` nil (`Inv.setp_free`).
* `Inv.turn_waker`, `Inv.write_waker`: another process, with the lock of the `Rendez`, finds it
  asleep (`Inv.asleep`).
-/

namespace NixMark.Rendez

open Lib
open Function (update update_of_ne update_self)
open Runq (State)

variable {P R : Type} {s s' : Sys P R} {t u p q : P} {r : R}
  {k l : Pc P R} {kd : Kind} {m m' : P → Option (Kind × R)} {j j' : Sleep}

/-! ## The statements of `sleep` -/

/-- The process that is about to write `r->p` finds no other there. -/
theorem Inv.setp_free (hi : Inv m s) (hk : s.pc t = .sleep r .setp) :
    s.rp r = none ∧ m t = none := by
  have hm : m t = none := hi.awake fun r' j h kd => by
    rw [hk] at h
    cases h
    cases kd <;> rfl
  refine ⟨?_, hm⟩
  by_contra hrp
  obtain ⟨q, hq⟩ := Option.ne_none_iff_exists'.mp hrp
  have hrq := (hi.agrees.rp r q).mp hq
  cases hmq : m q with
  | none =>
    rw [hmq] at hrq
    cases hrq
  | some x =>
    obtain ⟨j, hj, -⟩ := hi.fits q x hmq
    have hxr : x.2 = r := by
      rw [hmq] at hrq
      obtain ⟨_ | _, _⟩ := x <;> cases hrq <;> rfl
    have htq : t = q := hi.single r t q (by rw [hk]; rfl) (by rw [hj]; exact hxr)
    rw [htq, hmq] at hm
    cases hm

variable [DecidableEq P]

/-- The process moves on in `sleep`. -/
theorem Inv.turn_sleep (hi : Inv m s) (hk : s.pc t = .sleep r j) (hs : Same s s')
    (hpc : s'.pc = update s.pc t (.sleep r j'))
    (hlock : Owned (fun _ => Pc.heldr) s'.pc s'.lock) (hrlock : Owned Pc.heldp s'.pc s'.rlock)
    (hkn : (Pc.sleep r j').Knows m t) (hj : ∀ kd : Kind, kd.place j = true → kd.place j' = true)
    (hx : ∀ q x, (Pc.sleep r j).tells t = some (q, x) → x.1 ≠ .linked →
      (Pc.sleep r j').tells t = some (q, x)) : Inv m s' := by
  refine hi.turn hs hpc hlock hrlock hkn (fun x hm => ?_) (by rwa [hk]) ⟨fun r' h => .inl ?_, nofun⟩
  · obtain ⟨_, h, hp⟩ := hi.fits t x hm
    rw [hk] at h
    cases h
    exact ⟨j', rfl, hj x.1 hp⟩
  · rw [hk]
    exact h

/-- It tells what it told before. -/
theorem Inv.pass_sleep (hi : Inv m s) (hk : s.pc t = .sleep r j) (hs : Same s s')
    (hpc : s'.pc = update s.pc t (.sleep r j'))
    (hlock : Owned (fun _ => Pc.heldr) s'.pc s'.lock) (hrlock : Owned Pc.heldp s'.pc s'.rlock)
    (hj : ∀ kd : Kind, kd.place j = true → kd.place j' = true)
    (hx : (Pc.sleep r j : Pc P R).tells t = (Pc.sleep r j').tells t) : Inv m s' := by
  refine hi.turn_sleep hk hs hpc hlock hrlock ⟨fun q x h => ?_, nofun, nofun⟩ hj
    fun _ _ h _ => hx ▸ h
  exact (hi.knows t).tells q x (by rwa [hk, hx])

/-- The process writes a link of its own or its state. -/
theorem Inv.write_sleep {x : Option Kind} (hi : Inv m s) (hk : s.pc t = .sleep r j)
    (ha : Agrees (update m t (x.map (·, r))) s')
    (hpc : s'.pc = update s.pc t (.sleep r j')) (hlock : s'.lock = s.lock)
    (hrlock : s'.rlock = s.rlock)
    (hr : (Pc.sleep r j : Pc P R).heldr = some r ∧ (Pc.sleep r j' : Pc P R).heldr = some r)
    (hp : (Pc.sleep r j).heldp t = some t ∧ (Pc.sleep r j').heldp t = some t)
    (hm : ∀ r', rpOf (m t) = some r' → r' = r)
    (hx : (Pc.sleep r j').tells t = x.map (t, ·, r)) (hf : x.all (·.place j') = true)
    (hc : ∀ p, s'.nsleep p = s'.nready p + if s'.state p = .Wakeme then 1 else 0) :
    Inv (update m t (x.map (·, r))) s' := by
  have hkn : (Pc.sleep r j').Knows (update m t (x.map (·, r))) t := by
    cases x with
    | none => exact .silent hx rfl rfl
    | some y => exact .tell (update_self ..) hx rfl rfl
  refine hi.write ha hpc hlock hrlock (hk ▸ hr) (hk ▸ hp) hm hkn (fun p y hy => ?_)
    (fun y hy _ => ?_) ⟨fun r' h => .inl ?_, nofun⟩ hc
  · by_cases hpt : p = t
    · rw [hpt, update_self] at hy ⊢
      obtain ⟨kd, rfl, rfl⟩ := Option.map_eq_some_iff.mp hy
      exact ⟨j', rfl, hf⟩
    · rw [update_of_ne hpt] at hy ⊢
      exact hi.fits p y hy
  · obtain ⟨kd, rfl, rfl⟩ := Option.map_eq_some_iff.mp hy
    exact hx
  · rw [hk]
    exact h

/-- A process that has no kind goes on. -/
theorem Inv.turn_none (hi : Inv m s) (hm : m t = none) (hs : Same s s')
    (hpc : s'.pc = update s.pc t l)
    (hlock : Owned (fun _ => Pc.heldr) s'.pc s'.lock) (hrlock : Owned Pc.heldp s'.pc s'.rlock)
    (hkn : l.Knows m t)
    (hx : ∀ q x, (s.pc t).tells t = some (q, x) → x.1 ≠ .linked → l.tells t = some (q, x))
    (ht : Turn s t l) : Inv m s' :=
  hi.turn hs hpc hlock hrlock hkn (fun x h => absurd (hm.symm.trans h) (Option.some_ne_none x).symm)
    hx ht

theorem count_commit (hc : ∀ p, s.nsleep p = s.nready p + if s.state p = .Wakeme then 1 else 0)
    (ht : s.state t ≠ .Wakeme) (p : P) :
    (s.commit t).nsleep p = (s.commit t).nready p + if (s.commit t).state p = .Wakeme then 1 else 0 := by
  change update s.nsleep t (s.nsleep t + 1) p =
    s.nready p + if update s.state t .Wakeme p = .Wakeme then 1 else 0
  have := hc p
  by_cases hpt : p = t
  · rw [hpt, if_neg ht] at this
    rw [hpt, update_self, update_self, if_pos rfl, this]
  · rwa [update_of_ne hpt, update_of_ne hpt]

variable [DecidableEq R]

theorem sleep_inv (hi : Inv m s) (hk : s.pc t = .sleep r j) (h : s.sleep t r j = some s') :
    ∃ m', Inv m' s' := by
  have hkn := hi.knows t
  rw [hk] at hkn
  have hr : (s.pc t).heldr = (Pc.sleep r j : Pc P R).heldr := by rw [hk]
  have hp : (s.pc t).heldp t = (Pc.sleep r j : Pc P R).heldp t := by rw [hk]
  have ha := hi.agrees
  have hrp : ∀ {kd}, m t = some (kd, r) → ∀ r', rpOf (m t) = some r' → r' = r := by
    intro kd hm r' h
    rw [hm] at h
    cases kd <;> cases h <;> rfl
  cases j with
  | lockr =>
    obtain ⟨h0, h⟩ := Option.ite_none_right_eq_some.mp h
    cases h
    exact ⟨m, hi.pass_sleep hk ⟨rfl, rfl, fun _ => .rfl, rfl, rfl⟩ rfl (hi.lock.acquire h0 hr rfl)
      (hi.rlock.stay hp.symm) (fun kd => by cases kd <;> exact id) rfl⟩
  | lockp =>
    obtain ⟨h0, h⟩ := Option.ite_none_right_eq_some.mp h
    cases h
    exact ⟨m, hi.pass_sleep hk ⟨rfl, rfl, fun _ => .rfl, rfl, rfl⟩ rfl (hi.lock.stay hr.symm)
      (hi.rlock.acquire h0 hp rfl) (fun kd => by cases kd <;> exact id) rfl⟩
  | setp =>
    obtain ⟨h0, hm⟩ := hi.setp_free hk
    cases h
    refine ⟨_, hi.write_sleep (x := some .shown) hk
      (.congr (ha.setp h0 hm rfl rfl rfl rfl) rfl rfl rfl) rfl rfl rfl ⟨rfl, rfl⟩ ⟨rfl, rfl⟩ ?_ rfl
      rfl hi.count⟩
    rw [hm]
    exact nofun
  | test | note =>
    cases h
    split <;> exact ⟨m, hi.pass_sleep hk ⟨rfl, rfl, fun _ => .rfl, rfl, rfl⟩ rfl
      (hi.lock.stay hr.symm) (hi.rlock.stay hp.symm) (fun kd => by cases kd <;> exact id) rfl⟩
  | nevermind =>
    have hm := hkn.tells t _ rfl
    cases h
    exact ⟨_, hi.write_sleep (x := none) hk (.congr (ha.clrp hm rfl rfl rfl rfl) rfl rfl rfl) rfl rfl
      rfl ⟨rfl, rfl⟩ ⟨rfl, rfl⟩ (hrp hm) rfl rfl hi.count⟩
  | neverp =>
    cases h
    exact ⟨m, hi.pass_sleep hk ⟨rfl, rfl, fun _ => .rfl, rfl, rfl⟩ rfl (hi.lock.stay hr.symm)
      (hi.rlock.release hp rfl) (fun kd => by cases kd <;> exact id) rfl⟩
  | neverr =>
    cases h
    exact ⟨m, hi.pass_sleep hk ⟨rfl, rfl, fun _ => .rfl, rfl, rfl⟩ rfl (hi.lock.release hr rfl)
      (hi.rlock.stay hp.symm) (fun kd => by cases kd <;> exact id) rfl⟩
  | commit =>
    have hm := hkn.tells t _ rfl
    cases h
    have hst : s.state t ≠ .Wakeme := fun h => by
      have := (ha.wakeme t).mp h
      rw [hm] at this
      cases this
    exact ⟨_, hi.write_sleep (x := some .half) hk
      (.congr (ha.setstate hm rfl rfl (iff_of_true rfl rfl)) rfl rfl rfl) rfl rfl rfl ⟨rfl, rfl⟩
      ⟨rfl, rfl⟩ (hrp hm) rfl rfl (count_commit hi.count hst)⟩
  | setr =>
    have hm := hkn.tells t _ rfl
    cases h
    exact ⟨_, hi.write_sleep (x := some .linked) hk (.congr (ha.setr hm rfl rfl) rfl rfl rfl) rfl rfl
      rfl ⟨rfl, rfl⟩ ⟨rfl, rfl⟩ (hrp hm) rfl rfl hi.count⟩
  | unlockp =>
    cases h
    refine ⟨m, hi.turn_sleep hk ⟨rfl, rfl, fun _ => .rfl, rfl, rfl⟩ rfl (hi.lock.stay hr.symm)
      (hi.rlock.release hp rfl) (.silent rfl rfl rfl) (fun kd => by cases kd <;> exact id) ?_⟩
    rintro _ _ ⟨⟩ hx
    exact absurd rfl hx
  | unlockr =>
    cases h
    exact ⟨m, hi.pass_sleep hk ⟨rfl, rfl, fun _ => .rfl, rfl, rfl⟩ rfl (hi.lock.release hr rfl)
      (hi.rlock.stay hp.symm) (fun kd => by cases kd <;> first | exact id | exact fun _ => rfl) rfl⟩
  | asleep =>
    obtain ⟨hst, h⟩ := Option.ite_none_right_eq_some.mp h
    cases h
    have hm : m t = none := by
      cases hm : m t with
      | none => rfl
      | some x =>
        obtain ⟨_, hj, hx⟩ := hi.fits t x hm
        rw [hk] at hj
        cases hj
        have := ha.wakeme t
        rw [hst, hm] at this
        obtain ⟨_ | _, _⟩ := x <;> revert hx this <;> simp [Kind.place, wakemeOf]
    refine ⟨m, hi.turn_none hm ⟨rfl, rfl, fun _ => .rfl, rfl, rfl⟩ rfl (hi.lock.stay hr.symm)
      (hi.rlock.stay hp.symm) (.silent rfl rfl rfl) ?_ ⟨fun r' h => .inl ?_, nofun⟩⟩
    · rw [hk]
      exact nofun
    · rw [hk]
      exact h
  | awake =>
    cases h
    have hm : m t = none := hi.awake fun r' j h kd => by
      rw [hk] at h
      cases h
      cases kd <;> rfl
    refine ⟨m, hi.turn_none hm ⟨rfl, rfl, fun _ => .rfl, rfl, rfl⟩ rfl (hi.lock.stay hr.symm)
      (hi.rlock.stay hp.symm) (.silent rfl rfl rfl) ?_ ⟨fun r' h => h.elim, nofun⟩⟩
    rw [hk]
    exact nofun

/-! ## The statements of `wakeup` and `postnote` -/

section
omit [DecidableEq P] [DecidableEq R]

theorem exists_of_rpOf (h : rpOf (m q) = some r) : ∃ kd, m q = some (kd, r) := by
  unfold rpOf at h
  split at h <;> cases h <;> exact ⟨_, by assumption⟩

theorem exists_of_prOf (h : prOf (m q) = some r) : ∃ kd, m q = some (kd, r) := by
  unfold prOf at h
  split at h <;> cases h <;> exact ⟨_, by assumption⟩

/-- A process that is found by another one with the lock of the `Rendez` has left it. -/
theorem Inv.asleep (hi : Inv m s) (hm : m q = some (kd, r)) (hr : (s.pc t).heldr = some r)
    (hqt : q ≠ t) : s.pc q = .sleep r .asleep := by
  obtain ⟨j, hj, hp⟩ := hi.fits q _ hm
  have hq : (s.pc q).heldr ≠ some r := fun h => hqt (hi.lock.unique h hr)
  rw [hj] at hq ⊢
  cases j <;> first | rfl | exact absurd rfl hq | skip
  all_goals cases kd <;> cases hp

end

section
omit [DecidableEq R]

/-- A process that is not in `sleep` writes what it tells. -/
theorem Inv.write_waker {x : Option Kind} (hi : Inv m s) (hk : s.pc t = k) (hns : ∀ r j, k ≠ .sleep r j)
    (ht : k.tells t = some (q, kd, r)) (ha : Agrees (update m q (x.map (·, r))) s')
    (hpc : s'.pc = update s.pc t l) (hlock : s'.lock = s.lock)
    (hrlock : s'.rlock = s.rlock) (hl : l.heldr = some r ∧ l.heldp t = some q)
    (hx : l.tells t = x.map (q, ·, r)) (hsp : l.seesp = none) (hsr : l.seesr = none)
    (hf : x.all (·.place .asleep) = true) (hturn : (∀ r, ¬ l.sleeps r) ∧ l ≠ .panic)
    (hc : ∀ p, s'.nsleep p = s'.nready p + if s'.state p = .Wakeme then 1 else 0) :
    Inv (update m q (x.map (·, r))) s' := by
  have hm : m q = some (kd, r) := (hi.knows t).tells q _ (hk ▸ ht)
  have hmt : m t = none := hi.awake fun r j h => absurd (hk.symm.trans h) (hns r j)
  have hqt : q ≠ t := by
    rintro rfl
    rw [hm] at hmt
    cases hmt
  obtain ⟨hr, hp⟩ := Pc.tells_held ht
  rw [← hk] at hr hp
  have hkn : l.Knows (update m q (x.map (·, r))) t := by
    cases x with
    | none => exact .silent hx hsp hsr
    | some y => exact .tell (update_self ..) hx hsp hsr
  refine hi.write ha hpc hlock hrlock ⟨hr, hl.1⟩ ⟨hp, hl.2⟩ (fun r' h => ?_) hkn (fun p y hy => ?_)
    (fun y hy _ => ?_) ⟨fun r h => absurd h (hturn.1 r), hturn.2⟩ hc
  · obtain ⟨_, h⟩ := exists_of_rpOf h
    rw [hm] at h
    cases h
    rfl
  · by_cases hpq : p = q
    · rw [hpq, update_self] at hy
      rw [hpq, update_of_ne hqt, hi.asleep hm hr hqt]
      obtain ⟨kd, rfl, rfl⟩ := Option.map_eq_some_iff.mp hy
      exact ⟨_, rfl, hf⟩
    · rw [update_of_ne hpq] at hy
      have hpt : p ≠ t := by
        rintro rfl
        rw [hmt] at hy
        cases hy
      rw [update_of_ne hpt]
      exact hi.fits p y hy
  · obtain ⟨kd, rfl, rfl⟩ := Option.map_eq_some_iff.mp hy
    exact hx

theorem count_ready (hc : ∀ p, s.nsleep p = s.nready p + if s.state p = .Wakeme then 1 else 0)
    (hq : s.state q = .Wakeme) (p : P) :
    (s.ready q).nsleep p = (s.ready q).nready p + if (s.ready q).state p = .Wakeme then 1 else 0 := by
  change s.nsleep p = update s.nready q (s.nready q + 1) p +
    if update s.state q .Ready p = .Wakeme then 1 else 0
  have := hc p
  by_cases hpq : p = q
  · rw [hpq, if_pos hq] at this
    rw [hpq, update_self, update_self, if_neg nofun, this]
  · rwa [update_of_ne hpq, update_of_ne hpq]

/-- `ready(p)` by who tells that the links are gone. -/
theorem Inv.ready_waker (hi : Inv m s) (hk : s.pc t = k) (hns : ∀ r j, k ≠ .sleep r j)
    (ht : k.tells t = some (q, .loose, r)) (hl : l.heldr = some r ∧ l.heldp t = some q)
    (hx : l.tells t = none) (hsp : l.seesp = none) (hsr : l.seesr = none)
    (hturn : (∀ r, ¬ l.sleeps r) ∧ l ≠ .panic) :
    Inv (update m q none) ((s.ready q).goto t l) := by
  have hm : m q = some (.loose, r) := (hi.knows t).tells q _ (hk ▸ ht)
  have hst : s.state q = .Wakeme := (hi.agrees.wakeme q).mpr (by rw [hm]; rfl)
  have ha : Agrees (update m q none) (s.setstate q .Ready) :=
    hi.agrees.setstate hm rfl rfl (iff_of_false nofun nofun)
  exact hi.write_waker (x := none) hk hns ht (ha.congr rfl rfl rfl) rfl rfl rfl hl hx hsp hsr rfl
    hturn (count_ready hi.count hst)

/-- A process that tells nothing goes on. -/
theorem Inv.turn_waker (hi : Inv m s) (hk : s.pc t = k) (hns : ∀ r j, k ≠ .sleep r j)
    (hx : k.tells t = none) (hs : Same s s') (hpc : s'.pc = update s.pc t l)
    (hlock : Owned (fun _ => Pc.heldr) s'.pc s'.lock) (hrlock : Owned Pc.heldp s'.pc s'.rlock)
    (hkn : l.Knows m t) (hl : (∀ r, ¬ l.sleeps r) ∧ l ≠ .panic) : Inv m s' := by
  refine hi.turn_none (hi.awake fun r j h => absurd (hk.symm.trans h) (hns r j)) hs hpc hlock hrlock
    hkn (fun q x h => ?_) ⟨fun r h => absurd h (hl.1 r), hl.2⟩
  rw [hk, hx] at h
  cases h

/-- It takes and gives back no lock. -/
theorem Inv.goto_waker (hi : Inv m s) (hk : s.pc t = k) (hns : ∀ r j, k ≠ .sleep r j)
    (hx : k.tells t = none) (hr : l.heldr = k.heldr) (hp : l.heldp t = k.heldp t)
    (hkn : l.Knows m t) (hl : (∀ r, ¬ l.sleeps r) ∧ l ≠ .panic) : Inv m (s.goto t l) :=
  hi.turn_waker hk hns hx ⟨rfl, rfl, fun _ => .rfl, rfl, rfl⟩ rfl (hi.lock.stay (hk ▸ hr))
    (hi.rlock.stay (hk ▸ hp)) hkn hl

end

theorem wakeup_inv {j : Wakeup P} (hi : Inv m s) (hk : s.pc t = .wakeup r j)
    (h : s.wakeup t r j = some s') : ∃ m', Inv m' s' := by
  have hkn := hi.knows t
  rw [hk] at hkn
  have hr : (s.pc t).heldr = (Pc.wakeup r j : Pc P R).heldr := by rw [hk]
  have hp : (s.pc t).heldp t = (Pc.wakeup r j : Pc P R).heldp t := by rw [hk]
  have hw : ∀ j : Wakeup P, (∀ r', ¬ (Pc.wakeup r j : Pc P R).sleeps r') ∧
      (Pc.wakeup r j : Pc P R) ≠ .panic := fun _ => ⟨fun _ h => h, nofun⟩
  have ha := hi.agrees
  cases j with
  | lock =>
    obtain ⟨h0, h⟩ := Option.ite_none_right_eq_some.mp h
    cases h
    exact ⟨m, hi.turn_waker hk nofun rfl ⟨rfl, rfl, fun _ => .rfl, rfl, rfl⟩ rfl
      (hi.lock.acquire h0 hr rfl) (hi.rlock.stay hp.symm) (.silent rfl rfl rfl) (hw _)⟩
  | read =>
    cases hrp : s.rp r with
    | none =>
      simp only [Sys.wakeup, hrp] at h
      cases h
      exact ⟨m, hi.goto_waker hk nofun rfl rfl rfl (.silent rfl rfl rfl) (hw _)⟩
    | some p =>
      simp only [Sys.wakeup, hrp] at h
      cases h
      refine ⟨m, hi.goto_waker hk nofun rfl rfl rfl ⟨nofun, ?_, nofun⟩ (hw _)⟩
      rintro _ _ ⟨⟩
      exact (ha.rp r p).mp hrp
  | lockp p =>
    obtain ⟨h0, h⟩ := Option.ite_none_right_eq_some.mp h
    cases h
    exact ⟨m, hi.turn_waker hk nofun rfl ⟨rfl, rfl, fun _ => .rfl, rfl, rfl⟩ rfl
      (hi.lock.stay hr.symm) (hi.rlock.acquire h0 hp rfl) ⟨nofun, hkn.seesp, nofun⟩ (hw _)⟩
  | check p =>
    obtain ⟨kd, hm⟩ := exists_of_rpOf (hkn.seesp p r rfl)
    obtain rfl := hi.linked hm (.inl hr) (by rw [hk]; rfl)
    obtain ⟨-, hpr, hst⟩ := hi.linked_spec hm
    simp only [Sys.wakeup, hpr, hst, ne_eq, not_true_eq_false, or_self, if_false] at h
    cases h
    exact ⟨m, hi.goto_waker hk nofun rfl rfl rfl (.tell hm rfl rfl rfl) (hw _)⟩
  | clrp p =>
    have hm := hkn.tells p _ rfl
    cases h
    exact ⟨_, hi.write_waker (x := some .unshown) hk nofun rfl
      (.congr (ha.clrp hm rfl rfl rfl rfl) rfl rfl rfl) rfl rfl rfl ⟨rfl, rfl⟩ rfl rfl rfl rfl (hw _)
      hi.count⟩
  | clrr p =>
    have hm := hkn.tells p _ rfl
    cases h
    exact ⟨_, hi.write_waker (x := some .loose) hk nofun rfl
      (.congr (ha.setr hm rfl rfl) rfl rfl rfl) rfl rfl rfl ⟨rfl, rfl⟩ rfl rfl rfl rfl (hw _) hi.count⟩
  | ready p =>
    cases h
    exact ⟨_, hi.ready_waker hk nofun rfl ⟨rfl, rfl⟩ rfl rfl rfl (hw _)⟩
  | unlockp p =>
    cases h
    exact ⟨m, hi.turn_waker hk nofun rfl ⟨rfl, rfl, fun _ => .rfl, rfl, rfl⟩ rfl
      (hi.lock.stay hr.symm) (hi.rlock.release hp rfl) (.silent rfl rfl rfl) (hw _)⟩
  | unlock =>
    cases h
    exact ⟨m, hi.turn_waker hk nofun rfl ⟨rfl, rfl, fun _ => .rfl, rfl, rfl⟩ rfl
      (hi.lock.release hr rfl) (hi.rlock.stay hp.symm) (.silent rfl rfl rfl) ⟨fun _ h => h, nofun⟩⟩

theorem postnote_inv {j : Postnote R} (hi : Inv m s) (hk : s.pc t = .postnote p j)
    (h : s.postnote t p j = some s') : ∃ m', Inv m' s' := by
  have hkn := hi.knows t
  rw [hk] at hkn
  have hr : (s.pc t).heldr = (Pc.postnote p j : Pc P R).heldr := by rw [hk]
  have hp : (s.pc t).heldp t = (Pc.postnote p j : Pc P R).heldp t := by rw [hk]
  have hw : ∀ j : Postnote R, (∀ r', ¬ (Pc.postnote p j : Pc P R).sleeps r') ∧
      (Pc.postnote p j : Pc P R) ≠ .panic := fun _ => ⟨fun _ h => h, nofun⟩
  have ha := hi.agrees
  cases j with
  | set =>
    cases h
    exact ⟨m, hi.turn_waker hk nofun rfl ⟨rfl, rfl, fun _ => .rfl, rfl, rfl⟩ rfl
      (hi.lock.stay hr.symm) (hi.rlock.stay hp.symm) (.silent rfl rfl rfl) (hw _)⟩
  | lockp =>
    obtain ⟨h0, h⟩ := Option.ite_none_right_eq_some.mp h
    cases h
    exact ⟨m, hi.turn_waker hk nofun rfl ⟨rfl, rfl, fun _ => .rfl, rfl, rfl⟩ rfl
      (hi.lock.stay hr.symm) (hi.rlock.acquire h0 hp rfl) (.silent rfl rfl rfl) (hw _)⟩
  | read =>
    cases hpr : s.pr p with
    | none =>
      simp only [Sys.postnote, hpr] at h
      cases h
      exact ⟨m, hi.goto_waker hk nofun rfl rfl rfl (.silent rfl rfl rfl) (hw _)⟩
    | some r =>
      simp only [Sys.postnote, hpr] at h
      cases h
      refine ⟨m, hi.goto_waker hk nofun rfl rfl rfl ⟨nofun, nofun, ?_⟩ (hw _)⟩
      rintro _ _ ⟨⟩
      exact (ha.pr p).symm.trans hpr
  | canlock r =>
    by_cases h0 : s.lock r = none
    · simp only [Sys.postnote, if_pos h0] at h
      cases h
      exact ⟨m, hi.turn_waker hk nofun rfl ⟨rfl, rfl, fun _ => .rfl, rfl, rfl⟩ rfl
        (hi.lock.acquire h0 hr rfl) (hi.rlock.stay hp.symm) ⟨nofun, nofun, hkn.seesr⟩ (hw _)⟩
    · simp only [Sys.postnote, if_neg h0] at h
      cases h
      exact ⟨m, hi.goto_waker hk nofun rfl rfl rfl (.silent rfl rfl rfl) (hw _)⟩
  | check r =>
    obtain ⟨kd, hm⟩ := exists_of_prOf (hkn.seesr p r rfl)
    obtain rfl := hi.linked hm (.inl hr) (by rw [hk]; rfl)
    obtain ⟨hrp, -, hst⟩ := hi.linked_spec hm
    simp only [Sys.postnote, hrp, hst, ne_eq, not_true_eq_false, or_self, if_false] at h
    cases h
    exact ⟨m, hi.goto_waker hk nofun rfl rfl rfl (.tell hm rfl rfl rfl) (hw _)⟩
  | clrr r =>
    have hm := hkn.tells p _ rfl
    cases h
    exact ⟨_, hi.write_waker (x := some .half) hk nofun rfl
      (.congr (ha.setr hm rfl rfl) rfl rfl rfl) rfl rfl rfl ⟨rfl, rfl⟩ rfl rfl rfl rfl (hw _) hi.count⟩
  | clrp r =>
    have hm := hkn.tells p _ rfl
    cases h
    exact ⟨_, hi.write_waker (x := some .loose) hk nofun rfl
      (.congr (ha.clrp hm rfl rfl rfl rfl) rfl rfl rfl) rfl rfl rfl ⟨rfl, rfl⟩ rfl rfl rfl rfl (hw _)
      hi.count⟩
  | ready r =>
    cases h
    exact ⟨_, hi.ready_waker hk nofun rfl ⟨rfl, rfl⟩ rfl rfl rfl (hw _)⟩
  | unlock r =>
    cases h
    exact ⟨m, hi.turn_waker hk nofun rfl ⟨rfl, rfl, fun _ => .rfl, rfl, rfl⟩ rfl
      (hi.lock.release hr rfl) (hi.rlock.stay hp.symm) (.silent rfl rfl rfl) (hw _)⟩
  | again | unlockp =>
    cases h
    exact ⟨m, hi.turn_waker hk nofun rfl ⟨rfl, rfl, fun _ => .rfl, rfl, rfl⟩ rfl
      (hi.lock.stay hr.symm) (hi.rlock.release hp rfl) (.silent rfl rfl rfl) (hw _)⟩
  | rendezvous =>
    by_cases hst : s.state p = .Rendezvous
    · simp only [Sys.postnote, if_pos hst] at h
      cases h
      refine ⟨m, hi.turn_waker hk nofun rfl ⟨rfl, rfl, fun q => ?_, rfl, rfl⟩ rfl
        (hi.lock.stay hr.symm) (hi.rlock.stay hp.symm) (.silent rfl rfl rfl) ⟨fun _ h => h, nofun⟩⟩
      change update s.state p .Ready q = .Wakeme ↔ _
      by_cases hqp : q = p
      · rw [hqp, update_self, hst]
        exact iff_of_false nofun nofun
      · rw [update_of_ne hqp]
    · simp only [Sys.postnote, if_neg hst] at h
      cases h
      exact ⟨m, hi.goto_waker hk nofun rfl rfl rfl (.silent rfl rfl rfl) ⟨fun _ h => h, nofun⟩⟩

end NixMark.Rendez
