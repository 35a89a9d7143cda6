import NixMark.Rendez.Statements

/-!
# Runs of sleep and wakeup

* `Owes`: while a process waits on a `Rendez` with its condition true, who made the condition true
  has yet to look for it; `Frame`: what a statement does to who waits and who owes.
* `inductive_inv`: `Inv` and `Owes` hold along every run, for any number of processes.
* `sleep_wakeup`: the links where the locks are free, no panic, one `ready` for a sleep, and no
  sleep that outlives its `wakeup`.
-/

namespace NixMark.Rendez

open Lib
open Function (update update_apply update_of_ne update_self)
open Runq (State)

variable {P R : Type} {s s' : Sys P R} {t u p q : P} {r : R} {m m' : P → Option (Kind × R)}
  {j : Sleep}

/-! ## Who owes a `wakeup` -/

/-- About to sleep, with the condition tested. -/
@[simp] def Pc.about (r : R) : Pc P R → Prop
  | .sleep r' .note | .sleep r' .commit => r' = r
  | _ => False

/-- In `wakeup`, with nothing left to do. -/
@[simp] def Pc.past (r : R) : Pc P R → Prop
  | .wakeup r' (.unlockp _) | .wakeup r' .unlock => r' = r
  | _ => False

def Waits (s : Sys P R) (q : P) (r : R) : Prop :=
  (s.pc q).about r ∨ (s.pc q).sleeps r ∧ s.state q = .Wakeme

/-- While a process waits with its condition true, who made it true has yet to look for it. -/
structure Owes (s : Sys P R) : Prop where
  none : ∀ r, s.cond r = false → ∀ t, s.duty t r = .none
  owed : ∀ q r, Waits s q r → s.cond r = true → (∃ t, s.duty t r = .owed) ∧
    ∀ t, s.duty t r ≠ .done ∧ (s.duty t r = .owed → ¬ (s.pc t).past r)

variable [DecidableEq P] [DecidableEq R]

/-- What a statement of the process `t` does to who waits and who owes. -/
structure Frame (s s' : Sys P R) (t : P) : Prop where
  pc : ∀ u, u ≠ t → s'.pc u = s.pc u
  state : ∀ q, s'.state q = .Wakeme → s.state q = .Wakeme ∨ q = t ∧ ∃ r, s.pc t = .sleep r .commit
  cond : s'.cond = s.cond
  duty : s'.duty = s.duty ∨ ∃ r, s.pc t = .wakeup r .unlock ∧ s'.duty = (s.done t r).duty
  about : ∀ r, (s'.pc t).about r → (s.pc t).about r ∨ s.cond r = false
  sleeps : ∀ r, (s'.pc t).sleeps r → (s.pc t).sleeps r ∨ s'.state t ≠ .Wakeme
  past : ∀ r, (s'.pc t).past r → (s.pc t).past r ∨ (s.pc t = .wakeup r .read ∧ s.rp r = none) ∨
    ∃ p, s.pc t = .wakeup r (.ready p) ∧ s'.state p = .Ready

omit [DecidableEq R] in
theorem wakeme_of_update {f : P → State} {st : State} (h : update f p st q = .Wakeme)
    (hst : st ≠ .Wakeme) : f q = .Wakeme := by
  by_cases hqp : q = p
  · rw [hqp, update_self] at h
    exact absurd h hst
  · rwa [update_of_ne hqp] at h

section
attribute [local simp] Sys.goto Sys.setlock Sys.setrlock Sys.setp Sys.setr Sys.setnote Sys.setstate
  Sys.ready Sys.done Pc.sleeps

theorem sleep_frame (hk : s.pc t = .sleep r j) (h : s.sleep t r j = some s') : Frame s s' t := by
  cases j with
  | lockr | lockp | asleep =>
    obtain ⟨-, h⟩ := Option.ite_none_right_eq_some.mp h
    cases h
    constructor <;> simp_all
  | test =>
    cases h
    by_cases hc : s.cond r = true <;> constructor <;> simp_all
  | note =>
    cases h
    by_cases hn : s.notepending t = true <;> constructor <;> simp_all
  | commit =>
    cases h
    constructor <;> simp_all [Sys.commit, update_apply]
    exact fun q hq => or_iff_not_imp_right.mpr hq
  | _ =>
    cases h
    constructor <;> simp_all

theorem wakeup_frame {j : Wakeup P} (hk : s.pc t = .wakeup r j) (h : s.wakeup t r j = some s') :
    Frame s s' t := by
  cases j with
  | lock | lockp =>
    obtain ⟨-, h⟩ := Option.ite_none_right_eq_some.mp h
    cases h
    constructor <;> simp_all
  | read =>
    cases hrp : s.rp r <;> simp only [Sys.wakeup, hrp] at h <;> cases h <;> constructor <;> simp_all
  | check p =>
    cases h
    by_cases hp : s.state p ≠ .Wakeme ∨ s.pr p ≠ some r <;> constructor <;> simp_all
  | ready p =>
    cases h
    constructor
    case state =>
      intro q (h : update s.state p .Ready q = _)
      exact .inl (wakeme_of_update h (by decide))
    all_goals simp_all
  | unlock =>
    cases h
    constructor
    case duty => exact .inr ⟨r, hk, rfl⟩
    all_goals simp_all
  | _ =>
    cases h
    constructor <;> simp_all

theorem postnote_frame {j : Postnote R} (hk : s.pc t = .postnote p j)
    (h : s.postnote t p j = some s') : Frame s s' t := by
  cases j with
  | lockp =>
    obtain ⟨-, h⟩ := Option.ite_none_right_eq_some.mp h
    cases h
    constructor <;> simp_all
  | read =>
    cases hpr : s.pr p <;> simp only [Sys.postnote, hpr] at h <;> cases h <;> constructor <;> simp_all
  | canlock r =>
    by_cases h0 : s.lock r = none
    · simp only [Sys.postnote, if_pos h0] at h
      cases h
      constructor <;> simp_all
    · simp only [Sys.postnote, if_neg h0] at h
      cases h
      constructor <;> simp_all
  | check r =>
    cases h
    by_cases hp : s.state p ≠ .Wakeme ∨ s.rp r ≠ some p <;> constructor <;> simp_all
  | ready r =>
    cases h
    constructor
    case state =>
      intro q (h : update s.state p .Ready q = _)
      exact .inl (wakeme_of_update h (by decide))
    all_goals simp_all
  | rendezvous =>
    cases h
    by_cases hst : s.state p = .Rendezvous
    · rw [if_pos hst]
      constructor
      case state =>
        intro q (h : update s.state p .Ready q = _)
        exact .inl (wakeme_of_update h (by decide))
      all_goals simp_all
    · constructor <;> simp_all
  | _ =>
    cases h
    constructor <;> simp_all

theorem go_frame (h : s.go t = some s') : Frame s s' t := by
  obtain ⟨-, h⟩ := Option.ite_none_left_eq_some.mp h
  cases hk : s.pc t with
  | idle | panic =>
    simp only [hk] at h
    cases h
  | rendezvous =>
    simp only [hk] at h
    obtain ⟨-, h⟩ := Option.ite_none_right_eq_some.mp h
    cases h
    constructor <;> simp_all
  | sleep r j =>
    simp only [hk] at h
    exact sleep_frame hk h
  | wakeup r j =>
    simp only [hk] at h
    exact wakeup_frame hk h
  | postnote p j =>
    simp only [hk] at h
    exact postnote_frame hk h

end

section
omit [DecidableEq P] [DecidableEq R]

theorem Pc.sleeps_of_about {k : Pc P R} (h : k.about r) : k.heldr = some r ∧ k.sleeps r := by
  unfold about at h
  split at h
  · exact ⟨congrArg some h, h⟩
  · exact ⟨congrArg some h, h⟩
  · exact h.elim

theorem Waits.sleeps (h : Waits s q r) : (s.pc q).sleeps r :=
  h.elim (fun h => (Pc.sleeps_of_about h).2) And.left

/-- Another process, with the lock of the `Rendez`, finds who waits asleep. -/
theorem Waits.asleep (h : Waits s q r) (hi : Inv m s) (hr : (s.pc t).heldr = some r)
    (ht : ¬ (s.pc t).sleeps r) : ∃ kd, m q = some (kd, r) ∧ s.pc q = .sleep r .asleep := by
  have hqt : q ≠ t := by
    rintro rfl
    exact ht h.sleeps
  obtain h | ⟨h, hst⟩ := h
  · exact absurd (hi.lock.unique (Pc.sleeps_of_about h).1 hr) hqt
  · have hw := (hi.agrees.wakeme q).mp hst
    cases hm : m q with
    | none =>
      rw [hm] at hw
      cases hw
    | some x =>
      obtain ⟨j, hj, -⟩ := hi.fits q x hm
      rw [hj] at h
      obtain ⟨kd, r'⟩ := x
      obtain rfl : r' = r := h
      exact ⟨kd, rfl, hi.asleep hm hr hqt⟩

end

theorem Frame.waits (hf : Frame s s' t) (h : Waits s' q r) : Waits s q r ∨ s.cond r = false := by
  by_cases hqt : q = t
  · subst hqt
    obtain h | ⟨h, hst⟩ := h
    · exact (hf.about r h).imp_left .inl
    · refine .inl ?_
      have hsl := (hf.sleeps r h).resolve_right (not_not_intro hst)
      obtain hst | ⟨-, r', hk⟩ := hf.state q hst
      · exact .inr ⟨hsl, hst⟩
      · unfold Waits
        rw [hk] at hsl ⊢
        exact .inl hsl
  · unfold Waits at h ⊢
    rw [hf.pc q hqt] at h
    obtain h | ⟨h, hst⟩ := h
    · exact .inl (.inl h)
    · obtain hst | ⟨h', -⟩ := hf.state q hst
      · exact .inl (.inr ⟨h, hst⟩)
      · exact absurd h' hqt

/-- Who is done with `r` leaves nobody waiting on it. -/
theorem Frame.past_of (hf : Frame s s' t) (hi : Inv m s) (hw : Waits s' q r) (hw' : Waits s q r)
    (h : (s'.pc u).past r) : (s.pc u).past r := by
  by_cases hut : u = t
  · rw [hut] at h ⊢
    obtain h | ⟨hk, hrp⟩ | ⟨p, hk, hst⟩ := hf.past r h
    · exact h
    · have hr : (s.pc t).heldr = some r := by rw [hk]; rfl
      obtain ⟨kd, hm, -⟩ := hw'.asleep hi hr (by rw [hk]; exact id)
      obtain rfl := hi.linked hm (.inl hr) (by rw [hk]; rfl)
      rw [(hi.linked_spec hm).1] at hrp
      cases hrp
    · have hr : (s.pc t).heldr = some r := by rw [hk]; rfl
      have hm : m p = some (.loose, r) := (hi.knows t).tells p _ (by rw [hk]; rfl)
      obtain ⟨j, hj, -⟩ := hi.fits p _ hm
      have hqp : q = p := hi.single r q p hw'.sleeps (by rw [hj]; rfl)
      obtain ⟨-, -, hq⟩ := hw'.asleep hi hr (by rw [hk]; exact id)
      have hqt : q ≠ t := by
        rintro rfl
        rw [hq] at hk
        cases hk
      obtain hw | ⟨-, hw⟩ := hw
      · rw [hf.pc q hqt, hq] at hw
        exact hw.elim
      · rw [hqp, hst] at hw
        cases hw
  · rwa [hf.pc u hut] at h

theorem Owes.frame (ho : Owes s) (hi : Inv m s) (hf : Frame s s' t) : Owes s' where
  none r hc u := by
    rw [hf.cond] at hc
    have h := ho.none r hc
    obtain hd | ⟨r', -, hd⟩ := hf.duty
    · rw [hd]
      exact h u
    · rw [hd]
      refine (if_neg ?_).trans (h u)
      rintro ⟨-, -, ho⟩
      rw [h u] at ho
      cases ho
  owed q r hw hc := by
    rw [hf.cond] at hc
    obtain hw' | hc' := hf.waits hw
    · obtain ⟨⟨u, hu⟩, h⟩ := ho.owed q r hw' hc
      have hd : ∀ u, s'.duty u r = s.duty u r := by
        intro u
        obtain hd | ⟨r', hk, hd⟩ := hf.duty
        · rw [hd]
        · rw [hd]
          refine if_neg ?_
          rintro ⟨rfl, rfl, ho⟩
          exact (h u).2 ho (by rw [hk]; rfl)
      refine ⟨⟨u, (hd u).trans hu⟩, fun v => ?_⟩
      rw [hd]
      exact ⟨(h v).1, fun hv hp => (h v).2 hv (hf.past_of hi hw hw' hp)⟩
    · rw [hc] at hc'
      cases hc'

/-! ## The runs -/

omit [DecidableEq P] in
theorem Owes.unset (ho : Owes s) : Owes (s.unset r) where
  none r' hc u := by
    change update s.cond r false r' = false at hc
    change (if r' = r then Duty.none else s.duty u r') = .none
    by_cases hrr : r' = r
    · rw [if_pos hrr]
    · rw [update_of_ne hrr] at hc
      rw [if_neg hrr]
      exact ho.none r' hc u
  owed q r' hw hc := by
    change update s.cond r false r' = true at hc
    have hrr : r' ≠ r := by
      rintro rfl
      rw [update_self] at hc
      cases hc
    rw [update_of_ne hrr] at hc
    have hd : ∀ u, (s.unset r).duty u r' = s.duty u r' := fun _ => if_neg hrr
    simp only [hd]
    exact ho.owed q r' hw hc

omit [DecidableEq P] [DecidableEq R] in
/-- A step that leaves the places and the locks. -/
theorem Inv.same (hi : Inv m s) (hs : Same s s') (hpc : s'.pc = s.pc) (hlock : s'.lock = s.lock)
    (hrlock : s'.rlock = s.rlock) : Inv m s' where
  lock := by rw [hlock, hpc]; exact hi.lock
  rlock := by rw [hrlock, hpc]; exact hi.rlock
  single := by rw [hpc]; exact hi.single
  agrees := hs.agrees hi.agrees
  knows := by rw [hpc]; exact hi.knows
  fits := by rw [hpc]; exact hi.fits
  said := by rw [hpc]; exact hi.said
  count p := by
    rw [hs.nsleep, hs.nready, hi.count p]
    simp only [hs.wakeme p]
  panic := by rw [hpc]; exact hi.panic

theorem go_inv (hi : Inv m s) (h : s.go t = some s') : ∃ m', Inv m' s' := by
  obtain ⟨-, h⟩ := Option.ite_none_left_eq_some.mp h
  cases hk : s.pc t with
  | idle | panic =>
    simp only [hk] at h
    cases h
  | rendezvous =>
    simp only [hk] at h
    obtain ⟨-, h⟩ := Option.ite_none_right_eq_some.mp h
    cases h
    exact ⟨m, hi.goto_waker hk nofun rfl rfl rfl (.silent rfl rfl rfl) ⟨fun _ h => h, nofun⟩⟩
  | sleep r j =>
    simp only [hk] at h
    exact sleep_inv hi hk h
  | wakeup r j =>
    simp only [hk] at h
    exact wakeup_inv hi hk h
  | postnote p j =>
    simp only [hk] at h
    exact postnote_inv hi hk h

omit [DecidableEq R] in
/-- Changes between states other than `Wakeme`. -/
theorem same_setstate (st : State) (hp : s.state p ≠ .Wakeme) (hst : st ≠ .Wakeme) :
    Same s (s.setstate p st) where
  rp := rfl
  pr := rfl
  wakeme q := by
    change update s.state p st q = .Wakeme ↔ _
    by_cases hqp : q = p
    · rw [hqp, update_self]
      exact iff_of_false hst hp
    · rw [update_of_ne hqp]
  nsleep := rfl
  nready := rfl

theorem setstate_frame (st : State) (t : P) (hst : st ≠ .Wakeme) : Frame s (s.setstate p st) t where
  pc _ _ := rfl
  state _ h := .inl (wakeme_of_update h hst)
  cond := rfl
  duty := .inl rfl
  about _ h := .inl h
  sleeps _ h := .inl h
  past _ h := .inl h

theorem Owes.owe (ho : Owes s) (hk : s.pc t = .idle) : Owes (s.owe t r) where
  none r' hc u := by
    change update s.cond r true r' = false at hc
    have hrr : r' ≠ r := by
      rintro rfl
      rw [update_self] at hc
      cases hc
    rw [update_of_ne hrr] at hc
    exact (if_neg fun h => hrr h.2.1).trans (ho.none r' hc u)
  owed q r' hw hc := by
    change update s.cond r true r' = true at hc
    have hd : ∀ u, (s.owe t r).duty u r' =
      if u = t ∧ r' = r ∧ s.duty u r' = .none then .owed else s.duty u r' := fun _ => rfl
    have hother : (∃ u, s.duty u r' = .owed) → ∃ u, (s.owe t r).duty u r' = .owed := by
      rintro ⟨u, hu⟩
      refine ⟨u, (hd u).trans ?_⟩
      rw [hu, if_neg fun h => by cases h.2.2]
    have hall : (∀ u, s.duty u r' ≠ .done ∧ (s.duty u r' = .owed → ¬ (s.pc u).past r')) →
        ∀ u, (s.owe t r).duty u r' ≠ .done ∧
          ((s.owe t r).duty u r' = .owed → ¬ (s.pc u).past r') := by
      intro h u
      rw [hd]
      split_ifs with hut
      · rw [hut.1, hk]
        exact ⟨nofun, fun _ => id⟩
      · exact h u
    by_cases hcond : s.cond r' = true
    · obtain ⟨h₁, h₂⟩ := ho.owed q r' hw hcond
      exact ⟨hother h₁, hall h₂⟩
    · have hnone := ho.none r' (Bool.eq_false_iff.mpr hcond)
      have hrr : r' = r := by
        by_contra hrr
        rw [update_of_ne hrr] at hc
        exact hcond hc
      refine ⟨⟨t, (hd t).trans (if_pos ⟨rfl, hrr, hnone t⟩)⟩, hall fun u => ?_⟩
      rw [hnone u]
      exact ⟨nofun, nofun⟩

/-- A process makes a call. -/
theorem call_inv {c : Call P R} (hi : Inv m s) (hk : s.pc t = .idle) (hst : s.state t = .Running)
    (hl : Act.Legal s (.call t c)) : Inv m (s.call t c) := by
  have hw : s.state t ≠ .Wakeme := by
    rw [hst]
    exact nofun
  cases c with
  | sleep r =>
    refine hi.turn_none (hi.awake fun r j h => ?_) ⟨rfl, rfl, fun _ => .rfl, rfl, rfl⟩ rfl
      (hi.lock.stay (by rw [hk]; rfl)) (hi.rlock.stay (by rw [hk]; rfl)) (.silent rfl rfl rfl)
      (fun q x h => ?_) ⟨fun r' h => .inr ?_, nofun⟩
    · rw [hk] at h
      cases h
    · rw [hk] at h
      cases h
    · obtain rfl : r = r' := h
      exact hl
  | wakeup | postnote =>
    exact hi.goto_waker hk nofun rfl rfl rfl (.silent rfl rfl rfl) ⟨fun _ h => h, nofun⟩
  | set r b => cases b <;> exact hi.same ⟨rfl, rfl, fun _ => .rfl, rfl, rfl⟩ rfl rfl rfl
  | rendezvous =>
    exact hi.turn_waker hk nofun rfl
      ⟨rfl, rfl, (same_setstate .Rendezvous hw nofun).wakeme, rfl, rfl⟩ rfl
      (hi.lock.stay (by rw [hk]; rfl)) (hi.rlock.stay (by rw [hk]; rfl)) (.silent rfl rfl rfl)
      ⟨fun _ h => h, nofun⟩

theorem call_frame {c : Call P R} (hst : s.state t = .Running) (hc : ∀ r b, c ≠ .set r b) :
    Frame s (s.call t c) t := by
  cases c with
  | set r b => exact absurd rfl (hc r b)
  | rendezvous =>
    constructor
    case state =>
      intro q (h : update s.state t .Rendezvous q = _)
      exact .inl (wakeme_of_update h (by decide))
    all_goals simp_all [Sys.call, Sys.goto, Sys.setstate, Pc.about, Pc.past, Pc.sleeps]
  | _ => constructor <;> simp_all [Sys.call, Sys.goto, Pc.about, Pc.past, Pc.sleeps]

theorem call_owes {c : Call P R} (ho : Owes s) (hi : Inv m s) (hk : s.pc t = .idle)
    (hst : s.state t = .Running) : Owes (s.call t c) := by
  cases c with
  | set r b =>
    cases b with
    | true => exact ho.owe hk
    | false => exact ho.unset
  | _ => exact ho.frame hi (call_frame hst nofun)

theorem inductive_inv : (kernel P R).Inductive fun s => (∃ m, Inv m s) ∧ Owes s where
  init s hs := by
    obtain ⟨hr, hp⟩ := hs
    have hpc : ∀ p, s.pc p = .idle := fun p => (hp p).2.2.2.1
    have hst : ∀ p, s.state p ≠ .Wakeme := fun p => by
      rw [(hp p).2.2.1]
      exact nofun
    have hw : ∀ q r, ¬ Waits s q r := fun q r h => by
      unfold Waits at h
      rw [hpc q] at h
      exact h.elim id fun h => h.1
    refine ⟨⟨fun _ => none, ?_⟩, fun r _ t => (hr r).2.2 t, fun q r h => absurd h (hw q r)⟩
    refine ⟨⟨fun r t => ?_, fun q t => ?_, fun r p q h _ => ?_⟩, ⟨fun r q => ?_, fun q => (hp q).2.1,
      fun q => iff_of_false (hst q) nofun⟩, fun t => ?_, nofun, nofun, fun p => ?_, fun t => ?_⟩
    · rw [hpc, (hr r).1]
      exact iff_of_false nofun nofun
    · rw [hpc, (hp q).1]
      exact iff_of_false nofun nofun
    · rw [hpc] at h
      exact h.elim
    · rw [(hr r).2.1]
      exact iff_of_false nofun nofun
    · rw [hpc]
      exact .silent rfl rfl rfl
    · rw [(hp p).2.2.2.2.1, (hp p).2.2.2.2.2, if_neg (hst p)]
    · rw [hpc]
      exact nofun
  step s a s' h hs := by
    obtain ⟨⟨m, hi⟩, ho⟩ := h
    obtain ⟨hl, ha⟩ := hs
    cases a with
    | call t c =>
      obtain ⟨⟨hk, hst⟩, ha⟩ := Option.ite_none_right_eq_some.mp ha
      cases ha
      exact ⟨⟨m, call_inv hi hk hst hl⟩, call_owes ho hi hk hst⟩
    | go t => exact ⟨go_inv hi ha, ho.frame hi (go_frame ha)⟩
    | dispatch t =>
      obtain ⟨hst, ha⟩ := Option.ite_none_right_eq_some.mp ha
      cases ha
      have hw : s.state t ≠ .Wakeme := by rw [hst]; exact nofun
      exact ⟨⟨m, hi.same (same_setstate .Running hw nofun) rfl rfl rfl⟩,
        ho.frame hi (setstate_frame .Running t nofun)⟩
    | preempt t =>
      obtain ⟨hst, ha⟩ := Option.ite_none_right_eq_some.mp ha
      cases ha
      have hw : s.state t ≠ .Wakeme := by rw [hst]; exact nofun
      exact ⟨⟨m, hi.same (same_setstate .Ready hw nofun) rfl rfl rfl⟩,
        ho.frame hi (setstate_frame .Ready t nofun)⟩
    | meet t =>
      obtain ⟨hst, ha⟩ := Option.ite_none_right_eq_some.mp ha
      cases ha
      have hw : s.state t ≠ .Wakeme := by rw [hst]; exact nofun
      exact ⟨⟨m, hi.same (same_setstate .Ready hw nofun) rfl rfl rfl⟩,
        ho.frame hi (setstate_frame .Ready t nofun)⟩

omit [DecidableEq P] [DecidableEq R] in
/-- Nobody is in the middle of the links of a process whose `rlock` is free. -/
theorem Inv.linked_of_free (hi : Inv m s) (hp : s.rlock p = none) {x : Kind × R}
    (hm : m p = some x) : x.1 = .linked := by
  by_contra hx
  obtain ⟨t, ht⟩ := hi.said p x hm hx
  have := (hi.rlock p t).mpr (Pc.tells_held ht).2
  rw [hp] at this
  cases this

/-- Where neither lock is held the links agree with the state, nothing panics, a sleep is ended
once, and who sleeps on a condition that is true waits for whoever made it true. -/
theorem sleep_wakeup (h : (kernel P R).Reach s) :
    (∀ r p, s.lock r = none → s.rlock p = none →
      (s.rp r = some p ↔ s.pr p = some r ∧ s.state p = .Wakeme)) ∧
    (∀ t, s.pc t ≠ .panic) ∧
    (∀ p, s.nsleep p = s.nready p + if s.state p = .Wakeme then 1 else 0) ∧
    ∀ r p, s.pc p = .sleep r .asleep → s.state p = .Wakeme → s.cond r = true →
      (∃ t, s.duty t r = .owed) ∧ ∀ t, s.duty t r ≠ .done := by
  obtain ⟨⟨m, hi⟩, ho⟩ := inductive_inv.reach h
  refine ⟨fun r p hr hp => ?_, hi.panic, hi.count, fun r p hk hst hc => ?_⟩
  · rw [hi.agrees.rp r p, hi.agrees.pr p, hi.agrees.wakeme p]
    cases hm : m p with
    | none => exact iff_of_false nofun nofun
    | some x =>
      obtain ⟨kd, r'⟩ := x
      obtain rfl : kd = .linked := hi.linked_of_free hp hm
      exact (and_iff_left rfl).symm
  · obtain ⟨h₁, h₂⟩ := ho.owed p r (.inr ⟨by rw [hk]; rfl, hst⟩) hc
    exact ⟨h₁, fun t => (h₂ t).1⟩

/-! ## A sleep that is ended -/

/-- Two processes, and one `Rendez`. -/
private def start : Sys Bool Unit where
  lock _ := none
  rlock _ := none
  rp _ := none
  pr _ := none
  state _ := .Running
  notepending _ := false
  cond _ := false
  pc _ := .idle
  nsleep _ := 0
  nready _ := 0
  duty _ _ := .none

/-- The steps that are legal wherever they are taken. -/
private def others (s : Sys Bool Unit) : Act Bool Unit → Option (Sys Bool Unit)
  | .call _ (.sleep _) => none
  | a => a.run s

theorem others_step {s s' : Sys Bool Unit} {a : Act Bool Unit} (h : others s a = some s') :
    (kernel Bool Unit).step s a s' := by
  cases a with
  | call t c =>
    cases c with
    | sleep r => cases h
    | _ => exact ⟨trivial, h⟩
  | _ => exact ⟨trivial, h⟩

/-- The process goes to sleep; the other one makes the condition true, and wakes it. -/
private def acts : List (Act Bool Unit) :=
  List.replicate 9 (.go false) ++ [.call true (.set () true), .call true (.wakeup ())] ++
    List.replicate 9 (.go true)

theorem sleep_wakeup_once : ∃ s : Sys Bool Unit, s.pc false = .sleep () .asleep ∧
    s.cond () = true ∧ s.duty true () = .done ∧ s.state false ≠ .Wakeme ∧
      s.nsleep false = s.nready false := by
  have hinit : (kernel Bool Unit).Reach start :=
    ⟨[], .init ⟨fun _ => ⟨rfl, rfl, fun _ => rfl⟩, fun _ => ⟨rfl, rfl, rfl, rfl, rfl, rfl⟩⟩⟩
  have hcall : (kernel Bool Unit).Reach (start.call false (.sleep ())) :=
    hinit.step (e := .call false (.sleep ())) ⟨fun _ => id, rfl⟩
  have hrun : (acts.foldlM others (start.call false (.sleep ()))).map
      (fun s => (s.pc false, s.cond (), s.duty true ())) =
        some (.sleep () .asleep, true, .done) := by decide +kernel
  obtain ⟨s, hs, h⟩ := Option.map_eq_some_iff.mp hrun
  rw [Prod.mk.injEq, Prod.mk.injEq] at h
  obtain ⟨hk, hc, hd⟩ := h
  obtain ⟨-, -, hcount, hsleep⟩ :=
    sleep_wakeup (hcall.exec (fun _ _ _ h => others_step h) hs)
  have hst : s.state false ≠ .Wakeme := fun h => (hsleep () false hk h hc).2 true hd
  refine ⟨s, hk, hc, hd, hst, ?_⟩
  rw [hcount false, if_neg hst, Nat.add_zero]

end NixMark.Rendez
