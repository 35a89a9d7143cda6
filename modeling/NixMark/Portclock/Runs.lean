import NixMark.Portclock.Lists

/-!
# Runs of the timers

* `Armed`: the next interrupt of a processor comes no later than its first timer wants it. A timer
  that comes first with the time 0 is not seen (`Timed`).
* `timer_queues`: what holds in every run.
-/

namespace NixMark.Portclock

open Lib
open Function (update update_of_ne update_self)

variable {M T : Type} {s s' : Sys M T} {L L' : M → List T} {m : M} {t : T}

/-! ## The next interrupt -/

def Armed (s : Sys M T) (L : M → List T) (m : M) : Prop :=
  ∀ t, (L m).head? = some t → ∃ w, s.timerset m = some w ∧ w ≤ s.twhen t

/-- The first timer is not earlier than it was. -/
theorem Armed.later (h : Armed s L m) (hs : s'.timerset m = s.timerset m)
    (hl : ∀ t, (L' m).head? = some t → ∃ t', (L m).head? = some t' ∧ s.twhen t' ≤ s'.twhen t) :
    Armed s' L' m := by
  intro t ht
  obtain ⟨t', ht', hle⟩ := hl t ht
  obtain ⟨w, hw, hwt⟩ := h t' ht'
  exact ⟨w, hs.trans hw, hwt.trans hle⟩

theorem Lists.sublist (h : Lists s L) (hl : (L' m).Sublist (L m)) (ht : (L' m).head? = some t) :
    ∃ t', (L m).head? = some t' ∧ s.twhen t' ≤ s.twhen t := by
  have hmem : t ∈ L m := hl.subset (List.mem_of_head? ht)
  cases hL : L m with
  | nil =>
    rw [hL] at hmem
    cases hmem
  | cons a l =>
    refine ⟨a, rfl, ?_⟩
    have hs := h.sorted m
    rw [hL] at hs hmem
    obtain rfl | hmem := List.mem_cons.mp hmem
    · exact le_rfl
    · exact (List.pairwise_cons.mp hs).1 t hmem

/-- The lists that are not in an interrupt. -/
def Rest (s : Sys M T) (L : M → List T) : Prop := ∀ m, s.intr m = none → Armed s L m

/-- The lists after a step, which are armed if `G` holds and they were. -/
def Next (G : Prop) (s : Sys M T) (L : M → List T) (s' : Sys M T) : Prop :=
  ∃ L', Lists s' L' ∧ (G → Rest s L → Rest s' L')

/-- A step that changes no list. -/
theorem Next.keep {G : Prop} (h : Lists s L) (hn : s'.tnext = s.tnext) (hh : s'.head = s.head)
    (htt : s'.tt = s.tt) (hw : s'.twhen = s.twhen) (hs : s'.timerset = s.timerset)
    (hi : s'.intr = s.intr) : Next G s L s' := by
  refine ⟨L, h.congr hn hh htt hw, fun _ hr m hm => ?_⟩
  rw [hi] at hm
  refine (hr m hm).later (by rw [hs]) fun t ht => ⟨t, ht, ?_⟩
  rw [hw]

variable [DecidableEq M] [DecidableEq T]

/-! ## The steps -/

/-- The time that `t` gets on the list `m` is 0, and no other timer is before it. -/
def Unseen [Fintype T] (c : Clock) (s : Sys M T) (m : M) (t : T) : Prop :=
  s.settime c m t = some 0 ∧ ∀ t', s.head m = some t' → 0 < s.twhen t'

/-- No `timeradd` puts a timer with the time 0 at the head of the list. -/
def Timed [Fintype T] (s : Sys M T) : Act M T → Prop
  | .go m c => ∀ t, s.call m = some (.add t) → ¬ Unseen c s m t
  | _ => True

omit [DecidableEq T] in
theorem Armed.settimer (ht : (L m).head? = some t) : Armed (s.settimer m (s.twhen t)) L m := by
  intro t' ht'
  rw [ht] at ht'
  refine ⟨s.twhen t, update_self .., ?_⟩
  rw [Option.some.inj ht']
  exact le_rfl

theorem Lists.timerintr {now : ℤ} (h : Lists s L) (hs : s.timerintr m now = some s') :
    ∃ L', Lists s' L' ∧ ((∀ m', m' ≠ m → s.intr m' = none → Armed s L m') → Rest s' L') := by
  have hintr : ∀ {k m'}, m' ≠ m → update s.intr m k m' = s.intr m' := fun hm =>
    update_of_ne hm ..
  obtain ⟨hL, rfl⟩ | ⟨t, ht, rfl⟩ | ⟨t, l, hL, -, hl, rfl⟩ := timerintr_spec h hs
  · refine ⟨L, h.congr rfl rfl rfl rfl, fun hr m' hm' => ?_⟩
    by_cases hm : m' = m
    · rw [hm]
      intro t ht
      rw [hL] at ht
      cases ht
    · exact hr m' hm ((hintr hm).symm.trans hm')
  · refine ⟨L, h.congr rfl rfl rfl rfl, fun hr m' hm' => ?_⟩
    by_cases hm : m' = m
    · rw [hm]
      exact Armed.settimer ht
    · exact (hr m' hm ((hintr hm).symm.trans hm')).later (update_of_ne hm ..)
        fun t ht => ⟨t, ht, le_rfl⟩
  · refine ⟨_, hl.congr rfl rfl rfl rfl, fun hr m' hm' => ?_⟩
    by_cases hm : m' = m
    · rw [hm] at hm'
      change update s.intr m (some (now, t)) m = none at hm'
      rw [update_self] at hm'
      cases hm'
    · refine (hr m' hm ((hintr hm).symm.trans hm')).later rfl fun t ht => ⟨t, ?_, le_rfl⟩
      rwa [update_of_ne hm] at ht

variable [Fintype T]

/-- After `tadd` the clock is set if `timeradd` sets it; the other lists are as they were. -/
theorem Lists.tadd {c : Clock} {r : Sys M T × ℤ} (h : Lists s L) (hr : s.tadd c m t = some r) :
    ∃ L', Lists r.1 L' ∧ (∀ m', m' ≠ m → Armed s L m' → Armed r.1 L' m') ∧
      (¬ Unseen c s m t → Armed s L m →
        Armed (if r.2 = 0 then r.1 else r.1.settimer m r.2) L' m) := by
  obtain ⟨w, l₁, l₂, hw, htt, hL, hfirst, hl, hk, -, hwhen, hr2⟩ := tadd_spec h hr
  have hold : ∀ {m' t'}, t' ∈ L m' → r.1.twhen t' = s.twhen t' := by
    intro m' t' ht'
    rw [hwhen, update_of_ne (ne_of_mem_of_not_mem ht' (h.off htt m'))]
  refine ⟨_, hl, fun m' hm ha => ?_, fun h0 ha => ?_⟩
  · refine ha.later (by rw [hk.timerset]) fun t' ht' => ?_
    rw [update_of_ne hm] at ht'
    exact ⟨t', ht', (hold (List.mem_of_head? ht')).ge⟩
  · cases l₁ with
    | nil =>
      have hw0 : w ≠ 0 := by
        rintro rfl
        refine h0 ⟨hw, fun t' ht' => hfirst t' ?_⟩
        rwa [h.head, hL, List.nil_append] at ht'
      rw [if_pos rfl] at hr2
      rw [if_neg (by rwa [hr2])]
      intro t' ht'
      rw [update_self] at ht'
      obtain rfl : t = t' := Option.some.inj ht'
      refine ⟨r.2, update_self .., ?_⟩
      change r.2 ≤ r.1.twhen t
      rw [hr2, hwhen, update_self]
    | cons a l₁ =>
      rw [if_neg (List.cons_ne_nil a l₁)] at hr2
      rw [if_pos hr2]
      refine ha.later (by rw [hk.timerset]) fun t' ht' => ?_
      rw [update_self] at ht'
      obtain rfl : a = t' := Option.some.inj ht'
      rw [hL]
      have ha : a ∈ L m := by
        rw [hL]
        exact List.mem_cons_self
      exact ⟨a, rfl, (hold ha).ge⟩

theorem Lists.tdel {G : Prop} (h : Lists s L) (dt : T) : Next G s L (s.tdel dt).1 := by
  obtain ⟨L', hl, hsub, hk, -, hw⟩ := tdel_spec h dt
  refine ⟨L', hl, fun _ hr m hm => ?_⟩
  rw [hk.intr] at hm
  refine (hr m hm).later (by rw [hk.timerset]) fun t ht => ?_
  rw [hw]
  exact h.sublist (hsub m) ht

omit [DecidableEq M] [DecidableEq T] [Fintype T] in
theorem Next.trans {G : Prop} {s₁ : Sys M T} (h : Next G s L s₁)
    (h₁ : ∀ L', Lists s₁ L' → Next G s₁ L' s') : Next G s L s' := by
  obtain ⟨L₁, hl, hr⟩ := h
  obtain ⟨L', hl', hr'⟩ := h₁ L₁ hl
  exact ⟨L', hl', fun hg hrest => hr' hg (hr hg hrest)⟩

theorem Lists.modify {G : Prop} {tt : Option M} (h : Lists s L) : Next G s L (s.modify m t tt) := by
  unfold Sys.modify
  split_ifs
  · exact .keep h rfl rfl rfl rfl rfl rfl
  · exact (h.tdel t).trans fun L' hl => .keep hl rfl rfl rfl rfl rfl rfl

theorem Lists.delete {G : Prop} {tt : Option M} (h : Lists s L) (hs : s.delete m t tt = some s') :
    Next G s L s' := by
  cases tt with
  | none =>
    cases hs
    exact .keep h rfl rfl rfl rfl rfl rfl
  | some q =>
    refine (h.tdel t).trans fun L' hl => ?_
    simp only [Sys.delete] at hs
    split_ifs at hs with hq
    · split at hs
      · cases hs
      · rename_i t' ht'
        cases hs
        rw [hq.2, hl.head] at ht'
        refine ⟨L', hl.congr rfl rfl rfl rfl, fun _ hr m' hm' => ?_⟩
        by_cases hm : m' = m
        · rw [hm]
          exact Armed.settimer ht'
        · exact (hr m' hm').later (update_of_ne hm ..) fun t ht => ⟨t, ht, le_rfl⟩
    · cases hs
      exact .keep hl rfl rfl rfl rfl rfl rfl

theorem Lists.add {c : Clock} (h : Lists s L) (hs : s.add c m t = some s') :
    Next (¬ Unseen c s m t) s L s' := by
  unfold Sys.add at hs
  cases hr : s.tadd c m t with
  | none =>
    rw [hr] at hs
    cases hs
  | some r =>
    rw [hr] at hs
    cases hs
    obtain ⟨L', hl, hother, hself⟩ := h.tadd hr
    obtain ⟨-, -, -, -, -, -, -, -, hk, -⟩ := tadd_spec h hr
    refine ⟨L', ?_, fun h0 hrest m' hm' => ?_⟩
    · split_ifs <;> exact hl.congr rfl rfl rfl rfl
    · have hm' : s.intr m' = none := by
        rw [← hk.intr, ← hm']
        split_ifs <;> rfl
      by_cases hm : m' = m
      · rw [hm] at hm' ⊢
        have := hself h0 (hrest m hm')
        split_ifs at this ⊢ <;> exact this
      · refine (hother m' hm (hrest m' hm')).later ?_ fun t ht => ⟨t, ht, ?_⟩
        · split_ifs
          · rfl
          · exact update_of_ne hm ..
        · split_ifs <;> exact le_rfl

theorem Lists.resume {c : Clock} {now : ℤ} (h : Lists s L) (hs : s.resume c m now t = some s') :
    ∃ L', Lists s' L' ∧ (Rest s L → Rest s' L') := by
  unfold Sys.resume at hs
  split_ifs at hs
  · cases hr : s.tadd c m t with
    | none =>
      rw [hr] at hs
      cases hs
    | some r =>
      rw [hr] at hs
      obtain ⟨L₁, hl, hother, -⟩ := h.tadd hr
      obtain ⟨-, -, -, -, -, -, -, -, hk, -⟩ := tadd_spec h hr
      obtain ⟨L', hl', hr'⟩ := hl.timerintr hs
      refine ⟨L', hl', fun hrest => hr' fun m' hm hm' => ?_⟩
      rw [hk.intr] at hm'
      exact hother m' hm (hrest m' hm')
  · obtain ⟨L', hl', hr'⟩ := h.timerintr hs
    exact ⟨L', hl', fun hrest => hr' fun m' _ hm' => hrest m' hm'⟩

theorem Lists.step {a : Act M T} (h : Lists s L) (hs : a.run s = some s') :
    Next (Timed s a) s L s' := by
  cases a with
  | set t mode ns =>
    cases hs
    exact .keep h rfl rfl rfl rfl rfl rfl
  | timeradd m t =>
    obtain ⟨-, hs⟩ := Option.ite_none_right_eq_some.mp hs
    cases hs
    exact .keep h rfl rfl rfl rfl rfl rfl
  | timerdel m t =>
    obtain ⟨-, hs⟩ := Option.ite_none_right_eq_some.mp hs
    cases hs
    exact .keep h rfl rfl rfl rfl rfl rfl
  | go m c =>
    rw [Act.run] at hs
    split at hs
    · cases hs
    · cases hs
      exact h.modify
    · rename_i t hk
      obtain ⟨L', hl, hr⟩ := h.add hs
      exact ⟨L', hl, fun hg => hr (hg t hk)⟩
    · exact h.delete hs
  | timerintr m now =>
    obtain ⟨⟨-, hm⟩, hs⟩ := Option.ite_none_right_eq_some.mp hs
    obtain ⟨L', hl', hr'⟩ := h.timerintr hs
    exact ⟨L', hl', fun _ hrest => hr' fun m' _ hm' => hrest m' hm'⟩
  | resume m c =>
    rw [Act.run] at hs
    split at hs
    · obtain ⟨L', hl', hr'⟩ := h.resume hs
      exact ⟨L', hl', fun _ => hr'⟩
    · cases hs

/-! ## The lists in every run -/

/-- The lists are sorted, and `tt` says where a timer is. -/
def Queued (s : Sys M T) : Prop :=
  ∃ L : M → List T, (∀ m, Chain s.tnext (s.head m) (L m) ∧ (L m).Nodup ∧
    (L m).Pairwise fun a b => s.twhen a ≤ s.twhen b) ∧ ∀ t m, s.tt t = some m ↔ t ∈ L m

/-- Between interrupts the processor will be interrupted for its first timer. -/
def InTime (s : Sys M T) : Prop :=
  ∀ m t, s.intr m = none → s.head m = some t → ∃ w, s.timerset m = some w ∧ w ≤ s.twhen t

theorem Lists.init (h : (kernel M T).init s) : Lists s fun _ => [] where
  chain m := (h.1 m).1
  nodup m := List.nodup_nil
  apart ha := absurd ha List.not_mem_nil
  sorted m := List.Pairwise.nil
  tt t m := by
    rw [(h.2 t).1]
    exact iff_of_false nofun List.not_mem_nil

theorem Lists.reach (h : (kernel M T).Reach s) : ∃ L, Lists s L :=
  Lts.Inductive.reach (I := fun s => ∃ L, Lists s L)
    { init := fun _ hs => ⟨_, .init hs⟩
      step := fun _ _ _ ⟨_, hl⟩ hs => have ⟨L', hl', _⟩ := hl.step hs; ⟨L', hl'⟩ } h

theorem timer_queues (h : (kernel M T).Reach s) :
    Queued s ∧ (((kernel M T).restrict Timed).Reach s → InTime s) := by
  obtain ⟨L, hl⟩ := Lists.reach h
  refine ⟨⟨L, fun m => ⟨hl.chain m, hl.nodup m, hl.sorted m⟩, hl.tt⟩, fun ht => ?_⟩
  obtain ⟨L, hl, hr⟩ := Lts.Inductive.reach (S := (kernel M T).restrict Timed)
    (I := fun s => ∃ L, Lists s L ∧ Rest s L)
    { init := fun s hs => ⟨_, .init hs, fun _ _ => nofun⟩
      step := fun _ _ _ ⟨_, hl, hr⟩ ⟨hs, hg⟩ =>
        have ⟨L', hl', hr'⟩ := hl.step hs
        ⟨L', hl', hr' hg hr⟩ } ht
  intro m t hm hh
  rw [hl.head] at hh
  exact hr m hm t hh

/-- A processor with one timer. -/
private def start : Sys Unit Unit where
  head _ := none
  tnext _ := none
  tt _ := none
  twhen _ := 0
  tmode _ := .Trelative
  tns _ := 2 ^ 63 - 2000000000
  lock _ := none
  call _ := none
  intr _ := none
  timerset _ := none
  deleted _ := false

theorem start_init : (kernel Unit Unit).init start :=
  ⟨fun _ => ⟨rfl, rfl, rfl⟩, fun _ => ⟨rfl, rfl, rfl⟩⟩

/-- The clock of a processor with 2 GHz. -/
private def clock (t : ℤ) : Clock where
  fastticks := t
  ns2fastticks ns := ns * (2 ^ 33 + 1) / 2 ^ 32 % 2 ^ 64

private def timed (s : Sys Unit Unit) (a : Act Unit Unit) : Option (Sys Unit Unit) :=
  match a with
  | .go m c =>
    match s.call m with
    | some (.add t) => if s.settime c m t ≠ some 0 then a.run s else none
    | _ => a.run s
  | _ => a.run s

theorem timed_step {a : Act Unit Unit} {s s' : Sys Unit Unit} (h : timed s a = some s') :
    ((kernel Unit Unit).restrict Timed).step s a s' := by
  cases a with
  | go m c =>
    unfold timed at h
    simp only at h
    split at h
    · rename_i t hk
      obtain ⟨hw, h⟩ := Option.ite_none_right_eq_some.mp h
      refine ⟨h, fun t' hk' hu => ?_⟩
      rw [hk] at hk'
      cases hk'
      exact hw hu.1
    · rename_i hk
      exact ⟨h, fun t hk' => absurd hk' (hk t)⟩
  | _ => exact ⟨h, trivial⟩

/-- A timer of a millisecond. -/
theorem timer_queues_once : ∃ (s : Sys Unit Unit) (w : ℤ), s.head () = some () ∧
    s.timerset () = some w ∧ w ≤ s.twhen () := by
  have hrun : ([.set () .Trelative 1000000, .timeradd () (), .go () (clock 1),
      .go () (clock 1)].foldlM timed start).map (fun s => (s.head (), s.intr ())) =
        some (some (), none) := by decide +kernel
  obtain ⟨s, hs, he⟩ := Option.map_eq_some_iff.mp hrun
  rw [Prod.mk.injEq] at he
  obtain ⟨hh, hi⟩ := he
  have hreach : ((kernel Unit Unit).restrict Timed).Reach s :=
    Lts.Reach.exec (fun _ _ _ h => timed_step h) ⟨[], .init start_init⟩ hs
  obtain ⟨-, htime⟩ := timer_queues hreach.of_restrict
  obtain ⟨w, hw, hle⟩ := htime hreach () () hi hh
  exact ⟨s, w, hh, hw, hle⟩

/-- The time of the timer is 2 ^ 64, which is 0. -/
theorem timer_queues_zero : ¬ ∀ s : Sys Unit Unit, (kernel Unit Unit).Reach s →
    Queued s ∧ InTime s := by
  have hrun : ([.timeradd () (), .go () (clock 1), .go () (clock 1852516353)].foldlM Act.run
      start).map (fun s => (s.head (), s.intr (), s.timerset ())) = some (some (), none, none) := by
    decide +kernel
  obtain ⟨s, hs, he⟩ := Option.map_eq_some_iff.mp hrun
  rw [Prod.mk.injEq, Prod.mk.injEq] at he
  obtain ⟨hh, hi, hset⟩ := he
  intro hall
  obtain ⟨-, htime⟩ := hall s
    (Lts.Reach.exec (S := kernel Unit Unit) (fun _ _ _ h => h) ⟨[], .init start_init⟩ hs)
  obtain ⟨w, hw, -⟩ := htime () () hi hh
  rw [hset] at hw
  cases hw

end NixMark.Portclock
