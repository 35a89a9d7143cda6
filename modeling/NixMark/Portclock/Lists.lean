import Mathlib.Data.Fintype.List
import NixMark.Portclock.Timers

/-!
# The lists of timers

* `Lists`: the timers of each list, in the order of their times; `tt` names the list of a timer.
* `tadd_spec`, `tdel_spec`, `timerintr_spec`: what the writes do to the lists.
-/

namespace NixMark.Portclock

open Lib
open Function (update update_eq_self update_of_ne update_self)

variable {M T : Type} {s s' : Sys M T} {L : M → List T} {m q : M} {t nt dt : T}

/-- The timers of each list. -/
structure Lists (s : Sys M T) (L : M → List T) : Prop extends Heads s.tnext s.head L where
  sorted : ∀ m, (L m).Pairwise fun a b => s.twhen a ≤ s.twhen b
  tt : ∀ t m, s.tt t = some m ↔ t ∈ L m

theorem Lists.congr (h : Lists s L) (hn : s'.tnext = s.tnext) (hh : s'.head = s.head)
    (htt : s'.tt = s.tt) (hw : s'.twhen = s.twhen) : Lists s' L where
  toHeads := by rw [hn, hh]; exact h.toHeads
  sorted := by rw [hw]; exact h.sorted
  tt := by rw [htt]; exact h.tt

theorem Lists.off (h : Lists s L) (ht : s.tt t = none) (m : M) : t ∉ L m := by
  intro hm
  rw [(h.tt t m).mpr hm] at ht
  cases ht

theorem Lists.head (h : Lists s L) (m : M) : s.head m = (L m).head? := (h.chain m).head.symm

variable [DecidableEq M] [DecidableEq T] [Fintype T]

omit [DecidableEq M] [DecidableEq T] in
theorem Lists.find (h : Lists s L) (q : M) (test : T → Bool) :
    ∃ l₁ l₂, L q = l₁ ++ l₂ ∧ s.find q test = (l₁.getLast?, l₂.head?) ∧
      (∀ a ∈ l₁, test a = false) ∧ ∀ a, l₂.head? = some a → test a = true :=
  walk_spec test (h.chain q) (h.nodup q).length_le_card

/-- What a change of the lists leaves as it is. -/
structure Kept (s s' : Sys M T) : Prop where
  tmode : s'.tmode = s.tmode
  lock : s'.lock = s.lock
  call : s'.call = s.call
  intr : s'.intr = s.intr
  timerset : s'.timerset = s.timerset
  deleted : s'.deleted = s.deleted

/-! ## Adding -/

section
omit [DecidableEq M] [Fintype T]

theorem retime_of_ne {w : ℤ} (h : t ≠ nt) : (s.retime nt w).twhen t = s.twhen t :=
  update_of_ne h ..

theorem retime_self {w : ℤ} : (s.retime nt w).twhen nt = w := update_self ..

/-- The new time is that of a timer on no list. -/
theorem Lists.retime {w : ℤ} (h : Lists s L) (ht : s.tt nt = none) : Lists (s.retime nt w) L where
  toHeads := h.toHeads
  sorted m := by
    refine (h.sorted m).imp_of_mem fun {a b} ha hb hab => ?_
    rw [retime_of_ne (ne_of_mem_of_not_mem ha (h.off ht m)),
      retime_of_ne (ne_of_mem_of_not_mem hb (h.off ht m))]
    exact hab
  tt := h.tt

end

omit [Fintype T] in
theorem Lists.link {l₁ l₂ : List T} (h : Lists s L) (ht : s.tt nt = none) (hq : L q = l₁ ++ l₂)
    (h₁ : ∀ a ∈ l₁, s.twhen a ≤ s.twhen nt) (h₂ : ∀ a ∈ l₂, s.twhen nt ≤ s.twhen a) :
    Lists (s.link q nt (l₁.getLast?, l₂.head?)) (update L q (l₁ ++ nt :: l₂)) where
  toHeads := h.toHeads.insert hq (h.off ht)
  sorted m := by
    by_cases hm : m = q
    · rw [hm, update_self]
      have hs := h.sorted q
      rw [hq] at hs
      obtain ⟨hs₁, hs₂, hs₁₂⟩ := List.pairwise_append.mp hs
      refine List.pairwise_append.mpr ⟨hs₁, List.pairwise_cons.mpr ⟨h₂, hs₂⟩, fun a ha b hb => ?_⟩
      obtain rfl | hb := List.mem_cons.mp hb
      · exact h₁ a ha
      · exact hs₁₂ a ha b hb
    · rw [update_of_ne hm]
      exact h.sorted m
  tt a m := by
    change update s.tt nt (some q) a = some m ↔ _
    by_cases hm : m = q
    · rw [hm, update_self]
      by_cases ha : a = nt
      · rw [ha, update_self]
        exact iff_of_true rfl (List.mem_append_right _ List.mem_cons_self)
      · rw [update_of_ne ha, h.tt a q, hq, List.mem_append, List.mem_append, List.mem_cons,
          or_iff_right ha]
    · rw [update_of_ne hm]
      by_cases ha : a = nt
      · rw [ha, update_self]
        exact iff_of_false (fun e => hm (Option.some.inj e).symm) (h.off ht m)
      · rw [update_of_ne ha]
        exact h.tt a m

/-- `tadd` puts the timer behind the timers that are not later. -/
theorem tadd_spec {c : Clock} {r : Sys M T × ℤ} (h : Lists s L) (hr : s.tadd c q nt = some r) :
    ∃ w l₁ l₂, s.settime c q nt = some w ∧ s.tt nt = none ∧ L q = l₁ ++ l₂ ∧
      (∀ a, l₂.head? = some a → w < s.twhen a) ∧
      Lists r.1 (update L q (l₁ ++ nt :: l₂)) ∧ Kept s r.1 ∧
      r.1.tt = update s.tt nt (some q) ∧ r.1.twhen = update s.twhen nt w ∧
      r.2 = if l₁ = [] then w else 0 := by
  unfold Sys.tadd at hr
  split at hr
  · cases hr
  · rename_i htt
    have htt : s.tt nt = none := not_not.mp htt
    split at hr
    · cases hr
    · rename_i w hw
      cases hr
      have hl := h.retime (w := w) htt
      obtain ⟨l₁, l₂, hq, hf, h₁, h₂⟩ := hl.find q fun t => w < (s.retime nt w).twhen t
      have h₁' : ∀ a ∈ l₁, (s.retime nt w).twhen a ≤ (s.retime nt w).twhen nt := by
        intro a ha
        rw [retime_self]
        exact not_lt.mp (of_decide_eq_false (h₁ a ha))
      have h₂' : ∀ a ∈ l₂, (s.retime nt w).twhen nt ≤ (s.retime nt w).twhen a := by
        intro a ha
        rw [retime_self]
        cases l₂ with
        | nil => cases ha
        | cons b l₂ =>
          have hb : w < (s.retime nt w).twhen b := of_decide_eq_true (h₂ b rfl)
          obtain rfl | ha := List.mem_cons.mp ha
          · exact hb.le
          · have hs := hl.sorted q
            rw [hq] at hs
            have := (List.pairwise_append.mp hs).2.1
            exact hb.le.trans ((List.pairwise_cons.mp this).1 a ha)
      refine ⟨w, l₁, l₂, hw, htt, hq, fun a ha => ?_, ?_, ⟨rfl, rfl, rfl, rfl, rfl, rfl⟩, rfl, rfl,
        ?_⟩
      · have hmem : a ∈ L q := by
          rw [hq]
          exact List.mem_append_right l₁ (List.mem_of_head? ha)
        have := of_decide_eq_true (h₂ a ha)
        rwa [retime_of_ne (ne_of_mem_of_not_mem hmem (h.off htt q))] at this
      · rw [hf]
        exact hl.link htt hq h₁' h₂'
      · simp only [hf, List.getLast?_eq_none_iff]

/-! ## Deleting -/

omit [Fintype T] in
theorem Lists.unlink {l₁ l₂ : List T} (h : Lists s L) (hq : L q = l₁ ++ dt :: l₂) :
    Lists (s.unlink q dt l₁.getLast?) (update L q (l₁ ++ l₂)) where
  toHeads := h.toHeads.remove hq
  sorted m := by
    by_cases hm : m = q
    · rw [hm, update_self]
      have hs := h.sorted q
      rw [hq] at hs
      exact hs.sublist ((List.sublist_cons_self dt l₂).append_left l₁)
    · rw [update_of_ne hm]
      exact h.sorted m
  tt a m := by
    have hd : dt ∈ L q := by
      rw [hq]
      exact List.mem_append_right _ List.mem_cons_self
    change update s.tt dt none a = some m ↔ _
    by_cases ha : a = dt
    · rw [ha, update_self]
      refine iff_of_false nofun fun hm => ?_
      by_cases hmq : m = q
      · rw [hmq, update_self] at hm
        have hn := h.nodup q
        rw [hq] at hn
        exact (List.nodup_cons.mp (List.perm_middle.nodup_iff.mp hn)).1 hm
      · rw [update_of_ne hmq] at hm
        exact hmq (h.apart hm hd)
    · rw [update_of_ne ha, h.tt a m]
      by_cases hmq : m = q
      · rw [hmq, update_self, hq, List.mem_append, List.mem_append, List.mem_cons, or_iff_right ha]
      · rw [update_of_ne hmq]

/-- `tdel` takes the timer out of its list, if it is on one. -/
theorem tdel_spec (h : Lists s L) (dt : T) :
    ∃ L', Lists (s.tdel dt).1 L' ∧ (∀ m, (L' m).Sublist (L m)) ∧ Kept s (s.tdel dt).1 ∧
      (s.tdel dt).1.tt = update s.tt dt none ∧ (s.tdel dt).1.twhen = s.twhen := by
  unfold Sys.tdel
  cases htt : s.tt dt with
  | none =>
    have hnone : update s.tt dt none = s.tt := by
      conv_rhs => rw [← update_eq_self dt s.tt, htt]
    exact ⟨L, h, fun m => .refl _, ⟨rfl, rfl, rfl, rfl, rfl, rfl⟩, hnone.symm, rfl⟩
  | some q =>
    obtain ⟨l₁, l₂, hq, hf, h₁, h₂⟩ := h.find q fun t => t = dt
    have hmem : dt ∈ l₁ ++ l₂ := hq ▸ (h.tt dt q).mp htt
    obtain ⟨l₂, rfl⟩ : ∃ l, l₂ = dt :: l := by
      cases l₂ with
      | nil =>
        rw [List.append_nil] at hmem
        exact absurd rfl (of_decide_eq_false (h₁ dt hmem))
      | cons a l => exact ⟨l, by rw [show a = dt from of_decide_eq_true (h₂ a rfl)]⟩
    simp only [hf, List.head?_cons, if_true]
    refine ⟨_, h.unlink hq, fun m => ?_, ⟨rfl, rfl, rfl, rfl, rfl, rfl⟩, rfl, rfl⟩
    by_cases hm : m = q
    · rw [hm, update_self, hq]
      exact (List.sublist_cons_self dt l₂).append_left l₁
    · rw [update_of_ne hm]

omit [Fintype T] in
/-- The first timer of the list is taken out. -/
theorem Lists.pop (h : Lists s L) (hq : s.head m = some t) :
    ∃ l, L m = t :: l ∧ Lists (s.pop m t) (update L m l) := by
  rw [h.head] at hq
  obtain ⟨l, hl⟩ : ∃ l, L m = t :: l := by
    cases hL : L m with
    | nil => rw [hL] at hq; cases hq
    | cons a l => rw [hL] at hq; exact ⟨l, by rw [Option.some.inj hq]⟩
  have hu : Lists (s.unlink m t [].getLast?) (update L m ([] ++ l)) := h.unlink hl
  exact ⟨l, hl, hu⟩

omit [Fintype T] in
/-- The loop of `timerintr` ends, or the first timer leaves the list. -/
theorem timerintr_spec {now : ℤ} (h : Lists s L) (hs : s.timerintr m now = some s') :
    (L m = [] ∧ s' = s.setintr m none) ∨
    (∃ t, (L m).head? = some t ∧ s' = (s.settimer m (s.twhen t)).setintr m none) ∨
    ∃ t l, L m = t :: l ∧ s.tt t = some m ∧ Lists (s.pop m t) (update L m l) ∧
      s' = (s.pop m t).setintr m (some (now, t)) := by
  unfold Sys.timerintr at hs
  cases hh : s.head m with
  | none =>
    rw [hh] at hs
    cases hs
    rw [h.head] at hh
    exact .inl ⟨List.head?_eq_none_iff.mp hh, rfl⟩
  | some t =>
    rw [hh] at hs
    simp only at hs
    split_ifs at hs with hw htt
    · cases hs
      exact .inr (.inl ⟨t, by rw [← h.head, hh], rfl⟩)
    · cases hs
      obtain ⟨l, hl, hp⟩ := h.pop hh
      exact .inr (.inr ⟨t, l, hl, not_not.mp htt, hp, rfl⟩)

end NixMark.Portclock
