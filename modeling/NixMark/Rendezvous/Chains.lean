import Mathlib.Data.List.Nodup
import NixMark.Rendezvous.Rgrp

/-!
# The chains of a group

* `Good`: a process does not change its group while `postnote` holds on to it.
* `Chains`: while this is so, the lock of a group is held by one process, and its chains hold the
  processes that wait in it and that no one has pulled out.
-/

namespace NixMark.Rendezvous

open Lib
open Function (update update_apply update_eq_self update_of_ne update_self)

variable {P G : Type}

/-- The group whose lock it holds. -/
def Pc.holds : Pc P G → Option G
  | .scan g _ _ | .ready g _ _ | .unlock g _ | .linked g _ | .pcheck _ g | .pready _ g
  | .punlock _ g => some g
  | _ => none

/-- The group of its own that a call works in. -/
def Pc.own : Pc P G → Option G
  | .scan g _ _ | .ready g _ _ | .unlock g _ | .linked g _ => some g
  | _ => none

/-- `postnote` has read the group of the process, and will unlock the one that it reads again. -/
def Pc.captured : Pc P G → Option (P × G)
  | .plock p g | .pcheck p g | .pready p g | .punlock p g => some (p, g)
  | _ => none

/-- The process that it has taken from the chain and will ready. -/
def Pc.pulled : Pc P G → Option P
  | .ready _ p _ | .pready p _ => some p
  | _ => none

/-- A process that leaves its group is not held on to by `postnote`. -/
def Good (s : Sys P G) (e : P × Act P G) : Prop :=
  match e.2 with
  | .rfrend _ => ∀ t g, (s.pc t).captured ≠ some (e.1, g)
  | _ => True

structure Chains (s : Sys P G) : Prop where
  lock : ∀ g t, s.lock g = some t ↔ (s.pc t).holds = some g
  own : ∀ p g, (s.pc p).own = some g → s.rgrp p = some g
  captured : ∀ t p g, (s.pc t).captured = some (p, g) → s.rgrp p = some g
  mem : ∀ g b p, p ∈ s.chain g b ↔ (s.pc p).waits = true ∧ s.rgrp p = some g ∧
    REND (s.rendtag p) = b ∧ ∀ t, (s.pc t).pulled ≠ some p
  nodup : ∀ g b, (s.chain g b).Nodup
  tags : ∀ g b p q, p ∈ s.chain g b → q ∈ s.chain g b → s.rendtag p = s.rendtag q → p = q
  pulled : ∀ t p, (s.pc t).pulled = some p → s.pc p = .asleep ∧ ∃ g, (s.pc t).holds = some g ∧
    s.rgrp p = some g
  linked : ∀ p g, s.pc p ≠ .linked g true
  /-- callers of `postnote` hold `debug` -/
  debug : ∀ t p g, (s.pc t).captured = some (p, g) → s.debug p = some t
  posts : ∀ t p, s.pc t = .post p ∨ s.pc t = .pread p → s.debug p = some t
  waits : ∀ p, (s.pc p).waits = true → ∃ g, s.rgrp p = some g

variable [DecidableEq P] [DecidableEq G] {s s' : Sys P G} {p q t : P} {g : G} {k : Pc P G}

omit [DecidableEq G] in
@[simp] theorem goto_pc : (s.goto p k).pc t = if t = p then k else s.pc t :=
  update_apply ..

omit [DecidableEq P] in
@[simp] theorem setchain_chain {b b' : Nat} {l : List P} {g' : G} :
    (s.setchain g b l).chain g' b' = if g' = g ∧ b' = b then l else s.chain g' b' := by
  unfold Sys.setchain
  simp only [update_apply]
  split
  · rename_i hg
    subst hg
    rw [update_apply]
    simp
  · rename_i hg
    rw [if_neg (fun h => hg h.1)]

section
omit [DecidableEq P] [DecidableEq G]

/-- Who holds a lock is the only one. -/
theorem Chains.only (h : Chains s) (hp : (s.pc p).holds = some g) (ht : (s.pc t).holds = some g) :
    t = p :=
  Option.some.inj (((h.lock g t).mpr ht).symm.trans ((h.lock g p).mpr hp))

/-- A process is pulled out by one process only, which does not wait itself. -/
theorem Chains.pulled_once (h : Chains s) (hp : (s.pc p).pulled = some q)
    (ht : (s.pc t).pulled = some q) : t = p := by
  obtain ⟨-, g, hg, hr⟩ := h.pulled p q hp
  obtain ⟨-, g', hg', hr'⟩ := h.pulled t q ht
  rw [hr] at hr'
  cases hr'
  exact h.only hg hg'

end

omit [DecidableEq G] in
/-- A statement that leaves chains and groups alone. -/
theorem Chains.relock (h : Chains s) {l : G → Option P}
    (hlock : ∀ g t, l g = some t ↔ (if t = p then k else s.pc t).holds = some g)
    (hh : ∀ q, k.pulled = some q → k.holds = (s.pc p).holds)
    (ho : ∀ g, k.own = some g → s.rgrp p = some g)
    (hc : ∀ q g, k.captured = some (q, g) → s.rgrp q = some g ∧ s.debug q = some p)
    (hw : k.waits = (s.pc p).waits) (hpull : k.pulled = (s.pc p).pulled) (hl : ∀ g, k ≠ .linked g true)
    (ha : s.pc p = .asleep → k = .asleep)
    (hposts : ∀ q, k = .post q ∨ k = .pread q → s.debug q = some p) :
    Chains ({ s with lock := l }.goto p k) where
  lock g t := by
    rw [goto_pc]
    exact hlock g t
  own q g hq := by
    rw [goto_pc] at hq
    split at hq
    · rename_i hqp
      rw [hqp]
      exact ho g hq
    · exact h.own q g hq
  captured t q g ht := by
    rw [goto_pc] at ht
    split at ht
    · exact (hc q g ht).1
    · exact h.captured t q g ht
  mem g b q := by
    have hpulled : ∀ t, (({ s with lock := l }.goto p k).pc t).pulled = (s.pc t).pulled := by
      intro t
      rw [goto_pc]
      split
      · rename_i ht
        rw [ht, hpull]
      · rfl
    have hwaits : (({ s with lock := l }.goto p k).pc q).waits = (s.pc q).waits := by
      rw [goto_pc]
      split
      · rename_i hq
        rw [hq, hw]
      · rfl
    simp only [hpulled, hwaits]
    exact h.mem g b q
  nodup := h.nodup
  tags := h.tags
  pulled t q ht := by
    have hq : (s.pc t).pulled = some q := by
      rw [goto_pc] at ht
      split at ht
      · rename_i htp
        rw [htp, ← hpull]
        exact ht
      · exact ht
    obtain ⟨hasleep, g, hg, hr⟩ := h.pulled t q hq
    refine ⟨?_, g, ?_, hr⟩
    · rw [goto_pc]
      split
      · rename_i hqp
        exact ha (hqp ▸ hasleep)
      · exact hasleep
    · rw [goto_pc]
      split
      · rename_i htp
        rw [hh q (hpull.trans (htp ▸ hq)), ← htp]
        exact hg
      · exact hg
  linked q g := by
    rw [goto_pc]
    split
    · exact hl g
    · exact h.linked q g
  debug t q g ht := by
    rw [goto_pc] at ht
    split at ht
    · rename_i htp
      rw [htp]
      exact (hc q g ht).2
    · exact h.debug t q g ht
  posts t q ht := by
    rw [goto_pc] at ht
    split at ht
    · rename_i htp
      rw [htp]
      exact hposts q ht
    · exact h.posts t q ht
  waits q hq := by
    refine h.waits q ?_
    rw [goto_pc] at hq
    split at hq
    · rename_i hqp
      rw [hqp, ← hw]
      exact hq
    · exact hq

omit [DecidableEq G] in
/-- A statement that leaves the locks alone too. -/
theorem Chains.goto (h : Chains s) (hh : k.holds = (s.pc p).holds)
    (ho : ∀ g, k.own = some g → s.rgrp p = some g)
    (hc : ∀ q g, k.captured = some (q, g) → s.rgrp q = some g ∧ s.debug q = some p)
    (hw : k.waits = (s.pc p).waits) (hpull : k.pulled = (s.pc p).pulled) (hl : ∀ g, k ≠ .linked g true)
    (ha : s.pc p = .asleep → k = .asleep)
    (hposts : ∀ q, k = .post q ∨ k = .pread q → s.debug q = some p) : Chains (s.goto p k) := by
  refine h.relock (l := s.lock) (fun g t => ?_) (fun _ _ => hh) ho hc hw hpull hl ha hposts
  rw [h.lock]
  split
  · rename_i ht
    rw [ht, hh]
  · rfl

/-- `lock` -/
theorem Chains.acquire (h : Chains s) (hl : s.lock g = none) (hp : (s.pc p).holds = none)
    (hk : k.holds = some g) (ho : ∀ g, k.own = some g → s.rgrp p = some g)
    (hc : ∀ q g, k.captured = some (q, g) → s.rgrp q = some g ∧ s.debug q = some p)
    (hw : k.waits = (s.pc p).waits) (hpull : k.pulled = (s.pc p).pulled)
    (hnone : k.pulled = none) (hlinked : ∀ g, k ≠ .linked g true)
    (ha : s.pc p ≠ .asleep) (hposts : ∀ q, ¬ (k = .post q ∨ k = .pread q)) :
    Chains ((s.setlock g (some p)).goto p k) := by
  refine h.relock (fun g' t => ?_) (fun q hq => ?_) ho hc hw hpull hlinked (fun h => absurd h ha)
    fun q hq => absurd hq (hposts q)
  · rw [update_apply]
    by_cases ht : t = p
    · rw [if_pos ht, hk, ht]
      by_cases hg : g' = g
      · simp [hg]
      · have hno : s.lock g' ≠ some p := by
          rw [Ne, h.lock, hp]
          exact Option.some_ne_none g' |>.symm
        rw [if_neg hg]
        simp [hno, Ne.symm hg]
    · rw [if_neg ht, ← h.lock]
      by_cases hg : g' = g
      · simp [hg, hl, Ne.symm ht]
      · rw [if_neg hg]
  · rw [hnone] at hq
    cases hq

/-- `unlock` -/
theorem Chains.release (h : Chains s) (hp : (s.pc p).holds = some g) (hk : k.holds = none)
    (ho : k.own = none) (hc : k.captured = none) (hw : k.waits = (s.pc p).waits)
    (hpull : k.pulled = (s.pc p).pulled) (hnone : k.pulled = none) (hlinked : ∀ g, k ≠ .linked g true)
    (ha : s.pc p ≠ .asleep) (hposts : ∀ q, ¬ (k = .post q ∨ k = .pread q)) :
    Chains ((s.setlock g none).goto p k) := by
  refine h.relock (fun g' t => ?_) (fun q hq => ?_) (fun g hg => ?_) (fun q g hg => ?_) hw hpull hlinked
    (fun h => absurd h ha) fun q hq => absurd hq (hposts q)
  · rw [update_apply]
    by_cases ht : t = p
    · rw [if_pos ht, hk]
      by_cases hg : g' = g
      · simp [hg]
      · have hno : s.lock g' ≠ some p := by
          rw [Ne, h.lock, hp]
          exact fun he => hg (Option.some.inj he).symm
        rw [if_neg hg, ht]
        simp [hno]
    · rw [if_neg ht, ← h.lock]
      by_cases hg : g' = g
      · have hno : s.lock g ≠ some t := fun he => ht (h.only hp ((h.lock g t).mp he))
        rw [hg]
        simp [hno]
      · rw [if_neg hg]
  · rw [hnone] at hq
    cases hq
  · rw [ho] at hg
    cases hg
  · rw [hc] at hg
    cases hg

section
omit [DecidableEq P] [DecidableEq G]

/-- Values and the records of calls do not matter. -/
theorem Chains.frame (h : Chains s) (hrgrp : s'.rgrp = s.rgrp) (hchain : s'.chain = s.chain)
    (hlock : s'.lock = s.lock) (hdebug : s'.debug = s.debug) (htag : s'.rendtag = s.rendtag)
    (hpc : s'.pc = s.pc) : Chains s' where
  lock := by rw [hlock, hpc]; exact h.lock
  own := by rw [hpc, hrgrp]; exact h.own
  captured := by rw [hpc, hrgrp]; exact h.captured
  mem := by rw [hchain, hpc, hrgrp, htag]; exact h.mem
  nodup := by rw [hchain]; exact h.nodup
  tags := by rw [hchain, htag]; exact h.tags
  pulled := by rw [hpc, hrgrp]; exact h.pulled
  linked := by rw [hpc]; exact h.linked
  debug := by rw [hpc, hdebug]; exact h.debug
  posts := by rw [hpc, hdebug]; exact h.posts
  waits := by rw [hpc, hrgrp]; exact h.waits

/-- Who waits in a group whose lock another process holds is asleep. -/
theorem Chains.asleep (h : Chains s) (hp : (s.pc p).holds = some g) (hne : q ≠ p)
    (hw : (s.pc q).waits = true) (hr : s.rgrp q = some g) : s.pc q = .asleep := by
  cases hq : s.pc q with
  | asleep => rfl
  | linked g' readied =>
    have hown := h.own q g' (by rw [hq]; rfl)
    rw [hr] at hown
    cases hown
    exact absurd (h.only hp (by rw [hq]; rfl)) hne
  | _ =>
    rw [hq] at hw
    cases hw

end

/-- A process is taken from its chain. -/
theorem Chains.pull (h : Chains s) (hp : (s.pc p).holds = some g) (hk : k.holds = some g)
    (hq : (s.pc q).waits = true) (hr : s.rgrp q = some g) (hown : ∀ g, k.own = some g → s.rgrp p = some g)
    (hc : ∀ q g, k.captured = some (q, g) → s.rgrp q = some g ∧ s.debug q = some p)
    (hpw : (s.pc p).waits = false) (hkw : k.waits = false) (hpp : (s.pc p).pulled = none)
    (hkp : k.pulled = some q) (hposts : ∀ q, ¬ (k = .post q ∨ k = .pread q)) :
    Chains ((s.setchain g (REND (s.rendtag q))
      ((s.chain g (REND (s.rendtag q))).erase q)).goto p k) := by
  have hne : q ≠ p := by
    rintro rfl
    rw [hpw] at hq
    cases hq
  have hqa := h.asleep hp hne hq hr
  have hnodup := h.nodup g (REND (s.rendtag q))
  refine ⟨fun g' t => ?_, fun t g' ht => ?_, fun t r g' ht => ?_, fun g' b x => ?_, fun g' b => ?_,
    fun g' b x y hx hy => ?_, fun t x ht => ?_, fun x g' => ?_, fun t r g' ht => ?_, fun t r ht => ?_,
    fun x hx => ?_⟩
  · change s.lock g' = some t ↔ _
    rw [goto_pc, h.lock]
    split
    · rename_i ht
      rw [ht, hk, hp]
    · rfl
  · rw [goto_pc] at ht
    split at ht
    · rename_i htp
      rw [htp]
      exact hown g' ht
    · exact h.own t g' ht
  · rw [goto_pc] at ht
    split at ht
    · exact (hc r g' ht).1
    · exact h.captured t r g' ht
  · have hw : (((s.setchain g (REND (s.rendtag q)) ((s.chain g (REND (s.rendtag q))).erase q)).goto p
        k).pc x).waits = (s.pc x).waits := by
      rw [goto_pc]
      split
      · rename_i hx
        rw [hx, hkw, hpw]
      · rfl
    have hpulled : (∀ t, (((s.setchain g (REND (s.rendtag q))
        ((s.chain g (REND (s.rendtag q))).erase q)).goto p k).pc t).pulled ≠ some x) ↔
        x ≠ q ∧ ∀ t, (s.pc t).pulled ≠ some x := by
      constructor
      · intro hall
        refine ⟨?_, fun t => ?_⟩
        · rintro rfl
          have hself := hall p
          rw [goto_pc, if_pos rfl, hkp] at hself
          exact hself rfl
        · have ht := hall t
          rw [goto_pc] at ht
          split at ht
          · rename_i htp
            rw [htp, hpp]
            exact fun he => nomatch he
          · exact ht
      · rintro ⟨hxq, hall⟩ t
        rw [goto_pc]
        split
        · rw [hkp]
          exact fun he => hxq (Option.some.inj he).symm
        · exact hall t
    rw [hw, hpulled]
    change x ∈ (s.setchain g _ _).chain g' b ↔ _ ∧ s.rgrp x = some g' ∧ REND (s.rendtag x) = b ∧ _
    rw [setchain_chain]
    split
    · rename_i hgb
      obtain ⟨rfl, rfl⟩ := hgb
      rw [hnodup.mem_erase_iff, h.mem]
      exact ⟨fun ⟨hxq, hx, hxr, hxt, hxp⟩ => ⟨hx, hxr, hxt, hxq, hxp⟩,
        fun ⟨hx, hxr, hxt, hxq, hxp⟩ => ⟨hxq, hx, hxr, hxt, hxp⟩⟩
    · rename_i hgb
      rw [h.mem]
      constructor
      · rintro ⟨hx, hxr, hxt, hxp⟩
        refine ⟨hx, hxr, hxt, ?_, hxp⟩
        rintro rfl
        rw [hr] at hxr
        exact hgb ⟨(Option.some.inj hxr).symm, hxt.symm⟩
      · rintro ⟨hx, hxr, hxt, -, hxp⟩
        exact ⟨hx, hxr, hxt, hxp⟩
  · change ((s.setchain g _ _).chain g' b).Nodup
    rw [setchain_chain]
    split
    · exact hnodup.erase q
    · exact h.nodup g' b
  · change x ∈ (s.setchain g _ _).chain g' b at hx
    change y ∈ (s.setchain g _ _).chain g' b at hy
    rw [setchain_chain] at hx hy
    split at hx
    · rw [if_pos ‹_›] at hy
      exact h.tags g _ x y (List.mem_of_mem_erase hx) (List.mem_of_mem_erase hy)
    · rw [if_neg ‹_›] at hy
      exact h.tags g' b x y hx hy
  · rw [goto_pc] at ht
    split at ht
    · rename_i htp
      rw [hkp] at ht
      cases ht
      refine ⟨?_, g, ?_, hr⟩
      · rw [goto_pc, if_neg hne]
        exact hqa
      · rw [goto_pc, if_pos htp, hk]
    · rename_i htp
      obtain ⟨hxa, g', hg', hxr⟩ := h.pulled t x ht
      refine ⟨?_, g', ?_, hxr⟩
      · rw [goto_pc, if_neg ?_]
        · exact hxa
        · rintro rfl
          have hbad : (s.pc x).waits = true := by rw [hxa]; rfl
          rw [hpw] at hbad
          cases hbad
      · rw [goto_pc, if_neg htp]
        exact hg'
  · rw [goto_pc]
    split
    · rintro rfl
      cases hkp
    · exact h.linked x g'
  · rw [goto_pc] at ht
    split at ht
    · rename_i htp
      rw [htp]
      exact (hc r g' ht).2
    · exact h.debug t r g' ht
  · rw [goto_pc] at ht
    split at ht
    · exact absurd ht (hposts r)
    · exact h.posts t r ht
  · rw [goto_pc] at hx
    split at hx
    · rw [hkw] at hx
      cases hx
    · exact h.waits x hx

omit [DecidableEq G] in
/-- A process that was pulled out is readied. -/
theorem Chains.wake (h : Chains s) (hp : (s.pc p).pulled = some q) (hk : k.holds = (s.pc p).holds)
    (hown : ∀ g, k.own = some g → s.rgrp p = some g)
    (hc : ∀ q g, k.captured = some (q, g) → s.rgrp q = some g ∧ s.debug q = some p)
    (hkw : k.waits = false) (hkp : k.pulled = none) (hkl : ∀ g, k ≠ .linked g true)
    (hposts : ∀ q, ¬ (k = .post q ∨ k = .pread q)) : Chains ((s.goto q .woken).goto p k) := by
  obtain ⟨hqa, g, hg, hr⟩ := h.pulled p q hp
  have hpw : (s.pc p).waits = false := by
    cases hpc : s.pc p <;> rw [hpc] at hp <;> first | rfl | cases hp
  have hne : q ≠ p := by
    rintro rfl
    rw [hqa] at hpw
    cases hpw
  have hpc : ∀ t, ((s.goto q .woken).goto p k).pc t =
      if t = p then k else if t = q then .woken else s.pc t := by
    intro t
    rw [goto_pc, goto_pc]
  refine ⟨fun g' t => ?_, fun t g' ht => ?_, fun t r g' ht => ?_, fun g' b x => ?_, h.nodup,
    h.tags, fun t x ht => ?_, fun x g' => ?_, fun t r g' ht => ?_, fun t r ht => ?_, fun x hx => ?_⟩
  · change s.lock g' = some t ↔ _
    rw [hpc, h.lock]
    split
    · rename_i ht
      rw [ht, hk]
    · split
      · rename_i ht
        rw [ht, hqa]
        exact Iff.rfl
      · rfl
  · rw [hpc] at ht
    split at ht
    · rename_i htp
      rw [htp]
      exact hown g' ht
    · split at ht
      · cases ht
      · exact h.own t g' ht
  · rw [hpc] at ht
    split at ht
    · exact (hc r g' ht).1
    · split at ht
      · cases ht
      · exact h.captured t r g' ht
  · change x ∈ s.chain g' b ↔ _ ∧ s.rgrp x = some g' ∧ REND (s.rendtag x) = b ∧ _
    rw [h.mem]
    by_cases hxq : x = q
    · -- it is on no chain before, and does not wait after
      subst hxq
      rw [hpc, if_neg hne, if_pos rfl]
      constructor
      · rintro ⟨-, -, -, hall⟩
        exact absurd hp (hall p)
      · rintro ⟨hw, -⟩
        cases hw
    · have hw : (((s.goto q .woken).goto p k).pc x).waits = (s.pc x).waits := by
        rw [hpc]
        split
        · rename_i hx
          rw [hx, hkw, hpw]
        · rfl
      have hall : (∀ t, (((s.goto q .woken).goto p k).pc t).pulled ≠ some x) ↔
          ∀ t, (s.pc t).pulled ≠ some x := by
        refine forall_congr' fun t => ?_
        rw [hpc]
        split
        · rename_i ht
          rw [ht, hkp, hp]
          simp [Ne.symm hxq]
        · split
          · rename_i ht
            rw [ht, hqa]
            exact Iff.rfl
          · rfl
      rw [hw, hall]
  · rw [hpc] at ht
    split at ht
    · rw [hkp] at ht
      cases ht
    · rename_i htp
      split at ht
      · cases ht
      · rename_i htq
        obtain ⟨hxa, g', hg', hxr⟩ := h.pulled t x ht
        refine ⟨?_, g', ?_, hxr⟩
        · rw [hpc, if_neg ?_, if_neg ?_]
          · exact hxa
          · rintro rfl
            exact htp (h.pulled_once hp ht)
          · rintro rfl
            rw [hxa] at hpw
            cases hpw
        · rw [hpc, if_neg htp, if_neg htq]
          exact hg'
  · rw [hpc]
    split
    · exact hkl g'
    · split
      · exact fun he => nomatch he
      · exact h.linked x g'
  · rw [hpc] at ht
    split at ht
    · rename_i htp
      rw [htp]
      exact (hc r g' ht).2
    · split at ht
      · cases ht
      · exact h.debug t r g' ht
  · rw [hpc] at ht
    split at ht
    · exact absurd ht (hposts r)
    · split at ht
      · rcases ht with ht | ht <;> cases ht
      · exact h.posts t r ht
  · rw [hpc] at hx
    split at hx
    · rw [hkw] at hx
      cases hx
    · split at hx
      · cases hx
      · exact h.waits x hx

/-- A process goes to wait on its chain, where nobody has its tag. -/
theorem Chains.link (h : Chains s) {tag val : Word} (hp : s.pc p = .scan g tag val)
    (hno : ∀ q ∈ s.chain g (REND tag), s.rendtag q ≠ tag) :
    Chains (((s.settag p tag).setchain g (REND tag) (s.chain g (REND tag) ++ [p])).goto p
      (.linked g false)) := by
  have hpw : (s.pc p).waits = false := by rw [hp]; rfl
  have hrp : s.rgrp p = some g := h.own p g (by rw [hp]; rfl)
  have hnot : ∀ g' b, p ∉ s.chain g' b := by
    intro g' b hmem
    rw [h.mem, hpw] at hmem
    cases hmem.1
  have hpulled : ∀ t, (s.pc t).pulled ≠ some p := by
    intro t ht
    have hbad := (h.pulled t p ht).1
    rw [hp] at hbad
    cases hbad
  have hpc : ∀ t, ((((s.settag p tag).setchain g (REND tag) (s.chain g (REND tag) ++ [p])).goto p
      (.linked g false)).pc t) = if t = p then .linked g false else s.pc t := fun t => goto_pc
  have htag : ∀ t, (((s.settag p tag).setchain g (REND tag) (s.chain g (REND tag) ++ [p])).goto p
      (.linked g false)).rendtag t = if t = p then tag else s.rendtag t :=
    fun t => update_apply ..
  have hchain : ∀ g' b, (((s.settag p tag).setchain g (REND tag) (s.chain g (REND tag) ++ [p])).goto p
      (.linked g false)).chain g' b =
        if g' = g ∧ b = REND tag then s.chain g (REND tag) ++ [p] else s.chain g' b :=
    fun g' b => setchain_chain (s := s.settag p tag)
  refine ⟨fun g' t => ?_, fun t g' ht => ?_, fun t r g' ht => ?_, fun g' b x => ?_, fun g' b => ?_,
    fun g' b x y hx hy => ?_, fun t x ht => ?_, fun x g' => ?_, fun t r g' ht => ?_, fun t r ht => ?_,
    fun x hx => ?_⟩
  · change s.lock g' = some t ↔ _
    rw [hpc, h.lock]
    split
    · rename_i ht
      rw [ht, hp]
      rfl
    · rfl
  · rw [hpc] at ht
    split at ht
    · rename_i htp
      cases ht
      rw [htp]
      exact hrp
    · exact h.own t g' ht
  · rw [hpc] at ht
    split at ht
    · cases ht
    · exact h.captured t r g' ht
  · rw [hchain, htag]
    simp only [hpc]
    change _ ↔ _ ∧ s.rgrp x = some g' ∧ _
    by_cases hx : x = p
    · subst hx
      have hall : ∀ t, (if t = x then Pc.linked g false else s.pc t : Pc P G).pulled ≠ some x := by
        intro t
        split
        · exact fun he => nomatch he
        · exact hpulled t
      rw [if_pos rfl, if_pos rfl]
      constructor
      · intro hmem
        split at hmem
        · rename_i hgb
          rw [hgb.1, hgb.2]
          exact ⟨rfl, hrp, rfl, hall⟩
        · exact absurd hmem (hnot g' b)
      · rintro ⟨-, hr, hb, -⟩
        rw [hrp] at hr
        cases hr
        rw [if_pos ⟨rfl, hb.symm⟩]
        exact List.mem_append_right _ (List.mem_singleton_self x)
    · rw [if_neg hx, if_neg hx]
      have hall : (∀ t, (if t = p then Pc.linked g false else s.pc t : Pc P G).pulled ≠ some x) ↔
          ∀ t, (s.pc t).pulled ≠ some x := by
        refine forall_congr' fun t => ?_
        split
        · rename_i ht
          rw [ht, hp]
          exact Iff.rfl
        · rfl
      rw [hall, ← h.mem]
      split
      · rename_i hgb
        rw [hgb.1, hgb.2, List.mem_append, List.mem_singleton]
        exact or_iff_left hx
      · rfl
  · rw [hchain]
    split
    · refine List.nodup_append.mpr ⟨h.nodup _ _, List.nodup_singleton p, fun x hx y hy hxy => ?_⟩
      rw [List.mem_singleton.mp hy] at hxy
      exact hnot _ _ (hxy ▸ hx)
    · exact h.nodup g' b
  · rw [hchain] at hx hy
    rw [htag, htag]
    split at hx
    · rename_i hgb
      rw [if_pos hgb] at hy
      rcases List.mem_append.mp hx with hx | hx <;> rcases List.mem_append.mp hy with hy | hy
      · rw [if_neg (ne_of_mem_of_not_mem hx (hnot _ _)), if_neg (ne_of_mem_of_not_mem hy (hnot _ _))]
        exact h.tags g _ x y hx hy
      · rw [if_neg (ne_of_mem_of_not_mem hx (hnot _ _)), if_pos (List.mem_singleton.mp hy)]
        exact fun he => absurd he (hno x hx)
      · rw [if_neg (ne_of_mem_of_not_mem hy (hnot _ _)), if_pos (List.mem_singleton.mp hx)]
        exact fun he => absurd he.symm (hno y hy)
      · exact fun _ => (List.mem_singleton.mp hx).trans (List.mem_singleton.mp hy).symm
    · rename_i hgb
      rw [if_neg hgb] at hy
      rw [if_neg (ne_of_mem_of_not_mem hx (hnot _ _)), if_neg (ne_of_mem_of_not_mem hy (hnot _ _))]
      exact h.tags g' b x y hx hy
  · rw [hpc] at ht
    split at ht
    · cases ht
    · rename_i htp
      obtain ⟨hxa, g', hg', hxr⟩ := h.pulled t x ht
      refine ⟨?_, g', ?_, hxr⟩
      · rw [hpc, if_neg ?_]
        · exact hxa
        · rintro rfl
          exact hpulled t ht
      · rw [hpc, if_neg htp]
        exact hg'
  · rw [hpc]
    split
    · exact fun he => nomatch he
    · exact h.linked x g'
  · rw [hpc] at ht
    split at ht
    · cases ht
    · exact h.debug t r g' ht
  · rw [hpc] at ht
    split at ht
    · rcases ht with ht | ht <;> cases ht
    · exact h.posts t r ht
  · rw [hpc] at hx
    split at hx
    · rename_i hxp
      rw [hxp]
      exact ⟨g, hrp⟩
    · exact h.waits x hx

omit [DecidableEq G] in
/-- A process in user mode changes its group. -/
theorem Chains.setrgrp (h : Chains s) (hp : s.pc p = .user)
    (hno : ∀ t g, (s.pc t).captured ≠ some (p, g)) (o : Option G) : Chains (s.setrgrp p o) := by
  have hr : ∀ q ≠ p, (s.setrgrp p o).rgrp q = s.rgrp q := fun q hq => update_of_ne hq _ _
  have hne : ∀ {q : P}, (s.pc q).waits = true → q ≠ p := by
    rintro q hq rfl
    rw [hp] at hq
    cases hq
  refine ⟨h.lock, fun t g ht => ?_, fun t q g ht => ?_, fun g b q => ?_, h.nodup, h.tags,
    fun t q ht => ?_, h.linked, h.debug, h.posts, fun q hq => ?_⟩
  · have htp : t ≠ p := by
      rintro rfl
      rw [show (s.setrgrp t o).pc t = s.pc t from rfl, hp] at ht
      cases ht
    rw [hr t htp]
    exact h.own t g ht
  · have hqp : q ≠ p := by
      rintro rfl
      exact hno t g ht
    rw [hr q hqp]
    exact h.captured t q g ht
  · change q ∈ s.chain g b ↔ (s.pc q).waits = true ∧ (s.setrgrp p o).rgrp q = some g ∧ _
    rw [h.mem]
    by_cases hqp : q = p
    · subst hqp
      rw [hp]
      constructor <;> rintro ⟨hw, -⟩ <;> cases hw
    · rw [hr q hqp]
      rfl
  · obtain ⟨hqa, g, hg, hrq⟩ := h.pulled t q ht
    exact ⟨hqa, g, hg, (hr q (hne (by rw [hqa]; rfl))).trans hrq⟩
  · rw [hr q (hne hq)]
    exact h.waits q hq

omit [DecidableEq P] in
/-- A new group has no chains and no lock holder to begin with. -/
theorem Chains.newrgrp (h : Chains s) (hno : ∀ p, s.rgrp p ≠ some g) : s.newrgrp g = s := by
  have hchain : s.chain g = fun _ => [] := by
    funext b
    refine List.eq_nil_iff_forall_not_mem.mpr fun q hq => ?_
    rw [h.mem] at hq
    exact hno q hq.2.1
  have hlock : s.lock g = none := by
    refine Option.eq_none_iff_forall_ne_some.mpr fun t ht => ?_
    rw [h.lock] at ht
    cases hpc : s.pc t with
    | scan | ready | unlock | linked =>
      refine hno t (h.own t g ?_)
      rw [hpc] at ht ⊢
      exact ht
    | pcheck q g' | pready q g' | punlock q g' =>
      refine hno q (h.captured t q g ?_)
      rw [hpc] at ht ⊢
      cases ht
      rfl
    | _ =>
      rw [hpc] at ht
      cases ht
  unfold Sys.newrgrp
  rw [← hchain, ← hlock, update_eq_self, update_eq_self]

omit [DecidableEq G] in
/-- `p->debug` changes hands while no `postnote` to `p` is going on. -/
theorem Chains.setdebug (h : Chains s) (hd : ∀ t, s.debug p = some t → s.pc t = .user)
    (o : Option P) : Chains (s.setdebug p o) := by
  have hother : ∀ q ≠ p, (s.setdebug p o).debug q = s.debug q := fun q hq => update_of_ne hq _ _
  refine ⟨h.lock, h.own, h.captured, h.mem, h.nodup, h.tags, h.pulled, h.linked, fun t q g ht => ?_,
    fun t q ht => ?_, h.waits⟩
  · have hdt := h.debug t q g ht
    rw [hother q ?_]
    · exact hdt
    · rintro rfl
      rw [show (s.setdebug q o).pc t = _ from hd t hdt] at ht
      cases ht
  · have hdt := h.posts t q ht
    rw [hother q ?_]
    · exact hdt
    · rintro rfl
      rw [show (s.setdebug q o).pc t = _ from hd t hdt] at ht
      rcases ht with ht | ht <;> cases ht

/-! ## Steps -/

/-- What a step of `p` can do. -/
inductive Move (s : Sys P G) (p : P) : Sys P G → Prop
  | enter {tag val : Word} {g : G} : s.pc p = .enter tag val → s.rgrp p = some g → s.lock g = none →
      Move s p (((s.setval p ones).setlock g (some p)).goto p (.scan g tag val))
  | meet {g : G} {tag val : Word} {q : P} : s.pc p = .scan g tag val → q ∈ s.chain g (REND tag) →
      s.rendtag q = tag →
      Move s p (((s.setchain g (REND tag) ((s.chain g (REND tag)).erase q)).setval q val).goto p
        (.ready g q (s.rendval q)))
  | link {g : G} {tag val : Word} : s.pc p = .scan g tag val →
      (∀ q ∈ s.chain g (REND tag), s.rendtag q ≠ tag) →
      Move s p ((((s.settag p tag).setval p val).setchain g (REND tag)
        (s.chain g (REND tag) ++ [p])).goto p (.linked g false))
  | ready {g : G} {q : P} {val : Word} : s.pc p = .ready g q val →
      Move s p ((((s.ready q).setfate q (.mate (p, s.now p))).setfate p (.mate (q, s.now q))).goto p
        (.unlock g val))
  | unlock {g : G} {val : Word} : s.pc p = .unlock g val →
      Move s p (((s.setlock g none).leave p val).goto p .user)
  | linked {g : G} {readied : Bool} : s.pc p = .linked g readied →
      Move s p ((s.setlock g none).goto p (if readied then .woken else .asleep))
  | woken : s.pc p = .woken → Move s p ((s.leave p (s.rendval p)).goto p .user)
  | tested {q : P} : s.pc p = .post q → Move s p (s.goto p (.pread q))
  | quit {q : P} : s.pc p = .post q → Move s p ((s.setdebug q none).goto p .user)
  | pread {q : P} {g : G} : s.pc p = .pread q → s.rgrp q = some g → Move s p (s.goto p (.plock q g))
  | plock {q : P} {g : G} : s.pc p = .plock q g → s.lock g = none →
      Move s p ((s.setlock g (some p)).goto p (.pcheck q g))
  | pull {q : P} {g g' : G} : s.pc p = .pcheck q g → (s.pc q).waits = true → s.rgrp q = some g' →
      Move s p (((s.setval q ones).setchain g' (REND (s.rendtag q))
        ((s.chain g' (REND (s.rendtag q))).erase q)).goto p (.pready q g))
  | missed {q : P} {g : G} : s.pc p = .pcheck q g → Move s p (s.goto p (.punlock q g))
  | pready {q : P} {g : G} : s.pc p = .pready q g →
      Move s p (((s.ready q).setfate q .interrupted).goto p (.punlock q g))
  | punlock {q : P} {g g' : G} : s.pc p = .punlock q g → s.rgrp q = some g' →
      Move s p (((s.setlock g' none).setdebug q none).goto p .user)
  | begin {tag val : Word} {g : G} : s.pc p = .user → s.rgrp p = some g →
      Move s p ((s.begin p tag val).goto p (.enter tag val))
  | rfrend {g : G} : s.pc p = .user → (∀ t g, (s.pc t).captured ≠ some (p, g)) →
      (∀ q, s.rgrp q ≠ some g) → Move s p ((s.newrgrp g).setrgrp p (some g))
  | share {g : G} {q : P} : s.pc q = .user → s.rgrp q = none → Move s p (s.setrgrp q (some g))
  | fresh {g : G} {q : P} : s.pc q = .user → s.rgrp q = none → (∀ q, s.rgrp q ≠ some g) →
      Move s p ((s.newrgrp g).setrgrp q (some g))
  | exit : s.pc p = .user → s.debug p = none → Move s p (s.setrgrp p none)
  | postnote {q : P} : s.pc p = .user → s.debug q = none →
      Move s p ((s.setdebug q (some p)).goto p (.post q))

theorem go_cases (h : s.go p = some s') : Move s p s' := by
  unfold Sys.go at h
  cases hk : s.pc p with
  | user | asleep =>
    rw [hk] at h
    cases h
  | enter tag val =>
    rw [hk] at h
    simp only at h
    split at h
    · cases h
    · rename_i g hg
      obtain ⟨hl, h⟩ := Option.ite_none_right_eq_some.mp h
      cases h
      exact .enter hk hg hl
  | scan g tag val =>
    rw [hk] at h
    simp only at h
    split at h
    · rename_i q hq
      cases h
      have htag : (s.rendtag q == tag) = true :=
        List.find?_some (p := fun q => s.rendtag q == tag) hq
      exact .meet hk (List.mem_of_find?_eq_some hq) (eq_of_beq htag)
    · rename_i hq
      cases h
      refine .link hk fun q hmem he => ?_
      have hno := List.find?_eq_none.mp hq q hmem
      rw [he, beq_self_eq_true] at hno
      exact hno rfl
  | ready g q val =>
    rw [hk] at h
    cases h
    exact .ready hk
  | unlock g val =>
    rw [hk] at h
    cases h
    exact .unlock hk
  | linked g readied =>
    rw [hk] at h
    cases h
    exact .linked hk
  | woken =>
    rw [hk] at h
    cases h
    exact .woken hk
  | post q =>
    rw [hk] at h
    simp only at h
    split at h
    · cases h
      exact .tested hk
    · cases h
      exact .quit hk
  | pread q =>
    rw [hk] at h
    obtain ⟨g, hg, rfl⟩ := Option.map_eq_some_iff.mp h
    exact .pread hk hg
  | plock q g =>
    rw [hk] at h
    obtain ⟨hl, h⟩ := Option.ite_none_right_eq_some.mp h
    cases h
    exact .plock hk hl
  | pcheck q g =>
    rw [hk] at h
    simp only at h
    split at h
    · obtain ⟨g', hg', rfl⟩ := Option.map_eq_some_iff.mp h
      exact .pull hk ‹_› hg'
    · cases h
      exact .missed hk
  | pready q g =>
    rw [hk] at h
    cases h
    exact .pready hk
  | punlock q g =>
    rw [hk] at h
    obtain ⟨g', hg', rfl⟩ := Option.map_eq_some_iff.mp h
    exact .punlock hk hg'

/-- Calls are made by a process in user mode that is in a group. -/
theorem act_user {act : Act P G} (h : s.act p act = some s') (hgo : act ≠ .go) :
    s.pc p = .user ∧ ∃ g, s.rgrp p = some g := by
  cases act with
  | go => exact absurd rfl hgo
  | _ =>
    unfold Sys.act at h
    simp only at h
    split at h
    · rename_i g hp hg
      exact ⟨hp, g, hg⟩
    · cases h

theorem step_cases {act : Act P G} (hgood : Good s (p, act)) (h : (kernel P G).step s (p, act) s') :
    Move s p s' := by
  obtain ⟨hfits, hact⟩ := h
  replace hact : s.act p act = some s' := hact
  cases act with
  | go => exact go_cases hact
  | rendezvous tag val =>
    obtain ⟨hp, g, hg⟩ := act_user hact (by simp)
    simp only [Sys.act, hp, hg] at hact
    cases hact
    exact .begin hp hg
  | rfrend g' =>
    obtain ⟨hp, g, hg⟩ := act_user hact (by simp)
    simp only [Sys.act, hp, hg] at hact
    cases hact
    exact .rfrend hp hgood hfits
  | rfork child g' =>
    obtain ⟨hp, g, hg⟩ := act_user hact (by simp)
    simp only [Sys.act, hp, hg] at hact
    split at hact
    · rename_i hc hr
      cases hact
      exact .share hc hr
    · rename_i g'' hc hr
      cases hact
      exact .fresh hc hr hfits
    · cases hact
  | exit =>
    obtain ⟨hp, g, hg⟩ := act_user hact (by simp)
    simp only [Sys.act, hp, hg] at hact
    obtain ⟨hd, h⟩ := Option.ite_none_right_eq_some.mp hact
    cases h
    exact .exit hp hd
  | postnote q =>
    obtain ⟨hp, g, hg⟩ := act_user hact (by simp)
    simp only [Sys.act, hp, hg] at hact
    obtain ⟨hd, h⟩ := Option.ite_none_right_eq_some.mp hact
    cases h
    exact .postnote hp hd

/-- Chains, locks and groups stay consistent. -/
theorem Chains.move (h : Chains s) (hm : Move s p s') : Chains s' := by
  cases hm with
  | @enter tag val g hp hg hl =>
    have hmid : Chains (s.setval p ones) := h.frame rfl rfl rfl rfl rfl rfl
    refine hmid.acquire (k := .scan g tag val) hl ?_ rfl (fun g' hg' => ?_) (fun q g h => nomatch h) ?_ ?_
      rfl (fun g h => nomatch h) ?_ (fun q h => ?_)
    · rw [show (s.setval p ones).pc p = _ from hp]
      rfl
    · cases hg'
      exact hg
    · rw [show (s.setval p ones).pc p = _ from hp]
      rfl
    · rw [show (s.setval p ones).pc p = _ from hp]
      rfl
    · rw [show (s.setval p ones).pc p = _ from hp]
      exact fun h => nomatch h
    · rcases h with h | h <;> cases h
  | @meet g tag val q hp hq htag =>
    obtain ⟨hw, hr, -, -⟩ := (h.mem g (REND tag) q).mp hq
    subst htag
    have hpull := h.pull (p := p) (q := q) (g := g) (k := .ready g q (s.rendval q))
      (by rw [hp]; rfl) rfl hw hr (fun g' hg' => ?_) (fun q g h => nomatch h) (by rw [hp]; rfl) rfl
      (by rw [hp]; rfl) rfl (fun q h => by rcases h with h | h <;> cases h)
    · exact hpull.frame rfl rfl rfl rfl rfl rfl
    · cases hg'
      exact h.own p g (by rw [hp]; rfl)
  | @link g tag val hp hno => exact (h.link hp hno).frame rfl rfl rfl rfl rfl rfl
  | @ready g q val hp =>
    have hq := (h.pulled p q (by rw [hp]; rfl)).1
    have hwake := h.wake (p := p) (q := q) (k := .unlock g val) (by rw [hp]; rfl) (by rw [hp]; rfl)
      (fun g' hg' => ?_) (fun q g h => nomatch h) rfl rfl (fun g h => nomatch h)
      (fun q h => by rcases h with h | h <;> cases h)
    · refine hwake.frame rfl rfl rfl rfl rfl ?_
      change update (s.ready q).pc p _ = _
      unfold Sys.ready
      rw [hq]
      rfl
    · cases hg'
      exact h.own p g (by rw [hp]; rfl)
  | @unlock g val hp =>
    have hrel := h.release (p := p) (g := g) (k := .user) (by rw [hp]; rfl) rfl rfl rfl
      (by rw [hp]; rfl) (by rw [hp]; rfl) rfl (fun g h => nomatch h)
      (by rw [hp]; exact fun h => nomatch h) (fun q h => by rcases h with h | h <;> cases h)
    exact hrel.frame rfl rfl rfl rfl rfl rfl
  | @linked g readied hp =>
    have hr : readied = false := by
      cases readied with
      | false => rfl
      | true => exact absurd hp (h.linked p g)
    subst hr
    exact h.release (p := p) (g := g) (k := .asleep) (by rw [hp]; rfl) rfl rfl rfl
      (by rw [hp]; rfl) (by rw [hp]; rfl) rfl (fun g h => nomatch h)
      (by rw [hp]; exact fun h => nomatch h) (fun q h => by rcases h with h | h <;> cases h)
  | woken hp =>
    have hgoto := h.goto (p := p) (k := .user) (by rw [hp]; rfl) (fun g h => nomatch h)
      (fun q g h => nomatch h) (by rw [hp]; rfl) (by rw [hp]; rfl) (fun g h => nomatch h)
      (by rw [hp]; exact fun h => nomatch h) (fun q h => by rcases h with h | h <;> cases h)
    exact hgoto.frame rfl rfl rfl rfl rfl rfl
  | @tested q hp =>
    refine h.goto (by rw [hp]; rfl) (fun g h => nomatch h) (fun q g h => nomatch h) (by rw [hp]; rfl)
      (by rw [hp]; rfl) (fun g h => nomatch h) (by rw [hp]; exact fun h => nomatch h) fun r hr => ?_
    rcases hr with hr | hr <;> cases hr
    exact h.posts p q (.inl hp)
  | @quit q hp =>
    have hd := h.posts p q (.inl hp)
    have hgoto := h.goto (p := p) (k := .user) (by rw [hp]; rfl) (fun g h => nomatch h)
      (fun q g h => nomatch h) (by rw [hp]; rfl) (by rw [hp]; rfl) (fun g h => nomatch h)
      (by rw [hp]; exact fun h => nomatch h) (fun q h => by rcases h with h | h <;> cases h)
    have hset := hgoto.setdebug (p := q) (fun t ht => ?_) none
    · exact hset.frame rfl rfl rfl rfl rfl rfl
    · rw [Option.some.inj (hd.symm.trans ht), goto_pc, if_pos rfl]
  | @pread q g hp hg =>
    refine h.goto (by rw [hp]; rfl) (fun g h => nomatch h) (fun r g' hr => ?_) (by rw [hp]; rfl)
      (by rw [hp]; rfl) (fun g h => nomatch h) (by rw [hp]; exact fun h => nomatch h)
      fun r hr => by rcases hr with hr | hr <;> cases hr
    cases hr
    exact ⟨hg, h.posts p q (.inr hp)⟩
  | @plock q g hp hl =>
    refine h.acquire hl (by rw [hp]; rfl) rfl (fun g h => nomatch h) (fun r g' hr => ?_)
      (by rw [hp]; rfl) (by rw [hp]; rfl) rfl (fun g h => nomatch h)
      (by rw [hp]; exact fun h => nomatch h) fun r hr => by rcases hr with hr | hr <;> cases hr
    cases hr
    exact ⟨h.captured p q g (by rw [hp]; rfl), h.debug p q g (by rw [hp]; rfl)⟩
  | @pull q g g' hp hw hg =>
    have hcap := h.captured p q g (by rw [hp]; rfl)
    rw [hcap] at hg
    cases hg
    have hpull := h.pull (p := p) (q := q) (g := g) (k := .pready q g) (by rw [hp]; rfl) rfl hw hcap
      (fun g' hg' => nomatch hg') (fun r g' hr => ?_) (by rw [hp]; rfl) rfl (by rw [hp]; rfl) rfl
      (fun q h => by rcases h with h | h <;> cases h)
    · exact hpull.frame rfl rfl rfl rfl rfl rfl
    · cases hr
      exact ⟨hcap, h.debug p q g (by rw [hp]; rfl)⟩
  | @missed q g hp =>
    refine h.goto (by rw [hp]; rfl) (fun g h => nomatch h) (fun r g' hr => ?_) (by rw [hp]; rfl)
      (by rw [hp]; rfl) (fun g h => nomatch h) (by rw [hp]; exact fun h => nomatch h)
      fun r hr => by rcases hr with hr | hr <;> cases hr
    cases hr
    exact ⟨h.captured p q g (by rw [hp]; rfl), h.debug p q g (by rw [hp]; rfl)⟩
  | @pready q g hp =>
    have hq := (h.pulled p q (by rw [hp]; rfl)).1
    have hwake := h.wake (p := p) (q := q) (k := .punlock q g) (by rw [hp]; rfl) (by rw [hp]; rfl)
      (fun g' hg' => nomatch hg') (fun r g' hr => ?_) rfl rfl (fun g h => nomatch h)
      (fun q h => by rcases h with h | h <;> cases h)
    · refine hwake.frame rfl rfl rfl rfl rfl ?_
      change update (s.ready q).pc p _ = _
      unfold Sys.ready
      rw [hq]
      rfl
    · cases hr
      exact ⟨h.captured p q g (by rw [hp]; rfl), h.debug p q g (by rw [hp]; rfl)⟩
  | @punlock q g g' hp hg =>
    have hcap := h.captured p q g (by rw [hp]; rfl)
    have hd := h.debug p q g (by rw [hp]; rfl)
    rw [hcap] at hg
    cases hg
    have hrel := h.release (p := p) (g := g) (k := .user) (by rw [hp]; rfl) rfl rfl rfl
      (by rw [hp]; rfl) (by rw [hp]; rfl) rfl (fun g h => nomatch h)
      (by rw [hp]; exact fun h => nomatch h) (fun q h => by rcases h with h | h <;> cases h)
    have hset := hrel.setdebug (p := q) (fun t ht => ?_) none
    · exact hset.frame rfl rfl rfl rfl rfl rfl
    · rw [Option.some.inj (hd.symm.trans ht), goto_pc, if_pos rfl]
  | @begin tag val g hp hg =>
    have hgoto := h.goto (p := p) (k := .enter tag val) (by rw [hp]; rfl) (fun g h => nomatch h)
      (fun q g h => nomatch h) (by rw [hp]; rfl) (by rw [hp]; rfl) (fun g h => nomatch h)
      (by rw [hp]; exact fun h => nomatch h) (fun q h => by rcases h with h | h <;> cases h)
    exact hgoto.frame rfl rfl rfl rfl rfl rfl
  | rfrend hp hgood hno =>
    rw [h.newrgrp hno]
    exact h.setrgrp hp hgood _
  | @share g q hq hr =>
    refine h.setrgrp hq (fun t g' ht => ?_) _
    rw [h.captured t q g' ht] at hr
    cases hr
  | @fresh g q hq hr hno =>
    rw [h.newrgrp hno]
    refine h.setrgrp hq (fun t g' ht => ?_) _
    rw [h.captured t q g' ht] at hr
    cases hr
  | exit hp hd =>
    refine h.setrgrp hp (fun t g' ht => ?_) _
    rw [h.debug t p g' ht] at hd
    cases hd
  | @postnote q hp hd =>
    have hset := h.setdebug (p := q) (fun t ht => by rw [hd] at ht; cases ht) (some p)
    have hself : (s.setdebug q (some p)).debug q = some p := update_self ..
    have hpc : (s.setdebug q (some p)).pc p = .user := hp
    refine hset.goto (by rw [hpc]; rfl) (fun g h => nomatch h) (fun q g h => nomatch h)
      (by rw [hpc]; rfl) (by rw [hpc]; rfl) (fun g h => nomatch h)
      (by rw [hpc]; exact fun h => nomatch h) fun r hr => ?_
    rcases hr with hr | hr <;> cases hr
    exact hself

end NixMark.Rendezvous
