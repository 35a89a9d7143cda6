import Mathlib.Data.Nat.Basic
import NixMark.Alarms.Procalarm

/-!
# Alarms are posted once and not early

* `Steady`: the clock does not wrap while an alarm is pending or a pass is going on, and no alarm is
  set for a tick at which it has wrapped.
* `Inv`: in steady runs a pending alarm and the clock are in one turn of the clock, and so the list
  is sorted.
* `alarms_fire`: the run theorem.
-/

namespace NixMark.Alarms

open Lib
open Function (update update_of_ne update_self)

variable {P : Type}

/-! ## Statements -/

namespace Sys

/-- The loop of a pass has nothing more to do. -/
def idle (s : Sys P) (now : Nat) : Prop := ∀ rp ∈ s.alarms.head?, ulong now < s.alarm rp

/-- Alarms are posted once and not early; one that is neither posted nor given up is in the list,
behind none that is due later; and a pass that comes to its end has left none that is due. -/
structure Punctual (s : Sys P) : Prop where
  once : (s.posts.map fun q => (q.alarm.proc, q.alarm.id)).Nodup
  early : ∀ q ∈ s.posts, q.alarm.due ≤ q.tick
  kept : ∀ p, ∀ a ∈ s.live p, a.proc = p ∧ p ∈ s.alarms ∧ s.alarm p ≠ 0
  behind : s.alarms.Pairwise fun p q => ∀ a ∈ s.live p, ∀ b ∈ s.live q, a.due ≤ b.due
  passed : ∀ now, s.kproc = .pass now → s.idle now → ∀ p, ∀ a ∈ s.live p, now < a.due

/-- Nothing is pending. -/
def Quiet (s : Sys P) : Prop :=
  s.kproc = .asleep ∧ ∀ p, s.live p = none ∧ s.setting p = none

end Sys

/-- The clock wraps when nothing is pending only, and an alarm is set for a tick before that. -/
def Steady (s : Sys P) : Act P → Prop
  | .tick => ulong (s.time + 1) ≠ 0 ∨ s.Quiet
  | .set _ time => 0 < ms2tk time + ulong s.time ∧ ms2tk time + ulong s.time < 4294967296
  | _ => True

/-! ## The turn of the clock -/

/-- The turn of the clock that a tick is in. -/
def turn (n : Nat) : Nat := n / 4294967296

theorem ulong_le {m n : Nat} (h : turn m = turn n) : ulong m ≤ ulong n ↔ m ≤ n := by
  unfold turn at h
  unfold ulong
  omega

theorem ulong_lt {m n : Nat} (h : turn m = turn n) : ulong m < ulong n ↔ m < n := by
  unfold turn at h
  unfold ulong
  omega

/-- An alarm that is pending: its tick is in the turn of the clock, and in `time` as a `ulong`. -/
structure Pending (s : Sys P) (p : P) (time : Nat) (a : Alarm P) : Prop where
  proc : a.proc = p
  id : a.id < s.nset p
  value : time = ulong a.due
  pos : time ≠ 0
  turns : turn a.due = turn s.time
  fresh : ∀ q ∈ s.posts, q.alarm.proc = p → q.alarm.id < a.id

/-- A tick that the kernel process has read. -/
def Recent (s : Sys P) (now : Nat) : Prop := now ≤ s.time ∧ turn now = turn s.time

/-- What holds of the kernel process. -/
def Kproc.Ok (s : Sys P) : Kproc P → Prop
  | .asleep => True
  | .awake now | .pass now => Recent s now
  | .posting now a => Recent s now ∧ a.due ≤ now ∧ s.alarms.head? = some a.proc ∧
    (s.live a.proc = some a ∨ s.live a.proc = none) ∧ Pending s a.proc (ulong a.due) a ∧
    ∀ b ∈ s.setting a.proc, a.id < b.2.id

structure Inv (s : Sys P) : Prop where
  nodup : s.alarms.Nodup
  once : (s.posts.map fun q => (q.alarm.proc, q.alarm.id)).Nodup
  early : ∀ q ∈ s.posts, q.alarm.due ≤ q.tick
  posted : ∀ q ∈ s.posts, q.alarm.id < s.nset q.alarm.proc
  live : ∀ p, ∀ a ∈ s.live p, p ∈ s.alarms ∧ Pending s p (s.alarm p) a
  unset : ∀ p, s.live p = none → s.alarm p = 0
  setting : ∀ p, ∀ b ∈ s.setting p, Pending s p b.1 b.2 ∧ ∀ a ∈ s.live p, a.id < b.2.id
  sorted : s.alarms.Pairwise fun p q => s.alarm p = 0 ∨ s.alarm q = 0 ∨ s.alarm p ≤ s.alarm q
  kproc : s.kproc.Ok s

namespace Inv

variable {s : Sys P}

theorem punctual (h : Inv s) : s.Punctual where
  once := h.once
  early := h.early
  kept p a ha :=
    have ⟨hin, hp⟩ := h.live p a ha
    ⟨hp.proc, hin, hp.pos⟩
  behind := by
    refine h.sorted.imp fun {p q} hpq a ha b hb => ?_
    obtain ⟨-, ha⟩ := h.live p a ha
    obtain ⟨-, hb⟩ := h.live q b hb
    have hle := (hpq.resolve_left ha.pos).resolve_left hb.pos
    rw [ha.value, hb.value] at hle
    exact (ulong_le (ha.turns.trans hb.turns.symm)).mp hle
  passed now hk hover p a ha := by
    have hok := h.kproc
    rw [hk] at hok
    obtain ⟨-, hturn⟩ : Recent s now := hok
    obtain ⟨hin, ha⟩ := h.live p a ha
    have hlt : ulong now < s.alarm p := by
      have hsorted := h.sorted
      unfold Sys.idle at hover
      cases hl : s.alarms with
      | nil =>
        rw [hl] at hin
        cases hin
      | cons f l =>
        rw [hl] at hin hsorted hover
        have hf := hover f rfl
        rcases List.mem_cons.mp hin with rfl | hin
        · exact hf
        · have hle := (List.pairwise_cons.mp hsorted).1 p hin
          have := ha.pos
          omega
    rw [ha.value] at hlt
    exact (ulong_lt (hturn.trans ha.turns.symm)).mp hlt

theorem init : Inv (Sys.init : Sys P) where
  nodup := .nil
  once := .nil
  early q hq := by cases hq
  posted q hq := by cases hq
  live p a ha := by cases ha
  unset _ _ := rfl
  setting p b hb := by cases hb
  sorted := .nil
  kproc := trivial

end Inv

/-! ## What the steps keep -/

variable {time : Nat}

/-- Ticks, and steps that post nothing, keep an alarm pending. -/
theorem Pending.keep {s s' : Sys P} {p : P} {a : Alarm P} (h : Pending s p time a)
    (hnset : s.nset p ≤ s'.nset p) (hposts : s'.posts = s.posts)
    (hturn : turn s'.time = turn s.time) : Pending s' p time a where
  proc := h.proc
  id := Nat.lt_of_lt_of_le h.id hnset
  value := h.value
  pos := h.pos
  turns := h.turns.trans hturn.symm
  fresh := by
    rw [hposts]
    exact h.fresh

/-- What the kernel process knows depends on little of the state. -/
theorem Kproc.Ok.keep {s s' : Sys P} {k : Kproc P} (h : k.Ok s) (hle : s.time ≤ s'.time)
    (hturn : turn s'.time = turn s.time) (hposts : s'.posts = s.posts)
    (hnset : ∀ p, s.nset p ≤ s'.nset p) (halarms : s'.alarms = s.alarms)
    (hlive : ∀ p, s'.live p = s.live p ∨ s'.live p = none)
    (hset : ∀ p (a : Alarm P), a.id < s.nset p → (∀ b ∈ s.setting p, a.id < b.2.id) →
      ∀ b ∈ s'.setting p, a.id < b.2.id) : k.Ok s' := by
  have hrec : ∀ now, Recent s now → Recent s' now := fun now ⟨hn, ht⟩ =>
    ⟨Nat.le_trans hn hle, ht.trans hturn.symm⟩
  cases k with
  | asleep => trivial
  | awake now => exact hrec now h
  | pass now => exact hrec now h
  | posting now a =>
    obtain ⟨hr, hdue, hhead, hl, hp, hs⟩ := h
    refine ⟨hrec now hr, hdue, ?_, ?_, hp.keep (hnset _) hposts hturn, hset _ a hp.id hs⟩
    · rw [halarms]
      exact hhead
    · rcases hlive a.proc with h | h
      · rw [h]
        exact hl
      · exact .inr h

namespace Inv

variable {s s' : Sys P}

theorem tick (h : Inv s) (hs : Steady s .tick) : Inv { s with time := s.time + 1 } := by
  by_cases hwrap : ulong (s.time + 1) = 0
  · obtain ⟨hk, hquiet⟩ : s.Quiet := hs.resolve_left fun h => h hwrap
    refine ⟨h.nodup, h.once, h.early, h.posted, fun p a ha => ?_, h.unset, fun p b hb => ?_,
      h.sorted, ?_⟩
    · have : s.live p = some a := ha
      rw [(hquiet p).1] at this
      cases this
    · have : s.setting p = some b := hb
      rw [(hquiet p).2] at this
      cases this
    · show s.kproc.Ok _
      rw [hk]
      trivial
  · have hturn : turn (s.time + 1) = turn s.time := by
      unfold ulong at hwrap
      unfold turn
      omega
    exact {
      nodup := h.nodup
      once := h.once
      early := h.early
      posted := h.posted
      live := fun p a ha =>
        have ⟨hin, hp⟩ := h.live p a ha
        ⟨hin, hp.keep le_rfl rfl hturn⟩
      unset := h.unset
      setting := fun p b hb =>
        have ⟨hp, hlt⟩ := h.setting p b hb
        ⟨hp.keep le_rfl rfl hturn, hlt⟩
      sorted := h.sorted
      kproc := h.kproc.keep (Nat.le_succ _) hturn rfl (fun _ => le_rfl) rfl (fun _ => .inl rfl)
        fun _ _ _ h => h }

/-- Steps of the kernel process that only change what it does. -/
theorem turned (h : Inv s) {k : Kproc P} (hk : k.Ok s) : Inv { s with kproc := k } where
  nodup := h.nodup
  once := h.once
  early := h.early
  posted := h.posted
  live p a ha :=
    have ⟨hin, hp⟩ := h.live p a ha
    ⟨hin, hp.keep le_rfl rfl rfl⟩
  unset := h.unset
  setting p b hb :=
    have ⟨hp, hlt⟩ := h.setting p b hb
    ⟨hp.keep le_rfl rfl rfl, hlt⟩
  sorted := h.sorted
  kproc := hk.keep le_rfl rfl rfl (fun _ => le_rfl) rfl (fun _ => .inl rfl) fun _ _ _ h => h

theorem round (h : Inv s) {busy : Bool} {now : Nat} (hk : s.kproc = .pass now)
    (hs : s.round busy now = some s') : Inv s' := by
  have hrec : Recent s now := by
    have := h.kproc
    rw [hk] at this
    exact this
  unfold Sys.round at hs
  split at hs
  · cases hs
    exact h.turned trivial
  rename_i rp alarms hl
  split at hs
  swap
  · cases hs
    exact h.turned trivial
  rename_i hle
  split at hs
  · split at hs
    · cases hs
      exact h.turned trivial
    · obtain ⟨a, ha, hs⟩ := Option.map_eq_some_iff.mp hs
      subst hs
      obtain ⟨-, hp⟩ := h.live rp a ha
      obtain rfl := hp.proc
      refine h.turned ⟨hrec, ?_, ?_, .inl ha, ?_, fun b hb => (h.setting _ b hb).2 a ha⟩
      · rw [hp.value] at hle
        exact (ulong_le (hp.turns.trans hrec.2.symm)).mp hle
      · rw [hl]
        rfl
      · rw [← hp.value]
        exact hp
  · -- the alarm is 0 and so no alarm of this process is pending
    rename_i hzero
    have hzero := Decidable.not_not.mp hzero
    cases hs
    have hnodup := h.nodup
    have hsorted := h.sorted
    rw [hl] at hnodup hsorted
    exact {
      nodup := (List.nodup_cons.mp hnodup).2
      once := h.once
      early := h.early
      posted := h.posted
      live := fun p a ha => by
        obtain ⟨hin, hp⟩ := h.live p a ha
        rw [hl] at hin
        rcases List.mem_cons.mp hin with rfl | hin
        · exact absurd hzero hp.pos
        · exact ⟨hin, hp.keep le_rfl rfl rfl⟩
      unset := h.unset
      setting := fun p b hb =>
        have ⟨hp, hlt⟩ := h.setting p b hb
        ⟨hp.keep le_rfl rfl rfl, hlt⟩
      sorted := (List.pairwise_cons.mp hsorted).2
      kproc := by
        show s.kproc.Ok _
        rw [hk]
        exact hrec }

end Inv

/-! ### The list -/

variable {alarm : P → Nat} {up : P} {l : List P}

theorem mem_place {p : P} : p ∈ place alarm up time l ↔ p = up ∨ p ∈ l := by
  induction l with
  | nil => simp [place]
  | cons f l ih =>
    unfold place
    split
    · simp
    · simp only [List.mem_cons, ih]
      exact or_left_comm

theorem nodup_place (h : l.Nodup) (hup : up ∉ l) : (place alarm up time l).Nodup := by
  induction l with
  | nil => simp [place]
  | cons f l ih =>
    obtain ⟨hf, hl⟩ := List.nodup_cons.mp h
    unfold place
    split
    · exact List.nodup_cons.mpr ⟨hup, h⟩
    · refine List.nodup_cons.mpr ⟨?_, ih hl fun h => hup (List.mem_cons_of_mem _ h)⟩
      rw [mem_place, not_or]
      exact ⟨fun h => hup (h ▸ List.mem_cons_self), hf⟩

/-- The alarms that are not 0 are in order. -/
def Sorted (alarm : P → Nat) (l : List P) : Prop :=
  l.Pairwise fun p q => alarm p = 0 ∨ alarm q = 0 ∨ alarm p ≤ alarm q

variable [DecidableEq P]

theorem sorted_clear (h : Sorted alarm l) (up : P) : Sorted (update alarm up 0) l := by
  refine h.imp fun {p q} hpq => ?_
  by_cases hp : p = up
  · rw [hp, update_self]
    exact .inl rfl
  · by_cases hq : q = up
    · rw [hq, update_self]
      exact .inr (.inl rfl)
    · rwa [update_of_ne hp, update_of_ne hq]

theorem sorted_place (h : Sorted alarm l) (hup : up ∉ l) :
    Sorted (update alarm up time) (place alarm up time l) := by
  -- the alarms of the others do not change
  have hne : ∀ p ∈ l, update alarm up time p = alarm p := fun p hp =>
    update_of_ne (fun h : p = up => hup (h ▸ hp)) time alarm
  induction l with
  | nil => exact List.pairwise_singleton _ up
  | cons f l ih =>
    obtain ⟨hf, hl⟩ := List.pairwise_cons.mp h
    have hnf := hne f List.mem_cons_self
    have hnl : ∀ p ∈ l, update alarm up time p = alarm p := fun p hp =>
      hne p (List.mem_cons_of_mem _ hp)
    unfold place
    split
    · rename_i hgt
      refine List.pairwise_cons.mpr ⟨fun p hp => ?_, List.pairwise_cons.mpr ⟨fun p hp => ?_, ?_⟩⟩
      · rw [update_self, hne p hp]
        rcases List.mem_cons.mp hp with rfl | hp
        · exact .inr (.inr (Nat.le_of_lt hgt))
        · have := hf p hp
          omega
      · rw [hnf, hnl p hp]
        exact hf p hp
      · exact hl.imp_of_mem fun {p q} hp hq h => by rwa [hnl p hp, hnl q hq]
    · rename_i hle
      have hup' : up ∉ l := fun h => hup (List.mem_cons_of_mem _ h)
      refine List.pairwise_cons.mpr ⟨fun p hp => ?_, ih hl hup' hnl⟩
      rw [hnf]
      rcases mem_place.mp hp with rfl | hp
      · rw [update_self]
        exact .inr (.inr (Nat.le_of_not_lt hle))
      · rw [hnl p hp]
        exact hf p hp

/-! ### The steps -/

namespace Inv

variable {s s' : Sys P}

theorem set (h : Inv s) (hst : Steady s (.set up time)) (hs : s.set up time = some s') :
    Inv s' := by
  unfold Sys.set at hs
  split at hs
  · cases hs
  rename_i hfree
  obtain ⟨-, hfree⟩ := not_or.mp hfree
  have hnone : s.setting up = none := by simpa using hfree
  cases hs
  obtain ⟨hpos, hlt⟩ := hst
  -- the tick is in the turn of the clock
  have hturn : turn (s.time + ms2tk time) = turn s.time := by
    unfold turn
    unfold ulong at hlt
    omega
  have hwhen : ulong (ms2tk time + ulong s.time) = ulong (s.time + ms2tk time) := by
    unfold ulong
    omega
  have hne : ulong (ms2tk time + ulong s.time) ≠ 0 := by
    have : ulong (ms2tk time + ulong s.time) = ms2tk time + ulong s.time := Nat.mod_eq_of_lt hlt
    omega
  have hmono : ∀ p, s.nset p ≤ update s.nset up (s.nset up + 1) p := by
    intro p
    by_cases hp : p = up
    · rw [hp, update_self]
      exact Nat.le_succ _
    · rw [update_of_ne hp]
  have hset : ∀ (p : P) (a : Alarm P), a.id < s.nset p → (∀ b ∈ s.setting p, a.id < b.2.id) →
      ∀ b ∈ update s.setting up (some (ulong (ms2tk time + ulong s.time),
        ⟨up, s.nset up, s.time + ms2tk time⟩)) p, a.id < b.2.id := by
    intro p a ha hb b hbin
    by_cases hp : p = up
    · subst hp
      rw [update_self] at hbin
      obtain rfl := (Option.some.inj hbin).symm
      exact ha
    · rw [update_of_ne hp] at hbin
      exact hb b hbin
  exact {
    nodup := h.nodup
    once := h.once
    early := h.early
    posted := fun q hq => Nat.lt_of_lt_of_le (h.posted q hq) (hmono _)
    live := fun p a ha =>
      have ⟨hin, hp⟩ := h.live p a ha
      ⟨hin, hp.keep (hmono p) rfl rfl⟩
    unset := h.unset
    setting := fun p b hb => by
      refine ⟨?_, fun a ha => hset p a (h.live p a ha).2.id
        (fun b hb => (h.setting p b hb).2 a ha) b hb⟩
      by_cases hp : p = up
      · subst hp
        have hb : update s.setting p _ p = some b := hb
        rw [update_self] at hb
        obtain rfl := (Option.some.inj hb).symm
        refine ⟨rfl, ?_, hwhen, hne, hturn, fun q hq hqp => ?_⟩
        · show s.nset p < update s.nset p (s.nset p + 1) p
          rw [update_self]
          exact Nat.lt_succ_self _
        · rw [← hqp]
          exact h.posted q hq
      · have hb : update s.setting up _ p = some b := hb
        rw [update_of_ne hp] at hb
        exact (h.setting p b hb).1.keep (hmono p) rfl rfl
    sorted := h.sorted
    kproc := h.kproc.keep le_rfl rfl rfl hmono rfl (fun _ => .inl rfl) hset }

theorem insert (h : Inv s) (hs : s.insert up = some s') : Inv s' := by
  unfold Sys.insert at hs
  split at hs
  swap
  · cases hs
  rename_i hfree
  obtain ⟨⟨time, a⟩, hset, hs⟩ := Option.map_eq_some_iff.mp hs
  subst hs
  obtain ⟨hp, -⟩ := h.setting up (time, a) hset
  have hout : up ∉ s.alarms.erase up := h.nodup.not_mem_erase
  exact {
    nodup := nodup_place (h.nodup.erase up) hout
    once := h.once
    early := h.early
    posted := h.posted
    live := fun p b hb => by
      have hb : update s.live up (some a) p = some b := hb
      show p ∈ place s.alarm up time (s.alarms.erase up) ∧ Pending _ p (update s.alarm up time p) b
      by_cases hpu : p = up
      · subst hpu
        rw [update_self] at hb ⊢
        cases hb
        exact ⟨mem_place.mpr (.inl rfl), hp.keep le_rfl rfl rfl⟩
      · rw [update_of_ne hpu] at hb ⊢
        obtain ⟨hin, hb⟩ := h.live p b hb
        exact ⟨mem_place.mpr (.inr ((List.mem_erase_of_ne hpu).mpr hin)), hb.keep le_rfl rfl rfl⟩
    unset := fun p hl => by
      have hl : update s.live up (some a) p = none := hl
      show update s.alarm up time p = 0
      by_cases hpu : p = up
      · subst hpu
        rw [update_self] at hl
        cases hl
      · rw [update_of_ne hpu] at hl ⊢
        exact h.unset p hl
    setting := fun p b hb => by
      have hb : update s.setting up none p = some b := hb
      by_cases hpu : p = up
      · subst hpu
        rw [update_self] at hb
        cases hb
      · rw [update_of_ne hpu] at hb
        obtain ⟨hp, hlt⟩ := h.setting p b hb
        refine ⟨hp.keep le_rfl rfl rfl, fun c hc => ?_⟩
        have hc : update s.live up (some a) p = some c := hc
        rw [update_of_ne hpu] at hc
        exact hlt c hc
    sorted := sorted_place (h.sorted.sublist List.erase_sublist) hout
    kproc := by
      have hok := h.kproc
      unfold Sys.unlocked at hfree
      show s.kproc.Ok _
      cases hk : s.kproc with
      | asleep => trivial
      | awake now =>
        rw [hk] at hok
        exact hok
      | pass now =>
        rw [hk] at hfree
        cases hfree
      | posting now a =>
        rw [hk] at hfree
        cases hfree }

theorem clear (h : Inv s) (hs : s.clear up = some s') : Inv s' := by
  unfold Sys.clear at hs
  split at hs
  · cases hs
  cases hs
  have hlive : ∀ p, update s.live up none p = s.live p ∨
      update s.live up none p = none := by
    intro p
    by_cases hp : p = up
    · rw [hp, update_self]
      exact .inr rfl
    · rw [update_of_ne hp]
      exact .inl rfl
  exact {
    nodup := h.nodup
    once := h.once
    early := h.early
    posted := h.posted
    live := fun p b hb => by
      have hb : update s.live up none p = some b := hb
      show p ∈ s.alarms ∧ Pending _ p (update s.alarm up 0 p) b
      by_cases hpu : p = up
      · rw [hpu, update_self] at hb
        cases hb
      · rw [update_of_ne hpu] at hb ⊢
        obtain ⟨hin, hb⟩ := h.live p b hb
        exact ⟨hin, hb.keep le_rfl rfl rfl⟩
    unset := fun p hl => by
      have hl : update s.live up none p = none := hl
      show update s.alarm up 0 p = 0
      by_cases hpu : p = up
      · rw [hpu, update_self]
      · rw [update_of_ne hpu] at hl ⊢
        exact h.unset p hl
    setting := fun p b hb => by
      obtain ⟨hp, hlt⟩ := h.setting p b hb
      refine ⟨hp.keep le_rfl rfl rfl, fun c hc => ?_⟩
      rcases hlive p with he | he
      · exact hlt c (he.symm.trans hc)
      · cases he.symm.trans hc
    sorted := sorted_clear h.sorted up
    kproc := h.kproc.keep le_rfl rfl rfl (fun _ => le_rfl) rfl hlive fun _ _ _ h => h }

theorem post (h : Inv s) {now : Nat} {a : Alarm P} (hk : s.kproc = .posting now a) :
    Inv (s.post now a) := by
  have hok := h.kproc
  rw [hk] at hok
  obtain ⟨hrec, hdue, hhead, hlive, hpend, hset⟩ := hok
  have hnodup := h.nodup
  have hsorted := h.sorted
  cases hl : s.alarms with
  | nil =>
    rw [hl] at hhead
    cases hhead
  | cons f l =>
    rw [hl] at hhead hnodup hsorted
    obtain rfl := Option.some.inj hhead
    -- the post is no earlier one of an alarm with a later number
    have hkeep : ∀ {p : P} {time : Nat} {b : Alarm P}, Pending s p time b →
        (p = a.proc → a.id < b.id) → Pending (s.post now a) p time b := by
      intro p time b hb hlt
      refine ⟨hb.proc, hb.id, hb.value, hb.pos, hb.turns, fun q hq hqp => ?_⟩
      rcases List.mem_append.mp hq with hq | hq
      · exact hb.fresh q hq hqp
      · obtain rfl := List.mem_singleton.mp hq
        exact hlt hqp.symm
    have hlive : ∀ p, ∀ b, update s.live a.proc none p = some b →
        p ≠ a.proc ∧ s.live p = some b := by
      intro p b hb
      by_cases hp : p = a.proc
      · rw [hp, update_self] at hb
        cases hb
      · rw [update_of_ne hp] at hb
        exact ⟨hp, hb⟩
    exact {
      nodup := by
        show s.alarms.tail.Nodup
        rw [hl]
        exact (List.nodup_cons.mp hnodup).2
      once := by
        show ((s.posts ++ [(⟨a, s.time⟩ : Post P)]).map fun q => (q.alarm.proc, q.alarm.id)).Nodup
        rw [List.map_append, List.nodup_append]
        refine ⟨h.once, List.nodup_singleton _, fun x hx y hy hxy => ?_⟩
        obtain ⟨q, hq, rfl⟩ := List.mem_map.mp hx
        obtain rfl := List.mem_singleton.mp hy
        obtain ⟨hproc, hid⟩ := Prod.mk.inj hxy
        exact absurd hid (Nat.ne_of_lt (hpend.fresh q hq hproc))
      early := fun q hq => by
        rcases List.mem_append.mp hq with hq | hq
        · exact h.early q hq
        · obtain rfl := List.mem_singleton.mp hq
          exact Nat.le_trans hdue hrec.1
      posted := fun q hq => by
        rcases List.mem_append.mp hq with hq | hq
        · exact h.posted q hq
        · obtain rfl := List.mem_singleton.mp hq
          exact hpend.id
      live := fun p b hb => by
        obtain ⟨hp, hb⟩ := hlive p b hb
        obtain ⟨hin, hb⟩ := h.live p b hb
        show p ∈ s.alarms.tail ∧ Pending _ p (update s.alarm a.proc 0 p) b
        rw [update_of_ne hp]
        rw [hl] at hin ⊢
        exact ⟨(List.mem_cons.mp hin).resolve_left hp, hkeep hb fun h => absurd h hp⟩
      unset := fun p hn => by
        have hn : update s.live a.proc none p = none := hn
        show update s.alarm a.proc 0 p = 0
        by_cases hp : p = a.proc
        · rw [hp, update_self]
        · rw [update_of_ne hp] at hn ⊢
          exact h.unset p hn
      setting := fun p b hb => by
        obtain ⟨hb', hlt⟩ := h.setting p b hb
        refine ⟨hkeep hb' fun hp => ?_, fun c hc => hlt c (hlive p c hc).2⟩
        subst hp
        exact hset b hb
      sorted := by
        show Sorted (update s.alarm a.proc 0) s.alarms.tail
        rw [hl]
        exact sorted_clear (List.pairwise_cons.mp hsorted).2 _
      kproc := hrec }

/-- What a step keeps. -/
theorem step (h : Inv s) {e : Act P} (hst : Steady s e) (hs : s.step e = some s') : Inv s' := by
  cases e with
  | tick =>
    cases hs
    exact h.tick hst
  | set up time => exact h.set hst hs
  | insert up => exact h.insert hs
  | clear up => exact h.clear hs
  | read =>
    simp only [Sys.step] at hs
    split at hs
    · cases hs
      exact h.turned ⟨le_rfl, rfl⟩
    · cases hs
  | lock =>
    simp only [Sys.step] at hs
    split at hs
    · rename_i now hk
      cases hs
      have hok := h.kproc
      rw [hk] at hok
      exact h.turned hok
    · cases hs
  | round busy =>
    simp only [Sys.step] at hs
    split at hs
    · rename_i now hk
      exact h.round hk hs
    · cases hs
  | post =>
    simp only [Sys.step] at hs
    split at hs
    · rename_i now a hk
      cases hs
      exact h.post hk
    · cases hs

theorem alarms_inductive : (procs.restrict Steady).Inductive (Inv (P := P)) where
  init s hs := by
    obtain rfl : s = Sys.init := hs
    exact .init
  step s e s' h hs := h.step hs.2 hs.1

end Inv

/-! ## Every run -/

/-- Alarms are posted once and not early in runs in which the clock does not wrap under them. -/
theorem alarms_fire {s : Sys P} (h : (procs.restrict Steady).Reach s) : s.Punctual :=
  (Inv.alarms_inductive.reach h).punctual

/-- A step that the step function computes. -/
theorem steady_step {s s' : Sys P} (h : (procs.restrict Steady).Reach s) (e : Act P)
    (he : s.step e = some s') (hst : Steady s e) : (procs.restrict Steady).Reach s' :=
  h.step ⟨he, hst⟩

/-- An alarm is set, the clock ticks and the kernel process posts it. -/
theorem alarms_fire_once : ∃ s : Sys Nat, s.posts.length = 1 ∧ s.Punctual := by
  have hinit : (procs.restrict Steady).Reach (Sys.init : Sys Nat) := ⟨[], .init rfl⟩
  have hset := steady_step hinit (.set 7 10) rfl ⟨by decide, by decide⟩
  have hin := steady_step hset (.insert 7) rfl trivial
  have htick := steady_step hin .tick rfl (.inl (by decide))
  have hread := steady_step htick .read rfl trivial
  have hlock := steady_step hread .lock rfl trivial
  have hround := steady_step hlock (.round false) rfl trivial
  have hpost := steady_step hround .post rfl trivial
  exact ⟨_, rfl, alarms_fire hpost⟩

/-- The clock ticks. -/
theorem ticks (n : Nat) : procs.Reach { (Sys.init : Sys P) with time := n } := by
  induction n with
  | zero => exact ⟨[], .init rfl⟩
  | succ n ih =>
    have hs : Sys.step { (Sys.init : Sys P) with time := n } .tick =
      some { Sys.init with time := n + 1 } := rfl
    exact ih.step hs

/-- At the last tick before the clock wraps an alarm is set for two ticks later: it is posted at
once. -/
theorem alarms_early : ∃ s : Sys Nat, procs.Reach s ∧ ¬ s.Punctual := by
  have hrun := (ticks 4294967295 : procs.Reach { (Sys.init : Sys Nat) with time := 4294967295 })
  refine ⟨_, hrun.exec (f := Sys.step) (fun _ _ _ h => h)
    (show [.set 7 20, .insert 7, .read, .lock, .round false, .post].foldlM _ _ = some _ from rfl),
    fun h => ?_⟩
  exact absurd (h.early _ (List.mem_singleton.mpr rfl)) (by decide)

end NixMark.Alarms
