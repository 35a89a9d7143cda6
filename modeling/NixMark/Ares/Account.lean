import NixMark.Ares.Packets
import NixMark.Ares.Integrity

/-!
# The account of packets and locks

* `Sys.inside`: how often a block waits or is on its way; `Sys.holding`, `Sys.reading`: who has the
  cache locked, and an interface.
* `Accounted`: each block that was queued waits in one place, was sent or freed; each lock is held
  as often as it was taken.
* `Careful`: no call loses packets or leaves a lock taken; `packets_accounted`: then all is
  accounted for in every run.
-/

namespace NixMark.Ares

open Lib Ip
open Function (update update_apply update_eq_self update_of_ne update_self)

/-- The cache is locked. -/
def Pc.holds {I B : Type} : Pc I B → Nat
  | .got _ => 1
  | _ => 0

/-- The interface is locked. -/
def Pc.reads {I B : Type} [DecidableEq I] (i : I) : Pc I B → Nat
  | .bwrite ifc _ _ => if ifc = i then 1 else 0
  | _ => 0

def Rx.reads {I B : Type} [DecidableEq I] (i : I) : Rx I B → Nat
  | .send _ ifc => if ifc = i then 1 else 0
  | _ => 0

variable {P I M B : Type} [DecidableEq P] [DecidableEq I] [DecidableEq M] [DecidableEq B]
  {s s' : Sys P I M B} {t t' : Arp I M B}

/-- No packets are lost by `flush`, by `del` or by an error in `bwrite`; what `rxmitsols` starts with
has an interface, which is not locked in vain, and `icmpns` raises no error. -/
def Careful (s : Sys P I M B) : Event P I M B → Prop
  | .call _ _ .flush => s.arp.dropf = []
  | .call _ _ (.del ip) => ∀ a, s.arp.find ip (fun _ => true) = some a → (s.arp.cache a).hold = []
  | .call p w (.go err) => ∀ ifc bp bps, s.pc p = .bwrite ifc bp bps → w.medium ifc ≠ none →
      err = true → bps = []
  | .call .. => True
  | .rxmit w err => (s.rx = .idle → s.arp.Ready w) ∧ ∀ a ifc, s.rx = .send a ifc → err = false

variable [Fintype P]

namespace Sys

/-- How often the block waits, or is on its way. -/
def inside (s : Sys P I M B) (b : B) : Nat :=
  s.arp.blocks b + ∑ p, (s.pc p).blocks.count b + s.rx.blocks.count b

/-- The calls that have the cache locked. -/
def holding (s : Sys P I M B) : Nat := ∑ p, (s.pc p).holds

/-- The calls that have the interface locked, and `rxmitsols`. -/
def reading (s : Sys P I M B) (i : I) : Nat := ∑ p, (s.pc p).reads i + s.rx.reads i

end Sys

omit [DecidableEq M] [DecidableEq P] in
structure Accounted (s : Sys P I M B) : Prop where
  packets : ∀ b, s.given b = s.inside b + s.sent b + s.freed b
  once : ∀ b, s.inside b ≤ 1
  lock : s.lock = s.holding
  alone : s.holding ≤ 1
  readers : ∀ i, s.readers i = s.reading i

/-- What carries the account. -/
structure Account (s : Sys P I M B) : Prop extends Accounted s where
  ok : Ok s.arp
  got : ∀ p a, s.pc p = .got a → a < NCACHE
  send : ∀ a ifc, s.rx = .send a ifc → a < NCACHE
  drops : ∀ xp, s.rx = .drops none xp → xp = []
  alive : s.rx ≠ .hangup ∧ s.rx ≠ .fault

omit [DecidableEq M] [DecidableEq I] [DecidableEq P] in
theorem away_inside {b : B} (h : s.Away b) : s.inside b = 0 := by
  obtain ⟨hhold, hdropf, hpc, hrx⟩ := h
  have hblocks : s.arp.blocks b = 0 := by
    unfold Arp.blocks
    rw [List.count_eq_zero.mpr hdropf, Nat.add_zero, List.sum_eq_zero_iff]
    intro n hn
    obtain ⟨a, -, rfl⟩ := List.mem_map.mp hn
    exact List.count_eq_zero.mpr (hhold a)
  have hway : ∑ p, (s.pc p).blocks.count b = 0 :=
    Finset.sum_eq_zero fun p _ => List.count_eq_zero.mpr (hpc p)
  unfold Sys.inside
  rw [hblocks, hway, List.count_eq_zero.mpr hrx]

omit [DecidableEq M] in
/-- A call steps. -/
theorem Account.moved (h : Account s) (p : P) (k : Pc I B)
    (hpc : s'.pc = update s.pc p k) (hrx : s'.rx = s.rx) (hok : Ok s'.arp)
    (hk : ∀ a, k = .got a → a < NCACHE)
    (hpackets : ∀ b, s'.given b + (s.arp.blocks b + (s.pc p).blocks.count b + s.sent b + s.freed b) =
      s.given b + (s'.arp.blocks b + k.blocks.count b + s'.sent b + s'.freed b))
    (hin : ∀ b, s'.arp.blocks b + k.blocks.count b ≤ s.arp.blocks b + (s.pc p).blocks.count b ∨
      s.inside b = 0 ∧ s'.arp.blocks b + k.blocks.count b ≤ 1)
    (hlock : s'.lock + (s.pc p).holds = s.lock + k.holds)
    (halone : k.holds ≤ (s.pc p).holds ∨ k.holds ≤ 1 ∧ s.lock = 0)
    (hreaders : ∀ i, s'.readers i + (s.pc p).reads i = s.readers i + k.reads i) : Account s' := by
  have hblocks : ∀ b, (∑ q, (s'.pc q).blocks.count b) + (s.pc p).blocks.count b =
      (∑ q, (s.pc q).blocks.count b) + k.blocks.count b := by
    intro b
    rw [hpc]
    exact sum_update (fun k : Pc I B => k.blocks.count b) s.pc p k
  have hholds : s'.holding + (s.pc p).holds = s.holding + k.holds := by
    unfold Sys.holding
    rw [hpc]
    exact sum_update Pc.holds s.pc p k
  have hreads : ∀ i, s'.reading i + (s.pc p).reads i = s.reading i + k.reads i := by
    intro i
    have hsum := sum_update (fun k : Pc I B => k.reads i) s.pc p k
    unfold Sys.reading
    rw [hpc, hrx]
    omega
  refine ⟨⟨fun b => ?_, fun b => ?_, ?_, ?_, fun i => ?_⟩, hok, fun q a hq => ?_, ?_, ?_, ?_⟩
  · have h1 := h.packets b
    have h2 := hblocks b
    have h3 := hpackets b
    unfold Sys.inside at *
    rw [hrx]
    omega
  · have h1 := h.once b
    have h2 := hblocks b
    have h3 := hin b
    unfold Sys.inside at *
    rw [hrx]
    omega
  · have h1 := h.lock
    omega
  · have h1 := h.lock
    have h2 := h.alone
    omega
  · have h1 := h.readers i
    have h2 := hreads i
    have h3 := hreaders i
    omega
  · rw [hpc, update_apply] at hq
    split at hq
    · exact hk a hq
    · exact h.got q a hq
  · rw [hrx]
    exact h.send
  · rw [hrx]
    exact h.drops
  · rw [hrx]
    exact h.alive

omit [DecidableEq M] [DecidableEq P] in
/-- `rxmitproc` steps. -/
theorem Account.rxmoved (h : Account s) (hpc : s'.pc = s.pc) (hok : Ok s'.arp)
    (hsend : ∀ a ifc, s'.rx = .send a ifc → a < NCACHE)
    (hdrops : ∀ xp, s'.rx = .drops none xp → xp = []) (halive : s'.rx ≠ .hangup ∧ s'.rx ≠ .fault)
    (hgiven : s'.given = s.given) (hsent : s'.sent = s.sent)
    (hpackets : ∀ b, s'.arp.blocks b + s'.rx.blocks.count b + s'.freed b =
      s.arp.blocks b + s.rx.blocks.count b + s.freed b)
    (hfreed : ∀ b, s.freed b ≤ s'.freed b) (hlock : s'.lock = s.lock)
    (hreaders : ∀ i, s'.readers i + s.rx.reads i = s.readers i + s'.rx.reads i) : Account s' := by
  refine ⟨⟨fun b => ?_, fun b => ?_, ?_, ?_, fun i => ?_⟩, hok, ?_, hsend, hdrops, halive⟩
  · have h1 := h.packets b
    have h2 := hpackets b
    unfold Sys.inside at *
    rw [hpc, hgiven, hsent]
    omega
  · have h1 := h.once b
    have h2 := hpackets b
    have h3 := hfreed b
    unfold Sys.inside at *
    rw [hpc]
    omega
  · unfold Sys.holding
    rw [hlock, hpc]
    exact h.lock
  · unfold Sys.holding
    rw [hpc]
    exact h.alone
  · have h1 := h.readers i
    have h2 := hreaders i
    unfold Sys.reading at *
    rw [hpc]
    omega
  · rw [hpc]
    exact h.got

omit [DecidableEq P] [DecidableEq I] [DecidableEq M] [DecidableEq B] [Fintype P] in
theorem qlock_some (h : s.qlock = some s') : s.lock = 0 ∧ s' = { s with lock := 1 } := by
  unfold Sys.qlock at h
  obtain ⟨hl, h⟩ := Option.ite_none_right_eq_some.mp h
  exact ⟨hl, (Option.some.inj h).symm⟩

omit [DecidableEq M] in
/-- A call that begins and ends without packets of its own. -/
theorem Account.whole (h : Account s) {p : P} (hidle : s.pc p = .idle) (hlock : s.lock = 0)
    (hpc : s'.pc = s.pc) (hrx : s'.rx = s.rx) {gone : List B} (hl : Loses s.arp s'.arp gone)
    (hgiven : s'.given = s.given) (hsent : s'.sent = s.sent)
    (hfreed : s'.freed = fun b => s.freed b + gone.count b) (hlock' : s'.lock = 0)
    (hreaders : s'.readers = s.readers) : Account s' := by
  refine h.moved p .idle ?_ hrx hl.ok (fun a ha => by cases ha) (fun b => ?_) (fun b => .inl ?_) ?_
    (.inl (Nat.zero_le _)) fun i => ?_
  · rw [hpc, ← hidle, update_eq_self]
  · have h1 := hl.count b
    rw [hgiven, hsent, hfreed, hidle]
    dsimp only
    omega
  · have h1 := hl.count b
    rw [hidle]
    omega
  · rw [hlock, hlock', hidle]
  · rw [hreaders, hidle]

/-- The interface is locked for reading. -/
theorem update_reads {readers : I → Int} {ifc : I} (i : I) :
    update readers ifc (readers ifc + 1) i + (0 : Nat) =
      readers i + (if ifc = i then 1 else 0 : Nat) := by
  by_cases hi : ifc = i
  · rw [if_pos hi, hi, update_self]
    omega
  · rw [if_neg hi, update_of_ne (Ne.symm hi)]

theorem Account.call (h : Account s) {p : P} {w : World I M} {act : Act I M B}
    (hg : Careful s (.call p w act)) (ha : s.act w p act = some s')
    (haway : ∀ bp dest ifc, act = .arpget (some bp) dest ifc → s.Away bp) : Account s' := by
  cases act with
  | arpget bp dest ifc =>
    simp only [Sys.act] at ha
    split at ha
    · rename_i hidle
      obtain ⟨s₁, hq, rfl⟩ := Option.map_eq_some_iff.mp ha
      obtain ⟨hlock, rfl⟩ := qlock_some hq
      have hin : ∀ b ∈ bp, s.inside b = 0 := fun b hb =>
        away_inside (haway b dest ifc (by rw [Option.mem_def.mp hb]))
      have hgot := arpget_got h.ok w bp dest ifc fun b hb => by
        have hb := hin b hb
        unfold Sys.inside at hb
        omega
      dsimp only
      split
      · rename_i t a freed hres
        rw [hres] at hgot
        obtain ⟨hlt, hcount⟩ := hgot.wait a rfl
        refine h.moved p (.got a) rfl rfl hgot.ok (fun c hc => ?_) (fun b => ?_) (fun b => ?_) ?_
          (.inr ⟨Nat.le_refl 1, hlock⟩) fun i => ?_
        · cases hc
          exact hlt
        · have h1 := hcount b
          rw [hidle]
          change s.given b + bp.toList.count b + (s.arp.blocks b + 0 + s.sent b + s.freed b) =
            s.given b + (t.blocks b + 0 + s.sent b + (s.freed b + freed.count b))
          change t.blocks b + freed.count b = _ at h1
          omega
        · have h1 := hcount b
          rw [hidle]
          change t.blocks b + 0 ≤ s.arp.blocks b + 0 ∨ _ ∧ t.blocks b + 0 ≤ 1
          change t.blocks b + freed.count b = _ at h1
          by_cases hb : b ∈ bp
          · exact .inr ⟨hin b hb, hgot.ok.once b⟩
          · have hno : bp.toList.count b = 0 :=
              List.count_eq_zero.mpr fun hm => hb (Option.mem_toList.mp hm)
            left
            omega
        · rw [hidle, hlock]
          rfl
        · rw [hidle]
          rfl
      · rename_i t m freed hres
        rw [hres] at hgot
        exact h.whole hidle hlock rfl rfl ⟨hgot.ok, hgot.mac m rfl⟩ rfl rfl rfl rfl rfl
    · cases ha
  | arprelease =>
    simp only [Sys.act] at ha
    split at ha
    · rename_i a hpc
      cases ha
      refine h.moved p .idle rfl rfl h.ok (fun a ha => by cases ha) (fun b => ?_)
        (fun b => .inl ?_) ?_ (.inl (Nat.zero_le _)) fun i => ?_
      · rw [hpc]
        rfl
      · rw [hpc]
        exact Nat.le_refl _
      · rw [hpc]
        change s.lock - 1 + 1 = s.lock + 0
        omega
      · rw [hpc]
        rfl
    · cases ha
  | arpresolve type mac =>
    simp only [Sys.act] at ha
    split at ha
    · rename_i a hpc
      cases ha
      have hl := arpresolve_loses h.ok w (h.got p a hpc) type mac
      refine h.moved p .idle rfl rfl hl.ok (fun a ha => by cases ha) (fun b => ?_)
        (fun b => .inl ?_) ?_ (.inl (Nat.zero_le _)) fun i => ?_
      · have h1 := hl.count b
        rw [hpc]
        change s.given b + (s.arp.blocks b + 0 + s.sent b + s.freed b) =
          s.given b + ((s.arp.arpresolve w a type mac).1.blocks b + 0 +
            (s.sent b + (s.arp.arpresolve w a type mac).2.count b) + s.freed b)
        omega
      · have h1 := hl.count b
        rw [hpc]
        change (s.arp.arpresolve w a type mac).1.blocks b + 0 ≤ s.arp.blocks b + 0
        omega
      · rw [hpc]
        change s.lock - 1 + 1 = s.lock + 0
        omega
      · rw [hpc]
        rfl
    · cases ha
  | arpenter dest route mac n refresh =>
    simp only [Sys.act] at ha
    split at ha
    · rename_i hidle
      obtain ⟨s₁, hq, rfl⟩ := Option.map_eq_some_iff.mp ha
      obtain ⟨hlock, rfl⟩ := qlock_some hq
      have hl := arpenter_loses h.ok w dest route mac n refresh
      dsimp only
      split
      · rename_i ifc
        refine h.moved p (.write ifc (s.arp.arpenter w dest (some ifc) mac n refresh).2.1) rfl rfl
          hl.ok (fun a ha => by cases ha) (fun b => ?_) (fun b => .inl ?_) ?_
          (.inl (Nat.zero_le _)) fun i => ?_
        · have h1 := hl.count b
          rw [List.count_append] at h1
          rw [hidle]
          change s.given b + (s.arp.blocks b + 0 + s.sent b + s.freed b) = s.given b +
            ((s.arp.arpenter w dest (some ifc) mac n refresh).1.blocks b +
              (s.arp.arpenter w dest (some ifc) mac n refresh).2.1.count b + s.sent b +
              (s.freed b + (s.arp.arpenter w dest (some ifc) mac n refresh).2.2.count b))
          omega
        · have h1 := hl.count b
          rw [List.count_append] at h1
          rw [hidle]
          change (s.arp.arpenter w dest (some ifc) mac n refresh).1.blocks b +
            (s.arp.arpenter w dest (some ifc) mac n refresh).2.1.count b ≤ s.arp.blocks b + 0
          omega
        · rw [hidle, hlock]
          rfl
        · rw [hidle]
          rfl
      · have hnone : (s.arp.arpenter w dest none mac n refresh).2 = ([], []) := by
          unfold Arp.arpenter
          split <;> rfl
        rw [hnone] at hl
        refine h.whole hidle hlock rfl rfl hl rfl rfl ?_ rfl rfl
        change (fun b => s.freed b + (s.arp.arpenter w dest none mac n refresh).2.2.count b) = _
        rw [hnone]
        rfl
    · cases ha
  | flush =>
    simp only [Sys.act] at ha
    split at ha
    · rename_i hidle
      obtain ⟨s₁, hq, rfl⟩ := Option.map_eq_some_iff.mp ha
      obtain ⟨hlock, rfl⟩ := qlock_some hq
      exact h.whole hidle hlock rfl rfl (flush_loses h.ok hg) rfl rfl rfl rfl rfl
    · cases ha
  | del ip =>
    simp only [Sys.act] at ha
    split at ha
    · rename_i hidle
      obtain ⟨s₁, hq, rfl⟩ := Option.map_eq_some_iff.mp ha
      obtain ⟨hlock, rfl⟩ := qlock_some hq
      exact h.whole hidle hlock rfl rfl (del_loses h.ok ip hg) rfl rfl rfl rfl rfl
    · cases ha
  | go err =>
    simp only [Sys.act] at ha
    split at ha
    · rename_i ifc hpc
      cases ha
      refine h.moved p .idle rfl rfl h.ok (fun a ha => by cases ha) (fun b => ?_)
        (fun b => .inl ?_) ?_ (.inl (Nat.zero_le _)) fun i => ?_
      · rw [hpc]
        rfl
      · rw [hpc]
        exact Nat.le_refl _
      · rw [hpc]
        rfl
      · rw [hpc]
        rfl
    · rename_i ifc bp bps hpc
      cases ha
      refine h.moved p (.bwrite ifc bp bps) rfl rfl h.ok (fun a ha => by cases ha) (fun b => ?_)
        (fun b => .inl ?_) ?_ (.inl (Nat.zero_le _)) fun i => ?_
      · rw [hpc]
        rfl
      · rw [hpc]
        exact Nat.le_refl _
      · rw [hpc]
        rfl
      · rw [hpc]
        exact update_reads i
    · rename_i ifc bp bps hpc
      -- the interface is unlocked, the packet sent or freed
      have hunlock : ∀ i, update s.readers ifc (s.readers ifc - 1) i +
          ((Pc.bwrite ifc bp bps : Pc I B).reads i : Int) = s.readers i + (0 : Nat) := by
        intro i
        change _ + ((if ifc = i then 1 else 0 : Nat) : Int) = _
        by_cases hi : ifc = i
        · rw [if_pos hi, hi, update_self]
          omega
        · rw [if_neg hi, update_of_ne (Ne.symm hi)]
      have hcons : ∀ b, (bp :: bps).count b = bps.count b + [bp].count b := by
        intro b
        rw [List.count_cons, List.count_singleton]
      split at ha
      · cases ha
        refine h.moved p (.write ifc bps) rfl rfl h.ok (fun a ha => by cases ha) (fun b => ?_)
          (fun b => .inl ?_) ?_ (.inl (Nat.zero_le _)) fun i => ?_
        · have h1 := hcons b
          rw [hpc]
          change s.given b + (s.arp.blocks b + (bp :: bps).count b + s.sent b + s.freed b) =
            s.given b + (s.arp.blocks b + bps.count b + s.sent b + (s.freed b + [bp].count b))
          omega
        · have h1 := hcons b
          rw [hpc]
          change s.arp.blocks b + bps.count b ≤ s.arp.blocks b + (bp :: bps).count b
          omega
        · rw [hpc]
          rfl
        · rw [hpc]
          exact hunlock i
      · rename_i hmed
        have herr := hg ifc bp bps hpc hmed
        cases ha
        have hk : (if err = true then Pc.idle else .write ifc bps : Pc I B).blocks = bps := by
          split
          · rename_i he
            exact (herr he).symm
          · rfl
        have hno : ∀ i, (if err = true then Pc.idle else .write ifc bps : Pc I B).reads i = 0 := by
          intro i
          split <;> rfl
        have hholds : (if err = true then Pc.idle else .write ifc bps : Pc I B).holds = 0 := by
          split <;> rfl
        refine h.moved p (if err = true then .idle else .write ifc bps) rfl rfl h.ok
          (fun a ha => ?_) (fun b => ?_) (fun b => .inl ?_) ?_ (.inl ?_) fun i => ?_
        · split at ha <;> cases ha
        · have h1 := hcons b
          rw [hpc, hk]
          change s.given b + (s.arp.blocks b + (bp :: bps).count b + s.sent b + s.freed b) =
            s.given b + (s.arp.blocks b + bps.count b + (s.sent b + [bp].count b) + s.freed b)
          omega
        · have h1 := hcons b
          rw [hpc, hk]
          change s.arp.blocks b + bps.count b ≤ s.arp.blocks b + (bp :: bps).count b
          omega
        · rw [hpc, hholds]
          rfl
        · rw [hholds]
          exact Nat.zero_le _
        · rw [hpc, hno]
          exact hunlock i
    · cases ha

omit [DecidableEq P] [DecidableEq M] in
theorem Account.rxmit (h : Account s) {w : World I M} {err : Bool}
    (hg : Careful s (.rxmit w err)) (ha : s.rxact w err = some s') : Account s' := by
  unfold Sys.rxact at ha
  split at ha
  · rename_i hidle
    obtain ⟨s₁, hq, rfl⟩ := Option.map_eq_some_iff.mp ha
    obtain ⟨hlock, rfl⟩ := qlock_some hq
    have hfirst := rxmitfirst_firstly h.ok w (hg.1 hidle)
    dsimp only
    generalize s.arp.rxmitfirst w = r at *
    cases hfirst with
    | drops t ifc hl hnone =>
      refine h.rxmoved rfl hl.ok (fun a i ha => by cases ha) (fun xp hx => ?_)
        ⟨fun hn => (by cases hn), fun hn => (by cases hn)⟩ rfl rfl (fun b => ?_)
        (fun b => Nat.le_refl _) hlock.symm fun i => ?_
      · cases hx
        exact hnone rfl
      · have h1 := hl.count b
        rw [hidle]
        change t.takedrops.1.blocks b + t.takedrops.2.count b + s.freed b =
          s.arp.blocks b + 0 + s.freed b
        omega
      · rw [hidle]
        rfl
    | send a ifc hlt =>
      refine h.rxmoved rfl h.ok (fun c i hc => ?_) (fun xp hx => by cases hx)
        ⟨fun hn => (by cases hn), fun hn => (by cases hn)⟩ rfl rfl (fun b => ?_)
        (fun b => Nat.le_refl _) hlock.symm fun i => ?_
      · cases hc
        exact hlt
      · rw [hidle]
        rfl
      · rw [hidle]
        exact update_reads i
  · rename_i a ifc hrx
    rw [hg.2 a ifc hrx, if_neg Bool.false_ne_true] at ha
    obtain ⟨s₁, hq, rfl⟩ := Option.map_eq_some_iff.mp ha
    obtain ⟨hlock, rfl⟩ := qlock_some hq
    have hagain := rxmitagain_loses h.ok w (h.send a ifc hrx)
    have hl := hagain.ok.takedrops
    refine h.rxmoved rfl hl.ok (fun a i ha => by cases ha) (fun xp hx => by cases hx)
      ⟨fun hn => (by cases hn), fun hn => (by cases hn)⟩ rfl rfl (fun b => ?_)
      (fun b => Nat.le_refl _) ?_ fun i => ?_
    · have h1 := hl.count b
      have h2 := hagain.count b
      rw [List.count_nil] at h2
      rw [hrx]
      change (s.arp.rxmitagain w a).takedrops.1.blocks b +
        (s.arp.rxmitagain w a).takedrops.2.count b + s.freed b = s.arp.blocks b + 0 + s.freed b
      omega
    · exact hlock.symm
    · rw [hrx]
      change update s.readers ifc (s.readers ifc - 1) i +
        ((if ifc = i then 1 else 0 : Nat) : Int) = s.readers i + 0
      by_cases hi : ifc = i
      · rw [if_pos hi, hi, update_self]
        omega
      · rw [if_neg hi, update_of_ne (Ne.symm hi)]
        rfl
  · rename_i o hrx
    cases ha
    refine h.rxmoved rfl h.ok (fun a i ha => by cases ha) (fun xp hx => by cases hx)
      ⟨fun hn => (by cases hn), fun hn => (by cases hn)⟩ rfl rfl (fun b => ?_)
      (fun b => Nat.le_refl _) rfl fun i => ?_
    · rw [hrx]
      rfl
    · rw [hrx]
      rfl
  · rename_i bp xp hrx
    have hnil := h.drops _ hrx
    cases hnil
  · rename_i ifc bp xp hrx
    cases ha
    refine h.rxmoved rfl h.ok (fun a i ha => by cases ha) (fun xp hx => by cases hx)
      ⟨fun hn => (by cases hn), fun hn => (by cases hn)⟩ rfl rfl (fun b => ?_)
      (fun b => Nat.le_add_right _ _) rfl fun i => ?_
    · rw [hrx]
      change s.arp.blocks b + xp.count b + (s.freed b + [bp].count b) =
        s.arp.blocks b + (bp :: xp).count b + s.freed b
      rw [List.count_singleton, List.count_cons]
      omega
    · rw [hrx]
      rfl
  · cases ha
  · cases ha

theorem account_inductive : ((resolution P I M B).restrict Careful).Inductive Account where
  init s h := by
    obtain ⟨hz, hlock, hreaders, hpc, hrx, hgiven, hsent, hfreed⟩ := h
    obtain ⟨hcache, hlink, hnext, hhash, hrxmt, hdropf, hdropl⟩ := hz
    have hblocks : ∀ b, s.arp.blocks b = 0 := by
      intro b
      unfold Arp.blocks
      rw [hdropf, List.count_nil, Nat.add_zero, List.sum_eq_zero_iff]
      intro n hn
      obtain ⟨a, -, rfl⟩ := List.mem_map.mp hn
      rw [(hcache a).2.1, List.count_nil]
    have hinside : ∀ b, s.inside b = 0 := by
      intro b
      unfold Sys.inside
      simp only [hblocks, hpc, hrx]
      exact Nat.add_eq_zero_iff.mpr ⟨Nat.add_eq_zero_iff.mpr
        ⟨rfl, Finset.sum_eq_zero fun _ _ => rfl⟩, rfl⟩
    have hholding : s.holding = 0 := by
      unfold Sys.holding
      exact Finset.sum_eq_zero fun p _ => by rw [hpc]; rfl
    have hreading : ∀ i, s.reading i = 0 := by
      intro i
      unfold Sys.reading
      simp only [hpc, hrx]
      exact Nat.add_eq_zero_iff.mpr ⟨Finset.sum_eq_zero fun _ _ => rfl, rfl⟩
    refine ⟨⟨fun b => ?_, fun b => ?_, ?_, ?_, fun i => ?_⟩,
      ⟨⟨?_, ?_, ?_, ?_⟩, fun a _ => (hcache a).2.1, ?_, fun b => ?_⟩, ?_, ?_, ?_, ?_⟩
    · rw [hgiven, hinside, hsent, hfreed]
    · rw [hinside]
      exact Nat.zero_le 1
    · rw [hlock, hholding]
      rfl
    · rw [hholding]
      exact Nat.zero_le 1
    · rw [hreaders, hreading]
      rfl
    · intro a b hb
      rw [hlink] at hb
      cases hb
    · intro a b hb
      rw [hnext] at hb
      cases hb
    · intro a b hb
      rw [hhash] at hb
      cases hb
    · intro b hb
      rw [hrxmt] at hb
      cases hb
    · rw [hdropl, hdropf]
      rfl
    · rw [hblocks]
      exact Nat.zero_le 1
    · intro p a ha
      rw [hpc] at ha
      cases ha
    · intro a ifc ha
      rw [hrx] at ha
      cases ha
    · intro xp hx
      rw [hrx] at hx
      cases hx
    · rw [hrx]
      exact ⟨fun hn => (by cases hn), fun hn => (by cases hn)⟩
  step s e s' h hs := by
    obtain ⟨hs, hg⟩ := hs
    cases e with
    | call p w act => exact h.call hg hs.1 hs.2
    | rxmit w err => exact h.rxmit hg hs

private def vacant : Sys Unit Unit Unit Unit where
  arp :=
    { cache := fun _ => ⟨IPnoaddr, [], none, [], 0, 0, .UNUSED, 0, 0, none, 0⟩
      link := fun _ => none
      nextrxt := fun _ => none
      hash := fun _ => none
      rxmt := none
      dropf := []
      dropl := none }
  lock := 0
  readers _ := 0
  pc _ := .idle
  rx := .idle
  given _ := 0
  sent _ := 0
  freed _ := 0

theorem vacant_init : (resolution Unit Unit Unit Unit).init vacant :=
  ⟨⟨fun _ => ⟨rfl, rfl, rfl, rfl, rfl, rfl⟩, fun _ => rfl, fun _ => rfl, fun _ => rfl, rfl, rfl, rfl⟩,
    rfl, fun _ => rfl, fun _ => rfl, rfl, fun _ => rfl, fun _ => rfl, fun _ => rfl⟩

private def ether : World Unit Unit where
  now := 1
  medium _ := some ()
  ifcid _ := 0
  canrlock _ := true
  maclen _ := 6

/-- A packet for a neighbour comes while its address is not known. -/
private def waits : Event Unit Unit Unit Unit := .call () ether (.arpget (some ()) (.V4 10 0 0 2) ())

theorem waits_step {s : Sys Unit Unit Unit Unit}
    (h : vacant.act ether () (.arpget (some ()) (.V4 10 0 0 2) ()) = some s) :
    (resolution Unit Unit Unit Unit).step vacant waits s := by
  refine ⟨h, fun _ _ _ _ => ⟨fun _ hb => ?_, fun hb => ?_, fun _ hb => ?_, fun hb => ?_⟩⟩
  · cases hb
  · cases hb
  · cases hb
  · cases hb

end NixMark.Ares
