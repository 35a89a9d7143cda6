import NixMark.Cache.Segs
import NixMark.Lib.Sums
import Mathlib.Algebra.Order.Group.Int

/-!
# The accounts of the mount cache

`Inv`: the chains and the lru queue have the same segments, each once; the references to a segment
are those of the cache, of the channels and of the reads ahead, and `x` more; and `cache.nbytes`
with what the processes still owe to it is the sum over the segments and `lost`, what no process
owes any more. Each part of a step changes it in its own way: `Inv.setwork`, `Inv.setseg`, `Inv.owed`,
`Inv.incref`, `Inv.putseg`, `Inv.putchan`, `Inv.setfrd`, `Inv.requeue`, `Inv.make`, `Inv.unhash`.
-/

namespace NixMark.Cache

open Lib

variable {nc np : Nat} {s : Sys nc np} {lost : Int} {x x' : Addr → Nat}

/-- The references to a segment, but for the one of the cache. -/
def Sys.holders (s : Sys nc np) (a : Addr) : Nat :=
  (∑ c, if (s.chan c).mc = some a then 1 else 0) + s.frd.countP (fun f => f.2 = a) +
    ∑ p, (s.proc p).readahead a

/-- The sum of `nbytes` over the segments of the queue. -/
def Mntcache.sum (m : Mntcache) : Int := (m.lru.map fun a => (m.seg a).nbytes).sum

structure Inv (s : Sys nc np) (lost : Int) (x : Addr → Nat) : Prop where
  chain : ∀ h a, a ∈ s.m.hash h ↔ a ∈ s.m.lru ∧ h = chash (s.m.seg a).cqid.path
  nodup : s.m.lru.Nodup
  once : ∀ h, (s.m.hash h).Nodup
  nseg : s.m.nseg = s.m.lru.length
  nbytes : s.m.nbytes + (∑ p, (s.proc p).owes) = s.m.sum + lost
  pos : ∀ a, 0 ≤ (s.m.seg a).nbytes
  refs : ∀ a, (s.m.seg a).ref = (if a ∈ s.m.lru then 1 else 0) + s.holders a + x a
  chan : ∀ c a, (s.chan c).mc = some a →
    (s.chan c).isopen = true ∧ ((s.chan c).removed = false → a ∈ s.m.lru)
  work : ∀ p c a, (s.proc p).on = some (c, a) → a ∈ s.m.lru ∧ (s.chan c).mc = some a ∧
    ((s.chan c).removed = true → ∃ n, s.proc p = .removing c a n)
  alone : ∀ p c a n, s.proc p = .removing c a n → (s.chan c).removed = true ∧
    ∀ p' a', (s.proc p').on = some (c, a') → p' = p
  frd : ∀ c a, (c, a) ∈ s.frd → (s.chan c).mc = some a ∧ (s.chan c).removed = false

/-! ## Processes -/

theorem proc_work (s : Sys nc np) (p : Fin np) (w : Work nc) (q : Fin np) :
    (s.work p w).proc q = if q = p then w else s.proc q := Function.update_apply _ _ _ _

theorem owes_work (s : Sys nc np) (p : Fin np) (w : Work nc) :
    (∑ q, ((s.work p w).proc q).owes) + (s.proc p).owes = (∑ q, (s.proc q).owes) + w.owes :=
  sum_update Work.owes s.proc p w

theorem holders_work (s : Sys nc np) (p : Fin np) (w : Work nc) (a : Addr) :
    (s.work p w).holders a + (s.proc p).readahead a = s.holders a + w.readahead a := by
  have h := sum_update (Work.readahead a) s.proc p w
  have hw : (s.work p w).holders a = (∑ c, if (s.chan c).mc = some a then 1 else 0) +
    s.frd.countP (fun f => f.2 = a) + ∑ q, (Function.update s.proc p w q).readahead a := rfl
  rw [hw, Sys.holders]
  omega

variable {p : Fin np} {w : Work nc}

/-- A process goes on to `w`. -/
theorem Inv.setwork (h : Inv s lost x) (x' : Addr → Nat)
    (hx : ∀ a, x' a + w.readahead a = x a + (s.proc p).readahead a)
    (hon : ∀ c a, w.on = some (c, a) → a ∈ s.m.lru ∧ (s.chan c).mc = some a ∧
      ((s.chan c).removed = true → ∃ n, w = .removing c a n))
    (hal : ∀ c a n, w = .removing c a n → (s.chan c).removed = true ∧
      ∀ p' a', p' ≠ p → (s.proc p').on ≠ some (c, a'))
    (hal' : ∀ p' c a n, p' ≠ p → s.proc p' = .removing c a n → ∀ a', w.on ≠ some (c, a')) :
    Inv (s.work p w) (lost + w.owes - (s.proc p).owes) x' where
  chain := h.chain
  nodup := h.nodup
  once := h.once
  nseg := h.nseg
  nbytes := by
    have h1 := owes_work s p w
    have h2 := h.nbytes
    show s.m.nbytes + _ = s.m.sum + _
    omega
  pos := h.pos
  refs a := by
    have h1 := holders_work s p w a
    have h2 := hx a
    have h3 := h.refs a
    show (s.m.seg a).ref = _
    rw [h3]
    show _ = (if a ∈ s.m.lru then 1 else 0) + _ + _
    omega
  chan := h.chan
  work q c a hq := by
    rw [proc_work] at hq ⊢
    split at hq
    · rename_i hqp
      rw [if_pos hqp]
      exact hon c a hq
    · rename_i hqp
      rw [if_neg hqp]
      exact h.work q c a hq
  alone q c a n hq := by
    rw [proc_work] at hq
    split at hq
    · rename_i hqp
      refine ⟨(hal c a n hq).1, fun p' a' hp' => ?_⟩
      rw [proc_work] at hp'
      split at hp'
      · rename_i hpp
        rw [hpp, hqp]
      · rename_i hpp
        exact absurd hp' ((hal c a n hq).2 p' a' hpp)
    · rename_i hqp
      refine ⟨(h.alone q c a n hq).1, fun p' a' hp' => ?_⟩
      rw [proc_work] at hp'
      split at hp'
      · exact absurd hp' (hal' q c a n hqp hq a')
      · exact (h.alone q c a n hq).2 p' a' hp'
  frd := h.frd

/-- A process goes on in the same function, or leaves it. -/
theorem Inv.goon (h : Inv s lost x) (x' : Addr → Nat)
    (hx : ∀ a, x' a + w.readahead a = x a + (s.proc p).readahead a)
    (hon : w.on = none ∨ w.on = (s.proc p).on) (hr : ∀ c a n, w ≠ .removing c a n)
    (hr' : ∀ c a n, s.proc p ≠ .removing c a n) :
    Inv (s.work p w) (lost + w.owes - (s.proc p).owes) x' := by
  refine h.setwork x' hx (fun c a hw => ?_) (fun c a n hw => absurd hw (hr c a n))
    fun p' c a n hp' hpr a' hw => ?_
  · rcases hon with hon | hon
    · rw [hon] at hw
      cases hw
    · rw [hon] at hw
      obtain ⟨h1, h2, h3⟩ := h.work p c a hw
      refine ⟨h1, h2, fun hrm => ?_⟩
      obtain ⟨n, hn⟩ := h3 hrm
      exact absurd hn (hr' c a n)
  · rcases hon with hon | hon
    · rw [hon] at hw
      cases hw
    · rw [hon] at hw
      exact hp' ((h.alone p' c a n hpr).2 p a' hw).symm

variable {a : Addr}

/-- An idle process starts to work with a channel that is ready. -/
theorem Inv.start (h : Inv s lost x) (x' : Addr → Nat) {c : Fin nc} (hp : s.proc p = .idle)
    (hx : ∀ a, x' a + w.readahead a = x a) (hon : w.on = some (c, a)) (hmc : (s.chan c).mc = some a)
    (hrm : (s.chan c).removed = false) (hr : ∀ c a n, w ≠ .removing c a n) :
    Inv (s.work p w) (lost + w.owes) x' := by
  have hw := h.setwork x' (p := p) (w := w) (fun b => by rw [hp]; exact hx b)
    (fun c' a' hw => ?_) (fun c a n hw => absurd hw (hr c a n))
    fun p' c' a' n _ hpr a'' hw => ?_
  · rw [hp] at hw
    have h0 : lost + w.owes - (Work.idle : Work nc).owes = lost + w.owes := sub_zero _
    rw [h0] at hw
    exact hw
  · rw [hon] at hw
    cases hw
    refine ⟨(h.chan c a hmc).2 hrm, hmc, fun hrm' => ?_⟩
    rw [hrm] at hrm'
    cases hrm'
  · rw [hon] at hw
    cases hw
    rw [(h.alone p' c a' n hpr).1] at hrm
    cases hrm

/-! ## Segments -/

theorem seg_set (m : Mntcache) (a : Addr) (y : Segment) (b : Addr) :
    (m.set a y).seg b = if b = a then y else m.seg b := Function.update_apply _ _ _ _

/-- A segment of the queue changes. -/
theorem Inv.setseg (h : Inv s lost x) {y : Segment} (ha : a ∈ s.m.lru)
    (href : y.ref = (s.m.seg a).ref) (hpath : y.cqid.path = (s.m.seg a).cqid.path)
    (hpos : 0 ≤ y.nbytes) : Inv (s.putseg a y) (lost + (s.m.seg a).nbytes - y.nbytes) x where
  chain k b := by
    show b ∈ s.m.hash k ↔ b ∈ s.m.lru ∧ k = chash ((s.m.set a y).seg b).cqid.path
    rw [h.chain, seg_set]
    split
    · rename_i hba
      rw [hba, hpath]
    · rfl
  nodup := h.nodup
  once := h.once
  nseg := h.nseg
  nbytes := by
    have h1 := list_sum_update h.nodup ha Segment.nbytes s.m.seg y
    have h2 := h.nbytes
    have h3 : (s.putseg a y).m.sum =
      (s.m.lru.map fun b => (Function.update s.m.seg a y b).nbytes).sum := rfl
    rw [Mntcache.sum] at h2
    rw [h3]
    show s.m.nbytes + (∑ p, (s.proc p).owes) = _
    omega
  pos b := by
    show 0 ≤ ((s.m.set a y).seg b).nbytes
    rw [seg_set]
    split
    · exact hpos
    · exact h.pos b
  refs b := by
    show ((s.m.set a y).seg b).ref = _
    rw [seg_set]
    split
    · rename_i hba
      rw [hba, href]
      exact h.refs a
    · exact h.refs b
  chan := h.chan
  work := h.work
  alone := h.alone
  frd := h.frd

theorem Inv.owed (h : Inv s lost x) (n : Int) : Inv { s with m := s.m.owed n } (lost + n) x := by
  refine ⟨h.chain, h.nodup, h.once, h.nseg, ?_, h.pos, h.refs, h.chan, h.work, h.alone, h.frd⟩
  have h1 := h.nbytes
  show s.m.nbytes + n + (∑ p, (s.proc p).owes) = s.m.sum + _
  omega

/-- The reference count of a segment changes. -/
theorem Inv.setref (h : Inv s lost x) {y : Segment} (hbytes : y.nbytes = (s.m.seg a).nbytes)
    (hpath : y.cqid.path = (s.m.seg a).cqid.path) (ho : ∀ b ≠ a, x' b = x b)
    (hx : y.ref + x a = (s.m.seg a).ref + x' a) :
    Inv (s.putseg a y) lost x' where
  chain k b := by
    show b ∈ s.m.hash k ↔ b ∈ s.m.lru ∧ k = chash ((s.m.set a y).seg b).cqid.path
    rw [h.chain, seg_set]
    split
    · rename_i hba
      rw [hba, hpath]
    · rfl
  nodup := h.nodup
  once := h.once
  nseg := h.nseg
  nbytes := by
    have hsum : (s.putseg a y).m.sum = s.m.sum := by
      unfold Mntcache.sum
      congr 1
      apply List.map_congr_left
      intro b _
      show ((s.m.set a y).seg b).nbytes = _
      rw [seg_set]
      split
      · rename_i hba
        rw [hba, hbytes]
      · rfl
    rw [hsum]
    exact h.nbytes
  pos b := by
    show 0 ≤ ((s.m.set a y).seg b).nbytes
    rw [seg_set]
    split
    · rw [hbytes]
      exact h.pos a
    · exact h.pos b
  refs b := by
    show ((s.m.set a y).seg b).ref = (if b ∈ s.m.lru then 1 else 0) + s.holders b + x' b
    rw [seg_set]
    split
    · rename_i hba
      subst hba
      have := h.refs b
      omega
    · rename_i hba
      rw [ho b hba]
      exact h.refs b
  chan := h.chan
  work := h.work
  alone := h.alone
  frd := h.frd

/-- One reference. -/
def one (a b : Addr) : Nat := if b = a then 1 else 0

theorem one_self (a : Addr) : one a a = 1 := if_pos rfl

theorem one_ne {b : Addr} (h : b ≠ a) : one a b = 0 := if_neg h

theorem Inv.incref (h : Inv s lost x) (a : Addr) :
    Inv { s with m := s.m.incref a } lost (x + one a) := by
  refine h.setref (a := a) rfl rfl (fun b hb => ?_) ?_
  · rw [Pi.add_apply, one_ne hb, add_zero]
  · rw [Pi.add_apply, one_self]
    show (s.m.seg a).ref + 1 + x a = _
    omega

theorem Inv.putseg (h : Inv s lost x) (x' : Addr → Nat) (ho : ∀ b ≠ a, x' b = x b)
    (hx : x a = x' a + 1) : Inv { s with m := s.m.putseg a } lost x' := by
  have hr := h.refs a
  unfold Mntcache.putseg
  dsimp only
  split
  · rename_i h1
    refine h.setref (a := a) rfl rfl ho ?_
    show 0 + x a = _
    omega
  · refine h.setref (a := a) rfl rfl ho ?_
    show (s.m.seg a).ref - 1 + x a = _
    omega

/-! ## Channels and reads ahead -/

theorem chan_putchan (s : Sys nc np) (c : Fin nc) (y : Chan) (k : Fin nc) :
    (s.putchan c y).chan k = if k = c then y else s.chan k := Function.update_apply _ _ _ _

theorem holders_putchan (s : Sys nc np) (c : Fin nc) (y : Chan) (a : Addr) :
    (s.putchan c y).holders a + (if (s.chan c).mc = some a then 1 else 0) =
      s.holders a + if y.mc = some a then 1 else 0 := by
  have h := sum_update (fun z : Chan => if z.mc = some a then 1 else 0) s.chan c y
  have hw : (s.putchan c y).holders a =
    (∑ k, if (Function.update s.chan c y k).mc = some a then 1 else 0) +
      s.frd.countP (fun f => f.2 = a) + ∑ q, (s.proc q).readahead a := rfl
  rw [hw, Sys.holders]
  omega

/-- A channel changes. -/
theorem Inv.putchan (h : Inv s lost x) {c : Fin nc} {y : Chan}
    (hx : ∀ a, x' a + (if y.mc = some a then 1 else 0) =
      x a + if (s.chan c).mc = some a then 1 else 0)
    (hc : ∀ a, y.mc = some a → y.isopen = true ∧ (y.removed = false → a ∈ s.m.lru))
    (hw : ∀ p a, (s.proc p).on = some (c, a) →
      y.mc = (s.chan c).mc ∧ y.removed = (s.chan c).removed)
    (hf : ∀ a, (c, a) ∈ s.frd → y.mc = (s.chan c).mc ∧ y.removed = (s.chan c).removed) :
    Inv (s.putchan c y) lost x' where
  chain := h.chain
  nodup := h.nodup
  once := h.once
  nseg := h.nseg
  nbytes := h.nbytes
  pos := h.pos
  refs a := by
    have h1 := holders_putchan s c y a
    have h2 := hx a
    have h3 := h.refs a
    show (s.m.seg a).ref = _
    rw [h3]
    show _ = (if a ∈ s.m.lru then 1 else 0) + _ + _
    omega
  chan k a hk := by
    rw [chan_putchan] at hk ⊢
    split at hk
    · rename_i hkc
      rw [if_pos hkc]
      exact hc a hk
    · rename_i hkc
      rw [if_neg hkc]
      exact h.chan k a hk
  work p k a hp := by
    have hk := h.work p k a hp
    rw [chan_putchan]
    split
    · rename_i hkc
      subst hkc
      obtain ⟨h1, h2⟩ := hw p a hp
      rw [h1, h2]
      exact hk
    · exact hk
  alone p k a n hp := by
    have hk := h.alone p k a n hp
    rw [chan_putchan]
    split
    · rename_i hkc
      subst hkc
      have hp' : s.proc p = .removing k a n := hp
      have hon : (s.proc p).on = some (k, a) := by rw [hp']; rfl
      rw [(hw p a hon).2]
      exact hk
    · exact hk
  frd k a hk := by
    have := h.frd k a hk
    rw [chan_putchan]
    split
    · rename_i hkc
      subst hkc
      obtain ⟨h1, h2⟩ := hf a hk
      rw [h1, h2]
      exact this
    · exact this

/-- The queue of the reads ahead changes. -/
theorem Inv.setfrd (h : Inv s lost x) {l : List (Fin nc × Addr)}
    (hx : ∀ a, x' a + l.countP (fun f => f.2 = a) = x a + s.frd.countP fun f => f.2 = a)
    (hl : ∀ c a, (c, a) ∈ l → (s.chan c).mc = some a ∧ (s.chan c).removed = false) :
    Inv { s with frd := l } lost x' := by
  refine ⟨h.chain, h.nodup, h.once, h.nseg, h.nbytes, h.pos, fun a => ?_, h.chan, h.work, h.alone,
    hl⟩
  have h1 := h.refs a
  have h2 := hx a
  show (s.m.seg a).ref = (if a ∈ s.m.lru then 1 else 0) +
    ((∑ c, if (s.chan c).mc = some a then 1 else 0) + l.countP (fun f => f.2 = a) +
      ∑ p, (s.proc p).readahead a) + x' a
  rw [Sys.holders] at h1
  omega

/-! ## The queue and the chains -/

/-- The order of the queue does not matter. -/
theorem Inv.requeue (h : Inv s lost x) {l : List Addr} (hp : l.Perm s.m.lru) :
    Inv { s with m := { s.m with lru := l } } lost x := by
  have hm : ∀ a, a ∈ l ↔ a ∈ s.m.lru := fun a => hp.mem_iff
  refine ⟨fun k a => ?_, hp.nodup_iff.mpr h.nodup, h.once, ?_, ?_, h.pos, fun a => ?_,
    fun c a hc => ?_, fun p c a hw => ?_, h.alone, h.frd⟩
  · rw [h.chain]
    exact and_congr_left fun _ => (hm a).symm
  · show s.m.nseg = l.length
    rw [hp.length_eq]
    exact h.nseg
  · have hsum : (l.map fun a => (s.m.seg a).nbytes).sum = s.m.sum := (hp.map _).sum_eq
    show _ = (l.map fun a => (s.m.seg a).nbytes).sum + lost
    rw [hsum]
    exact h.nbytes
  · show _ = (if a ∈ l then 1 else 0) + s.holders a + x a
    simp only [hm]
    exact h.refs a
  · refine ⟨(h.chan c a hc).1, fun hr => (hm a).mpr ((h.chan c a hc).2 hr)⟩
  · obtain ⟨h1, h2⟩ := h.work p c a hw
    exact ⟨(hm a).mpr h1, h2⟩

/-- The second chance of a segment. -/
theorem Inv.unused (h : Inv s lost x) (a : Addr) :
    Inv (s.putseg a { s.m.seg a with used := false }) lost x :=
  h.setref rfl rfl (fun _ _ => rfl) rfl

/-- What `unhashseg` leaves of the cache. -/
def unhashed (m : Mntcache) (a : Addr) : Mntcache :=
  { m.chain (chash (m.seg a).cqid.path) ((m.hash (chash (m.seg a).cqid.path)).erase a) with
    nseg := m.nseg - 1, nbytes := m.nbytes - (m.seg a).nbytes }

theorem hash_chain (m : Mntcache) (k : Nat) (l : List Addr) (j : Nat) :
    (m.chain k l).hash j = if j = k then l else m.hash j := Function.update_apply _ _ _ _

/-- A segment that nobody uses leaves the queue and its chain. -/
theorem Inv.unhash (h : Inv s lost x) (ha : a ∈ s.m.lru)
    (hc : ∀ c, (s.chan c).mc = some a → (s.chan c).removed = true)
    (hw : ∀ p c, (s.proc p).on ≠ some (c, a)) :
    Inv { s with m := { unhashed s.m a with lru := s.m.lru.erase a } } lost (x + one a) where
  chain k b := by
    show b ∈ (s.m.chain _ _).hash k ↔ b ∈ s.m.lru.erase a ∧ _
    rw [hash_chain, h.nodup.mem_erase_iff]
    split
    · rename_i hk
      rw [(h.once _).mem_erase_iff, h.chain, hk]
      exact and_assoc.symm
    · rename_i hk
      rw [h.chain]
      constructor
      · rintro ⟨h1, h2⟩
        refine ⟨⟨?_, h1⟩, h2⟩
        rintro rfl
        exact hk h2
      · rintro ⟨⟨-, h1⟩, h2⟩
        exact ⟨h1, h2⟩
  nodup := h.nodup.erase a
  once k := by
    show ((s.m.chain _ _).hash k).Nodup
    rw [hash_chain]
    split
    · exact (h.once _).erase a
    · exact h.once k
  nseg := by
    show s.m.nseg - 1 = (s.m.lru.erase a).length
    have := List.length_pos_of_mem ha
    rw [List.length_erase_of_mem ha, h.nseg]
    omega
  nbytes := by
    have h1 := List.sum_map_erase (fun b => (s.m.seg b).nbytes) ha
    have h2 := h.nbytes
    rw [Mntcache.sum, ← h1] at h2
    show s.m.nbytes - (s.m.seg a).nbytes + (∑ p, (s.proc p).owes) =
      ((s.m.lru.erase a).map fun b => (s.m.seg b).nbytes).sum + lost
    omega
  pos := h.pos
  refs b := by
    have h1 := h.refs b
    show (s.m.seg b).ref = (if b ∈ s.m.lru.erase a then 1 else 0) + s.holders b + (x + one a) b
    rw [Pi.add_apply]
    by_cases hba : b = a
    · subst hba
      rw [if_pos ha] at h1
      rw [if_neg (fun hm => (h.nodup.mem_erase_iff.mp hm).1 rfl), one_self]
      omega
    · rw [one_ne hba]
      simp only [h.nodup.mem_erase_iff, ne_eq, hba, not_false_eq_true, true_and]
      omega
  chan c b hb := by
    refine ⟨(h.chan c b hb).1, fun hr => h.nodup.mem_erase_iff.mpr ⟨?_, (h.chan c b hb).2 hr⟩⟩
    rintro rfl
    rw [hc c hb] at hr
    cases hr
  work p c b hp := by
    obtain ⟨h1, h2⟩ := h.work p c b hp
    refine ⟨h.nodup.mem_erase_iff.mpr ⟨?_, h1⟩, h2⟩
    rintro rfl
    exact hw p c hp
  alone := h.alone
  frd := h.frd

/-- A new segment, with the reference of the cache and one more. -/
theorem Inv.make (h : Inv s lost x) {c : Chan} {new : Addr} (hnew : (s.m.seg new).ref = 0) :
    Inv { s with m := s.m.make c new } lost (x + one new) := by
  have hr := h.refs new
  rw [hnew] at hr
  have hl : new ∉ s.m.lru := fun hm => by
    rw [if_pos hm] at hr
    omega
  have hseg : ∀ b ≠ new, (s.m.make c new).seg b = s.m.seg b :=
    fun b hb => Function.update_of_ne hb _ _
  have hself : (s.m.make c new).seg new = { s.m.seg new with
      ref := 2, used := false, cqid := c.qid, cdev := c.dev, clength := -1, nbytes := 0 } :=
    Function.update_self _ _ _
  have hne : ∀ b ∈ s.m.lru, b ≠ new := fun b hb => ne_of_mem_of_not_mem hb hl
  refine ⟨fun k b => ?_, ?_, fun k => ?_, ?_, ?_, fun b => ?_, fun b => ?_, fun k b hk => ?_,
    fun p k b hp => ?_, h.alone, h.frd⟩
  · show b ∈ (s.m.chain (chash c.qid.path) (new :: s.m.hash (chash c.qid.path))).hash k ↔
      b ∈ s.m.lru ++ [new] ∧ k = chash ((s.m.make c new).seg b).cqid.path
    rw [hash_chain, List.mem_append, List.mem_singleton]
    by_cases hb : b = new
    · subst hb
      rw [hself]
      split
      · rename_i hk
        exact iff_of_true List.mem_cons_self ⟨.inr rfl, hk⟩
      · rename_i hk
        rw [h.chain]
        exact iff_of_false (fun hh => hl hh.1) fun hh => hk hh.2
    · rw [hseg b hb]
      split
      · rename_i hk
        rw [List.mem_cons, h.chain, hk]
        simp only [hb, false_or, or_false]
      · rw [h.chain]
        simp only [hb, or_false]
  · show (s.m.lru ++ [new]).Nodup
    exact h.nodup.append (List.nodup_singleton new) fun b hb hb' =>
      hne b hb (List.mem_singleton.mp hb')
  · show ((s.m.chain (chash c.qid.path) (new :: s.m.hash (chash c.qid.path))).hash k).Nodup
    rw [hash_chain]
    split
    · exact List.nodup_cons.mpr ⟨fun hm => hl ((h.chain _ _).mp hm).1, h.once _⟩
    · exact h.once k
  · show s.m.nseg + 1 = (s.m.lru ++ [new]).length
    rw [List.length_append, List.length_singleton, h.nseg]
    rfl
  · have hmap : (s.m.lru.map fun b => ((s.m.make c new).seg b).nbytes) =
        s.m.lru.map fun b => (s.m.seg b).nbytes := by
      apply List.map_congr_left
      intro b hb
      rw [hseg b (hne b hb)]
    have hsum : (s.m.make c new).sum = s.m.sum := by
      show ((s.m.lru ++ [new]).map fun b => ((s.m.make c new).seg b).nbytes).sum = _
      rw [List.map_append, List.map_singleton, hmap, hself, List.sum_append, List.sum_singleton,
        add_zero, Mntcache.sum]
    rw [hsum]
    exact h.nbytes
  · by_cases hb : b = new
    · subst hb
      rw [hself]
    · rw [hseg b hb]
      exact h.pos b
  · show ((s.m.make c new).seg b).ref =
      (if b ∈ s.m.lru ++ [new] then 1 else 0) + s.holders b + (x + one new) b
    rw [Pi.add_apply]
    by_cases hb : b = new
    · subst hb
      rw [hself, one_self, if_pos (List.mem_append_right _ (List.mem_singleton.mpr rfl))]
      dsimp only
      omega
    · rw [hseg b hb, one_ne hb]
      simp only [List.mem_append, List.mem_singleton, hb, or_false]
      exact h.refs b
  · obtain ⟨h1, h2⟩ := h.chan k b hk
    exact ⟨h1, fun hrm => List.mem_append_left _ (h2 hrm)⟩
  · obtain ⟨h1, h2⟩ := h.work p k b hp
    exact ⟨List.mem_append_left _ h1, h2⟩

end NixMark.Cache
