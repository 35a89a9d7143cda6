import NixMark.Cache.Inv
import NixMark.Lib.Lts

/-!
# The accounts of the mount cache along runs

Every step keeps `Inv`, and `lost` grows by what `ccheckvers` clears (`Inv.step`). So when no process
is in one of the functions, the accounts are right exactly when no copen has found pages of another
version (`accounted_iff`).
-/

namespace NixMark.Cache

open Lib

variable {nc np : Nat} {s : Sys nc np} {lost : Int} {x : Addr → Nat}

/-! ## Lookups -/

variable {m : Mntcache} {a : Addr}

theorem find_mem {c : Chan} (h : m.find c = some a) :
    a ∈ m.hash (chash c.qid.path) := List.mem_of_find?_eq_some h

/-- What `clookup` leaves: the accounts, the processes and the channel but for its entry. -/
structure Looked (s s' : Sys nc np) (c : Fin nc) (r : Option Addr) (lost : Int) (x : Addr → Nat) :
    Prop where
  inv : Inv s' lost x
  proc : s'.proc = s.proc
  frd : s'.frd = s.frd
  removed : (s'.chan c).removed = (s.chan c).removed
  isopen : (s'.chan c).isopen = (s.chan c).isopen
  mc : (s'.chan c).mc = r

variable {c : Fin nc}

/-- A channel that nobody works with gets its entry. -/
theorem Inv.setmc (h : Inv s lost (x + one a)) (hmc : (s.chan c).mc = none)
    (ho : (s.chan c).isopen = true) (ha : a ∈ s.m.lru) :
    Inv (s.putchan c { s.chan c with mc := some a }) lost x := by
  refine h.putchan (fun b => ?_) (fun b hb => ?_) (fun p b hp => ?_) fun b hb => ?_
  · rw [hmc, if_neg (Option.some_ne_none b).symm, Pi.add_apply]
    by_cases hb : b = a
    · rw [hb, one_self, if_pos rfl]
    · rw [one_ne hb, if_neg (fun he => hb (Option.some.inj he).symm)]
  · cases hb
    exact ⟨ho, fun _ => ha⟩
  · have := (h.work p c b hp).2.1
    rw [hmc] at this
    cases this
  · have := (h.frd c b hb).1
    rw [hmc] at this
    cases this

theorem Inv.lookup (h : Inv s lost x) (hc : s.ready c = true) (mkit : Option Addr)
    (hm : ∀ new, mkit = some new → (s.m.seg new).ref = 0) :
    Looked s (s.lookup c mkit).1 c (s.lookup c mkit).2 lost x := by
  obtain ⟨ho, -⟩ := (Bool.and_eq_true _ _).mp hc
  unfold Sys.lookup clookup
  cases hmc : (s.chan c).mc with
  | some a =>
    have hsame : s.putchan c (s.chan c) = s := by
      unfold Sys.putchan
      rw [Function.update_eq_self]
    dsimp only
    rw [hsame]
    exact ⟨h, rfl, rfl, rfl, rfl, hmc⟩
  | none =>
    cases hf : s.m.find (s.chan c) with
    | some a =>
      obtain ⟨ha, -⟩ := (h.chain _ a).mp (find_mem hf)
      have hp : (s.m.lru.erase a ++ [a]).Perm s.m.lru :=
        (List.perm_append_singleton a _).trans (List.perm_cons_erase ha).symm
      have h1 := ((h.requeue hp).incref a).setmc (c := c) hmc ho
        (List.mem_append_right _ (List.mem_singleton.mpr rfl))
      refine ⟨h1, rfl, rfl, ?_, ?_, ?_⟩ <;> (dsimp only; rw [chan_putchan, if_pos rfl])
    | none =>
      cases mkit with
      | none =>
        have hsame : s.putchan c (s.chan c) = s := by
          unfold Sys.putchan
          rw [Function.update_eq_self]
        dsimp only
        rw [hsame]
        exact ⟨h, rfl, rfl, rfl, rfl, hmc⟩
      | some new =>
        have h1 := (h.make (c := s.chan c) (hm new rfl)).setmc (c := c) hmc ho
          (List.mem_append_right _ (List.mem_singleton.mpr rfl))
        refine ⟨h1, rfl, rfl, ?_, ?_, ?_⟩ <;> (dsimp only; rw [chan_putchan, if_pos rfl])

/-! ## Reclaim -/

/-- What the loop of `segvictim` leaves. -/
theorem Inv.victim (n : Nat) (h : Inv s lost x) :
    (∀ m', victim n s.m = (m', none) → Inv { s with m := m' } lost x) ∧
    ∀ m' a, victim n s.m = (m', some a) → (m'.seg a).ref = 1 ∧
      Inv { s with m := { m' with lru := a :: m'.lru } } lost x := by
  induction n generalizing s with
  | zero =>
    refine ⟨fun m' hm => ?_, fun m' a hm => ?_⟩
    · cases hm
      exact h
    · cases hm
  | succ n ih =>
    cases hl : s.m.lru with
    | nil =>
      rw [Cache.victim, hl]
      refine ⟨fun m' hm => ?_, fun m' a hm => ?_⟩
      · cases hm
        exact h
      · cases hm
    | cons b l =>
      have hperm : (l ++ [b]).Perm s.m.lru := by
        rw [hl]
        exact List.perm_append_singleton b l
      rw [Cache.victim, hl]
      dsimp only
      by_cases hu : (s.m.seg b).used
      · rw [if_pos hu]
        exact ih ((h.requeue hperm).unused b)
      · rw [if_neg hu]
        by_cases hr : (s.m.seg b).ref = 1
        · rw [if_pos hr]
          refine ⟨fun m' hm => ?_, fun m' a hm => ?_⟩
          · cases hm
          · cases hm
            refine ⟨hr, ?_⟩
            have hsame : { s with m := { s.m with lru := b :: l } } = s := by rw [← hl]
            exact hsame ▸ h
        · rw [if_neg hr]
          exact ih (h.requeue hperm)

theorem unhashseg_eq {m' : Mntcache} (h : m.unhashseg a = some m') : m' = unhashed m a := by
  unfold Mntcache.unhashseg at h
  dsimp only at h
  split at h
  · exact (Option.some.inj h).symm
  · cases h

/-- A segment without other references than the one of the cache has no users. -/
theorem Inv.unused_of_ref (h : Inv s lost 0) (ha : a ∈ s.m.lru) (hr : (s.m.seg a).ref = 1) :
    ∀ c, (s.chan c).mc ≠ some a := by
  intro c hc
  have h1 := h.refs a
  have h2 : (∑ c, if (s.chan c).mc = some a then 1 else 0) = 0 := by
    rw [hr, if_pos ha, Sys.holders] at h1
    have h0 : (0 : Addr → Nat) a = 0 := rfl
    omega
  have h3 := Finset.sum_eq_zero_iff.mp h2 c (Finset.mem_univ c)
  rw [if_pos hc] at h3
  cases h3

theorem Inv.creclaim (h : Inv s lost 0) {m' : Mntcache} (hm : creclaim s.m = some m') :
    Inv { s with m := m' } lost 0 := by
  unfold Cache.creclaim at hm
  obtain ⟨hn, hs⟩ := h.victim (2 * s.m.lru.length)
  cases hv : segvictim s.m with
  | mk m r =>
    rw [hv] at hm
    cases r with
    | none =>
      cases hm
      exact hn _ hv
    | some a =>
      obtain ⟨hr, hi⟩ := hs m a hv
      dsimp only at hm
      cases hu : m.unhashseg a with
      | none =>
        rw [hu] at hm
        cases hm
      | some m₁ =>
        rw [hu] at hm
        dsimp only at hm
        split at hm
        · cases hm
          have hm₁ := unhashseg_eq hu
          have hmem : a ∈ a :: m.lru := List.mem_cons_self
          have hno := hi.unused_of_ref hmem hr
          have h1 := hi.unhash hmem (fun c hc => absurd hc (hno c))
            fun p c hp => hno c (hi.work p c a hp).2.1
          have herase : (a :: m.lru).erase a = m.lru := List.erase_cons_head a m.lru
          dsimp only at h1
          rw [herase] at h1
          have h2 := h1.putseg 0 (a := a) (fun b hb => ?_) ?_
          · rw [hm₁]
            exact h2
          · rw [Pi.add_apply, one_ne hb]
            rfl
          · rw [Pi.add_apply, one_self]
        · cases hm

/-! ## Steps -/

/-- What the step loses: the pages of another version that `ccheckvers` clears. -/
def Op.loses (s : Sys nc np) : Op nc np → Int
  | .ccheckvers p =>
    match s.proc p with
    | .opening c a => if stale (s.m.seg a) (s.chan c) then (s.m.seg a).nbytes else 0
    | _ => 0
  | _ => 0

variable {p : Fin np}

theorem Inv.lru (h : Inv s lost x) (hp : (s.proc p).on = some (c, a)) :
    a ∈ s.m.lru := (h.work p c a hp).1

theorem Inv.cast {lost' : Int} (h : Inv s lost x) (he : lost = lost') : Inv s lost' x := he ▸ h

theorem ready_removed (h : s.ready c = true) : (s.chan c).removed = false := by
  have := ((Bool.and_eq_true _ _).mp h).2
  simpa using this

theorem quiet_proc (h : s.quiet c = true) (p : Fin np) (a : Addr) :
    (s.proc p).on ≠ some (c, a) := by
  have h1 := List.all_eq_true.mp ((Bool.and_eq_true _ _).mp h).1 p (List.mem_finRange p)
  intro hp
  rw [hp] at h1
  simp at h1

theorem quiet_frd (h : s.quiet c = true) (a : Addr) : (c, a) ∉ s.frd := by
  intro hm
  have h1 := List.all_eq_true.mp ((Bool.and_eq_true _ _).mp h).2 _ hm
  simp at h1

theorem Inv.attach (h : Inv s lost 0) (hc : ¬(s.chan c).isopen = true) (qid : Qid) (dev : Nat) :
    Inv (s.putchan c ⟨true, qid, dev, none, false⟩) lost 0 := by
  have hmc : ∀ a, (s.chan c).mc ≠ some a := fun a ha => hc (h.chan c a ha).1
  refine h.putchan (fun a => ?_) (fun a ha => nomatch ha) (fun p a hp => ?_) fun a ha => ?_
  · rw [if_neg (hmc a), if_neg (Option.some_ne_none a).symm]
  · exact absurd (h.work p c a hp).2.1 (hmc a)
  · exact absurd (h.frd c a ha).1 (hmc a)

variable {s' : Sys nc np}

theorem Inv.close (h : Inv s lost 0) (hq : s.quiet c = true) (he : (match (s.chan c).mc with
      | none => some (s.putchan c { s.chan c with isopen := false, mc := none })
      | some a => some { s.putchan c { s.chan c with isopen := false, mc := none } with
          m := s.m.putseg a }) = some s') : Inv s' lost 0 := by
  cases hmc : (s.chan c).mc with
  | none =>
    rw [hmc] at he
    cases he
    refine h.putchan (fun a => ?_) (fun a ha => nomatch ha)
      (fun p a hp => absurd hp (quiet_proc hq p a)) fun a ha => absurd ha (quiet_frd hq a)
    rw [hmc]
  | some a =>
    rw [hmc] at he
    cases he
    have h1 : Inv (s.putchan c { s.chan c with isopen := false, mc := none }) lost (one a) := by
      refine h.putchan (fun b => ?_) (fun b hb => nomatch hb)
        (fun p b hp => absurd hp (quiet_proc hq p b)) fun b hb => absurd hb (quiet_frd hq b)
      rw [hmc, if_neg (Option.some_ne_none b).symm]
      by_cases hb : b = a
      · rw [hb, one_self, if_pos rfl]
        rfl
      · rw [one_ne hb, if_neg (fun he => hb (Option.some.inj he).symm)]
        rfl
    exact h1.putseg 0 (fun b hb => (one_ne hb).symm) (one_self a)

/-- A process leaves `mcread`. -/
theorem Inv.leave (h : Inv s lost 0) (ra : Bool)
    (hra : ∀ b, (s.proc p).readahead b = if ra ∧ a = b then 1 else 0)
    (hr : ∀ c a n, s.proc p ≠ .removing c a n) :
    Inv (s.leave p a ra) (lost - (s.proc p).owes) 0 := by
  have hl : lost + (Work.idle : Work nc).owes - (s.proc p).owes = lost - (s.proc p).owes := by
    show lost + 0 - _ = _
    rw [add_zero]
  unfold Sys.leave
  cases ra with
  | false =>
    refine (h.goon 0 (w := .idle) (fun b => ?_) (.inl rfl) (fun _ _ _ h => nomatch h) hr).cast hl
    rw [hra]
    rfl
  | true =>
    have h1 := (h.goon (one a) (w := .idle) (fun b => ?_) (.inl rfl)
      (fun _ _ _ h => nomatch h) hr).cast hl
    · exact h1.putseg 0 (fun b hb => (one_ne hb).symm) (one_self a)
    · rw [hra]
      by_cases hb : b = a
      · rw [hb, one_self, if_pos ⟨rfl, rfl⟩]
        rfl
      · rw [one_ne hb, if_neg (fun he => hb he.2.symm)]
        rfl

theorem Inv.creadq (h : Inv s lost 0) (hc : s.ready c = true) (hmc : (s.chan c).mc = some a) :
    Inv { s with m := s.m.incref a, frd := s.frd ++ [(c, a)] } lost 0 := by
  refine (h.incref a).setfrd (fun b => ?_) fun k b hk => ?_
  · rw [List.countP_append, List.countP_singleton, Pi.add_apply]
    by_cases hb : b = a
    · subst hb
      rw [one_self]
      simp only [decide_true, if_true]
      show 0 + (_ + 1) = 0 + 1 + _
      omega
    · rw [one_ne hb]
      simp only [Ne.symm hb, decide_false, Bool.false_eq_true, if_false]
      rfl
  · rcases List.mem_append.mp hk with hk | hk
    · exact h.frd k b hk
    · cases List.mem_singleton.mp hk
      exact ⟨hmc, ready_removed hc⟩

theorem Inv.creadproc (h : Inv s lost 0) {l : List (Fin nc × Addr)} (hp : s.proc p = .idle)
    (hl : s.frd = (c, a) :: l) : Inv ({ s with frd := l }.work p (.reading c a true)) lost 0 := by
  have hmem : ∀ k b, (k, b) ∈ l → (k, b) ∈ s.frd := fun k b hk => hl ▸ List.mem_cons_of_mem _ hk
  have h1 : Inv { s with frd := l } lost (one a) := by
    refine h.setfrd (fun b => ?_) fun k b hk => h.frd k b (hmem k b hk)
    rw [hl, List.countP_cons]
    by_cases hb : b = a
    · subst hb
      rw [one_self]
      simp only [decide_true, if_true]
      show 1 + _ = 0 + (_ + 1)
      omega
    · rw [one_ne hb]
      simp only [Ne.symm hb, decide_false, Bool.false_eq_true, if_false]
      rfl
  have hf := h.frd c a (hl ▸ List.mem_cons_self)
  refine (h1.start 0 (w := .reading c a true) (c := c) (a := a) hp (fun b => ?_) rfl hf.1
    hf.2 (fun _ _ _ h => nomatch h)).cast (add_zero lost)
  show 0 + (if true ∧ a = b then 1 else 0) = one a b
  unfold one
  simp only [true_and, zero_add, eq_comm]

/-- The segment of a process changes, and the process goes on. -/
theorem Inv.change (h : Inv s lost 0) {y : Segment} {w : Work nc} (hp : (s.proc p).on = some (c, a))
    (href : y.ref = (s.m.seg a).ref) (hpath : y.cqid.path = (s.m.seg a).cqid.path)
    (hpos : 0 ≤ y.nbytes) (hra : ∀ b, w.readahead b = (s.proc p).readahead b)
    (hon : w.on = none ∨ w.on = (s.proc p).on) (hr : ∀ c a n, w ≠ .removing c a n)
    (hr' : ∀ c a n, s.proc p ≠ .removing c a n) :
    Inv ((s.putseg a y).work p w)
      (lost + (s.m.seg a).nbytes - y.nbytes + w.owes - (s.proc p).owes) 0 := by
  refine (h.setseg (h.lru hp) href hpath hpos).goon 0 (fun b => ?_) hon hr hr'
  rw [hra]
  rfl

theorem Inv.ccheckvers (h : Inv s lost 0) (hp : s.proc p = .opening c a) :
    Inv ((s.putseg a (Cache.ccheckvers (s.m.seg a) (s.chan c))).work p .idle)
      (lost + if stale (s.m.seg a) (s.chan c) then (s.m.seg a).nbytes else 0) 0 := by
  have hon : (s.proc p).on = some (c, a) := by rw [hp]; rfl
  have hch : ∀ y : Segment, y.ref = (s.m.seg a).ref → y.cqid.path = (s.m.seg a).cqid.path →
      0 ≤ y.nbytes → Inv ((s.putseg a y).work p .idle)
        (lost + (s.m.seg a).nbytes - y.nbytes + 0 - (s.proc p).owes) 0 :=
    fun y h1 h2 h3 => h.change hon h1 h2 h3 (fun b => by rw [hp]; rfl) (.inl rfl)
      (fun _ _ _ h => nomatch h) (fun _ _ _ h => by rw [hp] at h; cases h)
  unfold Cache.ccheckvers
  split
  · refine (hch { cclear (s.m.seg a) with
      cqid := { (s.m.seg a).cqid with vers := (s.chan c).qid.vers } } rfl rfl
      (Int.le_refl 0)).cast ?_
    rw [hp]
    show lost + _ - 0 + 0 - 0 = _
    omega
  · refine (hch (s.m.seg a) rfl rfl (h.pos a)).cast ?_
    rw [hp]
    show lost + _ - _ + 0 - 0 = _
    omega

variable {ra : Bool}

theorem Inv.page (h : Inv s lost 0) (hp : s.proc p = .reading c a ra) (addr : Nat) :
    Inv ((s.putseg a (addpage (s.m.seg a) addr)).work p (.adding c a ra)) lost 0 := by
  have hon : (s.proc p).on = some (c, a) := by rw [hp]; rfl
  have hpos := h.pos a
  refine (h.change (y := addpage (s.m.seg a) addr) (w := .adding c a ra) hon rfl rfl ?_ (fun b => by rw [hp]; rfl)
    (.inr (by rw [hp]; rfl)) (fun _ _ _ h => nomatch h)
    (fun _ _ _ h => by rw [hp] at h; cases h)).cast ?_
  · show 0 ≤ (s.m.seg a).nbytes + pgsz
    unfold pgsz
    omega
  · rw [hp]
    show lost + _ - ((s.m.seg a).nbytes + pgsz) + pgsz - 0 = lost
    omega

theorem Inv.account (h : Inv s lost 0) (hp : s.proc p = .adding c a ra) :
    Inv ({ s with m := s.m.owed pgsz }.work p (.reading c a ra)) lost 0 := by
  refine ((h.owed pgsz).goon 0 (p := p) (w := .reading c a ra)
    (fun b => by show _ = _ + (s.proc p).readahead b; rw [hp]; rfl)
    (.inr (by show _ = (s.proc p).on; rw [hp]; rfl)) (fun _ _ _ h => nomatch h)
    (fun _ _ _ h => by have h : s.proc p = _ := h; rw [hp] at h; cases h)).cast ?_
  show lost + pgsz + 0 - (s.proc p).owes = lost
  rw [hp]
  show lost + pgsz + 0 - pgsz = lost
  omega

theorem Inv.done (h : Inv s lost 0) (hp : s.proc p = .reading c a ra) (eof : Int) :
    Inv ((s.putseg a (ceof (s.m.seg a) eof)).leave p a ra) lost 0 := by
  have hon : (s.proc p).on = some (c, a) := by rw [hp]; rfl
  have hy : (ceof (s.m.seg a) eof).ref = (s.m.seg a).ref ∧
      (ceof (s.m.seg a) eof).cqid = (s.m.seg a).cqid ∧
      (ceof (s.m.seg a) eof).nbytes = (s.m.seg a).nbytes := by
    unfold ceof
    split <;> exact ⟨rfl, rfl, rfl⟩
  have h1 := h.setseg (h.lru hon) hy.1 (by rw [hy.2.1]) (by rw [hy.2.2]; exact h.pos a)
  refine (h1.leave ra (p := p) (a := a) (fun b => ?_) (fun _ _ _ h => ?_)).cast ?_
  · show (s.proc p).readahead b = _
    rw [hp]
    rfl
  · have h : s.proc p = _ := h
    rw [hp] at h
    cases h
  · show lost + (s.m.seg a).nbytes - (ceof (s.m.seg a) eof).nbytes - (s.proc p).owes = lost
    rw [hp, hy.2.2]
    show lost + _ - _ - 0 = lost
    omega

theorem Inv.fail (h : Inv s lost 0) (hp : s.proc p = .reading c a ra) :
    Inv ((s.putseg a (cclear (s.m.seg a))).work p (.failing c a ra (s.m.seg a).nbytes)) lost 0 := by
  have hon : (s.proc p).on = some (c, a) := by rw [hp]; rfl
  refine (h.change (y := cclear (s.m.seg a)) (w := .failing c a ra (s.m.seg a).nbytes) hon rfl rfl
    (Int.le_refl 0) (fun b => by rw [hp]; rfl) (.inr (by rw [hp]; rfl)) (fun _ _ _ h => nomatch h)
    (fun _ _ _ h => by rw [hp] at h; cases h)).cast ?_
  rw [hp]
  show lost + _ - 0 + -(s.m.seg a).nbytes - 0 = lost
  omega

theorem Inv.cwrite (h : Inv s lost 0) (hp : s.proc p = .idle) (hmc : (s.chan c).mc = some a)
    (hrm : (s.chan c).removed = false) :
    Inv ((s.putseg a (cclear (s.m.seg a))).work p (.writing c a (s.m.seg a).nbytes)) lost 0 := by
  have h1 := h.setseg (a := a) (y := cclear (s.m.seg a)) ((h.chan c a hmc).2 hrm) rfl rfl
    (Int.le_refl 0)
  refine (h1.start 0 (w := .writing c a (s.m.seg a).nbytes) hp (fun b => rfl) rfl hmc hrm
    (fun _ _ _ h => nomatch h)).cast ?_
  show lost + _ - 0 + -(s.m.seg a).nbytes = lost
  omega

/-- A channel that nobody works with is removed. -/
theorem Inv.setremoved (h : Inv s lost x) (hq : s.quiet c = true) :
    Inv (s.putchan c { s.chan c with removed := true }) lost x := by
  refine h.putchan (fun _ => rfl) (fun a ha => ⟨(h.chan c a ha).1, fun hr => nomatch hr⟩)
    (fun p a hp => absurd hp (quiet_proc hq p a)) fun a ha => absurd ha (quiet_frd hq a)

theorem Inv.cremove (h : Inv s lost 0) (hp : s.proc p = .idle) (hq : s.quiet c = true)
    (hmc : (s.chan c).mc = some a) (hrm : (s.chan c).removed = false) :
    Inv (((s.putseg a (cclear (s.m.seg a))).putchan c { s.chan c with removed := true }).work p
      (.removing c a (s.m.seg a).nbytes)) lost 0 := by
  have ha := (h.chan c a hmc).2 hrm
  have h1 := h.setseg (a := a) (y := cclear (s.m.seg a)) ha rfl rfl (Int.le_refl 0)
  have h2 := h1.setremoved (c := c) hq
  have hchan : ((s.putseg a (cclear (s.m.seg a))).putchan c
      { s.chan c with removed := true }).chan c = { s.chan c with removed := true } := by
    rw [chan_putchan, if_pos rfl]
  refine (h2.setwork 0 (w := .removing c a (s.m.seg a).nbytes) (p := p) (fun b => ?_)
    (fun k b hw => ?_) (fun k b n hw => ?_) fun p' k b n _ hpr b' hw => ?_).cast ?_
  · show 0 + 0 = 0 + (s.proc p).readahead b
    rw [hp]
    rfl
  · cases hw
    refine ⟨ha, ?_, fun _ => ⟨_, rfl⟩⟩
    exact (congrArg Chan.mc hchan).trans hmc
  · cases hw
    refine ⟨congrArg Chan.removed hchan, fun p' b' _ hon => quiet_proc hq p' b' hon⟩
  · cases hw
    have hpr : s.proc p' = .removing c b n := hpr
    refine quiet_proc hq p' b ?_
    rw [hpr]
    rfl
  · show lost + (s.m.seg a).nbytes - 0 + -(s.m.seg a).nbytes - (s.proc p).owes = lost
    rw [hp]
    show _ - 0 = lost
    omega

/-- A segment that only the cache and one channel have has no other channel. -/
theorem Inv.alone_of_ref (h : Inv s lost 0) (ha : a ∈ s.m.lru) (hr : (s.m.seg a).ref = 2)
    (hc : (s.chan c).mc = some a) : ∀ k, (s.chan k).mc = some a → k = c := by
  intro k hk
  by_contra hkc
  have h1 := h.refs a
  rw [hr, if_pos ha, Sys.holders] at h1
  have h0 : (0 : Addr → Nat) a = 0 := rfl
  have h2 := Finset.add_sum_erase Finset.univ
    (fun k => if (s.chan k).mc = some a then 1 else 0) (Finset.mem_univ c)
  have h3 := Finset.add_sum_erase (Finset.univ.erase c)
    (fun k => if (s.chan k).mc = some a then 1 else 0)
    (Finset.mem_erase.mpr ⟨hkc, Finset.mem_univ k⟩)
  rw [if_pos hc] at h2
  rw [if_pos hk] at h3
  omega

/-- The last part of `cremove`. -/
theorem Inv.remove (h : Inv s lost 0) (ha : a ∈ s.m.lru) (hmc : (s.chan c).mc = some a)
    (hrm : (s.chan c).removed = true) (hw : ∀ p b, (s.proc p).on ≠ some (c, b))
    (hm : remove s.m a = some m) : Inv { s with m := m } lost 0 := by
  unfold Cache.remove at hm
  split at hm
  · rename_i hr
    cases hu : (s.m.unlinkseg a).unhashseg a with
    | none =>
      rw [hu] at hm
      cases hm
    | some m₁ =>
      rw [hu] at hm
      cases hm
      rw [unhashseg_eq hu]
      have halone := h.alone_of_ref ha hr hmc
      have h1 := h.unhash ha (fun k hk => (halone k hk).symm ▸ hrm) fun p k hp => by
        have hk := halone k (h.work p k a hp).2.1
        exact hw p a (hk ▸ hp)
      refine h1.setref (a := a) rfl rfl (fun b hb => ?_) ?_
      · rw [Pi.add_apply, one_ne hb]
        rfl
      · rw [Pi.add_apply, one_self]
        show (s.m.seg a).ref - 1 + (0 + 1) = (s.m.seg a).ref + 0
        omega
  · cases hm
    exact h

theorem Inv.settle (h : Inv s lost 0) (he : exec s (.settle p) = some s') : Inv s' lost 0 := by
  rw [exec] at he
  cases hp : s.proc p with
  | idle => rw [hp] at he; cases he
  | opening c a => rw [hp] at he; cases he
  | reading c a ra => rw [hp] at he; cases he
  | adding c a ra => rw [hp] at he; cases he
  | failing c a ra n =>
    rw [hp] at he
    cases he
    refine ((h.owed (-n)).leave ra (p := p) (a := a) (fun b => ?_) (fun _ _ _ h => ?_)).cast ?_
    · show (s.proc p).readahead b = _
      rw [hp]
      rfl
    · have h : s.proc p = _ := h
      rw [hp] at h
      cases h
    · show lost + -n - (s.proc p).owes = lost
      rw [hp]
      show lost + -n - -n = lost
      omega
  | writing c a n =>
    rw [hp] at he
    cases he
    refine ((h.owed (-n)).goon 0 (p := p) (w := .idle) (fun b => ?_) (.inl rfl)
      (fun _ _ _ h => nomatch h) (fun _ _ _ h => ?_)).cast ?_
    · show 0 + 0 = 0 + (s.proc p).readahead b
      rw [hp]
      rfl
    · have h : s.proc p = _ := h
      rw [hp] at h
      cases h
    · show lost + -n + 0 - (s.proc p).owes = lost
      rw [hp]
      show lost + -n + 0 - -n = lost
      omega
  | removing c a n =>
    rw [hp] at he
    obtain ⟨m, hm, rfl⟩ := Option.map_eq_some_iff.mp he
    have hon : (s.proc p).on = some (c, a) := by rw [hp]; rfl
    obtain ⟨ha, hmc, -⟩ := h.work p c a hon
    obtain ⟨hrm, hal⟩ := h.alone p c a n hp
    have h1 : Inv ({ s with m := s.m.owed (-n) }.work p .idle) lost 0 := by
      refine ((h.owed (-n)).setwork 0 (p := p) (w := .idle) (fun b => ?_)
        (fun _ _ h => nomatch h) (fun _ _ _ h => nomatch h) fun _ _ _ _ _ _ _ h => nomatch h).cast ?_
      · show 0 + 0 = 0 + (s.proc p).readahead b
        rw [hp]
        rfl
      · show lost + -n + 0 - (s.proc p).owes = lost
        rw [hp]
        show lost + -n + 0 - -n = lost
        omega
    refine h1.remove (c := c) ha hmc hrm (fun q b hq => ?_) hm
    rw [proc_work] at hq
    split at hq
    · cases hq
    · rename_i hqp
      exact hqp (hal q b hq)

theorem Inv.step (h : Inv s lost 0) {op : Op nc np} (he : exec s op = some s') :
    Inv s' (lost + op.loses s) 0 := by
  have h0 : lost + 0 = lost := add_zero lost
  cases op with
  | attach c qid dev =>
    rw [exec] at he
    split at he
    · cases he
    · rename_i hc
      cases he
      exact (h.attach hc qid dev).cast h0.symm
  | close c =>
    rw [exec] at he
    split at he
    · rename_i hg
      exact (h.close ((Bool.and_eq_true _ _).mp hg).2 he).cast h0.symm
    · cases he
  | copen p c new =>
    rw [exec] at he
    split at he
    · rename_i hg
      simp only [Bool.and_eq_true, decide_eq_true_iff] at hg
      obtain ⟨⟨hp, hc⟩, hn⟩ := hg
      have hl := h.lookup (c := c) hc (some new) fun _ he => by cases he; exact hn
      cases hr : s.lookup c (some new) with
      | mk s₁ r =>
        rw [hr] at he hl
        cases r with
        | none => cases he
        | some a =>
          cases he
          have hp₁ : s₁.proc p = .idle := (congrFun hl.proc p).trans hp
          exact (hl.inv.start 0 (w := .opening c a) hp₁ (fun b => rfl) rfl hl.mc
            (hl.removed.trans (ready_removed hc)) (fun _ _ _ h => nomatch h))
    · cases he
  | ccheckvers p =>
    rw [exec] at he
    cases hp : s.proc p with
    | opening c a =>
      rw [hp] at he
      cases he
      refine (h.ccheckvers hp).cast ?_
      rw [Op.loses, hp]
    | _ => rw [hp] at he; cases he
  | mcread p c =>
    rw [exec] at he
    split at he
    · rename_i hg
      simp only [Bool.and_eq_true, decide_eq_true_iff] at hg
      obtain ⟨hp, hc⟩ := hg
      have hl := h.lookup (c := c) hc none nofun
      cases hr : s.lookup c none with
      | mk s₁ r =>
        rw [hr] at he hl
        cases r with
        | none => cases he
        | some a =>
          cases he
          have hp₁ : s₁.proc p = .idle := (congrFun hl.proc p).trans hp
          exact (hl.inv.start 0 (w := .reading c a false) hp₁ (fun b => rfl) rfl hl.mc
            (hl.removed.trans (ready_removed hc)) (fun _ _ _ h => nomatch h))
    · cases he
  | creadq c =>
    rw [exec] at he
    split at he
    · rename_i hc
      cases hmc : (s.chan c).mc with
      | none => rw [hmc] at he; cases he
      | some a =>
        rw [hmc] at he
        cases he
        exact (h.creadq hc hmc).cast h0.symm
    · cases he
  | creadproc p =>
    rw [exec] at he
    split at he
    · rename_i c a l hp hl
      cases he
      exact (h.creadproc hp hl).cast h0.symm
    · cases he
  | page p addr =>
    rw [exec] at he
    cases hp : s.proc p with
    | reading c a ra =>
      rw [hp] at he
      dsimp only at he
      split at he
      · cases he
        exact h.cast h0.symm
      · cases he
        exact (h.page hp addr).cast h0.symm
    | _ => rw [hp] at he; cases he
  | account p =>
    rw [exec] at he
    cases hp : s.proc p with
    | adding c a ra =>
      rw [hp] at he
      cases he
      exact (h.account hp).cast h0.symm
    | _ => rw [hp] at he; cases he
  | done p eof =>
    rw [exec] at he
    cases hp : s.proc p with
    | reading c a ra =>
      rw [hp] at he
      cases he
      exact (h.done hp eof).cast h0.symm
    | _ => rw [hp] at he; cases he
  | fail p =>
    rw [exec] at he
    cases hp : s.proc p with
    | reading c a ra =>
      rw [hp] at he
      cases he
      exact (h.fail hp).cast h0.symm
    | _ => rw [hp] at he; cases he
  | cwrite p c =>
    rw [exec] at he
    split at he
    · rename_i hg
      simp only [Bool.and_eq_true, decide_eq_true_iff] at hg
      obtain ⟨hp, hc⟩ := hg
      have hl := h.lookup (c := c) hc none nofun
      cases hr : s.lookup c none with
      | mk s₁ r =>
        rw [hr] at he hl
        cases r with
        | none => cases he
        | some a =>
          cases he
          have hp₁ : s₁.proc p = .idle := (congrFun hl.proc p).trans hp
          exact (hl.inv.cwrite hp₁ hl.mc (hl.removed.trans (ready_removed hc))).cast h0.symm
    · cases he
  | cremove p c =>
    rw [exec] at he
    split at he
    · rename_i hg
      simp only [Bool.and_eq_true, decide_eq_true_iff] at hg
      obtain ⟨⟨hp, hc⟩, hq⟩ := hg
      have hl := h.lookup (c := c) hc none nofun
      cases hr : s.lookup c none with
      | mk s₁ r =>
        rw [hr] at he hl
        have hp₁ : s₁.proc p = .idle := (congrFun hl.proc p).trans hp
        have hq₁ : s₁.quiet c = true := by
          have hproc : s₁.proc = s.proc := hl.proc
          have hfrd : s₁.frd = s.frd := hl.frd
          rw [Sys.quiet, hproc, hfrd]
          exact hq
        cases r with
        | none =>
          cases he
          exact (hl.inv.setremoved hq₁).cast h0.symm
        | some a =>
          cases he
          exact (hl.inv.cremove hp₁ hq₁ hl.mc (hl.removed.trans (ready_removed hc))).cast h0.symm
    · cases he
  | settle p => exact (h.settle he).cast h0.symm
  | creclaim =>
    obtain ⟨m, hm, rfl⟩ := Option.map_eq_some_iff.mp he
    exact (h.creclaim hm).cast h0.symm

/-! ## Runs -/

/-- The segments on the chains. -/
def Mntcache.hashed (m : Mntcache) : List Addr := (List.range FHASHSIZE).flatMap m.hash

/-- `cache.nbytes` is the sum over the hashed segments, `cache.nseg` their number, and each is once
on the lru queue. -/
structure Accounted (m : Mntcache) : Prop where
  nbytes : m.nbytes = (m.hashed.map fun a => (m.seg a).nbytes).sum
  nseg : m.nseg = m.hashed.length
  lru : m.hashed.Nodup ∧ ∀ a ∈ m.hashed, m.lru.count a = 1

/-- No process is in one of the functions. -/
def Sys.Rest (s : Sys nc np) : Prop := ∀ p, s.proc p = .idle

theorem Inv.hashed (h : Inv s lost x) : s.m.hashed.Nodup ∧ s.m.hashed.Perm s.m.lru := by
  have hn : s.m.hashed.Nodup := by
    refine List.nodup_flatMap.mpr ⟨fun k _ => h.once k, ?_⟩
    refine List.nodup_range.pairwise_of_forall_ne fun j _ k _ hjk a ha hb => ?_
    exact hjk (((h.chain j a).mp ha).2.trans ((h.chain k a).mp hb).2.symm)
  refine ⟨hn, (List.perm_ext_iff_of_nodup hn h.nodup).mpr fun a => ?_⟩
  rw [Mntcache.hashed, List.mem_flatMap]
  constructor
  · rintro ⟨k, -, hk⟩
    exact ((h.chain k a).mp hk).1
  · intro ha
    exact ⟨_, List.mem_range.mpr (Nat.mod_lt _ (by decide)), (h.chain _ a).mpr ⟨ha, rfl⟩⟩

theorem Inv.accounted_lost (h : Inv s lost x) (hr : s.Rest) : Accounted s.m ↔ lost = 0 := by
  obtain ⟨hn, hp⟩ := h.hashed
  have hsum : (s.m.hashed.map fun a => (s.m.seg a).nbytes).sum = s.m.sum := (hp.map _).sum_eq
  have howes : (∑ p, (s.proc p).owes) = 0 := by
    refine Finset.sum_eq_zero fun p _ => ?_
    rw [hr p]
    rfl
  have hb := h.nbytes
  rw [howes, add_zero] at hb
  constructor
  · intro ha
    have := ha.nbytes
    rw [hsum] at this
    omega
  · intro h0
    refine ⟨?_, ?_, hn, fun a ha => ?_⟩
    · rw [hsum]
      omega
    · rw [hp.length_eq]
      exact h.nseg
    · exact List.count_eq_one_of_mem h.nodup (hp.mem_iff.mp ha)

/-- The steps in any order; the label says how many bytes the step loses. -/
def System (nc np : Nat) : Lts (Sys nc np) (Op nc np × Int) where
  init s := s = .init nc np
  step s e s' := exec s e.1 = some s' ∧ e.2 = e.1.loses s

theorem Inv.init (nc np : Nat) : Inv (Sys.init nc np) 0 0 where
  chain _ _ := iff_of_false List.not_mem_nil fun h => nomatch h.1
  nodup := List.nodup_nil
  once _ := List.nodup_nil
  nseg := rfl
  nbytes := by
    show (0 : Int) + (∑ _p : Fin np, (0 : Int)) = 0 + 0
    rw [Finset.sum_const_zero]
  pos _ := Int.le_refl 0
  refs a := by
    show 0 = 0 + ((∑ _c : Fin nc, 0) + 0 + ∑ _p : Fin np, 0) + 0
    rw [Finset.sum_const_zero, Finset.sum_const_zero]
    rfl
  chan _ _ h := nomatch h
  work _ _ _ h := nomatch h
  alone _ _ _ _ h := nomatch h
  frd _ _ h := nomatch h

theorem Op.loses_nonneg (h : Inv s lost x) (op : Op nc np) : 0 ≤ op.loses s := by
  unfold Op.loses
  split
  · split
    · split
      · exact h.pos _
      · exact Int.le_refl 0
    · exact Int.le_refl 0
  · exact Int.le_refl 0

/-- What is lost along a run is what its steps lose. -/
theorem run_inv {es : List (Op nc np × Int)} {s : Sys nc np} (h : (System nc np).Run es s) :
    ∃ lost, Inv s lost 0 ∧ 0 ≤ lost ∧ (lost = 0 ↔ ∀ e ∈ es, e.2 = 0) := by
  refine h.induct (I := fun es s => ∃ lost, Inv s lost 0 ∧ 0 ≤ lost ∧
    (lost = 0 ↔ ∀ e ∈ es, e.2 = 0)) ?_ ?_
  · rintro s rfl
    exact ⟨0, Inv.init nc np, Int.le_refl 0, iff_of_true rfl fun _ he => nomatch he⟩
  · rintro es s ⟨op, n⟩ s' ⟨lost, hi, h0, hl⟩ ⟨he, hn⟩
    have hn : n = op.loses s := hn
    subst hn
    have hpos := op.loses_nonneg hi
    refine ⟨lost + op.loses s, hi.step he, by omega, ?_⟩
    simp only [List.forall_mem_append, List.forall_mem_singleton, ← hl]
    omega

/-- When no process is in one of the functions, the accounts are right exactly when no copen has
cleared pages of another version. -/
theorem accounted_iff {es : List (Op nc np × Int)} {s : Sys nc np} (h : (System nc np).Run es s)
    (hr : s.Rest) : Accounted s.m ↔ ∀ e ∈ es, e.2 = 0 := by
  obtain ⟨lost, hi, -, hl⟩ := run_inv h
  rw [hi.accounted_lost hr, hl]

private def labelled (s : Sys nc np) (e : Op nc np × Int) : Option (Sys nc np) :=
  if e.2 = e.1.loses s then exec s e.1 else none

theorem labelled_step (s : Sys nc np) (e : Op nc np × Int) (s' : Sys nc np)
    (h : labelled s e = some s') : (System nc np).step s e s' := by
  unfold labelled at h
  split at h
  · rename_i he
    exact ⟨h, he⟩
  · cases h

private def reader : Fin 1 := ⟨0, Nat.one_pos⟩

private def file : Fin 2 := ⟨0, Nat.two_pos⟩

/-- A file is opened and its first page is read. -/
private def readpage : List (Op 2 1 × Int) :=
  [(.attach file ⟨5, 1, 0⟩ 0, 0), (.copen reader file 1, 0), (.ccheckvers reader, 0),
    (.mcread reader file, 0), (.page reader 0, 0), (.account reader, 0), (.done reader (-1), 0)]

theorem accounted_readpage : ∃ s : Sys 2 1, (System 2 1).Run readpage s ∧ Accounted s.m ∧
    s.m.nbytes = pgsz := by
  have he : (readpage.foldlM labelled (Sys.init 2 1)).map (fun s : Sys 2 1 =>
      (s.proc 0, s.m.nbytes)) = some (.idle, pgsz) := by decide
  obtain ⟨s, hs, h⟩ := Option.map_eq_some_iff.mp he
  obtain ⟨h1, h2⟩ := Prod.mk.inj h
  have hrun : (System 2 1).Run readpage s := Lts.Run.exec labelled_step (.init rfl) hs
  have hrest : s.Rest := fun p => by
    rw [Subsingleton.elim p 0]
    exact h1
  refine ⟨s, hrun, (accounted_iff hrun hrest).mpr ?_, h2⟩
  decide

/-- The file is opened again, with another version: its page is cleared, and stays counted. -/
theorem accounted_stale : ¬∀ s : Sys 2 1, (System 2 1).Reach s → s.Rest → Accounted s.m := by
  have he : ((readpage ++ ([(.attach 1 ⟨5, 2, 0⟩ 0, 0), (.copen 0 1 2, 0),
      (.ccheckvers 0, 16384)] : List (Op 2 1 × Int))).foldlM labelled (Sys.init 2 1)).map
        (fun s : Sys 2 1 => (s.proc 0, s.m.nbytes, s.m.hashed.map fun a => (s.m.seg a).nbytes)) =
      some (.idle, 16384, [0]) := by decide
  obtain ⟨s, hs, h⟩ := Option.map_eq_some_iff.mp he
  obtain ⟨h1, h2⟩ := Prod.mk.inj h
  obtain ⟨h2, h3⟩ := Prod.mk.inj h2
  have hrun : (System 2 1).Run _ s := Lts.Run.exec labelled_step (.init rfl) hs
  have hrest : s.Rest := fun p => by
    rw [Subsingleton.elim p 0]
    exact h1
  intro hall
  have := (hall s ⟨_, hrun⟩ hrest).nbytes
  rw [h2, h3] at this
  exact absurd this (by decide)

end NixMark.Cache
