import NixMark.Lib.Mutex
import NixMark.Rendez.Sleep

/-!
# Who knows that a process sleeps

The links `r->p` and `p->r` and the state `Wakeme` are written one by one, so a sleep goes through
the kinds below. Who writes holds both locks, and its place tells the kind (`Pc.tells`).

* `Agrees`: the links and the states are those of the kinds `m`; `Inv`: what the processes know.
* `Inv.linked`: who holds one of the locks, between two writes of its own, finds both links.
* `Inv.turn`, `Inv.write`: a statement that writes none of them, and one that does.
-/

namespace NixMark.Rendez

open Lib
open Function (update update_of_ne update_self)
open Runq (State)

variable {P R : Type}

/-! ## Places -/

/-- The `Rendez` whose lock the process has. -/
def Pc.heldr : Pc P R → Option R
  | .sleep _ .lockr | .sleep _ .asleep | .sleep _ .awake | .wakeup _ .lock => none
  | .sleep r _ | .wakeup r _ => some r
  | .postnote _ (.check r) | .postnote _ (.clrr r) | .postnote _ (.clrp r)
  | .postnote _ (.ready r) | .postnote _ (.unlock r) => some r
  | _ => none

/-- The process whose `rlock` the process `t` has. -/
def Pc.heldp (t : P) : Pc P R → Option P
  | .sleep _ .lockr | .sleep _ .lockp | .sleep _ .neverr | .sleep _ .unlockr
  | .sleep _ .asleep | .sleep _ .awake => none
  | .sleep _ _ => some t
  | .wakeup _ (.check p) | .wakeup _ (.clrp p) | .wakeup _ (.clrr p) | .wakeup _ (.ready p)
  | .wakeup _ (.unlockp p) => some p
  | .postnote _ .set | .postnote _ .lockp | .postnote _ .rendezvous => none
  | .postnote p _ => some p
  | _ => none

/-- The links of a process that goes to sleep or sleeps: `r->p` before it is committed, with
`Wakeme`, with `p->r`, and what is left of them while it is woken. -/
inductive Kind where
  | shown
  | half
  | linked
  | unshown
  | loose
deriving DecidableEq

/-- The `Rendez` with `r->p` that points to a process of the kind. -/
def rpOf : Option (Kind × R) → Option R
  | some (.shown, r) | some (.half, r) | some (.linked, r) => some r
  | _ => none

/-- The `p->r` of a process of the kind. -/
def prOf : Option (Kind × R) → Option R
  | some (.linked, r) | some (.unshown, r) => some r
  | _ => none

def wakemeOf : Option (Kind × R) → Bool
  | none | some (.shown, _) => false
  | _ => true

/-- Where in `sleep` a process is. -/
def Kind.place : Kind → Sleep → Bool
  | .shown, .test | .shown, .note | .shown, .nevermind | .shown, .commit => true
  | .half, .setr | .linked, .unlockp | .linked, .unlockr => true
  | .shown, _ => false
  | _, .asleep => true
  | _, _ => false

/-- A process with both locks knows the kind. -/
def Pc.tells (t : P) : Pc P R → Option (P × Kind × R)
  | .sleep r .test | .sleep r .note | .sleep r .nevermind | .sleep r .commit => some (t, .shown, r)
  | .sleep r .setr => some (t, .half, r)
  | .sleep r .unlockp => some (t, .linked, r)
  | .wakeup r (.clrp p) => some (p, .linked, r)
  | .wakeup r (.clrr p) => some (p, .unshown, r)
  | .wakeup r (.ready p) => some (p, .loose, r)
  | .postnote p (.clrr r) => some (p, .linked, r)
  | .postnote p (.clrp r) => some (p, .half, r)
  | .postnote p (.ready r) => some (p, .loose, r)
  | _ => none

/-- What `wakeup` read of `r->p` -/
def Pc.seesp : Pc P R → Option (P × R)
  | .wakeup r (.lockp p) | .wakeup r (.check p) => some (p, r)
  | _ => none

/-- What `postnote` read of `p->r` -/
def Pc.seesr : Pc P R → Option (P × R)
  | .postnote p (.canlock r) | .postnote p (.check r) => some (p, r)
  | _ => none

variable {s s' : Sys P R} {t u p q : P} {r : R} {k l : Pc P R} {kd : Kind}
  {m m' : P → Option (Kind × R)}

/-- Who tells has both locks. -/
theorem Pc.tells_held (h : k.tells t = some (q, kd, r)) : k.heldr = some r ∧ k.heldp t = some q := by
  unfold tells at h
  split at h <;> cases h <;> exact ⟨rfl, rfl⟩

theorem Pc.seesp_held (h : k.seesp = some (q, r)) : k.heldr = some r := by
  unfold seesp at h
  split at h <;> cases h <;> rfl

theorem Pc.seesr_held (h : k.seesr = some (q, r)) : k.heldp t = some q := by
  unfold seesr at h
  split at h <;> cases h <;> rfl

/-- The process is at a place of its kind. -/
def Pc.fits (k : Pc P R) (x : Kind × R) : Prop := ∃ j, k = .sleep x.2 j ∧ x.1.place j = true

/-- What a process knows of the kinds. -/
structure Pc.Knows (m : P → Option (Kind × R)) (t : P) (k : Pc P R) : Prop where
  tells : ∀ q x, k.tells t = some (q, x) → m q = some x
  seesp : ∀ q r, k.seesp = some (q, r) → rpOf (m q) = some r
  seesr : ∀ q r, k.seesr = some (q, r) → prOf (m q) = some r

namespace Pc.Knows

theorem silent (ht : l.tells t = none) (hp : l.seesp = none) (hr : l.seesr = none) :
    l.Knows m t where
  tells _ _ h := absurd (ht.symm.trans h) (Option.some_ne_none _).symm
  seesp _ _ h := absurd (hp.symm.trans h) (Option.some_ne_none _).symm
  seesr _ _ h := absurd (hr.symm.trans h) (Option.some_ne_none _).symm

theorem tell {x : Kind × R} (hm : m q = some x) (ht : l.tells t = some (q, x))
    (hp : l.seesp = none) (hr : l.seesr = none) : l.Knows m t where
  tells q' x' h := by
    rw [ht] at h
    cases h
    exact hm
  seesp _ _ h := absurd (hp.symm.trans h) (Option.some_ne_none _).symm
  seesr _ _ h := absurd (hr.symm.trans h) (Option.some_ne_none _).symm

end Pc.Knows

/-! ## The invariant -/

/-- The links and states of the kinds `m`. -/
structure Agrees (m : P → Option (Kind × R)) (s : Sys P R) : Prop where
  rp : ∀ r q, s.rp r = some q ↔ rpOf (m q) = some r
  pr : ∀ q, s.pr q = prOf (m q)
  wakeme : ∀ q, s.state q = .Wakeme ↔ wakemeOf (m q) = true

/-- The locks, and the sleepers. -/
structure Locks (s : Sys P R) : Prop where
  lock : Owned (fun _ => Pc.heldr) s.pc s.lock
  rlock : Owned Pc.heldp s.pc s.rlock
  single : ∀ r p q, (s.pc p).sleeps r → (s.pc q).sleeps r → p = q

structure Inv (m : P → Option (Kind × R)) (s : Sys P R) : Prop extends Locks s where
  agrees : Agrees m s
  knows : ∀ t, (s.pc t).Knows m t
  fits : ∀ q x, m q = some x → (s.pc q).fits x
  said : ∀ q x, m q = some x → x.1 ≠ .linked → ∃ t, (s.pc t).tells t = some (q, x)
  count : ∀ p, s.nsleep p = s.nready p + if s.state p = .Wakeme then 1 else 0
  panic : ∀ t, s.pc t ≠ .panic

/-- Who has one of the locks and does not tell a kind finds both links. -/
theorem Inv.linked (hi : Inv m s) (hm : m q = some (kd, r))
    (ht : (s.pc t).heldr = some r ∨ (s.pc t).heldp t = some q) (hs : (s.pc t).tells t = none) :
    kd = .linked := by
  by_contra hkd
  obtain ⟨u, hu⟩ := hi.said q _ hm hkd
  obtain ⟨hr, hp⟩ := Pc.tells_held hu
  have htu : t = u := ht.elim (fun h => hi.lock.unique h hr) (fun h => hi.rlock.unique h hp)
  rw [htu, hu] at hs
  cases hs

theorem Inv.linked_spec (hi : Inv m s) (hm : m q = some (.linked, r)) :
    s.rp r = some q ∧ s.pr q = some r ∧ s.state q = .Wakeme :=
  ⟨(hi.agrees.rp r q).mpr (by rw [hm]; rfl), (hi.agrees.pr q).trans (by rw [hm]; rfl),
    (hi.agrees.wakeme q).mpr (by rw [hm]; rfl)⟩

/-- A process that is not in `sleep` has no kind. -/
theorem Inv.awake (hi : Inv m s) (h : ∀ r j, s.pc t = .sleep r j → ∀ kd : Kind, kd.place j = false) :
    m t = none := by
  cases hm : m t with
  | none => rfl
  | some x =>
    obtain ⟨j, hj, hx⟩ := hi.fits t x hm
    rw [h _ _ hj] at hx
    cases hx

/-! ## A statement that writes neither the links nor the state -/

structure Same (s s' : Sys P R) : Prop where
  rp : s'.rp = s.rp
  pr : s'.pr = s.pr
  wakeme : ∀ q, s'.state q = .Wakeme ↔ s.state q = .Wakeme
  nsleep : s'.nsleep = s.nsleep
  nready : s'.nready = s.nready

theorem Same.agrees (h : Same s s') (ha : Agrees m s) : Agrees m s' where
  rp r q := by rw [h.rp]; exact ha.rp r q
  pr q := by rw [h.pr]; exact ha.pr q
  wakeme q := (h.wakeme q).trans (ha.wakeme q)

/-- The process `t` goes to `l`. -/
structure Turn (s : Sys P R) (t : P) (l : Pc P R) : Prop where
  sleeps : ∀ r, l.sleeps r → (s.pc t).sleeps r ∨ ∀ q, ¬ (s.pc q).sleeps r
  panic : l ≠ .panic

theorem Agrees.congr (ha : Agrees m s) (hp : s'.rp = s.rp) (hr : s'.pr = s.pr) (hs : s'.state = s.state) :
    Agrees m s' where
  rp := by rw [hp]; exact ha.rp
  pr := by rw [hr]; exact ha.pr
  wakeme := by rw [hs]; exact ha.wakeme

variable [DecidableEq P]

theorem Turn.single (ht : Turn s t l) (hl : Locks s) (r : R) (p q : P)
    (hp : (update s.pc t l p).sleeps r) (hq : (update s.pc t l q).sleeps r) :
    p = q := by
  have h : ∀ u v, u ≠ t → (s.pc u).sleeps r → (update s.pc t l v).sleeps r → u = v := by
    intro u v hu hp hv
    by_cases hvt : v = t
    · rw [hvt, update_self] at hv
      obtain hv | hv := ht.sleeps r hv
      · rw [hvt]
        exact hl.single r u t hp hv
      · exact absurd hp (hv u)
    · rw [update_of_ne hvt] at hv
      exact hl.single r u v hp hv
  by_cases hpt : p = t
  · by_cases hqt : q = t
    · rw [hpt, hqt]
    · rw [update_of_ne hqt] at hq
      exact (h q p hqt hq hp).symm
  · rw [update_of_ne hpt] at hp
    exact h p q hpt hp hq

theorem Turn.no_panic (ht : Turn s t l) (h : ∀ u, s.pc u ≠ .panic) (u : P) :
    update s.pc t l u ≠ .panic :=
  (Function.forall_update_iff s.pc fun _ k => k ≠ .panic).mpr ⟨ht.panic, fun u _ => h u⟩ u

theorem Inv.turn (hi : Inv m s) (hs : Same s s') (hpc : s'.pc = update s.pc t l)
    (hlock : Owned (fun _ => Pc.heldr) s'.pc s'.lock) (hrlock : Owned Pc.heldp s'.pc s'.rlock)
    (hk : l.Knows m t) (hf : ∀ x, m t = some x → l.fits x)
    (hx : ∀ q x, (s.pc t).tells t = some (q, x) → x.1 ≠ .linked → l.tells t = some (q, x))
    (ht : Turn s t l) : Inv m s' where
  lock := hlock
  rlock := hrlock
  single := by
    rw [hpc]
    exact ht.single hi.toLocks
  agrees := hs.agrees hi.agrees
  knows := by
    rw [hpc]
    exact (Function.forall_update_iff s.pc fun u k => k.Knows m u).mpr ⟨hk, fun u _ => hi.knows u⟩
  fits := by
    rw [hpc]
    exact (Function.forall_update_iff s.pc fun u k => ∀ x, m u = some x → k.fits x).mpr
      ⟨hf, fun u _ => hi.fits u⟩
  said q x hm hl := by
    obtain ⟨u, hu⟩ := hi.said q x hm hl
    refine ⟨u, ?_⟩
    rw [hpc]
    by_cases hut : u = t
    · rw [hut] at hu ⊢
      rw [update_self]
      exact hx q x hu hl
    · rwa [update_of_ne hut]
  count p := by
    rw [hs.nsleep, hs.nready, hi.count p]
    simp only [hs.wakeme p]
  panic := by
    rw [hpc]
    exact ht.no_panic hi.panic

/-! ## A statement that writes one of them -/

namespace Agrees

variable {x y : Option (Kind × R)}

theorem update_of {α : Type} (f : Option (Kind × R) → α) (hx : f x = f (m q)) (p : P) :
    f (update m q x p) = f (m p) := by
  by_cases hpq : p = q
  · rw [hpq, update_self, hx]
  · rw [update_of_ne hpq]

theorem setstate {st : State} (ha : Agrees m s) (hm : m q = y) (hp : rpOf x = rpOf y)
    (hr : prOf x = prOf y) (hs : st = .Wakeme ↔ wakemeOf x = true) :
    Agrees (update m q x) (s.setstate q st) where
  rp r p := by
    rw [update_of rpOf (hm ▸ hp)]
    exact ha.rp r p
  pr p := by
    rw [update_of prOf (hm ▸ hr)]
    exact ha.pr p
  wakeme p := by
    change update s.state q st p = .Wakeme ↔ _
    by_cases hpq : p = q
    · rw [hpq, update_self, update_self]
      exact hs
    · rw [update_of_ne hpq, update_of_ne hpq]
      exact ha.wakeme p

theorem setr (ha : Agrees m s) (hm : m q = y) (hp : rpOf x = rpOf y)
    (hs : wakemeOf x = wakemeOf y) : Agrees (update m q x) (s.setr q (prOf x)) where
  rp r p := by
    rw [update_of rpOf (hm ▸ hp)]
    exact ha.rp r p
  pr p := by
    change update s.pr q (prOf x) p = _
    by_cases hpq : p = q
    · rw [hpq, update_self, update_self]
    · rw [update_of_ne hpq, update_of_ne hpq]
      exact ha.pr p
  wakeme p := by
    rw [update_of wakemeOf (hm ▸ hs)]
    exact ha.wakeme p

variable [DecidableEq R]

/-- `r->p = q`, where it was nil. -/
theorem setp (ha : Agrees m s) (h : s.rp r = none) (hm : m q = y) (hq : rpOf y = none)
    (hx : rpOf x = some r) (hr : prOf x = prOf y) (hs : wakemeOf x = wakemeOf y) :
    Agrees (update m q x) (s.setp r (some q)) where
  rp r' p := by
    change update s.rp r (some q) r' = some p ↔ _
    by_cases hrr : r' = r
    · rw [hrr, update_self]
      by_cases hpq : p = q
      · rw [hpq, update_self]
        exact iff_of_true rfl hx
      · rw [update_of_ne hpq, ← ha.rp r p, h]
        exact iff_of_false (fun h => hpq (Option.some.inj h).symm) (Option.some_ne_none p).symm
    · rw [update_of_ne hrr, ha.rp r' p]
      by_cases hpq : p = q
      · rw [hpq, update_self, hm, hq, hx]
        exact iff_of_false (Option.some_ne_none r').symm fun h => hrr (Option.some.inj h).symm
      · rw [update_of_ne hpq]
  pr p := by
    rw [update_of prOf (hm ▸ hr)]
    exact ha.pr p
  wakeme p := by
    rw [update_of wakemeOf (hm ▸ hs)]
    exact ha.wakeme p

/-- `r->p = nil`, where it was `q`. -/
theorem clrp (ha : Agrees m s) (hm : m q = y) (hq : rpOf y = some r) (hx : rpOf x = none)
    (hr : prOf x = prOf y) (hs : wakemeOf x = wakemeOf y) :
    Agrees (update m q x) (s.setp r none) where
  rp r' p := by
    change update s.rp r none r' = some p ↔ _
    have hrq := (ha.rp r q).mpr (hm ▸ hq)
    by_cases hpq : p = q
    · rw [hpq, update_self, hx]
      refine iff_of_false (fun h => ?_) (Option.some_ne_none r').symm
      by_cases hrr : r' = r
      · rw [hrr, update_self] at h
        exact absurd h (Option.some_ne_none q).symm
      · rw [update_of_ne hrr, ha.rp r' q, hm, hq] at h
        exact hrr (Option.some.inj h).symm
    · rw [update_of_ne hpq, ← ha.rp r' p]
      by_cases hrr : r' = r
      · rw [hrr, update_self, hrq]
        exact iff_of_false (Option.some_ne_none p).symm fun h => hpq (Option.some.inj h).symm
      · rw [update_of_ne hrr]
  pr p := by
    rw [update_of prOf (hm ▸ hr)]
    exact ha.pr p
  wakeme p := by
    rw [update_of wakemeOf (hm ▸ hs)]
    exact ha.wakeme p

end Agrees

/-- What the others know does not change. -/
theorem Pc.Knows.other {x : Option (Kind × R)} (h : k.Knows m u) (hr : k.heldr ≠ some r)
    (hp : k.heldp u ≠ some q) (hm : ∀ r', rpOf (m q) = some r' → r' = r) :
    k.Knows (update m q x) u where
  tells p y hy := by
    have hpq : p ≠ q := by
      rintro rfl
      exact hp (tells_held hy).2
    rw [update_of_ne hpq]
    exact h.tells p y hy
  seesp p r' hr' := by
    have hpq : p ≠ q := by
      rintro rfl
      exact hr (hm r' (h.seesp p r' hr') ▸ seesp_held hr')
    rw [update_of_ne hpq]
    exact h.seesp p r' hr'
  seesr p r' hr' := by
    have hpq : p ≠ q := by
      rintro rfl
      exact hp (seesr_held hr')
    rw [update_of_ne hpq]
    exact h.seesr p r' hr'

/-- The process `t`, with both locks, changes the kind of `q`. -/
theorem Inv.write {x : Option (Kind × R)} (hi : Inv m s)
    (ha : Agrees (update m q x) s') (hpc : s'.pc = update s.pc t l)
    (hlock : s'.lock = s.lock) (hrlock : s'.rlock = s.rlock)
    (hr : (s.pc t).heldr = some r ∧ l.heldr = some r)
    (hp : (s.pc t).heldp t = some q ∧ l.heldp t = some q)
    (hm : ∀ r', rpOf (m q) = some r' → r' = r)
    (hk : l.Knows (update m q x) t)
    (hf : ∀ p y, update m q x p = some y → (update s.pc t l p).fits y)
    (hx : ∀ y, x = some y → y.1 ≠ .linked → l.tells t = some (q, y)) (ht : Turn s t l)
    (hc : ∀ p, s'.nsleep p = s'.nready p + if s'.state p = .Wakeme then 1 else 0) :
    Inv (update m q x) s' where
  lock := by
    rw [hlock, hpc]
    exact hi.lock.stay (hr.2.trans hr.1.symm)
  rlock := by
    rw [hrlock, hpc]
    exact hi.rlock.stay (hp.2.trans hp.1.symm)
  single := by
    rw [hpc]
    exact ht.single hi.toLocks
  agrees := ha
  knows := by
    rw [hpc]
    refine (Function.forall_update_iff s.pc fun u k => k.Knows _ u).mpr ⟨hk, fun u hu => ?_⟩
    exact (hi.knows u).other (fun h => hu (hi.lock.unique h hr.1))
      (fun h => hu (hi.rlock.unique h hp.1)) hm
  fits := by
    rw [hpc]
    exact hf
  said p y hy hl := by
    rw [hpc]
    by_cases hpq : p = q
    · rw [hpq, update_self] at hy
      refine ⟨t, ?_⟩
      rw [hpq, update_self]
      exact hx y hy hl
    · rw [update_of_ne hpq] at hy
      obtain ⟨u, hu⟩ := hi.said p y hy hl
      refine ⟨u, ?_⟩
      by_cases hut : u = t
      · rw [hut] at hu
        exact absurd (Option.some.inj ((Pc.tells_held hu).2.symm.trans hp.1)) hpq
      · rwa [update_of_ne hut]
  count := hc
  panic := by
    rw [hpc]
    exact ht.no_panic hi.panic

end NixMark.Rendez
