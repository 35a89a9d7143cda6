import NixMark.Wait.Records

/-!
# Wait records reach the right parent

* `Good`: no process forked with `RFNOWAIT` comes to the test of its parent when the parent's `Proc`
  has the pid 0.
* `Inv`: pids, queues, children and records together; one lemma for each statement, `Inv.move` for
  all.
* `wait_records`, `wait_astray`.
-/

namespace NixMark.Wait

open Lib

variable {P : Type} [Fintype P] [DecidableEq P] {s s' : Sys P} {p q : P}

/-- The process makes no test of a parent's `Proc` whose pid is 0 with a `parentpid` of 0. -/
def Good (s : Sys P) (e : P × Act P) : Prop :=
  ∀ freemem x, (s.proc e.1).pc = .exit freemem → (s.proc e.1).parent = some x →
    (s.proc e.1).parentpid = 0 → (s.proc x).pid ≠ 0

structure Inv (s : Sys P) : Prop where
  pids : Pids s
  fine : ∀ q, (s.proc q).Fine
  kin : Kin s
  kept : Kept s

omit [Fintype P] [DecidableEq P] in
theorem Same.refl (x : Proc P) : Same x x :=
  ⟨.inl rfl, rfl, fun _ => ⟨rfl, rfl, rfl, rfl, rfl⟩, fun hk => ⟨hk, rfl⟩, fun _ hr => hr⟩

/-- A process that changes keeps its kin and its records. -/
structure Turn (s : Sys P) (x y : Proc P) : Prop where
  fine : y.Fine
  same : Same x y
  has : ∀ r, y.has r = x.has r
  unlinked : y.pc.live = true ∨ y.pc = .made → s.linked y.pid = 0

variable {y : Proc P}

omit [Fintype P] in
theorem one_change {C : P → Proc P → Prop} (hp : C p y) (hs : ∀ q, C q (s.proc q)) (q : P) :
    C q (if q = p then y else s.proc q) := by
  split
  · rename_i hqp
    exact hqp ▸ hp
  · exact hs q

variable {x : P}

omit [Fintype P] in
theorem two_change {C : P → Proc P → Prop} {z : Proc P} (hp : C p y) (hx : C x z)
    (hs : ∀ q, C q (s.proc q)) (q : P) :
    C q (if q = p then y else if q = x then z else s.proc q) := by
  split
  · rename_i hqp
    exact hqp ▸ hp
  · exact one_change hx hs q

omit [DecidableEq P] in
theorem Inv.turn_self (h : Inv s) (q : P) : Turn s (s.proc q) (s.proc q) :=
  ⟨h.fine q, .refl _, fun _ => rfl, h.kept.unlinked q⟩

variable {k : Pc P}

omit [DecidableEq P] in
theorem Inv.turn_goto (h : Inv s) (hfine : ({ s.proc p with pc := k } : Proc P).Fine)
    (hlive : k.live = (s.proc p).pc.live) (halive : k.alive = true → (s.proc p).pc.alive = true)
    (hkeeps : k.keeps = (s.proc p).pc.keeps) (hholds : k.holds = (s.proc p).pc.holds)
    (hmade : k ≠ .made) : Turn s (s.proc p) { s.proc p with pc := k } where
  fine := hfine
  same := ⟨.inl rfl, hlive, fun _ => ⟨rfl, rfl, rfl, rfl, rfl⟩, fun hk => ⟨halive hk, rfl⟩,
    fun _ hr => hr.imp_right hholds.symm.trans⟩
  has r := by
    unfold Proc.has
    rw [hkeeps, hholds]
  unlinked hq := h.kept.unlinked p (.inl (hlive ▸ hq.resolve_right hmade))

omit [Fintype P] [DecidableEq P] in
/-- A `Proc` that is taken from the free list. -/
theorem turn_fresh (hc : (s.proc q).pc = .free) : Turn s (s.proc q)
    { s.proc q with nchild := 0, nwait := 0, waitq := [], parent := none, pc := .fresh } where
  fine := ⟨fun _ => ⟨rfl, rfl, rfl⟩, fun _ => rfl, by simp, by simp, by simp⟩
  same := ⟨.inl rfl, by rw [hc]; rfl, fun hh => (by cases hh), fun hh => (by cases hh),
    fun r hr => hr.elim (fun hh => by cases hh) fun hh => by cases hh⟩
  has r := by
    unfold Proc.has
    rw [hc]
    rfl
  unlinked hq := by rcases hq with hq | hq <;> cases hq

omit [DecidableEq P] in
theorem Inv.turn (h : Inv s) (hpids : Pids s') (halloc : s'.pidalloc = s.pidalloc)
    (horigin : s'.origin = s.origin) (hlinked : s'.linked = s.linked)
    (hreturned : s'.returned = s.returned) (hfreed : s'.freed = s.freed)
    (ht : ∀ q, Turn s (s.proc q) (s'.proc q)) : Inv s' :=
  ⟨hpids, fun q => (ht q).fine, h.kin.keep halloc horigin fun q => (ht q).same,
    h.kept.keep halloc.ge hlinked hreturned hfreed (fun q => (ht q).has) fun q => (ht q).unlinked⟩

/-- Only `p` is changed, and it stays the same process. -/
theorem Inv.mod (h : Inv s) {x : Proc P} (hproc : ∀ q, s'.proc q = if q = p then x else s.proc q)
    (halloc : s'.pidalloc = s.pidalloc) (horigin : s'.origin = s.origin)
    (hpid : x.pid = (s.proc p).pid) (hover : (s.proc p).pc.Over x.pc) (hfine : x.Fine)
    (hsame : Same (s.proc p) x) (hkept : Kept s') : Inv s' where
  pids := by
    refine h.pids.keep halloc (fun q => ?_) fun q => ?_ <;> rw [hproc]
    · exact one_change (C := fun q y => y.pid = (s.proc q).pid) hpid (fun _ => rfl) q
    · exact one_change (C := fun q y => y.pc = (s.proc q).pc ∨ (s.proc q).pc.Over y.pc)
        (.inr hover) (fun _ => .inl rfl) q
  fine q := by
    rw [hproc]
    exact one_change (C := fun _ y => y.Fine) hfine h.fine q
  kin := by
    refine h.kin.keep halloc horigin fun q => ?_
    rw [hproc]
    exact one_change (C := fun q y => Same (s.proc q) y) hsame (fun _ => .refl _) q
  kept := hkept

theorem Inv.unlinked_mod (h : Inv s) {x : Proc P}
    (hproc : ∀ q, s'.proc q = if q = p then x else s.proc q) (hlinked : s'.linked = s.linked)
    (hx : x.pc.live = true ∨ x.pc = .made → s.linked x.pid = 0) (q : P) :
    (s'.proc q).pc.live = true ∨ (s'.proc q).pc = .made → s'.linked (s'.proc q).pid = 0 := by
  rw [hproc, hlinked]
  exact one_change (C := fun _ y => y.pc.live = true ∨ y.pc = .made → s.linked y.pid = 0) hx
    h.kept.unlinked q

/-- Who has a record is as before where only `p` changes and keeps its records. -/
theorem Inv.kept_mod (h : Inv s) {x : Proc P}
    (hproc : ∀ q, s'.proc q = if q = p then x else s.proc q)
    (halloc : s'.pidalloc = s.pidalloc) (hlinked : s'.linked = s.linked)
    (hreturned : s'.returned = s.returned) (hfreed : s'.freed = s.freed)
    (hhas : ∀ r, x.has r = (s.proc p).has r)
    (hx : x.pc.live = true ∨ x.pc = .made → s.linked x.pid = 0) : Kept s' := by
  refine h.kept.keep halloc.ge hlinked hreturned hfreed (fun q r => ?_)
    (hlinked ▸ h.unlinked_mod hproc hlinked hx)
  rw [hproc]
  exact one_change (C := fun q y => y.has r = (s.proc q).has r) (hhas r) (fun _ => rfl) q

theorem Inv.plain (h : Inv s) (hk : Plain (s.proc p) k) : Inv (s.goto p k) := by
  obtain ⟨hnamed, hlive, halive, hkeeps, hholds, hfresh, hmade, hmaking, hknew⟩ := hk.moves
  have ht := h.turn_goto ((h.fine p).plain hk) hlive halive hkeeps hholds hknew
  exact h.mod (fun q => Sys.goto_proc) rfl rfl rfl ⟨hnamed, hfresh, hmade, hmaking⟩ ht.fine ht.same
    (h.kept_mod (fun q => Sys.goto_proc) rfl rfl rfl rfl ht.has ht.unlinked)

variable {child : P} {nowait : Bool}

omit [DecidableEq P] in
/-- `p` goes on between the steps of its fork. -/
theorem Inv.turn_fork (h : Inv s)
    (hp : (s.proc p).pc = .user ∨ (s.proc p).pc = .newpid child nowait)
    (hk : k = .newpid child nowait ∨ k = .born child nowait) :
    Turn s (s.proc p) { s.proc p with pc := k } := by
  refine h.turn_goto (.of ?_ ?_ ?_ ?_ fun _ => (h.fine p).nwait ?_) ?_ ?_ ?_ ?_ ?_ <;>
    rcases hp with hp | hp <;> rcases hk with rfl | rfl <;>
    simp [hp, Pc.live, Pc.alive, Pc.keeps, Pc.holds, Pc.named]

theorem Inv.rfork (h : Inv s) (hp : (s.proc p).pc = .user) (hc : (s.proc child).pc = .free) :
    Inv ((s.mod child fun x =>
      { x with nchild := 0, nwait := 0, waitq := [], parent := none, pc := .fresh }).goto p
        (.newpid child nowait)) := by
  have hcp : child ≠ p := by
    rintro rfl
    rw [hp] at hc
    cases hc
  have hproc : ∀ q, ((s.mod child fun x =>
      { x with nchild := 0, nwait := 0, waitq := [], parent := none, pc := .fresh }).goto p
        (.newpid child nowait)).proc q =
      if q = p then { s.proc p with pc := .newpid child nowait }
      else if q = child then
        { s.proc child with nchild := 0, nwait := 0, waitq := [], parent := none, pc := .fresh }
      else s.proc q := by
    intro q
    rw [Sys.goto_proc, Sys.mod_proc, Sys.mod_proc, if_neg (Ne.symm hcp)]
  refine h.turn (h.pids.rfork hp hc nowait rfl (fun q => ?_) fun q => ?_) rfl rfl rfl rfl rfl
    fun q => ?_ <;> rw [hproc]
  · refine two_change (C := fun q y => y.pid = (s.proc q).pid) ?_ ?_ (fun _ => rfl) q <;> rfl
  · split
    · rfl
    · split <;> rfl
  · exact two_change (C := fun q y => Turn s (s.proc q) y) (h.turn_fork (.inl hp) (.inl rfl))
      (turn_fresh hc) h.turn_self q

theorem Inv.newpid (h : Inv s) (hp : (s.proc p).pc = .newpid child nowait) :
    Inv ((s.newpid child).goto p (.born child nowait)) := by
  have hc := h.pids.fresh p child nowait hp
  have hcp : child ≠ p := by
    rintro rfl
    rw [hp] at hc
    cases hc
  have hproc : ∀ q, ((s.newpid child).goto p (.born child nowait)).proc q =
      if q = p then { s.proc p with pc := .born child nowait }
      else if q = child then { s.proc child with pid := s.pidalloc + 1, pc := .made }
      else s.proc q := by
    intro q
    rw [Sys.goto_proc, Sys.newpid_proc, Sys.newpid_proc, if_neg (Ne.symm hcp)]
  have hchild : ((s.newpid child).goto p (.born child nowait)).proc child =
      { s.proc child with pid := s.pidalloc + 1, pc := .made } := by
    rw [hproc, if_neg hcp, if_pos rfl]
  have hturn : ∀ q ≠ child,
      Turn s (s.proc q) (((s.newpid child).goto p (.born child nowait)).proc q) := by
    intro q hqc
    rw [hproc, if_neg hqc]
    exact one_change (C := fun q y => Turn s (s.proc q) y) (h.turn_fork (.inr hp) (.inr rfl))
      h.turn_self q
  refine ⟨h.pids.newpid hp rfl (fun q => ?_) fun q => ?_, fun q => ?_,
    h.kin.newpid hc (h.fine child) rfl rfl hchild fun q hqc => (hturn q hqc).same,
    h.kept.keep (Nat.le_succ _) rfl rfl rfl (fun q r => ?_) fun q hq => ?_⟩
  · rw [hproc]
    split
    · rename_i hqp
      rw [hqp, if_neg (Ne.symm hcp)]
    · split <;> rfl
  · rw [hproc]
    split
    · rfl
    · split <;> rfl
  · by_cases hqc : q = child
    · rw [hqc, hchild]
      obtain ⟨h1, h2, h3⟩ := (h.fine child).new (.inl hc)
      refine ⟨fun _ => ⟨h1, h2, h3⟩, fun _ => ?_, by simp, by simp, by simp⟩
      change (s.proc child).nwait = ((s.proc child).waitq.length : Int)
      rw [h2, h3]
      rfl
    · exact (hturn q hqc).fine
  · by_cases hqc : q = child
    · rw [hqc, hchild]
      unfold Proc.has
      rw [hc]
      rfl
    · exact (hturn q hqc).has r
  · by_cases hqc : q = child
    · rw [hqc, hchild]
      exact h.kept.unborn _ (Nat.lt_succ_self _)
    · exact (hturn q hqc).unlinked hq

theorem Inv.born (h : Inv s) (hp : (s.proc p).pc = .born child nowait) :
    Inv ((s.birth p child nowait).goto p .user) := by
  have hc := h.pids.made p child nowait hp
  have hcp : child ≠ p := by
    rintro rfl
    rw [hp] at hc
    cases hc
  have hchild : ((s.birth p child nowait).goto p .user).proc child =
      (s.proc child).born p (s.proc p).pid nowait := by
    rw [Sys.goto_proc, if_neg hcp, Sys.birth_proc hcp, if_pos rfl]
  have hup : ((s.birth p child nowait).goto p .user).proc p = { s.proc p with
      nchild := if nowait then (s.proc p).nchild else (s.proc p).nchild + 1, pc := .user } := by
    rw [Sys.goto_proc, if_pos rfl, Sys.birth_proc hcp, if_neg (Ne.symm hcp), if_pos rfl]
  have hsame : ∀ q, q ≠ p → q ≠ child →
      ((s.birth p child nowait).goto p .user).proc q = s.proc q := by
    intro q hqp hqc
    rw [Sys.goto_proc, if_neg hqp, Sys.birth_proc hcp, if_neg hqc, if_neg hqp]
  have horigin : ((s.birth p child nowait).goto p .user).origin =
      Function.update s.origin (s.proc child).pid ((s.proc p).pid, nowait) := by
    cases nowait <;> rfl
  have halloc : ((s.birth p child nowait).goto p .user).pidalloc = s.pidalloc := by
    cases nowait <;> rfl
  have hlinked : ((s.birth p child nowait).goto p .user).linked = s.linked := by
    cases nowait <;> rfl
  have hreturned : ((s.birth p child nowait).goto p .user).returned = s.returned := by
    cases nowait <;> rfl
  have hfreed : ((s.birth p child nowait).goto p .user).freed = s.freed := by
    cases nowait <;> rfl
  generalize ((s.birth p child nowait).goto p .user) = t at *
  have hcase : ∀ q, q = p ∨ q = child ∨ q ≠ p ∧ q ≠ child := by
    intro q
    by_cases hqp : q = p
    · exact .inl hqp
    · by_cases hqc : q = child
      · exact .inr (.inl hqc)
      · exact .inr (.inr ⟨hqp, hqc⟩)
  have hpid : ∀ q, (t.proc q).pid = (s.proc q).pid := by
    intro q
    rcases hcase q with rfl | rfl | ⟨hqp, hqc⟩
    · rw [hup]
    · rw [hchild, Proc.born_pid]
    · rw [hsame q hqp hqc]
  constructor
  · refine h.pids.born hp halloc hpid fun q => ?_
    rcases hcase q with hq | hq | ⟨hqp, hqc⟩
    · refine Eq.trans ?_ (if_pos (.inl hq)).symm
      rw [hq, hup]
    · refine Eq.trans ?_ (if_pos (.inr hq)).symm
      rw [hq, hchild, Proc.born_pc]
    · rw [hsame q hqp hqc, if_neg fun hh => hh.elim hqp hqc]
  · intro q
    rcases hcase q with rfl | rfl | ⟨hqp, hqc⟩
    · rw [hup]
      exact .of ⟨by simp, by simp⟩ (by simp) (by simp) (by simp)
        fun _ => (h.fine q).nwait (by rw [hp]; rfl)
    · rw [hchild]
      exact .of ⟨by simp, by simp⟩ (by simp) (by simp) (by simp)
        fun _ => (h.fine q).nwait (by rw [hc]; rfl)
    · rw [hsame q hqp hqc]
      exact h.fine q
  · exact h.kin.born h.pids hp halloc horigin (fun q hq => h.kept.none h.pids hc hq) hchild hup hsame
  · refine h.kept.keep halloc.ge hlinked hreturned hfreed (fun q r => ?_) fun q hq => ?_
    · rcases hcase q with rfl | rfl | ⟨hqp, hqc⟩
      · rw [hup]
        unfold Proc.has
        rw [hp]
        rfl
      · rw [hchild]
        unfold Proc.has
        rw [hc]
        rfl
      · rw [hsame q hqp hqc]
    · rw [hpid]
      rcases hcase q with rfl | rfl | ⟨hqp, hqc⟩
      · exact h.kept.unlinked q (.inl (by rw [hp]; rfl))
      · exact h.kept.unlinked q (.inr hc)
      · rw [hsame q hqp hqc] at hq
        exact h.kept.unlinked q hq

/-- `up->waitq = wq->next` -/
theorem Inv.take (h : Inv s) {pid : Nat} {l : List Nat} (hp : (s.proc p).pc = .take)
    (hl : (s.proc p).waitq = pid :: l) :
    Inv (s.mod p fun x => { x with waitq := l, nwait := x.nwait - 1, pc := .got pid }) := by
  refine h.mod (fun q => Sys.mod_proc) rfl rfl rfl ?_ ?_ ?_
    (h.kept_mod (fun q => Sys.mod_proc) rfl rfl rfl rfl (fun r => ?_) fun _ => ?_)
  · rw [hp]
    exact ⟨rfl, by simp, by simp, rfl⟩
  · refine .of ⟨by simp, by simp⟩ (by simp) (by simp) (by simp) fun _ => ?_
    have hn := (h.fine p).nwait (by rw [hp]; rfl)
    rw [hl, List.length_cons, Nat.cast_succ] at hn
    change (s.proc p).nwait - 1 = (l.length : Int)
    omega
  · refine ⟨.inl rfl, by rw [hp]; rfl, fun _ => ⟨rfl, rfl, rfl, rfl, rfl⟩,
      fun _ => ⟨by rw [hp]; rfl, rfl⟩, fun r hr => .inl ?_⟩
    rw [hl]
    rcases hr with hr | hr
    · exact List.mem_cons_of_mem _ hr
    · cases hr
      exact List.mem_cons_self
  · unfold Proc.has
    rw [hp, hl, List.count_cons]
    simp [Pc.keeps, Pc.holds]
  · exact h.kept.unlinked p (.inl (by rw [hp]; rfl))

/-- `pwait` returns. -/
theorem Inv.got (h : Inv s) {pid : Nat} (hp : (s.proc p).pc = .got pid) :
    Inv { s.goto p .user with returned := Function.update s.returned pid (s.returned pid + 1) } := by
  refine h.mod (fun q => Sys.goto_proc) rfl rfl rfl ?_ ?_ ?_ ⟨fun r => ?_, h.kept.once, h.kept.unborn,
    h.unlinked_mod (fun q => Sys.goto_proc) rfl fun hq => ?_⟩
  · rw [hp]
    exact ⟨rfl, by simp, by simp, rfl⟩
  · exact .of ⟨by simp, by simp⟩ (by simp) (by simp) (by simp)
      fun _ => (h.fine p).nwait (by rw [hp]; rfl)
  · exact ⟨.inl rfl, by rw [hp]; rfl, fun _ => ⟨rfl, rfl, rfl, rfl, rfl⟩,
      fun _ => ⟨by rw [hp]; rfl, rfl⟩, fun r hr => hr.elim .inl fun hh => by cases hh⟩
  · have hsum := h.kept.sum r
    have hoff := records_off s (s.goto p .user) p r fun q hq => by
      rw [Sys.goto_proc, if_neg hq]
    have hnew : ((s.goto p .user).proc p).has r = (s.proc p).waitq.count r := by
      rw [Sys.goto_proc, if_pos rfl]
      rfl
    have hold : (s.proc p).has r = (s.proc p).waitq.count r + if pid = r then 1 else 0 := by
      unfold Proc.has
      rw [hp]
      simp [Pc.keeps, Pc.holds]
    rw [hnew, hold] at hoff
    change s.linked r = records (s.goto p .user) r +
      Function.update s.returned pid (s.returned pid + 1) r + s.freed r
    rw [Function.update_apply]
    by_cases hr : r = pid
    · rw [if_pos hr.symm] at hoff
      rw [if_pos hr, ← hr]
      omega
    · rw [if_neg (Ne.symm hr)] at hoff
      rw [if_neg hr]
      omega
  · exact h.kept.unlinked p (.inl (by rw [hp]; rfl))

/-- `for(f = up->waitq; f; f = next) free(f)` -/
theorem Inv.freeing (h : Inv s) (hp : (s.proc p).pc = .freeing) :
    Inv { s.goto p .moribund with
      freed := fun pid => s.freed pid + (s.proc p).waitq.count pid } := by
  refine h.mod (fun q => Sys.goto_proc) rfl rfl rfl ?_ ?_ ?_ ⟨fun r => ?_, h.kept.once, h.kept.unborn,
    h.unlinked_mod (fun q => Sys.goto_proc) rfl fun hq => ?_⟩
  · rw [hp]
    exact ⟨rfl, by simp, by simp, rfl⟩
  · exact .of ⟨by simp, by simp⟩ (by simp) (by simp) (by simp) fun hh => by cases hh
  · exact ⟨.inl rfl, by rw [hp]; rfl, fun _ => ⟨rfl, rfl, rfl, rfl, rfl⟩,
      fun hh => (by cases hh), fun r hr => hr.elim .inl fun hh => by cases hh⟩
  · have hsum := h.kept.sum r
    have hoff := records_off s (s.goto p .moribund) p r fun q hq => by
      rw [Sys.goto_proc, if_neg hq]
    have hnew : ((s.goto p .moribund).proc p).has r = 0 := by
      rw [Sys.goto_proc, if_pos rfl]
      rfl
    have hold : (s.proc p).has r = (s.proc p).waitq.count r := by
      unfold Proc.has
      rw [hp]
      rfl
    rw [hnew, hold] at hoff
    change s.linked r = records (s.goto p .moribund) r + s.returned r +
      (s.freed r + (s.proc p).waitq.count r)
    omega
  · rcases hq with hq | hq <;> cases hq

/-- `up->pid = 0` -/
theorem Inv.unpid (h : Inv s) {broke : Bool} (hp : (s.proc p).pc = .unpid broke) :
    Inv (s.mod p fun x => { x with pid := 0, pc := .freeing }) where
  pids := by
    refine h.pids.unpid hp rfl (fun q => ?_) fun q => ?_
    · rw [Sys.mod_proc]
      split <;> rfl
    · rw [Sys.mod_proc]
      split <;> rfl
  fine q := by
    rw [Sys.mod_proc]
    exact one_change (C := fun _ y => y.Fine)
      (.of ⟨by simp, by simp⟩ (by simp) (by simp) (by simp) fun hh => by cases hh) h.fine q
  kin := by
    refine h.kin.keep rfl rfl fun q => ?_
    rw [Sys.mod_proc]
    refine one_change (C := fun q y => Same (s.proc q) y) ?_ (fun _ => .refl _) q
    exact ⟨.inr ⟨rfl, rfl⟩, by rw [hp]; rfl, fun hh => (by cases hh), fun hh => (by cases hh),
      fun r hr => hr.elim .inl fun hh => by cases hh⟩
  kept := by
    refine h.kept_mod (fun q => Sys.mod_proc) rfl rfl rfl rfl (fun r => ?_) fun hq => ?_
    · unfold Proc.has
      rw [hp]
      rfl
    · rcases hq with hq | hq <;> cases hq

variable {freemem : Bool}

/-- `p` is past its parent, whose `Proc` is now `y`. -/
theorem Inv.past (h : Inv s) (hp : (s.proc p).pc = .exit freemem)
    (hproc : ∀ q, s'.proc q = if q = p then { s.proc p with pc := .left freemem }
      else if q = x then y else s.proc q)
    (halloc : s'.pidalloc = s.pidalloc) (horigin : s'.origin = s.origin)
    (hy : y.pid = (s.proc x).pid ∧ y.parent = (s.proc x).parent ∧
      y.parentpid = (s.proc x).parentpid ∧ y.forkedby = (s.proc x).forkedby ∧
      y.nowait = (s.proc x).nowait)
    (hpc : y.pc = (s.proc x).pc ∨ y.pc = (s.proc x).pc.roused) (hfine : y.Fine)
    (hnchild : ∀ q, (s.proc q).pc.alive = true → (s'.proc q).nchild +
      (if (s.proc p).childof (s.proc q).pid then 1 else 0) = (s.proc q).nchild)
    (hown : ∀ q, (s.proc q).pid ≠ 0 → ∀ r, (s'.proc q).Own r → (s.proc q).Own r ∨
      r = (s.proc p).pid ∧ (s.proc p).childof (s.proc q).pid = true)
    (hkept : Kept s') : Inv s' := by
  have hpcs : y.pc.live = (s.proc x).pc.live ∧ y.pc.alive = (s.proc x).pc.alive := by
    rcases hpc with hk | hk
    · rw [hk]
      exact ⟨rfl, rfl⟩
    · rw [hk]
      exact ⟨Pc.roused_same.2.1, Pc.roused_same.2.2.1⟩
  have hsame : ∀ q, (s'.proc q).pid = (s.proc q).pid ∧ (s'.proc q).parent = (s.proc q).parent ∧
      (s'.proc q).parentpid = (s.proc q).parentpid ∧ (s'.proc q).forkedby = (s.proc q).forkedby ∧
      (s'.proc q).nowait = (s.proc q).nowait := by
    intro q
    rw [hproc]
    refine two_change (C := fun q y => y.pid = (s.proc q).pid ∧ y.parent = (s.proc q).parent ∧
      y.parentpid = (s.proc q).parentpid ∧ y.forkedby = (s.proc q).forkedby ∧
      y.nowait = (s.proc q).nowait) ?_ hy (fun _ => ⟨rfl, rfl, rfl, rfl, rfl⟩) q
    exact ⟨rfl, rfl, rfl, rfl, rfl⟩
  refine ⟨h.pids.keep halloc (fun q => (hsame q).1) fun q => ?_, fun q => ?_,
    h.kin.exit hp halloc horigin ?_ (fun q hqp => ?_) (fun q => ?_) hsame hnchild hown, hkept⟩
  · rw [hproc]
    refine two_change (C := fun q y => y.pc = (s.proc q).pc ∨ (s.proc q).pc.Over y.pc) ?_ ?_
      (fun _ => .inl rfl) q
    · rw [hp]
      exact .inr ⟨rfl, by simp, by simp, rfl⟩
    · rcases hpc with hk | hk
      · exact .inl hk
      · rw [hk]
        exact Pc.roused_over
  · rw [hproc]
    refine two_change (C := fun _ y => y.Fine) ?_ hfine h.fine q
    exact .of ⟨by simp, by simp⟩ (by simp) (by simp) (by simp)
      fun _ => (h.fine p).nwait (by rw [hp]; rfl)
  · rw [hproc, if_pos rfl]
    rfl
  · rw [hproc, if_neg hqp]
    exact one_change (C := fun q y => y.pc.live = (s.proc q).pc.live) hpcs.1 (fun _ => rfl) q
  · rw [hproc]
    exact two_change (C := fun q y => y.pc.alive = (s.proc q).pc.alive) (by rw [hp]; rfl) hpcs.2
      (fun _ => rfl) q

omit [DecidableEq P] in
/-- The process that `p` counts as a child of is the one that `p->parent` leads to. -/
theorem Inv.parent (h : Inv s) (hlive : (s.proc p).pc.live = true)
    (hparent : (s.proc p).parent = some x) (hc : (s.proc p).childof (s.proc q).pid = true) :
    q = x ∧ (s.proc q).pid = (s.proc p).parentpid := by
  simp only [Proc.childof, Bool.and_eq_true, Bool.not_eq_true', decide_eq_true_eq] at hc
  obtain ⟨h1, -, h3⟩ := h.kin.wait p hlive hc.2.1
  have hq := h3 q hc.2.2.symm
  rw [hparent] at hq
  exact ⟨(Option.some.inj hq).symm, by rw [h1, hc.2.2]⟩

omit [Fintype P] [DecidableEq P] in
/-- The exit does not change the records of the process itself. -/
theorem has_left {x : Proc P} (hp : x.pc = .exit freemem) (r : Nat) :
    ({ x with pc := .left freemem } : Proc P).has r = x.has r := by
  unfold Proc.has
  rw [hp]
  rfl

/-- The parent is not alive. -/
theorem Inv.off (h : Inv s) (hp : (s.proc p).pc = .exit freemem)
    (hparent : (s.proc p).parent = some x)
    (hoff : ¬((s.proc x).pid = (s.proc p).parentpid ∧ (s.proc x).pc.isbroken = false)) :
    Inv (s.goto p (.left freemem)) := by
  have hl : (s.proc p).pc.live = true := by
    rw [hp]
    rfl
  refine h.past (x := x) (y := s.proc x) hp (fun q => ?_) rfl rfl ⟨rfl, rfl, rfl, rfl, rfl⟩ (.inl rfl)
    (h.fine x) (fun q hq => ?_) (fun q _ r hr => .inl ?_)
    (h.kept_mod (fun q => Sys.goto_proc) rfl rfl rfl rfl (has_left hp) fun hq => ?_)
  · rw [Sys.goto_proc]
    split
    · rfl
    · split
      · rename_i hqx
        rw [hqx]
      · rfl
  · have hno : (s.proc p).childof (s.proc q).pid = false := by
      rw [← Bool.not_eq_true]
      intro hc
      obtain ⟨rfl, hpid⟩ := h.parent hl hparent hc
      apply hoff
      refine ⟨hpid, ?_⟩
      cases hk : (s.proc q).pc <;> rw [hk] at hq <;> first | rfl | cases hq
    rw [hno, Sys.goto_proc]
    split
    · rename_i hqp
      rw [hqp]
      exact Int.add_zero _
    · exact Int.add_zero _
  · rw [Sys.goto_proc] at hr
    split at hr
    · rename_i hqp
      rw [hqp]
      exact hr.elim .inl fun hh => by cases hh
    · exact hr
  · rcases hq with hq | hq <;> cases hq

/-- The parent is alive. -/
theorem Inv.on (h : Inv s) (hp : (s.proc p).pc = .exit freemem)
    (hparent : (s.proc p).parent = some x)
    (hon : (s.proc x).pid = (s.proc p).parentpid ∧ (s.proc x).pc.isbroken = false)
    (hne : (s.proc x).pid ≠ 0) : Inv ((s.leave p x).goto p (.left freemem)) := by
  have hl : (s.proc p).pc.live = true := by
    rw [hp]
    rfl
  have hnowait : (s.proc p).nowait = false := by
    rw [← Bool.not_eq_true]
    intro hn
    exact hne (hon.1.trans (h.kin.nowait p hl hn))
  obtain ⟨hpp, hf0, hx⟩ := h.kin.wait p hl hnowait
  have hxp : x ≠ p := by
    rintro rfl
    exact h.kin.self x hl (by rw [← hpp, hon.1])
  have hchild : (s.proc p).childof (s.proc x).pid = true := by
    simp only [Proc.childof, Bool.and_eq_true, Bool.not_eq_true', decide_eq_true_eq]
    exact ⟨hl, hnowait, by rw [← hpp, hon.1]⟩
  have hiff : ∀ q, (s.proc p).childof (s.proc q).pid = decide (q = x) := by
    intro q
    by_cases hq : q = x
    · rw [hq, hchild]
      exact (decide_eq_true rfl).symm
    · rw [decide_eq_false hq, ← Bool.not_eq_true]
      exact fun hc => hq (h.parent hl hparent hc).1
  have hnamed := (h.pids.named x).mp hne
  have hnew : (s.proc x).pc ≠ .fresh ∧ (s.proc x).pc ≠ .made := by
    constructor
    · intro hk
      rw [hk] at hnamed
      cases hnamed
    · intro hk
      have hcount := h.kin.count x (by rw [hk]; rfl)
      have hpos := children_pos (s := s) hchild
      rw [((h.fine x).new (.inr hk)).1] at hcount
      omega
  -- `p` is the child that `x` no longer counts
  have hnchild : ∀ {t : Sys P} {y : Proc P}, (∀ q, t.proc q = if q = p then
      { s.proc p with pc := .left freemem } else if q = x then y else s.proc q) →
      y.nchild = (s.proc x).nchild - 1 → ∀ q, (t.proc q).nchild +
        (if (s.proc p).childof (s.proc q).pid then 1 else 0) = (s.proc q).nchild := by
    intro t y hproc hy q
    rw [hproc, hiff]
    split
    · rename_i hqp
      rw [hqp, decide_eq_false (Ne.symm hxp)]
      exact Int.add_zero _
    · split
      · rename_i hqx
        rw [hqx, decide_eq_true rfl, hy]
        exact Int.sub_add_cancel _ _
      · rename_i hqx
        rw [decide_eq_false hqx]
        exact Int.add_zero _
  by_cases hroom : (s.proc x).nwait < 128
  · obtain ⟨hproc, halloc, horigin, hlinked, hreturned, hfreed⟩ := Sys.leave_link hon hroom
    have hproc' : ∀ q, ((s.leave p x).goto p (.left freemem)).proc q =
        if q = p then { s.proc p with pc := .left freemem } else if q = x then { s.proc x with
          nchild := (s.proc x).nchild - 1, waitq := (s.proc p).pid :: (s.proc x).waitq
          nwait := (s.proc x).nwait + 1, pc := (s.proc x).pc.roused } else s.proc q := by
      intro q
      rw [Sys.goto_proc, hproc, hproc, if_neg (Ne.symm hxp)]
    refine h.past hp hproc' halloc horigin ⟨rfl, rfl, rfl, rfl, rfl⟩ (.inr rfl)
      ((h.fine x).link hnew hnamed _) (fun q hq => ?_) (fun q _ r hr => ?_) ?_
    · exact hnchild hproc' rfl q
    · rw [hproc'] at hr
      split at hr
      · rename_i hqp
        rw [hqp]
        exact .inl (hr.elim .inl fun hh => by cases hh)
      · split at hr
        · rename_i hqx
          rw [hqx]
          rcases hr with hr | hr
          · rcases List.mem_cons.mp hr with hr | hr
            · exact .inr ⟨hr, hchild⟩
            · exact .inl (.inl hr)
          · exact .inl (.inr (Pc.roused_same.2.2.2.2.1 ▸ hr))
        · exact .inl hr
    · refine h.kept.link h.pids hl (x := x) halloc hlinked hreturned hfreed (fun q r => ?_)
        (fun q => ?_) fun q hq => ?_
      · rw [hproc']
        split
        · rename_i hqp
          rw [hqp, if_neg fun hh => hxp hh.1.symm]
          exact has_left hp r
        · split
          · rename_i hqx
            subst hqx
            have hkeeps : (s.proc q).pc.keeps = true := by
              cases hk : (s.proc q).pc <;> rw [hk] at hnamed <;> first | rfl | cases hnamed
            simp only [Proc.has, Pc.roused_same.2.2.2.1, Pc.roused_same.2.2.2.2.1, hkeeps, if_true,
              List.count_cons, beq_iff_eq, true_and]
            rw [Nat.add_right_comm]
            by_cases hr : r = (s.proc p).pid
            · rw [if_pos hr, if_pos hr.symm]
            · rw [if_neg hr, if_neg (Ne.symm hr)]
          · rename_i hqx
            rw [if_neg fun hh => hqx hh.1]
            rfl
      · rw [hproc']
        refine two_change (C := fun q y => y.pid = (s.proc q).pid) ?_ ?_ (fun _ => rfl) q <;> rfl
      · rw [hproc'] at hq
        split at hq
        · rcases hq with hq | hq <;> cases hq
        · rename_i hqp
          refine ⟨hqp, ?_⟩
          split at hq
          · rename_i hqx
            rw [hqx]
            exact hq.imp (fun hh => Pc.roused_same.2.1 ▸ hh) Pc.roused_same.2.2.2.2.2
          · exact hq
  · have hproc' : ∀ q, ((s.leave p x).goto p (.left freemem)).proc q =
        if q = p then { s.proc p with pc := .left freemem }
        else if q = x then { s.proc x with nchild := (s.proc x).nchild - 1 } else s.proc q := by
      intro q
      rw [Sys.leave_full hon hroom, Sys.goto_proc, Sys.mod_proc, Sys.mod_proc, if_neg (Ne.symm hxp)]
    rw [Sys.leave_full hon hroom] at hproc' ⊢
    refine h.past hp hproc' rfl rfl ⟨rfl, rfl, rfl, rfl, rfl⟩ (.inl rfl)
      ((h.fine x).drop hnew hnamed hroom) (fun q hq => ?_) (fun q _ r hr => .inl ?_)
      (h.kept.keep (Nat.le_refl _) rfl rfl rfl (fun q r => ?_) fun q hq => ?_)
    · exact hnchild hproc' rfl q
    · rw [hproc'] at hr
      refine two_change (C := fun q y => y.Own r → (s.proc q).Own r) ?_ ?_ (fun _ => id) q hr
      · exact fun hr => hr.elim .inl fun hh => by cases hh
      · exact id
    · rw [hproc']
      refine two_change (C := fun q y => y.has r = (s.proc q).has r) ?_ ?_ (fun _ => rfl) q
      · exact has_left hp r
      · rfl
    · rw [hproc'] at hq ⊢
      refine two_change (C := fun _ y => y.pc.live = true ∨ y.pc = .made → s.linked y.pid = 0)
        (fun hq => ?_) ?_ h.kept.unlinked q hq
      · rcases hq with hq | hq <;> cases hq
      · exact h.kept.unlinked x

theorem Inv.move (h : Inv s) (hm : Move s p s') {a : Act P} (hg : Good s (p, a)) : Inv s' := by
  cases hm with
  | plain hk => exact h.plain hk
  | rfork hp hc => exact h.rfork hp hc
  | newpid hp => exact h.newpid hp
  | born hp => exact h.born hp
  | take hp hl => exact h.take hp hl
  | got hp => exact h.got hp
  | @exit freemem x hp hparent =>
    by_cases hon : (s.proc x).pid = (s.proc p).parentpid ∧ (s.proc x).pc.isbroken = false
    · refine h.on hp hparent hon fun hzero => ?_
      exact hg freemem x hp hparent (hon.1.symm.trans hzero) hzero
    · rw [Sys.leave_off hon]
      exact h.off hp hparent hon
  | unpid hp => exact h.unpid hp
  | freeing hp => exact h.freeing hp

theorem Inv.init (h : (kernel P).init s) : Inv s := by
  obtain ⟨halloc, ⟨p, hproc⟩, horigin, hlinked, hreturned, hfreed⟩ := h
  have hcase : ∀ q, q = p ∧ s.proc q = ⟨1, none, 0, 0, 0, [], .user, 0, true⟩ ∨
      q ≠ p ∧ s.proc q = ⟨0, none, 0, 0, 0, [], .free, 0, true⟩ := by
    intro q
    rw [hproc, Function.update_apply]
    by_cases hqp : q = p
    · exact .inl ⟨hqp, if_pos hqp⟩
    · exact .inr ⟨hqp, if_neg hqp⟩
  have hlive : ∀ q, (s.proc q).pc.live = true → s.proc q = ⟨1, none, 0, 0, 0, [], .user, 0, true⟩ := by
    intro q hq
    rcases hcase q with ⟨-, hk⟩ | ⟨-, hk⟩
    · exact hk
    · rw [hk] at hq
      cases hq
  have hmaking : ∀ q, (s.proc q).pc.making = none := by
    intro q
    rcases hcase q with ⟨-, hk⟩ | ⟨-, hk⟩ <;> rw [hk] <;> rfl
  have hown : ∀ q r, ¬(s.proc q).Own r := by
    intro q r
    rcases hcase q with ⟨-, hk⟩ | ⟨-, hk⟩ <;> rw [hk] <;> simp [Proc.Own, Pc.holds]
  refine ⟨⟨fun q => ?_, fun q => ?_, fun q x he hne => ?_, fun q c n hq => ?_, fun q c n hq => ?_,
    fun q x c hq => ?_⟩, fun q => ?_, ⟨fun q hq => ?_, fun q hq => ?_, fun q hq hn => ?_,
    fun q hq _ => ?_, fun q hq => ?_, fun q hq => ?_, fun q _ r hr => absurd hr (hown q r)⟩,
    ⟨fun r => ?_, fun r => ?_, fun r _ => hlinked r, fun q _ => hlinked _⟩⟩
  · rcases hcase q with ⟨-, hk⟩ | ⟨-, hk⟩ <;> rw [hk, halloc]
    exact Nat.zero_le _
  · rcases hcase q with ⟨-, hk⟩ | ⟨-, hk⟩ <;> rw [hk] <;> simp [Pc.named]
  · rcases hcase q with ⟨hqp, hk⟩ | ⟨-, hk⟩
    · rcases hcase x with ⟨hxp, -⟩ | ⟨-, hk'⟩
      · rw [hqp, hxp]
      · rw [hk, hk'] at he
        cases he
    · rw [hk] at hne
      exact absurd rfl hne
  · have hm := hmaking q
    rw [hq] at hm
    cases hm
  · have hm := hmaking q
    rw [hq] at hm
    cases hm
  · rw [hmaking] at hq
    cases hq
  · rcases hcase q with ⟨-, hk⟩ | ⟨-, hk⟩ <;> rw [hk] <;>
      exact .of ⟨by simp, by simp⟩ (by simp) (by simp) (by simp) fun _ => rfl
  · rw [hlive q hq, halloc]
    exact Nat.zero_le _
  · rw [hlive q hq]
    simp
  · rw [hlive q hq] at hn
    cases hn
  · rw [hlive q hq]
  · rw [hlive q hq, horigin]
  · have hnone : children s (s.proc q).pid = 0 := by
      apply Finset.sum_eq_zero
      intro x _
      rcases hcase x with ⟨-, hk⟩ | ⟨-, hk⟩ <;> rw [hk] <;> rfl
    rw [hnone]
    rcases hcase q with ⟨-, hk⟩ | ⟨-, hk⟩ <;> rw [hk] <;> rfl
  · have hnone : records s r = 0 := by
      apply Finset.sum_eq_zero
      intro x _
      rcases hcase x with ⟨-, hk⟩ | ⟨-, hk⟩ <;> rw [hk] <;> rfl
    rw [hnone, hlinked, hreturned, hfreed]
  · rw [hlinked]
    exact Nat.zero_le _

theorem wait_inductive : ((kernel P).restrict Good).Inductive Inv where
  init _ h := Inv.init h
  step _ _ _ h hs := h.move (act_move hs.1) hs.2

/-! ## The property -/

/-- What holds of the children and the records. -/
structure Right (s : Sys P) : Prop where
  count : ∀ p, (s.proc p).pc.alive = true → (s.proc p).nchild = children s (s.proc p).pid
  owner : ∀ p r, (s.proc p).pid ≠ 0 → (s.proc p).Own r → s.origin r = ((s.proc p).pid, false)
  once : ∀ r, s.linked r ≤ 1 ∧ s.linked r = records s r + s.returned r + s.freed r
  asleep : ∀ p, (s.proc p).pc = .asleep →
    (s.proc p).waitq = [] ∧ 0 < children s (s.proc p).pid

/-- A record of a process is linked to one that has a pid and is not `Broken`, and has forked it
without `RFNOWAIT`. -/
def Linked (s : Sys P) (p x : P) (r : Nat) : Prop :=
  r = (s.proc p).pid ∧ (s.proc x).pid ≠ 0 ∧ (s.proc x).pc.isbroken = false ∧
    s.origin r = ((s.proc x).pid, false)

omit [DecidableEq P] in
theorem Inv.right (h : Inv s) : Right s where
  count := h.kin.count
  owner p r hp hr := h.kin.owner p hp r hr
  once r := ⟨h.kept.once r, h.kept.sum r⟩
  asleep p hp := by
    obtain ⟨hn, hq⟩ := (h.fine p).asleep hp
    have hcount := h.kin.count p (by rw [hp]; rfl)
    exact ⟨hq, by omega⟩

/-- A queue grows by the record of a child only. -/
theorem Inv.linked (h : Inv s) (hm : Move s p s') {a : Act P} (hg : Good s (p, a)) {r : Nat}
    (hx : (s'.proc x).waitq = r :: (s.proc x).waitq) : Linked s p x r := by
  by_contra hr
  -- a queue that stays or gets shorter does not grow
  have hno : ¬(s'.proc x).waitq.length ≤ (s.proc x).waitq.length := by
    rw [hx]
    exact Nat.not_succ_le_self _
  apply hno
  have hgoto : ∀ {t : Sys P} {y : P} {k : Pc P}, ((t.goto y k).proc x).waitq = (t.proc x).waitq := by
    intro t y k
    rw [Sys.goto_proc]
    refine one_change (C := fun q z => z.waitq = (t.proc q).waitq) ?_ (fun _ => rfl) x
    rfl
  have hone : ∀ {y : P} {z : Proc P}, z.waitq.length ≤ (s.proc y).waitq.length →
      (if x = y then z else s.proc x).waitq.length ≤ (s.proc x).waitq.length := fun hz =>
    one_change (C := fun q z => z.waitq.length ≤ (s.proc q).waitq.length) hz
      (fun _ => Nat.le_refl _) x
  cases hm with
  | plain hk =>
    rw [hgoto]
  | rfork hp hc =>
    rw [hgoto, Sys.mod_proc]
    exact hone (Nat.zero_le _)
  | newpid hp =>
    rw [hgoto, Sys.newpid_proc]
    exact hone (Nat.le_refl _)
  | @born child nowait hp =>
    have hcp : child ≠ p := by
      rintro rfl
      have hc := h.pids.made _ _ nowait hp
      rw [hp] at hc
      cases hc
    rw [hgoto, Sys.birth_proc hcp]
    refine two_change (C := fun q z => z.waitq.length ≤ (s.proc q).waitq.length) ?_ ?_
      (fun _ => Nat.le_refl _) x <;> exact Nat.le_refl _
  | take hp hl =>
    rw [Sys.mod_proc]
    refine hone ?_
    rw [hl]
    exact Nat.le_succ _
  | got hp => exact Nat.le_of_eq (congrArg _ hgoto)
  | @exit freemem y hp hparent =>
    rw [hgoto]
    by_cases hon : (s.proc y).pid = (s.proc p).parentpid ∧ (s.proc y).pc.isbroken = false
    · have hne : (s.proc y).pid ≠ 0 := fun hzero =>
        hg freemem y hp hparent (hon.1.symm.trans hzero) hzero
      have hl : (s.proc p).pc.live = true := by
        rw [hp]
        rfl
      have hnowait : (s.proc p).nowait = false := by
        rw [← Bool.not_eq_true]
        intro hn
        exact hne (hon.1.trans (h.kin.nowait p hl hn))
      have horigin := h.kin.origin p hl
      rw [hnowait, ← (h.kin.wait p hl hnowait).1, ← hon.1] at horigin
      by_cases hroom : (s.proc y).nwait < 128
      · rw [hgoto, (Sys.leave_link hon hroom).1] at hx
        rw [(Sys.leave_link hon hroom).1]
        split at hx
        · rename_i hxy
          subst hxy
          obtain ⟨rfl, -⟩ := List.cons.inj hx
          exact absurd ⟨rfl, hne, hon.2, horigin⟩ hr
        · rename_i hxy
          rw [if_neg hxy]
      · rw [Sys.leave_full hon hroom, Sys.mod_proc]
        exact hone (Nat.le_refl _)
    · rw [Sys.leave_off hon]
  | unpid hp =>
    rw [Sys.mod_proc]
    exact hone (Nat.le_refl _)
  | freeing hp => exact Nat.le_of_eq (congrArg _ hgoto)

theorem wait_records (h : ((kernel P).restrict Good).Reach s) : Right s ∧
    ∀ p a s' x r, s.act p a = some s' → Good s (p, a) →
      (s'.proc x).waitq = r :: (s.proc x).waitq → Linked s p x r := by
  have hinv := wait_inductive.reach h
  exact ⟨hinv.right, fun _ _ _ _ _ ha hg hx => hinv.linked (act_move ha) hg hx⟩

/-! ## Three processes -/

/-- The first runs. -/
private def boot : Sys (Fin 3) where
  proc := Function.update
    (fun _ => ⟨0, none, 0, 0, 0, [], .free, 0, true⟩) 0 ⟨1, none, 0, 0, 0, [], .user, 0, true⟩
  pidalloc := 1
  origin _ := (0, true)
  linked _ := 0
  returned _ := 0
  freed _ := 0

theorem boot_init : (kernel (Fin 3)).init boot :=
  ⟨rfl, ⟨0, rfl⟩, rfl, fun _ => rfl, fun _ => rfl, fun _ => rfl⟩

/-- Steps of the runs that meet the condition. -/
private def wary (s : Sys P) (e : P × Act P) : Option (Sys P) :=
  match (s.proc e.1).pc, (s.proc e.1).parent with
  | .exit _, some x => if (s.proc e.1).parentpid = 0 ∧ (s.proc x).pid = 0 then none else s.act e.1 e.2
  | _, _ => s.act e.1 e.2

omit [Fintype P] in
theorem wary_step (s : Sys P) (e : P × Act P) (s' : Sys P) (h : wary s e = some s') :
    ((kernel P).restrict Good).step s e s' := by
  unfold wary at h
  split at h
  · rename_i freemem x hp hparent
    obtain ⟨hne, h⟩ := Option.ite_none_left_eq_some.mp h
    refine ⟨h, fun freemem' y _ hy hpp hzero => hne ⟨hpp, ?_⟩⟩
    rw [hparent] at hy
    cases hy
    exact hzero
  · rename_i hno
    exact ⟨h, fun freemem x hp hparent => absurd hparent (hno freemem x hp)⟩

/-- A process forks, the child exits, and the first waits for it: the record is returned. -/
theorem wait_records_waited : ∃ s : Sys (Fin 3), ((kernel (Fin 3)).restrict Good).Reach s ∧
    s.returned 2 = 1 ∧ Right s ∧ ∀ p a s' x r, s.act p a = some s' → Good s (p, a) →
      (s'.proc x).waitq = r :: (s.proc x).waitq → Linked s p x r := by
  obtain ⟨s, hs⟩ : ∃ s, [((0 : Fin 3), Act.rfork 1 false), (0, .go), (0, .go), (0, .pwait), (0, .go),
      (1, .exit true), (0, .go), (1, .go), (0, .go), (0, .go)].foldlM wary boot = some s := ⟨_, rfl⟩
  have hreach : ((kernel (Fin 3)).restrict Good).Reach s :=
    Lts.Reach.exec wary_step ⟨[], .init boot_init⟩ hs
  cases hs
  exact ⟨_, hreach, rfl, wait_records hreach⟩

/-- The first forks the second, which forks the third with `RFNOWAIT` and exits. Its `Proc` is used
for another process of the first when the third exits: that process has a record of a process that
it has not forked, and -1 children. -/
theorem wait_astray : ∃ s : Sys (Fin 3), (kernel (Fin 3)).Reach s ∧ (s.proc 1).pid = 4 ∧
    (s.proc 1).nchild = -1 ∧ (s.proc 1).waitq = [3] ∧ s.origin 3 = (2, true) ∧ ¬ Right s := by
  obtain ⟨s, hs⟩ : ∃ s, [((0 : Fin 3), Act.rfork 1 false), (0, .go), (0, .go),
      (1, .rfork 2 true), (1, .go), (1, .go), (1, .exit true), (1, .go), (1, .go), (1, .go), (1, .go),
      (1, .go), (0, .rfork 1 false), (2, .exit true), (2, .go), (0, .go), (0, .go)].foldlM
        (fun s e => s.act e.1 e.2) boot = some s := ⟨_, rfl⟩
  have hreach : (kernel (Fin 3)).Reach s :=
    Lts.Reach.exec (fun _ _ _ h => h) ⟨[], .init boot_init⟩ hs
  cases hs
  refine ⟨_, hreach, rfl, rfl, rfl, rfl, fun h => ?_⟩
  have hcount := h.count 1 rfl
  have hneg : (-1 : Int) = _ := hcount
  omega

end NixMark.Wait
