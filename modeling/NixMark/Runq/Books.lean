import NixMark.Lib.Lts
import NixMark.Runq.Queue

/-!
# What the run queues hold

* `Rep`: the pointers of the queues are those of lists; `Placed`: a ready process is on one queue, of
  its scheduler; `Books`: the counts of a scheduler and its `runvec` are those of its queues.
* `linkproc_spec`, `unlinkproc_spec`: the lists after a write. `unlinkproc` keeps the books only when
  the process belongs to the scheduler that the queue does.
-/

namespace NixMark.Runq

open Lib
open Function (update update_eq_self update_of_ne update_self)

variable {nproc : Nat} {s s' : Sys nproc} {p q : Fin nproc}

/-- A queue: its scheduler and its priority. -/
abbrev Key : Type := Nat × Pri

namespace Sys

def qs (s : Sys nproc) (k : Key) : Schedq nproc := s.queue k.1 k.2

def head (s : Sys nproc) (k : Key) : Option (Fin nproc) := (s.qs k).head

def tail (s : Sys nproc) (k : Key) : Option (Fin nproc) := (s.qs k).tail

def rdy (s : Sys nproc) (p : Fin nproc) : Prop := (s.procs p).state = .Ready

def sch (s : Sys nproc) (p : Fin nproc) : Nat := (s.procs p).sch

end Sys

/-- The queues are the lists `L`. -/
structure Rep (s : Sys nproc) (L : Key → List (Fin nproc)) : Prop where
  queues : Queues s.rnext s.head s.tail L
  count : ∀ k, (s.qs k).n = (L k).length

/-- The ready processes are on the queues of their schedulers. -/
structure Placed (sch : Fin nproc → Nat) (rdy : Fin nproc → Prop) (L : Key → List (Fin nproc)) :
    Prop where
  home : ∀ {p k}, p ∈ L k → sch p = k.1
  ready : ∀ p, rdy p ↔ ∃ k, p ∈ L k

/-- The counts of the scheduler `k`. -/
structure Books (s : Sys nproc) (k : Nat) : Prop where
  nrdy : (s.scheds k).nrdy = ∑ i, (s.queue k i).n
  runvec : ∀ i : Pri, (s.scheds k).runvec.getLsbD i = true ↔ (s.queue k i).head ≠ none

/-- Changes that concern neither the queues nor the ready processes. -/
structure Same (s s' : Sys nproc) : Prop where
  rnext : ∀ p, s'.rnext p = s.rnext p
  rdy : ∀ p, s'.rdy p ↔ s.rdy p
  sch : ∀ p, s.rdy p → s'.sch p = s.sch p
  nrdy : ∀ k, (s'.scheds k).nrdy = (s.scheds k).nrdy
  runq : ∀ k, (s'.scheds k).runq = (s.scheds k).runq
  runvec : ∀ k, (s'.scheds k).runvec = (s.scheds k).runvec

theorem Same.refl (s : Sys nproc) : Same s s :=
  ⟨fun _ => rfl, fun _ => Iff.rfl, fun _ _ => rfl, fun _ => rfl, fun _ => rfl, fun _ => rfl⟩

theorem Same.trans {s₁ s₂ s₃ : Sys nproc} (h : Same s₁ s₂) (h' : Same s₂ s₃) : Same s₁ s₃ where
  rnext p := (h'.rnext p).trans (h.rnext p)
  rdy p := (h'.rdy p).trans (h.rdy p)
  sch p hp := (h'.sch p ((h.rdy p).mpr hp)).trans (h.sch p hp)
  nrdy k := (h'.nrdy k).trans (h.nrdy k)
  runq k := (h'.runq k).trans (h.runq k)
  runvec k := (h'.runvec k).trans (h.runvec k)

theorem Same.qs (h : Same s s') : s'.qs = s.qs := by
  funext k
  rw [Sys.qs, Sys.qs, Sys.queue, Sys.queue, h.runq]

theorem Same.head (h : Same s s') : s'.head = s.head := by
  funext k
  rw [Sys.head, Sys.head, h.qs]

theorem Same.rep (h : Same s s') {L : Key → List (Fin nproc)} (hr : Rep s L) : Rep s' L where
  queues := by
    have hrnext : s'.rnext = s.rnext := funext h.rnext
    have htail : s'.tail = s.tail := by
      funext k
      rw [Sys.tail, Sys.tail, h.qs]
    rw [hrnext, h.head, htail]
    exact hr.queues
  count k := by
    rw [h.qs]
    exact hr.count k

theorem Placed.congr {sch sch' : Fin nproc → Nat} {rdy rdy' : Fin nproc → Prop}
    {L : Key → List (Fin nproc)} (h : Placed sch rdy L) (hs : ∀ p, rdy p → sch' p = sch p)
    (hr : ∀ p, rdy' p ↔ rdy p) : Placed sch' rdy' L where
  home {p k} hk := (hs p ((h.ready p).mpr ⟨k, hk⟩)).trans (h.home hk)
  ready p := (hr p).trans (h.ready p)

theorem Same.books (h : Same s s') {k : Nat} (hb : Books s k) : Books s' k where
  nrdy := by
    simp only [Sys.queue, h.nrdy, h.runq]
    exact hb.nrdy
  runvec i := by
    rw [Sys.queue, h.runvec, h.runq]
    exact hb.runvec i

/-! ## Writes -/

theorem setproc_self (s : Sys nproc) (p : Fin nproc) (f : Proc nproc → Proc nproc) :
    (s.setproc p f).procs p = f (s.procs p) := update_self ..

variable {f : Proc nproc → Proc nproc}

theorem setproc_ne (h : q ≠ p) : (s.setproc p f).procs q = s.procs q := update_of_ne h _ _

theorem setsched_self (s : Sys nproc) (k : Nat) (f : Sched nproc → Sched nproc) :
    (s.setsched k f).scheds k = f (s.scheds k) := update_self ..

variable {k' : Nat}

theorem setsched_ne {k : Nat} {f : Sched nproc → Sched nproc} (h : k' ≠ k) :
    (s.setsched k f).scheds k' = s.scheds k' := update_of_ne h _ _

/-- A property of the processes that a write keeps. -/
theorem setproc_field {β : Type} (g : Proc nproc → β) (h : g (f (s.procs p)) = g (s.procs p))
    (q : Fin nproc) : g ((s.setproc p f).procs q) = g (s.procs q) := by
  by_cases hq : q = p
  · rw [hq, setproc_self, h]
  · rw [setproc_ne hq]

theorem Same.setproc (hn : (f (s.procs p)).rnext = (s.procs p).rnext)
    (hr : (f (s.procs p)).state = .Ready ↔ (s.procs p).state = .Ready)
    (hs : (s.procs p).state = .Ready → (f (s.procs p)).sch = (s.procs p).sch) :
    Same s (s.setproc p f) where
  rnext := setproc_field Proc.rnext hn
  rdy q := by
    have := setproc_field (s := s) (fun r => r.state = .Ready) (propext hr) q
    exact iff_of_eq this
  sch q hq := by
    by_cases h : q = p
    · subst h
      rw [Sys.sch, setproc_self]
      exact hs hq
    · rw [Sys.sch, setproc_ne h, Sys.sch]
  nrdy _ := rfl
  runq _ := rfl
  runvec _ := rfl

theorem setrnext_rnext (s : Sys nproc) (l r : Option (Fin nproc)) :
    (s.setrnext l r).rnext = relink s.rnext l r := by
  cases l with
  | none => rfl
  | some l =>
    funext q
    by_cases hq : q = l
    · rw [hq, relink, update_self, Sys.setrnext, Sys.rnext, setproc_self]
    · rw [relink, update_of_ne hq, Sys.setrnext, Sys.rnext, setproc_ne hq, Sys.rnext]

/-- Of a process nothing but its link changes. -/
theorem setrnext_field {β : Type} (g : Proc nproc → β) (h : ∀ q r, g { q with rnext := r } = g q)
    (l r : Option (Fin nproc)) (q : Fin nproc) :
    g ((s.setrnext l r).procs q) = g (s.procs q) := by
  cases l with
  | none => rfl
  | some l => exact setproc_field (f := fun q => { q with rnext := r }) g (h _ _) q

theorem setrnext_scheds (s : Sys nproc) (l r : Option (Fin nproc)) :
    (s.setrnext l r).scheds = s.scheds := by
  cases l <;> rfl

variable {rq : Schedq nproc}

/-- One queue is written. -/
theorem qs_setsched {k : Nat} {i : Pri} {f : Sched nproc → Sched nproc}
    (h : (f (s.scheds k)).runq = update (s.scheds k).runq i rq) :
    (s.setsched k f).qs = update s.qs (k, i) rq := by
  funext ⟨k', i'⟩
  rw [Sys.qs, Sys.queue, Sys.setsched]
  by_cases hk : k' = k
  · subst hk
    simp only [update_self, h]
    by_cases hi : i' = i
    · rw [hi, update_self, update_self]
    · rw [update_of_ne hi, update_of_ne (fun e => hi (Prod.ext_iff.mp e).2)]
      rfl
  · rw [update_of_ne (fun e => hk (Prod.ext_iff.mp e).1)]
    simp only [update_of_ne hk]
    rfl

theorem qs_setsched_same {k : Nat} {f : Sched nproc → Sched nproc}
    (h : (f (s.scheds k)).runq = (s.scheds k).runq) : (s.setsched k f).qs = s.qs := by
  funext k'
  rw [Sys.qs, Sys.queue, Sys.qs, Sys.queue]
  by_cases hk : k'.1 = k
  · rw [hk, setsched_self, h]
  · rw [setsched_ne hk]

theorem head_of_qs {k : Key} (h : s'.qs = update s.qs k rq) :
    s'.head = update s.head k rq.head := by
  funext k'
  rw [Sys.head, h]
  by_cases hk : k' = k
  · rw [hk, update_self, update_self]
  · rw [update_of_ne hk, update_of_ne hk, Sys.head]

theorem tail_of_qs {k : Key} (h : s'.qs = update s.qs k rq) :
    s'.tail = update s.tail k rq.tail := by
  funext k'
  rw [Sys.tail, h]
  by_cases hk : k' = k
  · rw [hk, update_self, update_self]
  · rw [update_of_ne hk, update_of_ne hk, Sys.tail]

theorem sum_of_qs {k : Nat} {i : Pri} (h : s'.qs = update s.qs (k, i) rq) :
    ∑ i', (s'.queue k i').n = ∑ i', (s.queue k i').n - (s.queue k i).n + rq.n := by
  have hfun : (fun i' => (s'.queue k i').n) =
      update (fun i' => (s.queue k i').n) i rq.n := by
    funext i'
    have hq : s'.queue k i' = s'.qs (k, i') := rfl
    rw [hq, h]
    by_cases hi : i' = i
    · rw [hi, update_self, update_self]
    · rw [update_of_ne hi, update_of_ne (fun e => hi (Prod.ext_iff.mp e).2), Sys.qs]
  rw [hfun, Finset.sum_update_of_mem (Finset.mem_univ i)]
  have := Finset.sum_eq_add_sum_sdiff_singleton_of_mem (Finset.mem_univ i)
    (fun i' => (s.queue k i').n)
  omega

theorem queue_of_qs_ne {k : Nat} {i i' : Pri} (h : s'.qs = update s.qs (k, i) rq)
    (hk : k' ≠ k ∨ i' ≠ i) : s'.queue k' i' = s.queue k' i' := by
  have hq : s'.queue k' i' = s'.qs (k', i') := rfl
  rw [hq, h, update_of_ne, Sys.qs]
  rintro ⟨⟩
  exact hk.elim (fun h => h rfl) fun h => h rfl

theorem queue_of_qs {k : Nat} {i : Pri} (h : s'.qs = update s.qs (k, i) rq) :
    s'.queue k i = rq := by
  have hq : s'.queue k i = s'.qs (k, i) := rfl
  rw [hq, h, update_self]

theorem bit_getLsbD (i i' : Pri) : (bit i).getLsbD i' = decide (i' = i) := by
  have h := i.isLt
  have h' := i'.isLt
  unfold Nrq at *
  simp only [bit, BitVec.getLsbD_shiftLeft, BitVec.getLsbD_one, Fin.ext_iff]
  grind

/-! ## A process is linked -/

variable {L : Key → List (Fin nproc)} {l₁ l₂ : List (Fin nproc)} {i : Pri} {k : Nat}

variable {key : Key} {l : List (Fin nproc)}

/-- The process `p` is put on the queue `key`, which becomes `l`. -/
theorem Placed.put {sch : Fin nproc → Nat} {rdy : Fin nproc → Prop} (h : Placed sch rdy L)
    (hl : ∀ q, q ∈ l ↔ q = p ∨ q ∈ L key) (hk : sch p = key.1) :
    Placed sch (fun q => rdy q ∨ q = p) (update L key l) where
  home {q k'} hq := by
    by_cases hk' : k' = key
    · subst hk'
      rw [update_self, hl] at hq
      rcases hq with rfl | hq
      · exact hk
      · exact h.home hq
    · rw [update_of_ne hk'] at hq
      exact h.home hq
  ready q := by
    constructor
    · rintro (hq | rfl)
      · obtain ⟨k', hq⟩ := (h.ready q).mp hq
        refine ⟨k', ?_⟩
        by_cases hk' : k' = key
        · subst hk'
          rw [update_self, hl]
          exact .inr hq
        · rwa [update_of_ne hk']
      · exact ⟨key, by rw [update_self, hl]; exact .inl rfl⟩
    · rintro ⟨k', hq⟩
      by_cases hk' : k' = key
      · subst hk'
        rw [update_self, hl] at hq
        exact hq.elim .inr fun hq => .inl ((h.ready q).mpr ⟨k', hq⟩)
      · rw [update_of_ne hk'] at hq
        exact .inl ((h.ready q).mpr ⟨k', hq⟩)

/-- The process `p` is taken from the queue `key`, which becomes `l`. -/
theorem Placed.take {sch : Fin nproc → Nat} {rdy : Fin nproc → Prop} (h : Placed sch rdy L)
    (hl : ∀ q, q ∈ l ↔ q ≠ p ∧ q ∈ L key) (hne : ∀ k, k ≠ key → p ∉ L k) :
    Placed sch (fun q => rdy q ∧ q ≠ p) (update L key l) where
  home {q k'} hq := by
    by_cases hk' : k' = key
    · subst hk'
      rw [update_self, hl] at hq
      exact h.home hq.2
    · rw [update_of_ne hk'] at hq
      exact h.home hq
  ready q := by
    constructor
    · rintro ⟨hq, hqp⟩
      obtain ⟨k', hq⟩ := (h.ready q).mp hq
      refine ⟨k', ?_⟩
      by_cases hk' : k' = key
      · subst hk'
        rw [update_self, hl]
        exact ⟨hqp, hq⟩
      · rwa [update_of_ne hk']
    · rintro ⟨k', hq⟩
      by_cases hk' : k' = key
      · subst hk'
        rw [update_self, hl] at hq
        exact ⟨(h.ready q).mpr ⟨k', hq.2⟩, hq.1⟩
      · rw [update_of_ne hk'] at hq
        refine ⟨(h.ready q).mpr ⟨k', hq⟩, ?_⟩
        rintro rfl
        exact hne k' hk' hq

/-- The state `s'` has the schedulers of `s`, with a process more in the queue `(k, i)`. -/
theorem qs_link (h : s'.scheds = s.scheds) (k : Nat) (i : Pri) (rq : Schedq nproc) :
    (s'.setsched k (Sched.link i rq)).qs = update s.qs (k, i) rq := by
  rw [qs_setsched rfl]
  congr 1
  funext k'
  rw [Sys.qs, Sys.queue, h]
  rfl

/-- The counts of the schedulers whose queues are not written. -/
theorem Books.other (hb : Books s k') (hqs : s'.qs = update s.qs (k, i) rq) (hk : k' ≠ k)
    (h : s'.scheds k' = s.scheds k') : Books s' k' where
  nrdy := by
    rw [h, hb.nrdy]
    exact Finset.sum_congr rfl fun i' _ => by rw [queue_of_qs_ne hqs (.inl hk)]
  runvec i' := by
    rw [h, queue_of_qs_ne hqs (.inl hk)]
    exact hb.runvec i'

theorem Books.link (h : s'.scheds = s.scheds) (hn : rq.n = (s.queue k i).n + 1)
    (hhead : rq.head ≠ none) (hb : Books s k') : Books (s'.setsched k (Sched.link i rq)) k' := by
  have hqs := qs_link h k i rq
  by_cases hk : k' = k
  · subst hk
    have hsch : (s'.setsched k' (Sched.link i rq)).scheds k' = (s.scheds k').link i rq := by
      rw [setsched_self, h]
    refine ⟨?_, fun i' => ?_⟩
    · rw [hsch, sum_of_qs hqs, hn]
      have := hb.nrdy
      simp only [Sched.link]
      omega
    · rw [hsch, Sched.link, BitVec.getLsbD_or, bit_getLsbD]
      by_cases hi : i' = i
      · rw [hi, decide_eq_true rfl, Bool.or_true, queue_of_qs hqs]
        exact iff_of_true rfl hhead
      · rw [decide_eq_false hi, Bool.or_false, queue_of_qs_ne hqs (.inr hi)]
        exact hb.runvec i'
  · exact hb.other hqs hk (by rw [setsched_ne hk, h])

/-- The state `s'` has the schedulers of `s`, with a process less in the queue `(j, i)`. -/
theorem qs_unlink (h : s'.scheds = s.scheds) (j k : Nat) (i : Pri) (rq : Schedq nproc)
    (mask : BitVec 32) : ((s'.setsched j (Sched.setq i rq)).setsched k
      (Sched.unlink rq.head mask)).qs = update s.qs (j, i) rq := by
  rw [qs_setsched_same rfl, qs_setsched rfl]
  congr 1
  funext k'
  rw [Sys.qs, Sys.queue, h]
  rfl

theorem Books.unlink (h : s'.scheds = s.scheds) (hn : rq.n = (s.queue k i).n - 1)
    (hhead : (s.queue k i).head ≠ none) (hb : Books s k') :
    Books ((s'.setsched k (Sched.setq i rq)).setsched k (Sched.unlink rq.head (bit i))) k' := by
  have hqs := qs_unlink h k k i rq (bit i)
  by_cases hk : k' = k
  · subst hk
    refine ⟨?_, fun i' => ?_⟩
    · rw [sum_of_qs hqs, hn, setsched_self, setsched_self, h]
      have := hb.nrdy
      simp only [Sched.unlink, Sched.setq]
      omega
    · rw [setsched_self, setsched_self, h]
      simp only [Sched.unlink, Sched.setq]
      have hvec := hb.runvec i'
      by_cases hi : i' = i
      · rw [hi] at hvec ⊢
        rw [queue_of_qs hqs]
        split_ifs with hnil
        · rw [BitVec.getLsbD_and, BitVec.getLsbD_not, bit_getLsbD, decide_eq_true rfl, Bool.not_true,
            Bool.and_false, Bool.and_false]
          exact iff_of_false Bool.false_ne_true (not_not.mpr hnil)
        · exact iff_of_true (hvec.mpr hhead) hnil
      · rw [queue_of_qs_ne hqs (.inr hi), ← hvec]
        split_ifs
        · have hlt : i'.val < 32 := i'.isLt.trans (by decide)
          rw [BitVec.getLsbD_and, BitVec.getLsbD_not, bit_getLsbD, decide_eq_false hi, Bool.not_false,
            Bool.and_true, decide_eq_true hlt, Bool.and_true]
        · exact Iff.rfl
  · exact hb.other hqs hk (by rw [setsched_ne hk, setsched_ne hk, h])

/-- The scheduler of the queue is not the one that counts a process less. -/
theorem Books.stray (h : s'.scheds = s.scheds) {j : Nat} {mask : BitVec 32}
    (hn : rq.n = (s.queue j i).n - 1) (hk : j ≠ k) (hb : Books s j) :
    (((s'.setsched j (Sched.setq i rq)).setsched k (Sched.unlink rq.head mask)).scheds j).nrdy ≠
      ∑ i', (((s'.setsched j (Sched.setq i rq)).setsched k (Sched.unlink rq.head mask)).queue j i').n := by
  rw [sum_of_qs (qs_unlink h j k i rq mask), hn, setsched_ne hk, setsched_self, h]
  have := hb.nrdy
  simp only [Sched.setq]
  omega

/-- What a write to the queue `key` leaves as it was, and the lists that it makes. -/
structure Wrote (s s' : Sys nproc) (L : Key → List (Fin nproc)) (key : Key)
    (l : List (Fin nproc)) : Prop where
  rep : Rep s' (Function.update L key l)
  sch : ∀ q, s'.sch q = s.sch q
  state : ∀ q, (s'.procs q).state = (s.procs q).state

/-- The queues after one of them was written. -/
theorem Rep.write {next' : Fin nproc → Option (Fin nproc)} {head' tail' : Key → Option (Fin nproc)}
    (hr : Rep s L) (hq : Queues next' head' tail' (update L key l))
    (hnext : s'.rnext = next') (hqs : s'.qs = update s.qs key rq)
    (hhead : update s.head key rq.head = head')
    (htail : update s.tail key rq.tail = tail') (hn : rq.n = l.length) :
    Rep s' (update L key l) where
  queues := by
    rwa [hnext, head_of_qs hqs, tail_of_qs hqs, hhead, htail]
  count k := by
    rw [hqs]
    by_cases hk : k = key
    · rw [hk, update_self, update_self, hn]
    · rw [update_of_ne hk, update_of_ne hk, hr.count]

theorem Rep.link {next' : Fin nproc → Option (Fin nproc)} {head' tail' : Key → Option (Fin nproc)}
    (hr : Rep s L) (hq : Queues next' head' tail' (update L (k, i) l))
    (hnext : s'.rnext = next') (h : s'.scheds = s.scheds)
    (hhead : update s.head (k, i) rq.head = head')
    (htail : update s.tail (k, i) rq.tail = tail') (hn : rq.n = l.length) :
    Rep (s'.setsched k (Sched.link i rq)) (update L (k, i) l) :=
  hr.write hq hnext (qs_link h k i rq) hhead htail hn

theorem update_rehead {κ α : Type} [DecidableEq κ] (head : κ → Option α) (key : κ)
    (l p : Option α) : update head key (if l = none then p else head key) =
      rehead head key l p := by
  cases l with
  | none => rfl
  | some l => exact update_eq_self key head

theorem linkproc_spec (hr : Rep s L) (hp : ∀ k, p ∉ L k) (pri : Pri) :
    ∃ s', linkproc s p pri = some s' ∧
      Wrote s s' L (s.sch p, pri) (L (s.sch p, pri) ++ [p]) ∧ ∀ k, Books s k → Books s' k := by
  have hq := hr.queues.push (s.sch p, pri) hp
  have hnil : (s.procs p).rnext = none := hr.queues.off p hp
  have hcount := hr.count (s.sch p, pri)
  unfold linkproc
  rw [if_neg (not_not.mpr hnil)]
  simp only
  obtain ⟨s₂, hs₂⟩ : ∃ s₂, s₂ = (s.setproc p fun q => { q with priority := pri }).setrnext
      (s.queue (s.procs p).sch pri).tail (some p) := ⟨_, rfl⟩
  have hnext : s₂.rnext = relink s.rnext (s.tail (s.sch p, pri)) (some p) := by
    rw [hs₂, setrnext_rnext]
    exact congrArg (relink · _ _) (funext fun q => setproc_field Proc.rnext rfl q)
  have hscheds : s₂.scheds = s.scheds := by
    rw [hs₂, setrnext_scheds]
    rfl
  have hfield : ∀ {β : Type} (g : Proc nproc → β), (∀ q r, g { q with rnext := r } = g q) →
      (∀ q r, g { q with priority := r } = g q) → ∀ q, g (s₂.procs q) = g (s.procs q) := by
    intro β g h₁ h₂ q
    rw [hs₂, setrnext_field g h₁]
    exact setproc_field g (h₂ _ _) q
  have hqs₂ : s₂.qs = s.qs := by
    funext k
    rw [Sys.qs, Sys.queue, hscheds]
    rfl
  rw [← hs₂]
  refine ⟨_, rfl, ⟨hr.link hq hnext hscheds (update_rehead ..) rfl ?_,
    hfield Proc.sch (fun _ _ => rfl) fun _ _ => rfl,
    hfield Proc.state (fun _ _ => rfl) fun _ _ => rfl⟩, fun k hb => hb.link hscheds rfl ?_⟩
  · rw [List.length_append, List.length_singleton, Nat.cast_add, ← hcount]
    rfl
  · change (if s.tail (s.sch p, pri) = none then some p else s.head (s.sch p, pri)) ≠ none
    split_ifs with htail
    · exact Option.some_ne_none p
    · rw [← (hr.queues.chain _).head, ne_eq, List.head?_eq_none_iff]
      rwa [hr.queues.tail, List.getLast?_eq_none_iff] at htail

/-- The process `p` is taken from the queue `(j, i)`. The books are kept when that is a queue of its
scheduler; otherwise `nrdy` counts it still. -/
theorem unlinkproc_spec (stray : Nat → Pri → Nat → BitVec 32) (hr : Rep s L) {j : Nat}
    (hl : L (j, i) = l₁ ++ p :: l₂) :
    Wrote s (unlinkproc stray s j i l₁.getLast? p) L (j, i) (l₁ ++ l₂) ∧
      (s.sch p = j → ∀ k, Books s k → Books (unlinkproc stray s j i l₁.getLast? p) k) ∧
      (s.sch p ≠ j → Books s j → ((unlinkproc stray s j i l₁.getLast? p).scheds j).nrdy ≠
        ∑ i', ((unlinkproc stray s j i l₁.getLast? p).queue j i').n) := by
  have hq := hr.queues.remove hl
  have hcount := hr.count (j, i)
  unfold unlinkproc
  simp only
  obtain ⟨s₂, hs₂⟩ : ∃ s₂, s₂ = (s.setrnext l₁.getLast? (s.procs p).rnext).setproc p fun q =>
      { q with rnext := none } := ⟨_, rfl⟩
  have hnext : s₂.rnext = update (relink s.rnext l₁.getLast? (s.rnext p)) p none := by
    funext q
    rw [hs₂]
    by_cases hqp : q = p
    · rw [hqp, update_self, Sys.rnext, setproc_self]
    · rw [update_of_ne hqp, Sys.rnext, setproc_ne hqp, ← Sys.rnext, setrnext_rnext]
      rfl
  have hscheds : s₂.scheds = s.scheds := by
    rw [hs₂]
    exact setrnext_scheds ..
  have hfield : ∀ {β : Type} (g : Proc nproc → β), (∀ q r, g { q with rnext := r } = g q) →
      ∀ q, g (s₂.procs q) = g (s.procs q) := by
    intro β g h q
    rw [hs₂, setproc_field g (h _ _), setrnext_field g h]
  have hlen : (L (j, i)).length = (l₁ ++ l₂).length + 1 := by
    rw [hl, List.length_append, List.length_append, List.length_cons, Nat.add_assoc]
  have hhead : (s.queue j i).head ≠ none := by
    have := (hr.queues.chain (j, i)).head
    rw [hl] at this
    change s.head (j, i) ≠ none
    rw [← this, ne_eq, List.head?_eq_none_iff]
    exact List.append_ne_nil_of_right_ne_nil _ (List.cons_ne_nil p l₂)
  rw [← hs₂]
  refine ⟨⟨hr.write hq hnext (qs_unlink hscheds ..) (update_rehead ..) ?_ ?_,
    hfield Proc.sch fun _ _ => rfl, hfield Proc.state fun _ _ => rfl⟩, fun hj k hb => ?_,
    fun hj hb => hb.stray hscheds rfl (Ne.symm hj)⟩
  · change update s.tail (j, i) (if s.rnext p = none then l₁.getLast? else s.tail (j, i)) = _
    split_ifs
    · rfl
    · exact update_eq_self ..
  · rw [hlen] at hcount
    have hn : (s.queue j i).n = ((l₁ ++ l₂).length + 1 : Nat) := hcount
    simp only [hn]
    omega
  · have hj : (s.procs p).sch = j := hj
    rw [if_pos hj, hj]
    exact hb.unlink hscheds rfl hhead

end NixMark.Runq
