import Mathlib.Algebra.Order.BigOperators.Group.Finset
import NixMark.Runq.Books

/-!
# Runs of the scheduler

* `Inv`: the queues are lists on which the ready processes are, and the books are right.
* `ready_spec`, `rebalance_spec`: it is kept. `runqs_spec`: the process that `runproc` takes, and
  `Native`: it is not one that is wired to a processor of another scheduler.
* `booked_iff_native`: in every run that takes only such processes the books are right, and the next
  step keeps them right exactly when it does too.
-/

namespace NixMark.Runq

open Lib

variable {nproc : Nat} {s s' : Sys nproc} {p q : Fin nproc} {c : Clock} {m : Nat} {i : Pri}
  {L : Key → List (Fin nproc)} {l₁ l₂ : List (Fin nproc)}

def Inv (s : Sys nproc) : Prop :=
  ∃ L, Rep s L ∧ Placed s.sch s.rdy L ∧ ∀ k, Books s k

theorem Inv.same (hi : Inv s) (h : Same s s') : Inv s' := by
  obtain ⟨L, hr, hp, hb⟩ := hi
  exact ⟨L, h.rep hr, hp.congr h.sch h.rdy, fun k => h.books (hb k)⟩

theorem Rep.length_le (hr : Rep s L) (k : Key) : (L k).length ≤ nproc := by
  have := (hr.queues.nodup k).length_le_card
  rwa [Fintype.card_fin] at this

theorem off_of_not_rdy (hp : Placed s.sch s.rdy L) (h : ¬ s.rdy p) (k : Key) : p ∉ L k :=
  fun hk => h ((hp.ready p).mpr ⟨k, hk⟩)

/-- Changes of processes that leave their links. -/
theorem Rep.congr (hr : Rep s L) (hn : ∀ q, s'.rnext q = s.rnext q) (h : s'.scheds = s.scheds) :
    Rep s' L := by
  have hqs : s'.qs = s.qs := by
    funext k
    rw [Sys.qs, Sys.queue, h]
    rfl
  have hnext : s'.rnext = s.rnext := funext hn
  refine ⟨?_, fun k => by rw [hqs]; exact hr.count k⟩
  have hq := hr.queues
  unfold Sys.head Sys.tail at *
  rwa [hnext, hqs]

theorem Rep.setproc {f : Proc nproc → Proc nproc} (hr : Rep s L)
    (hn : (f (s.procs p)).rnext = (s.procs p).rnext) : Rep (s.setproc p f) L :=
  hr.congr (setproc_field Proc.rnext hn) rfl

theorem Books.congr {k : Nat} (hb : Books s k) (h : s'.scheds = s.scheds) : Books s' k where
  nrdy := by
    unfold Sys.queue
    rw [h]
    exact hb.nrdy
  runvec i := by
    rw [Sys.queue, h]
    exact hb.runvec i

variable {l : List (Fin nproc)}

/-- A process that was on no queue is on one. -/
theorem Inv.put {key : Key} (hr : Rep s' (Function.update L key l)) (hb : ∀ k, Books s' k)
    (hp : Placed s.sch s.rdy L) (hl : ∀ q, q ∈ l ↔ q = p ∨ q ∈ L key) (hk : s.sch p = key.1)
    (hsch : ∀ q, s'.sch q = s.sch q) (hrdy : s'.rdy p) (hother : ∀ q, q ≠ p → (s'.rdy q ↔ s.rdy q)) :
    Inv s' := by
  refine ⟨_, hr, (hp.put hl hk).congr (fun q _ => hsch q) fun q => ?_, hb⟩
  by_cases hq : q = p
  · rw [hq]
    exact iff_of_true hrdy (.inr rfl)
  · rw [hother q hq, or_iff_left hq]

/-! ## A process gets ready -/

theorem updatecpu_keeps (c : Clock) (isup : Bool) (q : Proc nproc) :
    (updatecpu c isup q).rnext = q.rnext ∧ (updatecpu c isup q).state = q.state ∧
      (updatecpu c isup q).sch = q.sch := by
  unfold updatecpu
  simp only
  split_ifs <;> exact ⟨rfl, rfl, rfl⟩

theorem updatecpu_same (s : Sys nproc) (p : Fin nproc) (c : Clock) (isup : Bool) :
    Same s (s.setproc p (updatecpu c isup)) := by
  obtain ⟨h₁, h₂, h₃⟩ := updatecpu_keeps c isup (s.procs p)
  exact .setproc h₁ (by rw [h₂]) fun _ => h₃

theorem edfinsert_inv (e : Edf) (hi : Inv s) (h : ¬ s.rdy p) : Inv (edfinsert e s p) := by
  obtain ⟨L, hr, hp, hb⟩ := hi
  have hoff := off_of_not_rdy hp h
  obtain ⟨l₁, l₂, hL, hw, -⟩ := walk_spec (fun q => decide (e.d < deadline (s.procs q)))
    (hr.queues.chain (s.sch p, PriEdf)) (hr.length_le _)
  have hq := hr.queues.insert hL hoff
  have hcount := hr.count (s.sch p, PriEdf)
  have hchain := (hr.queues.chain (s.sch p, PriEdf)).head
  have htail := hr.queues.tail (s.sch p, PriEdf)
  rw [hL] at hcount hchain htail
  unfold edfinsert
  simp only [show walk s.rnext (fun q => decide (e.d < deadline (s.procs q))) nproc none
    (s.queue (s.procs p).sch PriEdf).head = (l₁.getLast?, l₂.head?) from hw]
  obtain ⟨s₂, hs₂⟩ : ∃ s₂, s₂ = (s.setproc p fun q => { q with rnext := l₂.head? }).setrnext
      l₁.getLast? (some p) := ⟨_, rfl⟩
  have hnext : s₂.rnext = relink (Function.update s.rnext p l₂.head?) l₁.getLast? (some p) := by
    rw [hs₂, setrnext_rnext]
    refine congrArg (relink · _ _) (funext fun q => ?_)
    by_cases hqp : q = p
    · rw [hqp, Function.update_self, Sys.rnext, setproc_self]
    · rw [Function.update_of_ne hqp, Sys.rnext, setproc_ne hqp, Sys.rnext]
  have hscheds : s₂.scheds = s.scheds := by
    rw [hs₂, setrnext_scheds]
    rfl
  have hfield : ∀ {β : Type} (g : Proc nproc → β), (∀ q r, g { q with rnext := r } = g q) →
      ∀ q, g (s₂.procs q) = g (s.procs q) := by
    intro β g h q
    rw [hs₂, setrnext_field g h]
    exact setproc_field g (h _ _) q
  rw [← hs₂]
  have hrep : Rep (s₂.setsched (s.sch p) (Sched.link PriEdf
      ⟨if l₁.getLast? = none then some p else s.head (s.sch p, PriEdf),
        if l₂.head? = none then some p else s.tail (s.sch p, PriEdf),
        (s.queue (s.sch p) PriEdf).n + 1⟩)) (Function.update L (s.sch p, PriEdf) (l₁ ++ p :: l₂)) := by
    refine hr.link hq hnext hscheds (update_rehead ..) ?_ ?_
    · simp only [List.head?_eq_none_iff]
      split_ifs
      · rfl
      · exact Function.update_eq_self ..
    · rw [List.length_append, List.length_cons]
      rw [List.length_append] at hcount
      change (s.queue (s.sch p) PriEdf).n = _ at hcount
      simp only [hcount]
      omega
  refine Inv.put (s := s) (hrep.setproc rfl) (fun k => ((hb k).link hscheds rfl ?_).congr rfl) hp
    (fun q => ?_) rfl (fun q => ?_) ?_ fun q hqp => ?_
  · change (if l₁.getLast? = none then some p else s.head (s.sch p, PriEdf)) ≠ none
    split_ifs with hlast
    · exact Option.some_ne_none p
    · rw [← hchain, ne_eq, List.head?_eq_none_iff]
      rw [List.getLast?_eq_none_iff] at hlast
      exact List.append_ne_nil_of_left_ne_nil hlast _
  · rw [hL]
    simp only [List.mem_append, List.mem_cons]
    exact or_left_comm
  · exact (setproc_field Proc.sch rfl q).trans (hfield Proc.sch (fun _ _ => rfl) q)
  · rw [Sys.rdy, setproc_self]
  · rw [Sys.rdy, setproc_ne hqp]
    exact iff_of_eq (congrArg (· = State.Ready) (hfield Proc.state (fun _ _ => rfl) q))

/-- A process that is not dealt with is not ready. -/
theorem edfready_inv (c : Clock) (hi : Inv s) (h : ¬ s.rdy p) :
    Inv (edfready c s p).1 ∧ ((edfready c s p).2 = false → ¬ (edfready c s p).1.rdy p) := by
  have hset : ∀ f : Proc nproc → Proc nproc, (∀ q, (f q).rnext = q.rnext) →
      (f (s.procs p)).state ≠ .Ready → Inv (s.setproc p f) ∧ ¬ (s.setproc p f).rdy p := by
    intro f hn hst
    refine ⟨hi.same (.setproc (hn _) (iff_of_false hst h) fun hp => absurd hp h), ?_⟩
    rwa [Sys.rdy, setproc_self]
  unfold edfready
  cases hedf : (s.procs p).edf with
  | none => exact ⟨hi, fun _ => h⟩
  | some e =>
    simp only
    generalize (if e.sporadic = true then e else e.nextrelease c.now) = e'
    split_ifs
    · have hkept := hset (fun q => { q with
        edf := some { e' with armed := true }
        basepri := PriExtra
        fixedpri := true }) (fun _ => rfl) h
      exact ⟨hkept.1, fun _ => hkept.2⟩
    · have hwait := hset (fun q => { q with
        edf := some { e' with armed := true }
        state := .Waitrelease }) (fun _ => rfl) nofun
      exact ⟨hwait.1, nofun⟩
    · exact ⟨edfinsert_inv _ hi h, nofun⟩
    · exact ⟨edfinsert_inv _ hi h, nofun⟩
    · exact ⟨hi, fun _ => h⟩

theorem ready_inv (c : Clock) (m : Nat) (hi : Inv s) (h : ¬ s.rdy p) :
    ∃ s', ready c m s p = some s' ∧ Inv s' := by
  obtain ⟨hi', h'⟩ := edfready_inv c hi h
  unfold ready
  simp only
  by_cases hr : (edfready c s p).2 = true
  · rw [if_pos hr]
    exact ⟨_, rfl, hi'⟩
  rw [if_neg hr]
  have hnot := h' (Bool.eq_false_iff.mpr hr)
  generalize (edfready c s p).1 = s₁ at *
  have hsame := updatecpu_same s₁ p c (decide (s₁.up m = some p))
  have hi₂ := hi'.same hsame
  rw [← hsame.rdy] at hnot
  generalize s₁.setproc p (updatecpu c (decide (s₁.up m = some p))) = s₂ at *
  obtain ⟨L, hrep, hp, hb⟩ := hi₂
  have hoff := off_of_not_rdy hp hnot
  generalize reprioritize c (s₂.procs p) = pri
  obtain ⟨s₃, hs₃⟩ : ∃ s₃, s₃ = s₂.setproc p fun q => { q with priority := pri, state := .Ready } :=
    ⟨_, rfl⟩
  rw [← hs₃]
  have hrep₃ : Rep s₃ L := hs₃ ▸ hrep.setproc rfl
  have hsch₃ : ∀ q, s₃.sch q = s₂.sch q := fun q => hs₃ ▸ setproc_field Proc.sch rfl q
  obtain ⟨s', hs', hw, hbooks⟩ := linkproc_spec hrep₃ hoff pri
  refine ⟨s', hs', Inv.put hw.rep (fun k => hbooks k ((hb k).congr (by rw [hs₃]; rfl))) hp (fun q => ?_)
    (hsch₃ p).symm (fun q => (hw.sch q).trans (hsch₃ q)) ?_ fun q hq => ?_⟩
  · rw [List.mem_append, List.mem_singleton, or_comm]
  · rw [Sys.rdy, hw.state, hs₃, setproc_self]
  · rw [Sys.rdy, hw.state, hs₃, setproc_ne hq, Sys.rdy]

/-! ## Rebalancing -/

variable {k : Key}

/-- The loop stops in the queue, with the process before it. -/
theorem rescan_spec (hr : Rep s L) (c : Clock) (m : Nat) (i : Pri) (fuel : Nat)
    (pre : List (Fin nproc)) {p : Option (Fin nproc)} (hL : L k = pre ++ l) (hc : Chain s.rnext p l)
    :
    Same s (rescan c m i fuel s pre.getLast? p).1 ∧
      ∀ l' q npri, (rescan c m i fuel s pre.getLast? p).2 = some (l', q, npri) →
        ∃ l₁ l₂, L k = l₁ ++ q :: l₂ ∧ l' = l₁.getLast? := by
  induction fuel generalizing s pre l p with
  | zero => exact ⟨.refl s, nofun⟩
  | succ fuel ih =>
    cases l with
    | nil =>
      rw [show p = none from hc]
      exact ⟨.refl s, nofun⟩
    | cons a l =>
      obtain ⟨rfl, hc⟩ := hc
      rw [rescan]
      have hsame := updatecpu_same s a c (decide (s.up m = some a))
      generalize s.setproc a (updatecpu c (decide (s.up m = some a))) = s₁ at *
      split_ifs with hpri
      · refine ⟨hsame, ?_⟩
        rintro _ _ _ ⟨⟩
        exact ⟨pre, l, hL, rfl⟩
      · have hL' : L k = (pre ++ [a]) ++ l := by
          rw [hL, List.append_assoc, List.singleton_append]
        have hc' : Chain s₁.rnext (s₁.procs a).rnext l := by
          have hn : (s₁.procs a).rnext = s.rnext a := hsame.rnext a
          rw [hn]
          exact hc.congr fun b _ => hsame.rnext b
        have := ih (hsame.rep hr) (pre ++ [a]) hL' hc'
        rw [List.getLast?_concat] at this
        exact ⟨hsame.trans this.1, this.2⟩

variable (stray : Nat → Pri → Nat → BitVec 32)

/-- The lists without the process `p`. -/
theorem Rep.take (hr : Rep s L) (hp : Placed s.sch s.rdy L) (hL : L k = l₁ ++ p :: l₂) :
    Placed s.sch (fun q => s.rdy q ∧ q ≠ p) (Function.update L k (l₁ ++ l₂)) := by
  have hpk : p ∈ L k := hL ▸ List.mem_append_right _ List.mem_cons_self
  have hnodup := hr.queues.nodup k
  rw [hL] at hnodup
  have hpl := (List.nodup_cons.mp (List.perm_middle.nodup_iff.mp hnodup)).1
  refine hp.take (fun q => ?_) fun k' hk' hpk' => hk' (hr.queues.apart hpk' hpk)
  rw [hL, List.mem_append, List.mem_append, List.mem_cons]
  constructor
  · intro hq
    exact ⟨ne_of_mem_of_not_mem (List.mem_append.mpr hq) hpl, hq.imp_right .inr⟩
  · rintro ⟨hqp, hq⟩
    exact hq.imp_right fun hq => hq.resolve_left hqp

/-- A process moves from a queue to another one of its scheduler. -/
theorem Inv.move (hr : Rep s L) (hp : Placed s.sch s.rdy L) (hb : ∀ k, Books s k)
    (hL : L k = l₁ ++ p :: l₂) (pri : Pri) :
    ∃ s', linkproc (unlinkproc stray s k.1 k.2 l₁.getLast? p) p pri = some s' ∧ Inv s' := by
  obtain ⟨hw, hbooks, -⟩ := unlinkproc_spec stray hr (j := k.1) (i := k.2) hL
  have hpk : p ∈ L k := hL ▸ List.mem_append_right _ List.mem_cons_self
  have htake := hr.take hp hL
  have hsch := hp.home hpk
  have hbooks' := fun k' => hbooks hsch k' (hb k')
  generalize unlinkproc stray s k.1 k.2 l₁.getLast? p = s₁ at *
  have hoff : ∀ k', p ∉ Function.update L k (l₁ ++ l₂) k' := fun k' hk' =>
    absurd rfl ((htake.ready p).mpr ⟨k', hk'⟩).2
  obtain ⟨s', hs', hw', hb'⟩ := linkproc_spec hw.rep hoff pri
  have hmem : ∀ q, q ∈ Function.update L k (l₁ ++ l₂) (s₁.sch p, pri) ++ [p] ↔
      q = p ∨ q ∈ Function.update L k (l₁ ++ l₂) (s₁.sch p, pri) := fun q => by
    rw [List.mem_append, List.mem_singleton, or_comm]
  have hput := htake.put hmem (hw.sch p).symm
  refine ⟨s', hs', _, hw'.rep, hput.congr (fun q _ => (hw'.sch q).trans (hw.sch q)) fun q => ?_,
    fun k' => hb' k' (hbooks' k')⟩
  rw [Sys.rdy, hw'.state, hw.state, ← Sys.rdy]
  by_cases hq : q = p
  · rw [hq]
    exact iff_of_true ((hp.ready p).mpr ⟨k, hpk⟩) (.inr rfl)
  · simp only [hq, ne_eq, not_false_eq_true, and_true, or_false]

theorem again_inv (c : Clock) (m : Nat) (i : Pri) (fuel : Nat) (hi : Inv s) :
    ∃ s', again stray c m i fuel s = some s' ∧ Inv s' := by
  induction fuel generalizing s with
  | zero => exact ⟨s, rfl, hi⟩
  | succ fuel ih =>
    obtain ⟨L, hr, hp, hb⟩ := hi
    obtain ⟨hsame, hfound⟩ := rescan_spec hr c m i nproc [] rfl (hr.queues.chain (msch m, i))
    rw [again]
    rw [show s.head (msch m, i) = (s.queue (msch m) i).head from rfl] at hsame hfound
    rw [List.getLast?_nil] at hsame hfound
    generalize rescan c m i nproc s none (s.queue (msch m) i).head = r at *
    obtain ⟨s₁, r⟩ := r
    cases r with
    | none => exact ⟨s₁, rfl, L, hsame.rep hr, hp.congr hsame.sch hsame.rdy,
        fun k => hsame.books (hb k)⟩
    | some r =>
      obtain ⟨l, q, npri⟩ := r
      obtain ⟨l₁, l₂, hL, rfl⟩ := hfound l q npri rfl
      obtain ⟨s₂, hs₂, hi₂⟩ := Inv.move stray (hsame.rep hr) (hp.congr hsame.sch hsame.rdy)
        (fun k => hsame.books (hb k)) hL npri
      simp only [hs₂, Option.bind_some]
      exact ih hi₂

theorem rebalance_inv (c : Clock) (m : Nat) (hi : Inv s) :
    ∃ s', rebalance stray c m s = some s' ∧ Inv s' := by
  unfold rebalance
  generalize (List.finRange Nrq).take Npriq = l
  induction l generalizing s with
  | nil => exact ⟨s, rfl, hi⟩
  | cons i l ih =>
    obtain ⟨s₁, hs₁, hi₁⟩ := again_inv stray c m i nproc hi
    rw [List.foldlM_cons, hs₁]
    exact ih hi₁

/-- A scheduler changes apart from its queues. -/
theorem Same.setsched {k : Nat} {f : Sched nproc → Sched nproc}
    (hn : (f (s.scheds k)).nrdy = (s.scheds k).nrdy) (hq : (f (s.scheds k)).runq = (s.scheds k).runq)
    (hv : (f (s.scheds k)).runvec = (s.scheds k).runvec) : Same s (s.setsched k f) where
  rnext _ := rfl
  rdy _ := Iff.rfl
  sch _ _ := rfl
  nrdy k' := by
    by_cases hk : k' = k
    · rw [hk, setsched_self, hn]
    · rw [setsched_ne hk]
  runq k' := by
    by_cases hk : k' = k
    · rw [hk, setsched_self, hq]
    · rw [setsched_ne hk]
  runvec k' := by
    by_cases hk : k' = k
    · rw [hk, setsched_self, hv]
    · rw [setsched_ne hk]

theorem balance_inv (c : Clock) (m : Nat) (hi : Inv s) :
    ∃ s', balance stray c m s = some s' ∧ Inv s' := by
  unfold balance
  simp only
  have hi₁ := hi.same (Same.setsched (k := msch m) (f := fun sch =>
    { sch with nruns := sch.nruns + 1 }) rfl rfl rfl)
  split_ifs
  · obtain ⟨s', hs', hi'⟩ := rebalance_inv stray c m hi₁
    rw [hs']
    exact ⟨_, rfl, hi'.same (.setsched rfl rfl rfl)⟩
  · exact ⟨_, rfl, hi₁⟩

/-! ## The process that runs next -/

/-- Its state is saved, and it is wired to a processor of another scheduler. -/
def Foreign (p : Proc nproc) : Prop := p.mach = none ∧ ∃ w, p.wired = some w ∧ p.sch ≠ msch w

/-- Affinity counts in the first loop over a queue. -/
def affine (m : Nat) (s : Sys nproc) : Bool := (s.scheds (msch m)).nruns % Nbalance ≠ 0

/-- Every process of the queues that is wired to a processor of another scheduler stands behind one
that runs before it. -/
def Native (m : Nat) (s : Sys nproc) : Prop :=
  ∀ i l₁ p l₂, Chain s.rnext (s.queue (msch m) i).head (l₁ ++ p :: l₂) → Foreign (s.procs p) →
    (∃ q ∈ l₁, takes m (affine m s) (s.procs q) = true) ∨
      ∃ i' q, i < i' ∧ Follows s.rnext (s.queue (msch m) i').head q ∧
        takes m false (s.procs q) = true

theorem Foreign.takes {p : Proc nproc} (h : Foreign p) (m : Nat) (affinity : Bool) :
    takes m affinity p = true := by
  obtain ⟨hmach, w, hw, hne⟩ := h
  simp only [Runq.takes, hmach, hw, decide_true, Bool.true_and, decide_eq_true hne, Bool.true_or]

theorem takes_false {p : Proc nproc} {affinity : Bool} (h : takes m affinity p = true) :
    takes m false p = true := by
  cases affinity with
  | false => exact h
  | true =>
    unfold takes at *
    cases hw : p.wired with
    | some w => simpa only [hw] using h
    | none =>
      simp only [hw, Bool.and_eq_true] at h
      simp only [Bool.not_false, Bool.or_true, Bool.true_or, Bool.and_true, h.1]

theorem rqrunproc_chain {m : Nat} {i : Pri} (hc : Chain s.rnext (s.head (msch m, i)) l)
    (hlen : l.length ≤ nproc) (a : Bool) :
    (rqrunproc stray s m i a = none ∧ ∀ q ∈ l, takes m a (s.procs q) = false) ∨
      ∃ l₁ p l₂, l = l₁ ++ p :: l₂ ∧
        rqrunproc stray s m i a = some (unlinkproc stray (s.setproc p rewire) (msch m) i
          l₁.getLast? p, p) ∧
        takes m a (s.procs p) = true ∧ ∀ q ∈ l₁, takes m a (s.procs q) = false := by
  obtain ⟨l₁, l₂, hL, hw, h₁, h₂⟩ := walk_spec (fun p => takes m a (s.procs p)) hc hlen
  unfold rqrunproc
  rw [show walk s.rnext (fun p => takes m a (s.procs p)) nproc none (s.queue (msch m) i).head =
    (l₁.getLast?, l₂.head?) from hw]
  cases l₂ with
  | nil =>
    rw [List.append_nil] at hL
    exact .inl ⟨rfl, by rwa [hL]⟩
  | cons p l₂ => exact .inr ⟨l₁, p, l₂, hL, rfl, h₂ p rfl, h₁⟩

theorem rqrunproc_spec (hr : Rep s L) (m : Nat) (i : Pri) (a : Bool) :
    (rqrunproc stray s m i a = none ∧ ∀ q ∈ L (msch m, i), takes m a (s.procs q) = false) ∨
      ∃ l₁ p l₂, L (msch m, i) = l₁ ++ p :: l₂ ∧
        rqrunproc stray s m i a = some (unlinkproc stray (s.setproc p rewire) (msch m) i
          l₁.getLast? p, p) ∧
        takes m a (s.procs p) = true ∧ ∀ q ∈ l₁, takes m a (s.procs q) = false :=
  rqrunproc_chain stray (hr.queues.chain (msch m, i)) (hr.length_le _) a

/-- The process `p` of the queue `i` is the one that runs next. -/
structure Picks (m : Nat) (s : Sys nproc) (L : Key → List (Fin nproc)) (i : Pri)
    (l₁ : List (Fin nproc)) (p : Fin nproc) (l₂ : List (Fin nproc)) : Prop where
  queue : L (msch m, i) = l₁ ++ p :: l₂
  above : ∀ i', i < i' → ∀ q ∈ L (msch m, i'), takes m false (s.procs q) = false
  before : ∀ q ∈ l₁, takes m (affine m s) (s.procs q) = false
  taken : takes m false (s.procs p) = true
  first : takes m (affine m s) (s.procs p) = true ∨
    ∀ q ∈ L (msch m, i), takes m (affine m s) (s.procs q) = false

/-- The queues that are not in the list were looked at. -/
theorem runqs_spec (hr : Rep s L) (m : Nat) {is : List Pri} (hd : is.Pairwise (· > ·))
    (hseen : ∀ i, i ∉ is → ∀ q ∈ L (msch m, i), takes m false (s.procs q) = false) :
    (runqs stray s m is = none ∧ ∀ i, ∀ q ∈ L (msch m, i), takes m false (s.procs q) = false) ∨
    ∃ i l₁ p l₂, Picks m s L i l₁ p l₂ ∧ runqs stray s m is =
      some (unlinkproc stray (s.setproc p rewire) (msch m) i l₁.getLast? p, p) := by
  induction is with
  | nil => exact .inl ⟨rfl, fun i => hseen i List.not_mem_nil⟩
  | cons i is ih =>
    obtain ⟨hi, hd⟩ := List.pairwise_cons.mp hd
    have habove : ∀ i', i < i' → ∀ q ∈ L (msch m, i'), takes m false (s.procs q) = false := by
      intro i' hlt
      refine hseen i' fun hmem => ?_
      rcases List.mem_cons.mp hmem with rfl | hmem
      · exact lt_irrefl _ hlt
      · exact lt_asymm hlt (hi i' hmem)
    -- the loop without affinity, after one with it or alone
    have hsecond : (affine m s = false ∨ ∀ q ∈ L (msch m, i), takes m true (s.procs q) = false) →
        (rqrunproc stray s m i false = none ∧
          ∀ q ∈ L (msch m, i), takes m false (s.procs q) = false) ∨
        ∃ l₁ p l₂, Picks m s L i l₁ p l₂ ∧ rqrunproc stray s m i false =
          some (unlinkproc stray (s.setproc p rewire) (msch m) i l₁.getLast? p, p) := by
      intro haff
      refine (rqrunproc_spec stray hr m i false).imp_right ?_
      rintro ⟨l₁, p, l₂, hL, hrun, hp, hl₁⟩
      cases ha : affine m s with
      | false =>
        exact ⟨l₁, p, l₂, ⟨hL, habove, by rwa [ha], hp, .inl (by rwa [ha])⟩, hrun⟩
      | true =>
        have hnone := haff.resolve_left (by rw [ha]; exact Bool.noConfusion)
        refine ⟨l₁, p, l₂, ⟨hL, habove, ?_, hp, .inr (by rwa [ha])⟩, hrun⟩
        rw [ha]
        exact fun q hq => hnone q (hL ▸ List.mem_append_left _ hq)
    have hnext : (∀ q ∈ L (msch m, i), takes m false (s.procs q) = false) → ∀ i', i' ∉ is →
        ∀ q ∈ L (msch m, i'), takes m false (s.procs q) = false := by
      intro hnone i' hi'
      by_cases h : i' = i
      · rwa [h]
      · exact hseen i' fun hmem => hi' ((List.mem_cons.mp hmem).resolve_left h)
    rw [runqs]
    by_cases ha : affine m s = true
    · rw [if_pos (of_decide_eq_true ha)]
      rcases rqrunproc_spec stray hr m i true with ⟨hrun, hnone⟩ | ⟨l₁, p, l₂, hL, hrun, hp, hl₁⟩
      · rw [hrun]
        rcases hsecond (.inr hnone) with ⟨hrun, hnone⟩ | ⟨l₁, p, l₂, hpick, hrun⟩
        · rw [hrun]
          exact ih hd (hnext hnone)
        · rw [hrun]
          exact .inr ⟨i, l₁, p, l₂, hpick, rfl⟩
      · rw [hrun]
        refine .inr ⟨i, l₁, p, l₂, ⟨hL, habove, ?_, takes_false hp, .inl ?_⟩, rfl⟩
        · rwa [ha]
        · rwa [ha]
    · rw [if_neg (fun h => ha (decide_eq_true h))]
      rcases hsecond (.inl (Bool.eq_false_iff.mpr ha)) with ⟨hrun, hnone⟩ | ⟨l₁, p, l₂, hpick, hrun⟩
      · rw [hrun]
        exact ih hd (hnext hnone)
      · rw [hrun]
        exact .inr ⟨i, l₁, p, l₂, hpick, rfl⟩

theorem Picks.native_iff (hr : Rep s L) (h : Picks m s L i l₁ p l₂) :
    Native m s ↔ ¬ Foreign (s.procs p) := by
  constructor
  · intro hn hf
    have hc := hr.queues.chain (msch m, i)
    rw [h.queue] at hc
    rcases hn i l₁ p l₂ hc hf with ⟨q, hq, ht⟩ | ⟨i', q, hlt, hq, ht⟩
    · rw [h.before q hq] at ht
      cases ht
    · rw [h.above i' hlt q ((hr.queues.chain (msch m, i')).mem_of_follows hq)] at ht
      cases ht
  · intro hf i' l p' l' hc hf'
    have hL := (hr.queues.chain (msch m, i')).unique hc
    have ht := hf'.takes m
    have hp' : p' ∈ L (msch m, i') := hL ▸ List.mem_append_right _ List.mem_cons_self
    rcases lt_trichotomy i' i with hlt | rfl | hlt
    · refine .inr ⟨i, p, hlt, ?_, h.taken⟩
      exact (hr.queues.chain (msch m, i)).follows
        (h.queue ▸ List.mem_append_right _ List.mem_cons_self)
    · -- `p` stands before `p'`
      refine .inl ⟨p, ?_, ?_⟩
      · rw [h.queue] at hL
        rcases List.append_eq_append_iff.mp hL with ⟨a, hl, ha⟩ | ⟨a, hl, ha⟩
        · cases a with
          | nil =>
            cases ha
            exact absurd hf' hf
          | cons b a =>
            cases ha
            exact hl ▸ List.mem_append_right _ List.mem_cons_self
        · cases a with
          | nil =>
            cases ha
            exact absurd hf' hf
          | cons b a =>
            cases ha
            have hb : p' ∈ l₁ := hl ▸ List.mem_append_right _ List.mem_cons_self
            have := (h.before p' hb).symm.trans (ht (affine m s))
            cases this
      · rcases h.first with h₁ | h₁
        · exact h₁
        · have := (h₁ p' hp').symm.trans (ht (affine m s))
          cases this
    · have := (h.above i' hlt p' hp').symm.trans (ht false)
      cases this

theorem rewire_keeps (p : Proc nproc) :
    (rewire p).rnext = p.rnext ∧ (rewire p).state = p.state := by
  unfold rewire
  cases p.wired <;> exact ⟨rfl, rfl⟩

theorem rewire_sch {p : Proc nproc} {affinity : Bool} (h : takes m affinity p = true)
    (hp : p.sch = msch m) (hf : ¬ Foreign p) : (rewire p).sch = p.sch := by
  unfold rewire
  cases hw : p.wired with
  | none => rfl
  | some w =>
    simp only [takes, hw, Bool.and_eq_true, Bool.or_eq_true, decide_eq_true_eq] at h
    obtain ⟨hmach, hne | rfl⟩ := h
    · exact absurd ⟨hmach, w, hw, hne⟩ hf
    · exact hp.symm

theorem rewire_foreign {p : Proc nproc} (hf : Foreign p) (hp : p.sch = msch m) :
    (rewire p).sch ≠ msch m := by
  obtain ⟨-, w, hw, hne⟩ := hf
  unfold rewire
  rw [hw]
  exact fun h => hne (hp.trans h.symm)

/-- The process `p` is taken off and gets another state. -/
structure Turn (p : Fin nproc) (s s' : Sys nproc) : Prop where
  rnext : ∀ q, s'.rnext q = s.rnext q
  sch : ∀ q, s'.sch q = s.sch q
  state : ∀ q, q ≠ p → (s'.procs q).state = (s.procs q).state
  scheds : s'.scheds = s.scheds

theorem Turn.refl (p : Fin nproc) (s : Sys nproc) : Turn p s s :=
  ⟨fun _ => rfl, fun _ => rfl, fun _ _ => rfl, rfl⟩

theorem Turn.setproc {f : Proc nproc → Proc nproc} (h : Turn p s s')
    (hn : (f (s'.procs p)).rnext = (s'.procs p).rnext)
    (hs : (f (s'.procs p)).sch = (s'.procs p).sch) : Turn p s (s'.setproc p f) where
  rnext q := (setproc_field Proc.rnext hn q).trans (h.rnext q)
  sch q := (setproc_field Proc.sch hs q).trans (h.sch q)
  state q hq := by rw [setproc_ne hq, h.state q hq]
  scheds := h.scheds

/-- The process of the queue `k` runs. -/
theorem Inv.run {s₁ s₂ : Sys nproc} (hr : Rep s L) (hp : Placed s.sch s.rdy L)
    (hw : Wrote s s₁ L k (l₁ ++ l₂)) (hL : L k = l₁ ++ p :: l₂) (ht : Turn p s₁ s₂)
    (hst : ¬ s₂.rdy p) (hb : ∀ k, Books s₁ k) : Inv s₂ := by
  have hpk : p ∈ L k := hL ▸ List.mem_append_right _ List.mem_cons_self
  refine ⟨_, hw.rep.congr ht.rnext ht.scheds, (hr.take hp hL).congr
    (fun q _ => (ht.sch q).trans (hw.sch q)) fun q => ?_, fun k => (hb k).congr ht.scheds⟩
  by_cases hq : q = p
  · rw [hq]
    exact iff_of_false hst fun h => h.2 rfl
  · rw [Sys.rdy, ht.state q hq, hw.state, ← Sys.rdy]
    exact (and_iff_left hq).symm

/-- After `balance`, the step of `sched` keeps the books exactly when the process that runs next is
no foreign one. -/
theorem sched_spec (c : Clock) (m : Nat) (hi : Inv s) :
    ∃ s₁ s', balance stray c m s = some s₁ ∧ sched stray c m s = some s' ∧
      (Native m s₁ → Inv s') ∧
      (¬ Native m s₁ → (s'.scheds (msch m)).nrdy ≠ ∑ i, (s'.queue (msch m) i).n) := by
  obtain ⟨s₁, hs₁, hi₁⟩ := balance_inv stray c m hi
  unfold sched runproc
  simp only [hs₁, Option.map_some]
  obtain ⟨L, hr, hp, hb⟩ := hi₁
  have hd : (List.finRange Nrq).reverse.Pairwise (· > ·) :=
    List.pairwise_reverse.mpr (List.pairwise_lt_finRange Nrq)
  rcases runqs_spec stray hr m hd fun i hi =>
    absurd (List.mem_reverse.mpr (List.mem_finRange i)) hi with ⟨hrun, hnone⟩ | hpick
  · refine ⟨s₁, s₁, rfl, by rw [hrun], fun _ => ⟨L, hr, hp, hb⟩, fun hn => absurd ?_ hn⟩
    intro i l₁ p l₂ hc hf
    have hL := (hr.queues.chain (msch m, i)).unique hc
    have := hnone i p (hL ▸ List.mem_append_right _ List.mem_cons_self)
    rw [hf.takes] at this
    cases this
  · obtain ⟨i, l₁, p, l₂, hpick, hrun⟩ := hpick
    have hL := hpick.queue
    have hmem : p ∈ L (msch m, i) := hL ▸ List.mem_append_right _ List.mem_cons_self
    have hhome : (s₁.procs p).sch = msch m := hp.home hmem
    obtain ⟨hw, hkeep, hlose⟩ := unlinkproc_spec stray (j := msch m) (i := i)
      (hr.setproc (p := p) (f := rewire) (rewire_keeps _).1) hL
    have hsch : (s₁.setproc p rewire).sch p = (rewire (s₁.procs p)).sch := by
      rw [Sys.sch, setproc_self]
    simp only [hrun]
    obtain ⟨s₂, hs₂⟩ : ∃ s₂, s₂ = unlinkproc stray (s₁.setproc p rewire) (msch m) i l₁.getLast? p :=
      ⟨_, rfl⟩
    rw [← hs₂] at hw hkeep hlose ⊢
    refine ⟨s₁, _, rfl, rfl, fun hn => ?_, fun hn => ?_⟩
    · rw [hpick.native_iff hr] at hn
      have hsame : Same s₁ (s₁.setproc p rewire) :=
        .setproc (rewire_keeps _).1 (by rw [(rewire_keeps _).2]) fun _ =>
          rewire_sch hpick.taken hhome hn
      refine Inv.run (hsame.rep hr) (hp.congr hsame.sch hsame.rdy) hw hL (p := p) ?_ ?_
        (hkeep (hsch.trans ((rewire_sch hpick.taken hhome hn).trans hhome)) · (hsame.books (hb _)))
      · have h₁ := (Turn.refl p s₂).setproc (f := fun q =>
          { q with state := .Scheding, mp := some m }) rfl rfl
        generalize s₂.setproc p _ = s₃ at h₁ ⊢
        have hcpu := updatecpu_keeps c (decide (s₃.up m = some p)) (s₃.procs p)
        have h₂ := (h₁.setproc hcpu.1 hcpu.2.2).setproc (f := fun q =>
          { q with priority := reprioritize c q, state := .Running, mach := some m }) rfl rfl
        exact ⟨h₂.rnext, h₂.sch, h₂.state, h₂.scheds⟩
      · simp only [Sys.rdy, setproc_self]
        exact State.noConfusion
    · rw [hpick.native_iff hr, not_not] at hn
      exact hlose (hsch ▸ rewire_foreign hn hhome) ((hb _).congr rfl)

/-! ## Runs -/

/-- What the processors do; `other` is what the rest of the kernel does to a process. -/
inductive Act (nproc : Nat) where
  | ready (c : Clock) (m : Nat) (p : Fin nproc)
  | sched (c : Clock) (m : Nat)
  | leave (m : Nat)
  | execsched (m : Nat)
  | procwired (w : Option Nat) (p : Fin nproc)
  | procpriority (pri : Int) (fixed : Bool) (p : Fin nproc)
  | other (p : Fin nproc) (q : Proc nproc)

/-- `none` is a panic. -/
def Act.run (nsched : Nat) (s : Sys nproc) : Act nproc → Option (Sys nproc)
  | .ready c m p => Runq.ready c m s p
  | .sched c m => Runq.sched stray c m s
  | .leave m => some (Runq.leave m s)
  | .execsched m => some (Runq.execsched nsched m s)
  | .procwired w p => some (s.setproc p (Runq.procwired w))
  | .procpriority pri fixed p => some (s.setproc p (Runq.procpriority pri fixed))
  | .other p q => some (s.setproc p fun _ => q)

/-- A process that is made ready is not ready yet, and one that calls `execsched` runs. The rest of
the kernel does not change what the scheduler keeps of a ready process, and makes none ready. -/
def Act.Legal (s : Sys nproc) : Act nproc → Prop
  | .ready _ _ p => ¬ s.rdy p
  | .execsched m => ∀ p, s.up m = some p → ¬ s.rdy p
  | .other p q => q.rnext = s.rnext p ∧ (q.state = .Ready ↔ s.rdy p) ∧ (s.rdy p → q.sch = s.sch p)
  | _ => True

/-- `sched` takes no foreign process. -/
def Act.Native (s : Sys nproc) : Act nproc → Prop
  | .sched c m => ∀ s', balance stray c m s = some s' → Runq.Native m s'
  | _ => True

def kernel (nsched : Nat) : Lts (Sys nproc) (Act nproc) where
  init s := (∀ p, (s.procs p).rnext = none ∧ (s.procs p).state ≠ .Ready) ∧
    ∀ k, (s.scheds k).nrdy = 0 ∧ (s.scheds k).runvec = 0 ∧ ∀ i, (s.scheds k).runq i = ⟨none, none, 0⟩
  step s a s' := a.Legal s ∧ a.run stray nsched s = some s'

/-- The counts, the lists and the bits of every scheduler agree, and a process is ready exactly when
it is on one of the queues, and on no other. -/
structure Booked (s : Sys nproc) : Prop where
  nrdy : ∀ k, (s.scheds k).nrdy = ∑ i, (s.queue k i).n
  queue : ∀ k i, ∃ l, Chain s.rnext (s.queue k i).head l ∧ (s.queue k i).n = l.length ∧
    (s.queue k i).tail = l.getLast? ∧ ((s.scheds k).runvec.getLsbD i = true ↔ l ≠ [])
  ready : ∀ p, s.rdy p → ∃ k, Follows s.rnext (s.head k) p ∧
    ∀ k', Follows s.rnext (s.head k') p → k' = k
  queued : ∀ p k, Follows s.rnext (s.head k) p → s.rdy p

theorem Inv.booked (hi : Inv s) : Booked s := by
  obtain ⟨L, hr, hp, hb⟩ := hi
  refine ⟨fun k => (hb k).nrdy, fun k i => ?_, fun p h => ?_, fun p k h => ?_⟩
  · have hc := hr.queues.chain (k, i)
    refine ⟨L (k, i), hc, hr.count (k, i), hr.queues.tail (k, i), ?_⟩
    have hhead : (L (k, i)).head? = (s.queue k i).head := hc.head
    rw [(hb k).runvec i, ← hhead, ne_eq, List.head?_eq_none_iff]
  · obtain ⟨k, hk⟩ := (hp.ready p).mp h
    refine ⟨k, (hr.queues.chain k).follows hk, fun k' h' => ?_⟩
    exact hr.queues.apart ((hr.queues.chain k').mem_of_follows h') hk
  · exact (hp.ready p).mpr ⟨k, (hr.queues.chain k).mem_of_follows h⟩

theorem leave_same (m : Nat) (s : Sys nproc) : Same s (leave m s) := by
  unfold leave
  cases s.up m with
  | none => exact .refl s
  | some p =>
    have := Same.setproc (s := s) (p := p) (f := fun q => { q with mach := none }) rfl Iff.rfl
      fun _ => rfl
    exact ⟨this.rnext, this.rdy, this.sch, this.nrdy, this.runq, this.runvec⟩

theorem execsched_same (nsched m : Nat) (h : ∀ p, s.up m = some p → ¬ s.rdy p) :
    Same s (execsched nsched m s) := by
  unfold execsched
  cases hup : s.up m with
  | none => exact .refl s
  | some p =>
    simp only
    split_ifs
    · exact .refl s
    · cases nextsched s nsched with
      | none => exact ⟨fun _ => rfl, fun _ => Iff.rfl, fun _ _ => rfl, fun _ => rfl, fun _ => rfl,
          fun _ => rfl⟩
      | some k =>
        have := Same.setproc (s := s) (p := p) (f := fun q => { q with sch := k }) rfl Iff.rfl
          fun hp => absurd hp (h p hup)
        exact ⟨this.rnext, this.rdy, this.sch, this.nrdy, this.runq, this.runvec⟩

/-- A step does not panic, and it keeps the books right exactly when it takes no foreign process. -/
theorem Inv.step (nsched : Nat) (hi : Inv s) {a : Act nproc} (ha : a.Legal s) :
    ∃ s', a.run stray nsched s = some s' ∧ (a.Native stray s → Inv s') ∧
      (Booked s' → a.Native stray s) := by
  cases a with
  | ready c m p =>
    obtain ⟨s', hs', hi'⟩ := ready_inv c m hi ha
    exact ⟨s', hs', fun _ => hi', fun _ => trivial⟩
  | sched c m =>
    obtain ⟨s₁, s', hs₁, hs', hn, hf⟩ := sched_spec stray c m hi
    refine ⟨s', hs', fun h => hn (h s₁ hs₁), fun hb s₂ hs₂ => ?_⟩
    cases hs₁.symm.trans hs₂
    by_contra h
    exact hf h (hb.nrdy _)
  | leave m => exact ⟨_, rfl, fun _ => hi.same (leave_same m s), fun _ => trivial⟩
  | execsched m => exact ⟨_, rfl, fun _ => hi.same (execsched_same nsched m ha), fun _ => trivial⟩
  | procwired w p =>
    exact ⟨_, rfl, fun _ => hi.same (.setproc rfl Iff.rfl fun _ => rfl), fun _ => trivial⟩
  | procpriority pri fixed p =>
    exact ⟨_, rfl, fun _ => hi.same (.setproc rfl Iff.rfl fun _ => rfl), fun _ => trivial⟩
  | other p q =>
    exact ⟨_, rfl, fun _ => hi.same (.setproc ha.1 ha.2.1 ha.2.2), fun _ => trivial⟩

theorem Inv.start {s : Sys nproc} (h : (∀ p, (s.procs p).rnext = none ∧ (s.procs p).state ≠ .Ready) ∧
    ∀ k, (s.scheds k).nrdy = 0 ∧ (s.scheds k).runvec = 0 ∧
      ∀ i, (s.scheds k).runq i = ⟨none, none, 0⟩) : Inv s := by
  obtain ⟨hp, hk⟩ := h
  have hq : ∀ k i, s.queue k i = ⟨none, none, 0⟩ := fun k i => (hk k).2.2 i
  have hnil : ∀ {P : Prop} {p : Fin nproc}, p ∈ ([] : List (Fin nproc)) → P := fun h =>
    absurd h List.not_mem_nil
  refine ⟨fun _ => [], ⟨⟨fun k => ?_, fun k => ?_, fun _ => List.nodup_nil, fun h => hnil h,
    fun p _ => (hp p).1⟩, fun k => ?_⟩, ⟨fun h => hnil h, fun p => ?_⟩, fun k => ⟨?_, fun i => ?_⟩⟩
  · rw [Sys.head, Sys.qs, hq]
    rfl
  · rw [Sys.tail, Sys.qs, hq]
    rfl
  · rw [Sys.qs, hq]
    rfl
  · exact iff_of_false (hp p).2 fun h => h.elim fun _ h => hnil h
  · rw [(hk k).1]
    exact (Finset.sum_eq_zero fun i _ => by rw [hq]).symm
  · rw [(hk k).2.1, hq]
    simp

/-- In every run that takes only processes of the same scheduler the books are right, no step
panics, and the next step keeps the books right exactly when it takes such a process too. -/
theorem booked_iff_native {nsched : Nat}
    (h : ((kernel stray nsched).restrict fun s a => a.Native stray s).Reach s) :
    Booked s ∧ ∀ a : Act nproc, a.Legal s → ∃ s', a.run stray nsched s = some s' ∧
      (Booked s' ↔ a.Native stray s) := by
  have hinv : ((kernel stray nsched).restrict fun (s : Sys nproc) a => a.Native stray s).Inductive
      Inv := by
    refine ⟨fun s h0 => Inv.start h0, fun s a s' hi hs => ?_⟩
    obtain ⟨⟨ha, hr⟩, hn⟩ := hs
    obtain ⟨s₁, hs₁, hi₁, -⟩ := hi.step stray nsched ha
    cases hs₁.symm.trans hr
    exact hi₁ hn
  have hi := hinv.reach h
  refine ⟨hi.booked, fun a ha => ?_⟩
  obtain ⟨s', hs', hkeep, hback⟩ := hi.step stray nsched ha
  exact ⟨s', hs', hback, fun hn => (hkeep hn).booked⟩

/-! ## A process that is wired elsewhere -/

private def zero : Nat → Pri → Nat → BitVec 32 := fun _ _ _ => 0

private def clock : Clock := ⟨0, 0, 0, 1, 0⟩

/-- One process, of the first scheduler, before it is ready. -/
private def idle : Sys 1 where
  procs _ := ⟨none, .Scheding, PriExtra, PriExtra, false, 0, 0, none, none, none, none, 0⟩
  scheds _ := ⟨0, fun _ => ⟨none, none, 0⟩, 0, none, 0, 0⟩
  up _ := none
  last := 0

private def only : Fin 1 := ⟨0, Nat.one_pos⟩

/-- It is wired to the processor `w` and made ready on the processor 0. -/
private def woken (w : Nat) : Option (Sys 1) :=
  ready clock 0 (idle.setproc only (procwired (some w))) only

theorem woken_reach {w : Nat} {s : Sys 1} (h : woken w = some s) :
    ((kernel zero 16).restrict fun s a => a.Native zero s).Reach s := by
  have hinit : ((kernel zero 16).restrict fun (s : Sys 1) a => a.Native zero s).Reach idle :=
    ⟨[], .init ⟨fun _ => ⟨rfl, State.noConfusion⟩, fun _ => ⟨rfl, rfl, fun _ => rfl⟩⟩⟩
  have hwired : ((kernel zero 16).restrict fun (s : Sys 1) a => a.Native zero s).Reach
      (idle.setproc 0 (procwired (some w))) :=
    hinit.step (e := .procwired (some w) 0) ⟨⟨trivial, rfl⟩, trivial⟩
  have hidle : ¬ (idle.setproc 0 (procwired (some w))).rdy 0 := by
    rw [Sys.rdy, setproc_self]
    exact State.noConfusion
  exact hwired.step (e := .ready clock 0 0) ⟨⟨hidle, h⟩, trivial⟩

/-- The process is wired to the processor 2, of the second scheduler, which counts a process less. -/
theorem nrdy_stray : ∃ (stray : Nat → Pri → Nat → BitVec 32) (s : Sys 1),
    (kernel stray 16).Reach s ∧ (s.scheds 1).nrdy = -1 ∧ ¬ Booked s := by
  have hrun : ((woken 2).bind (sched zero clock 0)).map (fun s => (s.scheds 1).nrdy) = some (-1) := by
    decide +kernel
  obtain ⟨s', hs', hnrdy⟩ := Option.map_eq_some_iff.mp hrun
  obtain ⟨s, hs, hs'⟩ := Option.bind_eq_some_iff.mp hs'
  refine ⟨zero, s', (woken_reach hs).of_restrict.step (e := .sched clock 0) ⟨trivial, hs'⟩, hnrdy,
    fun hb => ?_⟩
  have hsum : 0 ≤ ∑ i, (s'.queue 1 i).n := by
    refine Finset.sum_nonneg fun i _ => ?_
    obtain ⟨l, -, hn, -⟩ := hb.queue 1 i
    rw [hn]
    exact Int.natCast_nonneg _
  have := hb.nrdy 1
  omega

/-- The process is wired to the processor 1, of the same scheduler as the processor 0. -/
theorem booked_iff_native_wired : ∃ s s' : Sys 1, woken 1 = some s ∧
    sched zero clock 1 s = some s' ∧ s'.up 1 = some 0 ∧ Booked s' := by
  have hrun : ((woken 1).bind (sched zero clock 1)).map (fun s => s.up 1) = some (some 0) := by
    decide +kernel
  have hwoken : (woken 1).map (fun s => ((s.procs 0).wired, (s.procs 0).sch, (s.scheds 0).mp)) =
      some (some 1, 0, none) := by decide +kernel
  obtain ⟨s', hs', hup⟩ := Option.map_eq_some_iff.mp hrun
  obtain ⟨s, hs, hs'⟩ := Option.bind_eq_some_iff.mp hs'
  rw [hs, Option.map_some, Option.some.injEq, Prod.mk.injEq, Prod.mk.injEq] at hwoken
  obtain ⟨hwired, hsch, hmp⟩ := hwoken
  have hnative : (Act.sched clock 1).Native zero s := by
    intro s₁ hs₁ i l₁ p l₂ _ ⟨_, w, hw, hne⟩
    rw [balance, if_neg (by rw [setsched_self]; exact fun h => nomatch hmp.symm.trans h.1)] at hs₁
    cases hs₁
    have hp : p = 0 := Subsingleton.elim p 0
    subst hp
    cases hwired.symm.trans hw
    exact absurd hsch hne
  obtain ⟨s₁, hs₁, hiff⟩ := (booked_iff_native zero (woken_reach hs)).2 (.sched clock 1) trivial
  cases hs₁.symm.trans (show Act.run zero 16 s (.sched clock 1) = some s' from hs')
  exact ⟨s, s', hs, hs', hup, hiff.mpr hnative⟩

end NixMark.Runq
