import NixMark.Lib.Sums
import NixMark.Wait.Pids

/-!
# Children and wait records

* `Proc.Fine`: what `pwait` of one process finds.
* `Kin`: who is whose child, and whose records are in whose queue; `Kin.keep`, `Kin.newpid`,
  `Kin.born`, `Kin.exit`.
* `Kept`: where the records are; `Kept.keep`, `Kept.link`.
-/

namespace NixMark.Wait

open Lib

variable {P : Type}

/-- A live child, without `RFNOWAIT`, of the process of the pid. -/
def Proc.childof (x : Proc P) (pid : Nat) : Bool :=
  x.pc.live && (!x.nowait && decide (x.forkedby = pid))

/-- The records of the process of the pid that `x` has. -/
def Proc.has (x : Proc P) (pid : Nat) : Nat :=
  (if x.pc.keeps then x.waitq.count pid else 0) + if x.pc.holds = some pid then 1 else 0

/-- The record is in the queue, or `pwait` returns with it. -/
def Proc.Own (x : Proc P) (pid : Nat) : Prop := pid ∈ x.waitq ∨ x.pc.holds = some pid

/-- The queue of a process with what it does next. -/
structure Proc.Fine (x : Proc P) : Prop where
  new : x.pc = .fresh ∨ x.pc = .made → x.nchild = 0 ∧ x.nwait = 0 ∧ x.waitq = []
  nwait : x.pc.named = true → x.nwait = x.waitq.length
  sleep : x.pc = .sleep → x.nchild ≠ 0 ∨ x.waitq ≠ []
  asleep : x.pc = .asleep → x.nchild ≠ 0 ∧ x.waitq = []
  take : x.pc = .take → x.waitq ≠ []

variable {x y : Proc P} {k : Pc P}

/-- Nothing is known of a process that does something else, but for the length of its queue. -/
theorem Proc.Fine.of (hnew : x.pc ≠ .fresh ∧ x.pc ≠ .made) (hsleep : x.pc ≠ .sleep)
    (hasleep : x.pc ≠ .asleep) (htake : x.pc ≠ .take)
    (hn : x.pc.named = true → x.nwait = x.waitq.length) : x.Fine where
  new h := h.elim (absurd · hnew.1) (absurd · hnew.2)
  nwait := hn
  sleep h := absurd h hsleep
  asleep h := absurd h hasleep
  take h := absurd h htake

theorem Proc.Fine.plain (h : x.Fine) (hp : Plain x k) : ({ x with pc := k } : Proc P).Fine := by
  have hm := hp.moves
  have hn : k.named = true → x.nwait = x.waitq.length := fun hk => h.nwait (hm.1 ▸ hk)
  cases hp with
  | waits hpc hsome =>
    refine ⟨by simp, hn, fun _ => ?_, by simp, by simp⟩
    by_cases hc : x.nchild = 0
    · exact .inr fun hq => hsome ⟨hc, hq⟩
    · exact .inl hc
  | sleeps hpc hq =>
    refine ⟨by simp, hn, by simp, fun _ => ⟨?_, hq⟩, by simp⟩
    exact (h.sleep hpc).resolve_right fun hne => hne hq
  | awake hpc hq => exact ⟨by simp, hn, by simp, by simp, fun _ => hq⟩
  | _ => exact .of ⟨by simp, by simp⟩ (by simp) (by simp) (by simp) hn

/-- A child goes away without a record: there are enough. -/
theorem Proc.Fine.drop (h : x.Fine) (hnew : x.pc ≠ .fresh ∧ x.pc ≠ .made) (hpid : x.pc.named = true)
    (hfull : ¬x.nwait < 128) : ({ x with nchild := x.nchild - 1 } : Proc P).Fine := by
  have hne : x.waitq ≠ [] := by
    intro hq
    have hn := h.nwait hpid
    rw [hq, List.length_nil] at hn
    omega
  exact ⟨fun hk => hk.elim (absurd · hnew.1) (absurd · hnew.2), h.nwait, fun _ => .inr hne,
    fun hk => absurd (h.asleep hk).2 hne, h.take⟩

/-- A child goes away with a record. -/
theorem Proc.Fine.link (h : x.Fine) (hnew : x.pc ≠ .fresh ∧ x.pc ≠ .made) (hpid : x.pc.named = true)
    (pid : Nat) : ({ x with
      nchild := x.nchild - 1, waitq := pid :: x.waitq, nwait := x.nwait + 1,
      pc := x.pc.roused } : Proc P).Fine := by
  have hn := h.nwait hpid
  refine ⟨fun hk => ?_, fun _ => ?_, fun _ => .inr (List.cons_ne_nil _ _), fun hk => ?_,
    fun _ => List.cons_ne_nil _ _⟩
  · cases hpc : x.pc <;> rw [hpc] at hk hnew <;> simp [Pc.roused] at hk hnew
  · rw [hn, List.length_cons]
    exact (Nat.cast_succ _).symm
  · cases hpc : x.pc <;> rw [hpc] at hk <;> simp [Pc.roused] at hk

variable [Fintype P] {s s' : Sys P} {p q : P}

/-! ## Children -/

/-- The live children without `RFNOWAIT` of the process of the pid. -/
def children (s : Sys P) (pid : Nat) : Nat := ∑ q, if (s.proc q).childof pid then 1 else 0

theorem children_off (s s' : Sys P) (p : P) (pid : Nat)
    (hoff : ∀ q ≠ p, (s'.proc q).childof pid = (s.proc q).childof pid) :
    children s' pid + (if (s.proc p).childof pid then 1 else 0) =
      children s pid + if (s'.proc p).childof pid then 1 else 0 := by
  apply Nat.le_antisymm
  · exact sum_le_of_off (fun q hq => by rw [hoff q hq]) (Nat.add_comm _ _).le
  · exact sum_le_of_off (fun q hq => by rw [hoff q hq]) (Nat.add_comm _ _).le

variable {pid : Nat}

theorem children_same (h : ∀ q, (s'.proc q).childof pid = (s.proc q).childof pid) :
    children s' pid = children s pid := by
  unfold children
  simp only [h]

theorem children_pos (h : (s.proc q).childof pid = true) : 0 < children s pid :=
  Finset.sum_pos' (fun _ _ => Nat.zero_le _) ⟨q, Finset.mem_univ q, by rw [if_pos h]; exact Nat.one_pos⟩

/-- How processes are related, and whose records are in whose queue. -/
structure Kin (s : Sys P) : Prop where
  le : ∀ q, (s.proc q).pc.live = true → (s.proc q).forkedby ≤ s.pidalloc
  self : ∀ q, (s.proc q).pc.live = true → (s.proc q).forkedby ≠ (s.proc q).pid
  wait : ∀ q, (s.proc q).pc.live = true → (s.proc q).nowait = false →
    (s.proc q).parentpid = (s.proc q).forkedby ∧ (s.proc q).forkedby ≠ 0 ∧
      ∀ x, (s.proc x).pid = (s.proc q).forkedby → (s.proc q).parent = some x
  nowait : ∀ q, (s.proc q).pc.live = true → (s.proc q).nowait = true → (s.proc q).parentpid = 0
  origin : ∀ q, (s.proc q).pc.live = true →
    s.origin (s.proc q).pid = ((s.proc q).forkedby, (s.proc q).nowait)
  count : ∀ q, (s.proc q).pc.alive = true → (s.proc q).nchild = children s (s.proc q).pid
  owner : ∀ q, (s.proc q).pid ≠ 0 → ∀ r, (s.proc q).Own r → s.origin r = ((s.proc q).pid, false)

/-- What of a process does not change when it only moves on. -/
structure Same (x y : Proc P) : Prop where
  pid : y.pid = x.pid ∨ y.pid = 0 ∧ y.pc.alive = false
  live : y.pc.live = x.pc.live
  kin : y.pc.live = true → y.pid = x.pid ∧ y.parent = x.parent ∧ y.parentpid = x.parentpid ∧
    y.forkedby = x.forkedby ∧ y.nowait = x.nowait
  nchild : y.pc.alive = true → x.pc.alive = true ∧ y.nchild = x.nchild
  own : ∀ r, y.Own r → x.Own r

omit [Fintype P] in
theorem Same.childof (h : Same x y) : y.childof pid = x.childof pid := by
  unfold Proc.childof
  cases hl : y.pc.live with
  | false => rw [← h.live, hl]; rfl
  | true =>
    obtain ⟨-, -, -, hf, hn⟩ := h.kin hl
    rw [← h.live, hl, hf, hn]

theorem Kin.keep (h : Kin s) (halloc : s'.pidalloc = s.pidalloc) (horigin : s'.origin = s.origin)
    (hsame : ∀ q, Same (s.proc q) (s'.proc q)) : Kin s' where
  le q hq := by
    rw [((hsame q).kin hq).2.2.2.1, halloc]
    exact h.le q ((hsame q).live ▸ hq)
  self q hq := by
    obtain ⟨hpid, -, -, hf, -⟩ := (hsame q).kin hq
    rw [hf, hpid]
    exact h.self q ((hsame q).live ▸ hq)
  wait q hq hn := by
    obtain ⟨-, hpar, hpp, hf, hno⟩ := (hsame q).kin hq
    obtain ⟨h1, h2, h3⟩ := h.wait q ((hsame q).live ▸ hq) (hno ▸ hn)
    refine ⟨by rw [hpp, hf, h1], by rw [hf]; exact h2, fun x hx => ?_⟩
    rw [hf] at hx
    rcases (hsame x).pid with hxp | ⟨hxp, -⟩
    · rw [hpar]
      exact h3 x (hxp ▸ hx)
    · exact absurd (hx.symm.trans hxp) h2
  nowait q hq hn := by
    obtain ⟨-, -, hpp, -, hno⟩ := (hsame q).kin hq
    rw [hpp]
    exact h.nowait q ((hsame q).live ▸ hq) (hno ▸ hn)
  origin q hq := by
    obtain ⟨hpid, -, -, hf, hno⟩ := (hsame q).kin hq
    rw [hpid, hf, hno, horigin]
    exact h.origin q ((hsame q).live ▸ hq)
  count q hq := by
    obtain ⟨hal, hn⟩ := (hsame q).nchild hq
    have hpid : (s'.proc q).pid = (s.proc q).pid := by
      rcases (hsame q).pid with hp | ⟨-, hp⟩
      · exact hp
      · rw [hq] at hp
        cases hp
    rw [hn, h.count q hal, hpid, children_same fun x => (hsame x).childof]
  owner q hq r hr := by
    have hpid : (s'.proc q).pid = (s.proc q).pid := by
      rcases (hsame q).pid with hp | ⟨hp, -⟩
      · exact hp
      · exact absurd hp hq
    rw [hpid] at hq ⊢
    rw [horigin]
    exact h.owner q hq r ((hsame q).own r hr)

variable {child : P}

/-- `newproc` gives the pid: nobody is a child of the new process. -/
theorem Kin.newpid (h : Kin s) (hc : (s.proc child).pc = .fresh) (hfine : (s.proc child).Fine)
    (halloc : s'.pidalloc = s.pidalloc + 1) (horigin : s'.origin = s.origin)
    (hchild : s'.proc child = { s.proc child with pid := s.pidalloc + 1, pc := .made })
    (hsame : ∀ q ≠ child, Same (s.proc q) (s'.proc q)) : Kin s' := by
  have hlive : ∀ q, (s'.proc q).pc.live = true → q ≠ child := by
    rintro q hq rfl
    rw [hchild] at hq
    cases hq
  have hold : ∀ q, (s'.proc q).pc.live = true → (s.proc q).pc.live = true := fun q hq =>
    (hsame q (hlive q hq)).live ▸ hq
  have hcount : ∀ pid, children s' pid = children s pid := by
    intro pid
    apply children_same
    intro q
    by_cases hqc : q = child
    · rw [hqc, hchild]
      unfold Proc.childof
      rw [hc]
      rfl
    · exact (hsame q hqc).childof
  constructor
  · intro q hq
    rw [((hsame q (hlive q hq)).kin hq).2.2.2.1, halloc]
    exact Nat.le_succ_of_le (h.le q (hold q hq))
  · intro q hq
    obtain ⟨hpid, -, -, hf, -⟩ := (hsame q (hlive q hq)).kin hq
    rw [hf, hpid]
    exact h.self q (hold q hq)
  · intro q hq hn
    obtain ⟨-, hpar, hpp, hf, hno⟩ := (hsame q (hlive q hq)).kin hq
    obtain ⟨h1, h2, h3⟩ := h.wait q (hold q hq) (hno ▸ hn)
    refine ⟨by rw [hpp, hf, h1], by rw [hf]; exact h2, fun x hx => ?_⟩
    rw [hf] at hx
    by_cases hxc : x = child
    · rw [hxc, hchild] at hx
      have hle := h.le q (hold q hq)
      exact absurd (hx.trans_le hle) (Nat.not_succ_le_self _)
    · rcases (hsame x hxc).pid with hxp | ⟨hxp, -⟩
      · rw [hpar]
        exact h3 x (hxp ▸ hx)
      · exact absurd (hx.symm.trans hxp) h2
  · intro q hq hn
    obtain ⟨-, -, hpp, -, hno⟩ := (hsame q (hlive q hq)).kin hq
    rw [hpp]
    exact h.nowait q (hold q hq) (hno ▸ hn)
  · intro q hq
    obtain ⟨hpid, -, -, hf, hno⟩ := (hsame q (hlive q hq)).kin hq
    rw [hpid, hf, hno, horigin]
    exact h.origin q (hold q hq)
  · intro q hq
    rw [hcount]
    by_cases hqc : q = child
    · rw [hqc, hchild]
      have hnone : children s (s.pidalloc + 1) = 0 := by
        apply Finset.sum_eq_zero
        intro y _
        rw [if_neg]
        intro hy
        simp only [Proc.childof, Bool.and_eq_true, decide_eq_true_eq] at hy
        have hle := h.le y hy.1
        omega
      change (s.proc child).nchild = ((children s (s.pidalloc + 1) : Nat) : Int)
      rw [hnone, (hfine.new (.inl hc)).1]
      rfl
    · obtain ⟨hal, hn⟩ := (hsame q hqc).nchild hq
      rcases (hsame q hqc).pid with hp | ⟨-, hp⟩
      · rw [hn, hp, h.count q hal]
      · rw [hq] at hp
        cases hp
  · intro q hq r hr
    by_cases hqc : q = child
    · rw [hqc, hchild] at hr
      have hnil : (s.proc child).waitq = [] := (hfine.new (.inl hc)).2.2
      rcases hr with hr | hr
      · change r ∈ (s.proc child).waitq at hr
        rw [hnil] at hr
        cases hr
      · cases hr
    · rcases (hsame q hqc).pid with hp | ⟨hp, -⟩
      · rw [hp] at hq ⊢
        rw [horigin]
        exact h.owner q hq r ((hsame q hqc).own r hr)
      · exact absurd hp hq

/-- The child runs. -/
theorem Kin.born (h : Kin s) (hpids : Pids s) {nowait : Bool}
    (hp : (s.proc p).pc = .born child nowait) (halloc : s'.pidalloc = s.pidalloc)
    (horigin : s'.origin = Function.update s.origin (s.proc child).pid ((s.proc p).pid, nowait))
    (hfree : ∀ q, (s.proc q).pid ≠ 0 → ¬(s.proc q).Own (s.proc child).pid)
    (hchild : s'.proc child = (s.proc child).born p (s.proc p).pid nowait)
    (hup : s'.proc p = { s.proc p with
      nchild := if nowait then (s.proc p).nchild else (s.proc p).nchild + 1, pc := .user })
    (hsame : ∀ q, q ≠ p → q ≠ child → s'.proc q = s.proc q) : Kin s' := by
  have hc := hpids.made p child nowait hp
  have hcp : child ≠ p := by
    rintro rfl
    rw [hp] at hc
    cases hc
  have hup0 : (s.proc p).pid ≠ 0 := (hpids.named p).mpr (by rw [hp]; rfl)
  have hne : (s.proc p).pid ≠ (s.proc child).pid := fun he => hcp (hpids.uniq p child he hup0).symm
  have hpid : ∀ q, (s'.proc q).pid = (s.proc q).pid := by
    intro q
    by_cases hqc : q = child
    · rw [hqc, hchild, Proc.born_pid]
    · by_cases hqp : q = p
      · rw [hqp, hup]
      · rw [hsame q hqp hqc]
  -- nothing else of the processes that lived before is changed
  have hother : ∀ q ≠ child, (s'.proc q).pc.live = (s.proc q).pc.live ∧
      (s'.proc q).parent = (s.proc q).parent ∧ (s'.proc q).parentpid = (s.proc q).parentpid ∧
      (s'.proc q).forkedby = (s.proc q).forkedby ∧ (s'.proc q).nowait = (s.proc q).nowait ∧
      (s'.proc q).pc.alive = (s.proc q).pc.alive := by
    intro q hqc
    by_cases hqp : q = p
    · rw [hqp, hup, hp]
      exact ⟨rfl, rfl, rfl, rfl, rfl, rfl⟩
    · rw [hsame q hqp hqc]
      exact ⟨rfl, rfl, rfl, rfl, rfl, rfl⟩
  have hown : ∀ q r, (s'.proc q).Own r → (s.proc q).Own r := by
    intro q r hr
    by_cases hqc : q = child
    · rw [hqc, hchild] at hr
      rw [hqc]
      exact hr.elim .inl fun hh => by cases hh
    · by_cases hqp : q = p
      · rw [hqp, hup] at hr
        rw [hqp]
        exact hr.elim .inl fun hh => by cases hh
      · rw [hsame q hqp hqc] at hr
        exact hr
  have hcount : ∀ pid, children s' pid =
      children s pid + if nowait = false ∧ (s.proc p).pid = pid then 1 else 0 := by
    intro pid
    have hoff := children_off s s' child pid fun q hqc => by
      obtain ⟨h1, -, -, h2, h3, -⟩ := hother q hqc
      unfold Proc.childof
      rw [h1, h2, h3]
    have hold : (s.proc child).childof pid = false := by
      unfold Proc.childof
      rw [hc]
      rfl
    have hnew : (s'.proc child).childof pid = (!nowait && decide ((s.proc p).pid = pid)) := by
      rw [hchild]
      rfl
    rw [hold, hnew] at hoff
    cases nowait <;> simp at hoff ⊢ <;> exact hoff
  constructor
  · intro q hq
    rw [halloc]
    by_cases hqc : q = child
    · rw [hqc, hchild]
      exact hpids.le p
    · obtain ⟨h1, -, -, h2, -⟩ := hother q hqc
      rw [h2]
      exact h.le q (h1 ▸ hq)
  · intro q hq
    rw [hpid]
    by_cases hqc : q = child
    · rw [hqc, hchild]
      exact hne
    · obtain ⟨h1, -, -, h2, -⟩ := hother q hqc
      rw [h2]
      exact h.self q (h1 ▸ hq)
  · intro q hq hn
    by_cases hqc : q = child
    · subst hqc
      rw [hchild] at hn ⊢
      refine ⟨by rw [show nowait = false from hn]; rfl, hup0, fun x hx => ?_⟩
      rw [hpid] at hx
      rw [hpids.uniq p x hx.symm hup0]
      rfl
    · obtain ⟨h1, h2, h3, h4, h5, -⟩ := hother q hqc
      rw [h2, h3, h4]
      obtain ⟨ha, hb, hx⟩ := h.wait q (h1 ▸ hq) (h5 ▸ hn)
      exact ⟨ha, hb, fun x he => hx x (hpid x ▸ he)⟩
  · intro q hq hn
    by_cases hqc : q = child
    · subst hqc
      rw [hchild] at hn ⊢
      rw [show nowait = true from hn]
      rfl
    · obtain ⟨h1, -, h3, -, h5, -⟩ := hother q hqc
      rw [h3]
      exact h.nowait q (h1 ▸ hq) (h5 ▸ hn)
  · intro q hq
    rw [hpid, horigin]
    by_cases hqc : q = child
    · subst hqc
      rw [hchild, Function.update_self]
      rfl
    · obtain ⟨h1, -, -, h4, h5, -⟩ := hother q hqc
      have hq0 : (s.proc q).pid ≠ 0 := by
        apply (hpids.named q).mpr
        have hl : (s.proc q).pc.live = true := h1 ▸ hq
        cases hk : (s.proc q).pc <;> rw [hk] at hl <;> first | rfl | cases hl
      rw [Function.update_of_ne fun he => hqc (hpids.uniq q child he hq0), h4, h5]
      exact h.origin q (h1 ▸ hq)
  · intro q hq
    rw [hpid, hcount]
    by_cases hqc : q = child
    · subst hqc
      have hnone : (if nowait = false ∧ (s.proc p).pid = (s.proc q).pid then 1 else 0) = 0 :=
        if_neg fun hh => hne hh.2
      rw [hnone, hchild]
      exact h.count q (by rw [hc]; rfl)
    · have hal : (s.proc q).pc.alive = true := (hother q hqc).2.2.2.2.2 ▸ hq
      have hold := h.count q hal
      by_cases hqp : q = p
      · subst hqp
        have hn : (s'.proc q).nchild =
            if nowait then (s.proc q).nchild else (s.proc q).nchild + 1 := by rw [hup]
        rw [hn, hold]
        cases nowait with
        | true => simp
        | false => simp
      · rw [hsame q hqp hqc, hold, if_neg]
        · rfl
        · rintro ⟨-, he⟩
          exact hqp (hpids.uniq p q he hup0).symm
  · intro q hq r hr
    rw [hpid] at hq ⊢
    rw [horigin, Function.update_of_ne]
    · exact h.owner q hq r (hown q r hr)
    · rintro rfl
      exact hfree q hq (hown q _ hr)

/-- `p` comes past its parent in `pexit`. -/
theorem Kin.exit (h : Kin s) {freemem : Bool} (hp : (s.proc p).pc = .exit freemem)
    (halloc : s'.pidalloc = s.pidalloc) (horigin : s'.origin = s.origin)
    (hup : (s'.proc p).pc.live = false)
    (hlive : ∀ q ≠ p, (s'.proc q).pc.live = (s.proc q).pc.live)
    (halive : ∀ q, (s'.proc q).pc.alive = (s.proc q).pc.alive)
    (hsame : ∀ q, (s'.proc q).pid = (s.proc q).pid ∧ (s'.proc q).parent = (s.proc q).parent ∧
      (s'.proc q).parentpid = (s.proc q).parentpid ∧ (s'.proc q).forkedby = (s.proc q).forkedby ∧
      (s'.proc q).nowait = (s.proc q).nowait)
    (hnchild : ∀ q, (s.proc q).pc.alive = true → (s'.proc q).nchild +
      (if (s.proc p).childof (s.proc q).pid then 1 else 0) = (s.proc q).nchild)
    (hown : ∀ q, (s.proc q).pid ≠ 0 → ∀ r, (s'.proc q).Own r → (s.proc q).Own r ∨
      r = (s.proc p).pid ∧ (s.proc p).childof (s.proc q).pid = true) : Kin s' := by
  have hl : (s.proc p).pc.live = true := by
    rw [hp]
    rfl
  have hold : ∀ q, (s'.proc q).pc.live = true → q ≠ p ∧ (s.proc q).pc.live = true := by
    intro q hq
    have hqp : q ≠ p := by
      rintro rfl
      rw [hup] at hq
      cases hq
    exact ⟨hqp, hlive q hqp ▸ hq⟩
  constructor
  · intro q hq
    rw [(hsame q).2.2.2.1, halloc]
    exact h.le q (hold q hq).2
  · intro q hq
    rw [(hsame q).2.2.2.1, (hsame q).1]
    exact h.self q (hold q hq).2
  · intro q hq hn
    obtain ⟨-, h2, h3, h4, h5⟩ := hsame q
    rw [h2, h3, h4]
    obtain ⟨ha, hb, hx⟩ := h.wait q (hold q hq).2 (h5 ▸ hn)
    exact ⟨ha, hb, fun x he => hx x ((hsame x).1 ▸ he)⟩
  · intro q hq hn
    obtain ⟨-, -, h3, -, h5⟩ := hsame q
    rw [h3]
    exact h.nowait q (hold q hq).2 (h5 ▸ hn)
  · intro q hq
    obtain ⟨h1, -, -, h4, h5⟩ := hsame q
    rw [h1, h4, h5, horigin]
    exact h.origin q (hold q hq).2
  · intro q hq
    have hal : (s.proc q).pc.alive = true := halive q ▸ hq
    have hn := hnchild q hal
    have hcount := h.count q hal
    have hoff := children_off s s' p ((s.proc q).pid) fun y hy => by
      unfold Proc.childof
      rw [hlive y hy, (hsame y).2.2.2.1, (hsame y).2.2.2.2]
    have hnew : (s'.proc p).childof (s.proc q).pid = false := by
      unfold Proc.childof
      rw [hup]
      rfl
    rw [hnew, if_neg Bool.false_ne_true] at hoff
    rw [(hsame q).1]
    cases hb : (s.proc p).childof (s.proc q).pid with
    | true =>
      rw [hb, if_pos rfl] at hn hoff
      omega
    | false =>
      rw [hb, if_neg Bool.false_ne_true] at hn hoff
      omega
  · intro q hq r hr
    rw [(hsame q).1] at hq ⊢
    rw [horigin]
    rcases hown q hq r hr with hr | ⟨hrp, hc⟩
    · exact h.owner q hq r hr
    · simp only [Proc.childof, Bool.and_eq_true, Bool.not_eq_true', decide_eq_true_eq] at hc
      rw [hrp, h.origin p hl, hc.2.1, hc.2.2]

/-! ## Records -/

/-- The records of the process of the pid that are kept. -/
def records (s : Sys P) (pid : Nat) : Nat := ∑ q, (s.proc q).has pid

theorem records_off (s s' : Sys P) (p : P) (pid : Nat)
    (hoff : ∀ q ≠ p, (s'.proc q).has pid = (s.proc q).has pid) :
    records s' pid + (s.proc p).has pid = records s pid + (s'.proc p).has pid := by
  apply Nat.le_antisymm
  · exact sum_le_of_off (fun q hq => by rw [hoff q hq]) (Nat.add_comm _ _).le
  · exact sum_le_of_off (fun q hq => by rw [hoff q hq]) (Nat.add_comm _ _).le

theorem records_same (h : ∀ q, (s'.proc q).has pid = (s.proc q).has pid) :
    records s' pid = records s pid := by
  unfold records
  simp only [h]

/-- Every record is somewhere, and there is one record at most of each process. -/
structure Kept (s : Sys P) : Prop where
  sum : ∀ r, s.linked r = records s r + s.returned r + s.freed r
  once : ∀ r, s.linked r ≤ 1
  unborn : ∀ r, s.pidalloc < r → s.linked r = 0
  unlinked : ∀ q, (s.proc q).pc.live = true ∨ (s.proc q).pc = .made → s.linked (s.proc q).pid = 0

/-- A process that is not past its parent has no record. -/
theorem Kept.none (h : Kept s) (hpids : Pids s) (hc : (s.proc child).pc = .made)
    (hq : (s.proc q).pid ≠ 0) : ¬(s.proc q).Own (s.proc child).pid := by
  intro hown
  have hzero := h.unlinked child (.inr hc)
  have hsum := h.sum (s.proc child).pid
  have hle : (s.proc q).has (s.proc child).pid ≤ records s (s.proc child).pid :=
    Finset.single_le_sum (f := fun y => (s.proc y).has (s.proc child).pid)
      (fun _ _ => Nat.zero_le _) (Finset.mem_univ q)
  have hnamed := (hpids.named q).mp hq
  have hkeeps : (s.proc q).pc.keeps = true := by
    cases hk : (s.proc q).pc <;> rw [hk] at hnamed <;> first | rfl | cases hnamed
  have hpos : 0 < (s.proc q).has (s.proc child).pid := by
    unfold Proc.has
    rw [if_pos hkeeps]
    rcases hown with hw | hw
    · exact Nat.add_pos_left (List.count_pos_iff.mpr hw) _
    · rw [if_pos hw]
      exact Nat.succ_pos _
  omega

/-- No record is moved. -/
theorem Kept.keep (h : Kept s) (halloc : s.pidalloc ≤ s'.pidalloc) (hlinked : s'.linked = s.linked)
    (hreturned : s'.returned = s.returned) (hfreed : s'.freed = s.freed)
    (hhas : ∀ q r, (s'.proc q).has r = (s.proc q).has r)
    (hunlinked : ∀ q, (s'.proc q).pc.live = true ∨ (s'.proc q).pc = .made →
      s.linked (s'.proc q).pid = 0) : Kept s' where
  sum r := by
    rw [hlinked, hreturned, hfreed, records_same fun q => hhas q r]
    exact h.sum r
  once r := by rw [hlinked]; exact h.once r
  unborn r hr := by rw [hlinked]; exact h.unborn r (Nat.lt_of_le_of_lt halloc hr)
  unlinked q hq := by rw [hlinked]; exact hunlinked q hq

/-- A record is linked. -/
theorem Kept.link [DecidableEq P] (h : Kept s) (hpids : Pids s) (hlive : (s.proc p).pc.live = true) {x : P}
    (halloc : s'.pidalloc = s.pidalloc)
    (hlinked : s'.linked = Function.update s.linked (s.proc p).pid (s.linked (s.proc p).pid + 1))
    (hreturned : s'.returned = s.returned) (hfreed : s'.freed = s.freed)
    (hhas : ∀ q r, (s'.proc q).has r =
      (s.proc q).has r + if q = x ∧ r = (s.proc p).pid then 1 else 0)
    (hpid : ∀ q, (s'.proc q).pid = (s.proc q).pid)
    (hunlinked : ∀ q, (s'.proc q).pc.live = true ∨ (s'.proc q).pc = .made →
      q ≠ p ∧ ((s.proc q).pc.live = true ∨ (s.proc q).pc = .made)) : Kept s' := by
  have hzero := h.unlinked p (.inl hlive)
  have hp0 : (s.proc p).pid ≠ 0 := by
    apply (hpids.named p).mpr
    cases hk : (s.proc p).pc <;> rw [hk] at hlive <;> first | rfl | cases hlive
  have hl : ∀ r, s'.linked r = s.linked r + if r = (s.proc p).pid then 1 else 0 := by
    intro r
    rw [hlinked, Function.update_apply]
    split
    · rename_i hr
      rw [hr]
    · rfl
  constructor
  · intro r
    have hoff := records_off s s' x r fun q hq => by
      rw [hhas, if_neg fun hh => hq hh.1]
      rfl
    rw [hhas x r] at hoff
    have hsum := h.sum r
    rw [hl, hreturned, hfreed]
    by_cases hr : r = (s.proc p).pid
    · rw [if_pos ⟨rfl, hr⟩] at hoff
      rw [if_pos hr]
      omega
    · rw [if_neg fun hh => hr hh.2] at hoff
      rw [if_neg hr]
      omega
  · intro r
    rw [hl]
    split
    · rename_i hr
      rw [hr, hzero]
    · exact h.once r
  · intro r hr
    rw [halloc] at hr
    have hle := hpids.le p
    rw [hl, if_neg (by omega)]
    exact h.unborn r hr
  · intro q hq
    obtain ⟨hqp, hq⟩ := hunlinked q hq
    rw [hpid, hl, if_neg]
    · exact h.unlinked q hq
    · intro he
      exact hqp (hpids.uniq p q he.symm hp0).symm

end NixMark.Wait
