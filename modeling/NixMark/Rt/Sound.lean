import NixMark.Lib.Demand
import NixMark.Rt.Admit

/-!
# An admitted set of processes meets its deadlines

`Inv` holds between the rounds of the test: each process is at its job `k p`, `G` and `H` are the
costs of the jobs that are released and due so far, no process is behind the time `cur` of the last
event, and no demand before it was too large. The test stops at a release: every deadline until then
was checked (`Inv.early`), and the work that was released fits, so no later demand is too large.
-/

namespace NixMark.Rt

open Lib
open Function (update update_of_ne update_self)

variable {P : Type} {e : P → Edf} {p x : P} {q : List P} {s : Finset P}
  {st : Test P} {k : P → ℕ} {cur : ℕ}

/-- The parameters as numbers. -/
def Edf.task (e : Edf) : Task := ⟨e.C.toNat, e.D.toNat, e.T.toNat⟩

/-- The parameters that `edfadmit` lets through, with a cost that is not negative. -/
structure Edf.Ok (e : Edf) : Prop where
  cost : 0 < e.C.toInt
  deadline : e.C.toInt ≤ e.D.toInt
  period : e.D.toInt ≤ e.T.toInt

theorem Edf.Ok.toNat {e : Edf} (h : e.Ok) : 0 < e.C.toNat ∧ e.C.toNat ≤ e.D.toNat ∧
    e.D.toNat ≤ e.T.toNat ∧ e.T.toNat < 2 ^ 31 := by
  obtain ⟨h₁, h₂, h₃⟩ := h
  simp only [BitVec.toInt] at h₁ h₂ h₃
  split_ifs at h₁ h₂ h₃ <;> omega

/-! ## The order of the list -/

/-- The place of a process in the order: its time, and deadlines before releases. -/
def key (e : P → Edf) (p : P) : ℕ := 2 * (e p).testtime.toNat + (e p).testtype.rank

theorem before_iff (hp : (e p).testtime.toNat < 2 ^ 31) (hx : (e x).testtime.toNat < 2 ^ 31) :
    before e p x = true ↔ key e p < key e x := by
  have hr : ∀ t : TestType, t.rank < 2 := fun t => by cases t <;> decide
  have h₁ := hr (e p).testtype
  have h₂ := hr (e x).testtype
  have hlt : ((e p).testtime - (e x).testtime).slt 0 = true ↔
      (e p).testtime.toNat < (e x).testtime.toNat := by
    rw [BitVec.slt_iff_toInt_lt, BitVec.toInt_sub, show (0 : BitVec 32).toInt = 0 from rfl]
    simp only [BitVec.toInt, Int.bmod]
    omega
  unfold before key
  rw [Bool.or_eq_true, Bool.and_eq_true, hlt, beq_iff_eq, ← BitVec.toNat_inj, decide_eq_true_iff]
  omega

theorem testenq_perm : (testenq e p q).Perm (p :: q) := by
  induction q with
  | nil => exact .refl _
  | cons x q ih =>
    unfold testenq
    split_ifs
    · exact .refl _
    · exact (ih.cons x).trans (.swap p x q)

theorem testenq_sorted (hp : (e p).testtime.toNat < 2 ^ 31)
    (hq : ∀ x ∈ q, (e x).testtime.toNat < 2 ^ 31) (h : q.Pairwise fun x y => key e x ≤ key e y) :
    (testenq e p q).Pairwise fun x y => key e x ≤ key e y := by
  induction q with
  | nil => exact List.pairwise_singleton _ _
  | cons x q ih =>
    obtain ⟨hx, hq'⟩ := List.pairwise_cons.mp h
    have hbefore := before_iff hp (hq x List.mem_cons_self)
    unfold testenq
    split_ifs with hb
    · have hlt := hbefore.mp hb
      refine List.pairwise_cons.mpr ⟨fun y hy => ?_, h⟩
      obtain rfl | hy := List.mem_cons.mp hy
      · exact hlt.le
      · exact hlt.le.trans (hx y hy)
    · have hle := not_lt.mp (mt hbefore.mpr hb)
      refine List.pairwise_cons.mpr ⟨fun y hy => ?_, ih (fun y hy => hq y (.tail x hy)) hq'⟩
      obtain rfl | hy := List.mem_cons.mp (testenq_perm.mem_iff.mp hy)
      · exact hle
      · exact hx y hy

/-! ## The invariant -/

/-- The jobs of a process that are released and not yet due. -/
def TestType.open : TestType → ℕ
  | .Dl => 1
  | .Rl => 0

structure Inv (s : Finset P) (task : P → Task) (k : P → ℕ) (cur : ℕ) (st : Test P) : Prop where
  mem : ∀ p, p ∈ st.q ↔ p ∈ s
  nodup : st.q.Nodup
  sorted : st.q.Pairwise fun x y => key st.edf x ≤ key st.edf y
  ok : ∀ p ∈ s, (st.edf p).Ok ∧ (st.edf p).task = task p
  small : ∀ p ∈ s, (st.edf p).testtime.toNat < 2 ^ 31
  time : ∀ p ∈ s, (st.edf p).testtime.toNat =
    k p * (task p).T + (st.edf p).testtype.open * (task p).D
  G : st.G.toNat = ∑ p ∈ s, (k p + (st.edf p).testtype.open) * (task p).C
  H : st.H.toNat = ∑ p ∈ s, k p * (task p).C
  G_lt : st.G.toNat < 2 ^ 31
  H_le : st.H.toNat ≤ cur
  behind : ∀ p ∈ s, cur ≤ (st.edf p).testtime.toNat
  checked : ∀ t < cur, demand s task t ≤ t

variable {task : P → Task}

theorem Inv.params (hi : Inv s task k cur st) (hp : p ∈ s) : 0 < (task p).C ∧
    (task p).C ≤ (task p).D ∧ (task p).D ≤ (task p).T := by
  obtain ⟨hok, htask⟩ := hi.ok p hp
  obtain ⟨h₁, h₂, h₃, -⟩ := hok.toNat
  rw [← htask]
  exact ⟨h₁, h₂, h₃⟩

theorem Inv.demand_le (hi : Inv s task k cur st) {t : ℕ}
    (ht : ∀ p ∈ s, 2 * t + 1 ≤ key st.edf p) : demand s task t ≤ st.H.toNat := by
  rw [hi.H]
  refine Finset.sum_le_sum fun p hp => Nat.mul_le_mul_right _ ?_
  obtain ⟨h₁, h₂, h₃⟩ := hi.params hp
  rw [Task.due_le_iff (by omega)]
  have htime := hi.time p hp
  have hkey := ht p hp
  unfold key at hkey
  cases htype : (st.edf p).testtype <;>
    simp only [htype, TestType.open, TestType.rank, one_mul, zero_mul] at htime hkey <;> omega

theorem Inv.head_le (hi : Inv s task k cur st) (hq : st.q = p :: q) (hx : x ∈ s) :
    key st.edf p ≤ key st.edf x := by
  have hsorted := hi.sorted
  have hx := (hi.mem x).mpr hx
  rw [hq] at hsorted hx
  obtain rfl | hx := List.mem_cons.mp hx
  · exact le_rfl
  · exact (List.pairwise_cons.mp hsorted).1 x hx

theorem Inv.le_time (hi : Inv s task k cur st) (hq : st.q = p :: q) (x : P) (hx : x ∈ s) :
    (st.edf p).testtime.toNat ≤ (st.edf x).testtime.toNat := by
  have := hi.head_le hq hx
  unfold key at this
  cases h₁ : (st.edf p).testtype <;> cases h₂ : (st.edf x).testtype <;>
    simp only [h₁, h₂, TestType.rank] at this <;> omega

/-- Every demand before the next event was checked. -/
theorem Inv.early (hi : Inv s task k cur st) (hq : st.q = p :: q) {t : ℕ}
    (ht : 2 * t + 1 ≤ key st.edf p) : demand s task t ≤ t := by
  obtain h | h := lt_or_ge t cur
  · exact hi.checked t h
  · exact (hi.demand_le fun x hx => ht.trans (hi.head_le hq hx)).trans (hi.H_le.trans h)

/-- The work that is released before the next event. -/
theorem Inv.released_le (hi : Inv s task k cur st) {L : ℕ}
    (hL : ∀ p ∈ s, L ≤ (st.edf p).testtime.toNat) :
    ∑ p ∈ s, (task p).released L * (task p).C ≤ st.G.toNat := by
  rw [hi.G]
  refine Finset.sum_le_sum fun p hp => Nat.mul_le_mul_right _ ?_
  obtain ⟨h₁, h₂, h₃⟩ := hi.params hp
  rw [Task.released_le_iff (by omega)]
  have htime := hi.time p hp
  have := hL p hp
  cases htype : (st.edf p).testtype <;>
    simp only [htype, TestType.open, one_mul, zero_mul, Nat.add_mul] at htime ⊢ <;> omega

/-! ## The rounds -/

/-- One term of a sum changes. -/
theorem sum_put {f g : P → ℕ} {c : ℕ} (hp : p ∈ s) (hne : ∀ x, x ≠ p → g x = f x)
    (h : g p = f p + c) : ∑ x ∈ s, g x = ∑ x ∈ s, f x + c := by
  classical
  rw [← Finset.add_sum_erase s g hp, ← Finset.add_sum_erase s f hp, h,
    Finset.sum_congr rfl fun x hx => hne x (Finset.ne_of_mem_erase hx)]
  exact Nat.add_right_comm ..

variable [DecidableEq P]

/-- The process `p` goes back on the list with its next event. -/
theorem Inv.enq {type : TestType} {time G H : BitVec 32} {n c d : ℕ} (hi : Inv s task k cur st)
    (hq : st.q = p :: q) (htime : time.toNat = n * (task p).T + type.open * (task p).D)
    (hsmall : time.toNat < 2 ^ 31) (hle : (st.edf p).testtime.toNat ≤ time.toNat)
    (hn : (n + type.open) * (task p).C = (k p + (st.edf p).testtype.open) * (task p).C + c)
    (hn' : n * (task p).C = k p * (task p).C + d) (hG : G.toNat = st.G.toNat + c)
    (hH : H.toNat = st.H.toNat + d) (hGlt : G.toNat < 2 ^ 31)
    (hHle : H.toNat ≤ (st.edf p).testtime.toNat) :
    Inv s task (update k p n) (st.edf p).testtime.toNat
      (({ st with q := q, G := G, H := H } : Test P).enq p type time) := by
  have hp : p ∈ s := (hi.mem p).mp (by rw [hq]; exact List.mem_cons_self)
  obtain ⟨hpq, hnd⟩ := List.nodup_cons.mp (hq ▸ hi.nodup)
  obtain ⟨-, hsorted⟩ := List.pairwise_cons.mp (hq ▸ hi.sorted)
  have hmem : ∀ x, x ∈ p :: q ↔ x ∈ s := fun x => hq ▸ hi.mem x
  obtain ⟨e', he'⟩ : ∃ e', e' = update st.edf p
      { st.edf p with testtype := type, testtime := time } := ⟨_, rfl⟩
  have hself : e' p = { st.edf p with testtype := type, testtime := time } := by
    rw [he', update_self]
  have hlt : (e' p).testtime.toNat < 2 ^ 31 := by
    rw [hself]
    exact hsmall
  have hne : ∀ x, x ≠ p → e' x = st.edf x := fun x hx => by rw [he', update_of_ne hx]
  have hkey : ∀ x ∈ q, key e' x = key st.edf x := fun x hx => by
    unfold key
    rw [hne x (ne_of_mem_of_not_mem hx hpq)]
  have hall : ∀ {φ : P → Edf → ℕ → Prop}, φ p (e' p) n → (∀ x ∈ s, x ≠ p → φ x (st.edf x) (k x)) →
      ∀ x ∈ s, φ x (e' x) (update k p n x) := by
    intro φ h₁ h₂ x hx
    by_cases hxp : x = p
    · rw [hxp, update_self]
      exact h₁
    · rw [update_of_ne hxp, hne x hxp]
      exact h₂ x hx hxp
  unfold Test.enq
  simp only [← he']
  exact
    { mem x := by rw [testenq_perm.mem_iff, hmem]
      nodup := testenq_perm.nodup_iff.mpr (List.nodup_cons.mpr ⟨hpq, hnd⟩)
      sorted := by
        refine testenq_sorted hlt (fun x hx => ?_) ?_
        · change (e' x).testtime.toNat < 2 ^ 31
          rw [hne x (ne_of_mem_of_not_mem hx hpq)]
          exact hi.small x ((hmem x).mp (.tail p hx))
        · refine hsorted.imp_of_mem fun hx hy h => ?_
          change key e' _ ≤ key e' _
          rwa [hkey _ hx, hkey _ hy]
      ok := hall (φ := fun x e _ => e.Ok ∧ e.task = task x)
        (by rw [hself]; exact ⟨⟨(hi.ok p hp).1.1, (hi.ok p hp).1.2, (hi.ok p hp).1.3⟩, (hi.ok p hp).2⟩)
        fun x hx _ => hi.ok x hx
      small := hall (φ := fun _ e _ => e.testtime.toNat < 2 ^ 31) hlt fun x hx _ => hi.small x hx
      time := hall (φ := fun x e n => e.testtime.toNat = n * (task x).T +
        e.testtype.open * (task x).D) (by rw [hself]; exact htime) fun x hx _ => hi.time x hx
      G := by
        rw [hG, hi.G]
        refine (sum_put hp (fun x hx => ?_) ?_).symm
        · rw [update_of_ne hx]
          exact congrArg (fun e : Edf => (k x + e.testtype.open) * (task x).C) (hne x hx)
        · rw [update_self]
          change (n + (e' p).testtype.open) * (task p).C = _
          rw [hself]
          exact hn
      H := by
        rw [hH, hi.H]
        refine (sum_put hp (fun x hx => ?_) ?_).symm
        · rw [update_of_ne hx]
        · rw [update_self]
          exact hn'
      G_lt := hGlt
      H_le := hHle
      behind := hall (φ := fun _ e _ => (st.edf p).testtime.toNat ≤ e.testtime.toNat)
        (by rw [hself]; exact hle) fun x hx _ => hi.le_time hq x hx
      checked t ht := hi.early hq (by unfold key; omega) }

theorem sle_iff {a b : BitVec 32} (ha : a.toNat < 2 ^ 31) (hb : b.toNat < 2 ^ 31) :
    a.sle b = true ↔ a.toNat ≤ b.toNat := by
  rw [BitVec.sle_iff_toInt_le]
  simp only [BitVec.toInt]
  omega

theorem slt_iff {a b : BitVec 32} (ha : a.toNat < 2 ^ 31) (hb : b.toNat < 2 ^ 31) :
    a.slt b = true ↔ a.toNat < b.toNat := by
  rw [BitVec.slt_iff_toInt_lt]
  simp only [BitVec.toInt]
  omega

theorem toNat_add {a b : BitVec 32} (h : a.toNat + b.toNat < 2 ^ 31) :
    (a + b).toNat = a.toNat + b.toNat := by
  rw [BitVec.toNat_add, Nat.mod_eq_of_lt (by omega)]

/-- The test stops where the work fits. -/
theorem Inv.stop (hi : Inv s task k cur st) (hq : st.q = p :: q)
    (h : ({ st with q := q } : Test P).step p = .stop none) (t : ℕ) : demand s task t ≤ t := by
  have hp : p ∈ s := (hi.mem p).mp (by rw [hq]; exact List.mem_cons_self)
  have hT : ∀ x ∈ s, 0 < (task x).T := fun x hx => by
    have := hi.params hx
    omega
  cases htype : (st.edf p).testtype with
  | Dl =>
    simp only [Test.step, htype] at h
    split_ifs at h
    cases h
  | Rl =>
    simp only [Test.step, htype] at h
    split_ifs at h with hstop
    have hG := (sle_iff hi.G_lt (hi.small p hp)).mp hstop.2
    have hpos : 0 < (st.edf p).testtime.toNat := by
      rw [Nat.pos_iff_ne_zero]
      exact fun h0 => hstop.1 (BitVec.eq_of_toNat_eq h0)
    have hmin : ∀ x ∈ s, (st.edf p).testtime.toNat ≤ (st.edf x).testtime.toNat := hi.le_time hq
    refine demand_le_of_busy hT hpos ((hi.released_le hmin).trans hG) (fun t ht => ?_) t
    refine hi.early hq ?_
    unfold key
    rw [htype, TestType.rank]
    omega

/-- The test goes on. -/
theorem Inv.next {st' : Test P} (hi : Inv s task k cur st) (hq : st.q = p :: q)
    (h : ({ st with q := q } : Test P).step p = .next st') (h₁ : (st.sums p).1 < 2 ^ 31)
    (h₂ : (st.sums p).2 < 2 ^ 31) : ∃ k' cur', Inv s task k' cur' st' := by
  have hp : p ∈ s := (hi.mem p).mp (by rw [hq]; exact List.mem_cons_self)
  obtain ⟨hok, htask⟩ := hi.ok p hp
  obtain ⟨hC, hCD, hDT, hTlt⟩ := hok.toNat
  have htime := hi.time p hp
  have hcur := hi.behind p hp
  have hHle := hi.H_le
  cases htype : (st.edf p).testtype with
  | Dl =>
    simp only [Test.sums, htype] at h₁ h₂
    simp only [Test.step, htype] at h
    split_ifs at h with hlate
    cases h
    have hH := toNat_add h₁
    have hTD : ((st.edf p).T - (st.edf p).D).toNat = (st.edf p).T.toNat - (st.edf p).D.toNat :=
      BitVec.toNat_sub_of_le (BitVec.le_def.mpr hDT)
    rw [slt_iff (hi.small p hp) (by rw [hH]; exact h₁), not_lt, hH] at hlate
    refine ⟨_, _, hi.enq (n := k p + 1) (c := 0) (d := (st.edf p).C.toNat) hq ?_ ?_ ?_ ?_ ?_ rfl hH
      hi.G_lt ?_⟩
    · rw [toNat_add h₂, hTD, htime, htype, ← htask]
      simp only [Edf.task, TestType.open, Nat.add_mul]
      omega
    · rw [toNat_add h₂]
      exact h₂
    · rw [toNat_add h₂]
      exact Nat.le_add_right ..
    · rw [htype]
      rfl
    · rw [Nat.add_mul, ← htask, Nat.one_mul]
      rfl
    · rw [hH]
      exact hlate
  | Rl =>
    simp only [Test.sums, htype] at h₁ h₂
    simp only [Test.step, htype] at h
    split_ifs at h
    cases h
    have hG := toNat_add h₁
    refine ⟨_, _, hi.enq (n := k p) (c := (st.edf p).C.toNat) (d := 0) hq ?_ ?_ ?_ ?_ rfl hG rfl ?_ ?_⟩
    · rw [toNat_add h₂, htime, htype, ← htask]
      simp only [Edf.task, TestType.open]
      omega
    · rw [toNat_add h₂]
      exact h₂
    · rw [toNat_add h₂]
      exact Nat.le_add_right ..
    · rw [htype, ← htask]
      simp only [Edf.task, TestType.open, Nat.add_mul]
      omega
    · rw [hG]
      exact h₁
    · omega

theorem Inv.run (n : ℕ) : ∀ (k : P → ℕ) (cur : ℕ) (st : Test P), Inv s task k cur st → st.Fits n = true →
    testloop n st = some none → ∀ t, demand s task t ≤ t := by
  induction n with
  | zero =>
    intro k cur st _ _ h
    cases h
  | succ n ih =>
    intro k cur st hi hf h
    cases hq : st.q with
    | nil =>
      simp only [testloop, hq] at h
      cases h
    | cons p q =>
      simp only [testloop, hq] at h
      simp only [Test.Fits, hq] at hf
      cases hstep : ({ st with q := q } : Test P).step p with
      | stop err =>
        simp only [hstep] at h
        cases h
        exact hi.stop hq hstep
      | next st' =>
        simp only [hstep] at h
        simp only [hstep, Bool.and_eq_true, decide_eq_true_iff] at hf
        obtain ⟨k', cur', hi'⟩ := hi.next hq hstep hf.1.1 hf.1.2
        exact ih k' cur' st' hi' hf.2 h

/-! ## The test -/

theorem enq_mem {type : TestType} {time : BitVec 32} : (st.enq p type time).q.Perm (p :: st.q) :=
  testenq_perm

theorem init_spec (l : List P) : ∀ st : Test P, (l ++ st.q).Nodup →
    let st' := l.foldl (fun st p => st.enq p .Rl 0) st
    st'.H = st.H ∧ st'.G = st.G ∧ (∀ p, p ∈ st'.q ↔ p ∈ l ∨ p ∈ st.q) ∧ st'.q.Nodup ∧
      ∀ p, st'.edf p =
        if p ∈ l then { st.edf p with testtype := .Rl, testtime := 0 } else st.edf p := by
  induction l with
  | nil => exact fun st h => ⟨rfl, rfl, fun _ => by simp, h, fun _ => by simp⟩
  | cons a l ih =>
    intro st h
    obtain ⟨ha, h⟩ := List.nodup_cons.mp h
    have hperm : (l ++ (st.enq a .Rl 0).q).Perm (a :: (l ++ st.q)) :=
      (enq_mem.append_left l).trans List.perm_middle
    obtain ⟨h₁, h₂, h₃, h₄, h₅⟩ := ih (st.enq a .Rl 0)
      (hperm.nodup_iff.mpr (List.nodup_cons.mpr ⟨ha, h⟩))
    have hal : a ∉ l := fun h => ha (List.mem_append_left _ h)
    refine ⟨h₁, h₂, fun p => ?_, h₄, fun p => ?_⟩
    · rw [List.foldl_cons, h₃, enq_mem.mem_iff, List.mem_cons, List.mem_cons]
      exact or_left_comm.trans or_assoc.symm
    · rw [List.foldl_cons, h₅]
      change (if p ∈ l then ({ update st.edf a _ p with testtype := .Rl, testtime := 0 } : Edf)
        else update st.edf a _ p) = _
      by_cases hpa : p = a
      · rw [hpa, if_neg hal, if_pos List.mem_cons_self, update_self]
      · simp only [update_of_ne hpa, List.mem_cons, hpa, false_or]

/-- The processes that are admitted, and the candidate. -/
def admitted (procs : P → Proc) (ps : List P) (theproc : P) : Finset P :=
  (ps.filter (tested procs theproc)).toFinset

variable {procs : P → Proc} {ps : List P} {theproc : P}

theorem testinit_inv (hps : ps.Nodup) (hok : ∀ p ∈ admitted procs ps theproc, (edfof procs p).Ok) :
    Inv (admitted procs ps theproc) (fun p => (edfof procs p).task) (fun _ => 0) 0
      (testinit procs ps theproc) := by
  obtain ⟨h₁, h₂, h₃, h₄, h₅⟩ := init_spec (ps.filter (tested procs theproc))
    ⟨edfof procs, [], 0, 0⟩ (by rw [List.append_nil]; exact hps.filter _)
  change (testinit procs ps theproc).H = 0 at h₁
  change (testinit procs ps theproc).G = 0 at h₂
  have hmem : ∀ p, p ∈ (testinit procs ps theproc).q ↔ p ∈ admitted procs ps theproc := by
    intro p
    rw [admitted, List.mem_toFinset]
    exact (h₃ p).trans (or_iff_left List.not_mem_nil)
  have hedf : ∀ p ∈ admitted procs ps theproc, (testinit procs ps theproc).edf p =
      { edfof procs p with testtype := .Rl, testtime := 0 } := fun p hp =>
    (h₅ p).trans (if_pos (List.mem_toFinset.mp hp))
  have hkey : ∀ p ∈ (testinit procs ps theproc).q, key (testinit procs ps theproc).edf p = 1 := by
    intro p hp
    unfold key
    rw [hedf p ((hmem p).mp hp)]
    rfl
  exact
    { mem := hmem
      nodup := h₄
      sorted := h₄.imp_of_mem fun hx hy _ => by rw [hkey _ hx, hkey _ hy]
      ok p hp := by
        rw [hedf p hp]
        exact ⟨⟨(hok p hp).1, (hok p hp).2, (hok p hp).3⟩, rfl⟩
      small p hp := by
        rw [hedf p hp]
        exact (by decide : (0 : BitVec 32).toNat < 2 ^ 31)
      time p hp := by
        rw [hedf p hp, Nat.zero_mul, TestType.open, Nat.zero_mul]
        rfl
      G := by
        rw [h₂]
        refine (Finset.sum_eq_zero fun p hp => ?_).symm
        rw [hedf p hp, TestType.open, Nat.add_zero, Nat.zero_mul]
      H := by
        rw [h₁]
        exact (Finset.sum_eq_zero fun p _ => Nat.zero_mul _).symm
      G_lt := by
        rw [h₂]
        decide
      H_le := by
        rw [h₁]
        exact le_rfl
      behind _ _ := Nat.zero_le _
      checked t ht := absurd ht (Nat.not_lt_zero t) }

/-- What the test lets through: the demand is never larger than the time, and a schedule by earliest
deadlines finishes every job in time. -/
theorem schedulable_sound (hps : ps.Nodup)
    (hok : ∀ p ∈ admitted procs ps theproc, (edfof procs p).Ok)
    (hfits : (testinit procs ps theproc).Fits Maxsteps = true)
    (h : testschedulability procs ps theproc = some none) :
    (∀ t, demand (admitted procs ps theproc) (fun p => (edfof procs p).task) t ≤ t) ∧
      ∀ σ, IsEdf (admitted procs ps theproc) (fun p => (edfof procs p).task) σ →
        ∀ j : Job P, j.1 ∈ admitted procs ps theproc →
          ran σ j (deadline (fun p => (edfof procs p).task) j) = (edfof procs j.1).C.toNat := by
  have hi := testinit_inv hps hok
  have hd := Inv.run Maxsteps _ _ _ hi hfits h
  refine ⟨hd, fun σ hσ j hj => hσ.meets (fun p hp => ?_) (fun p hp => ?_) hd hj⟩
  · have := hi.params hp
    omega
  · have := hi.params hp
    omega

/-- Two processes, of which one is admitted. -/
private def two : Bool → Proc
  | true => ⟨false, some ⟨2, 4, 1, true, .Rl, 0⟩⟩
  | false => ⟨false, some ⟨5, 6, 3, false, .Rl, 0⟩⟩

theorem schedulable_sound_two : (∀ t, demand (admitted two [true, false] false)
    (fun p => (edfof two p).task) t ≤ t) ∧ admitted two [true, false] false = {true, false} := by
  refine ⟨(schedulable_sound (by decide) ?_ (by decide +kernel) (by decide +kernel)).1, by decide⟩
  intro p _
  cases p
  · exact ⟨by decide, by decide, by decide⟩
  · exact ⟨by decide, by decide, by decide⟩

end NixMark.Rt
