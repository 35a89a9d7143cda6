import Mathlib.Algebra.Order.Ring.Nat
import Mathlib.Algebra.Order.BigOperators.Group.Finset
import Mathlib.Order.Interval.Finset.Nat

/-!
# Periodic tasks and their demand

Every task releases a job at each multiple of its period `T`; the job takes `C` units of time and is
due `D` after its release.

* `Task.due`, `Task.released`: the jobs that are due by a time, and those released before it;
  `demand`: the work of the jobs that are due.
* `demand_le_of_busy`: once the work released fits in the time that passed, no later demand is too
  large if no earlier one is.
* `IsEdf`: a schedule that at each time runs a pending job whose deadline is earliest;
  `IsEdf.meets`: if the demand is never larger than the time, no job misses its deadline.
-/

namespace NixMark.Lib

universe u

/-- A periodic task: its cost, its deadline after the release, and its period. -/
structure Task where
  C : ℕ
  D : ℕ
  T : ℕ

namespace Task

variable {τ : Task} {t n k L u : ℕ}

/-- How many jobs are due by `t`. -/
def due (τ : Task) (t : ℕ) : ℕ := if τ.D ≤ t then (t - τ.D) / τ.T + 1 else 0

/-- How many jobs are released before `t`. -/
def released (τ : Task) (t : ℕ) : ℕ := (t + τ.T - 1) / τ.T

theorem lt_due_iff (hT : 0 < τ.T) : k < τ.due t ↔ k * τ.T + τ.D ≤ t := by
  unfold due
  split_ifs with h
  · rw [Nat.lt_succ_iff, Nat.le_div_iff_mul_le hT]
    omega
  · exact iff_of_false (Nat.not_lt_zero k) (by omega)

theorem due_le_iff (hT : 0 < τ.T) : τ.due t ≤ n ↔ t < n * τ.T + τ.D := by
  rw [← not_lt, lt_due_iff hT, not_le]

theorem released_le_iff (hT : 0 < τ.T) : τ.released t ≤ n ↔ t ≤ n * τ.T := by
  unfold released
  rw [← Nat.lt_succ_iff, Nat.div_lt_iff_lt_mul hT, Nat.succ_mul]
  omega

theorem le_released (hT : 0 < τ.T) : t ≤ τ.released t * τ.T :=
  (released_le_iff hT).mp le_rfl

/-- A job that is due later than `L` by `u` was released before `L`, or it is due by `u` from
there. -/
theorem due_add (hT : 0 < τ.T) : τ.due (L + u) ≤ τ.released L + τ.due u := by
  rw [due_le_iff hT, Nat.add_mul]
  have h₁ := le_released (t := L) hT
  have h₂ := (due_le_iff (t := u) hT).mp le_rfl
  omega

end Task

variable {ι : Type u} {s : Finset ι} {task : ι → Task}

/-- The work of the jobs that are due by `t`. -/
def demand (s : Finset ι) (task : ι → Task) (t : ℕ) : ℕ := ∑ i ∈ s, (task i).due t * (task i).C

/-- The time `L` ends a busy period: the work released before it fits in it. -/
theorem demand_le_of_busy {L : ℕ} (hT : ∀ i ∈ s, 0 < (task i).T) (hL : 0 < L)
    (hbusy : ∑ i ∈ s, (task i).released L * (task i).C ≤ L)
    (hle : ∀ t ≤ L, demand s task t ≤ t) (t : ℕ) : demand s task t ≤ t := by
  induction t using Nat.strong_induction_on with
  | _ t ih =>
    obtain h | h := le_or_gt t L
    · exact hle t h
    · obtain ⟨u, rfl⟩ := Nat.exists_eq_add_of_le h.le
      calc demand s task (L + u)
          ≤ ∑ i ∈ s, ((task i).released L + (task i).due u) * (task i).C :=
            Finset.sum_le_sum fun i hi => Nat.mul_le_mul_right _ (Task.due_add (hT i hi))
        _ = ∑ i ∈ s, (task i).released L * (task i).C + demand s task u := by
            unfold demand
            rw [← Finset.sum_add_distrib]
            exact Finset.sum_congr rfl fun _ _ => Nat.add_mul ..
        _ ≤ L + u := Nat.add_le_add hbusy (ih u (by omega))

/-! ## Schedules -/

/-- A job: its task, and how many jobs of the task are before it. -/
abbrev Job (ι : Type u) : Type u := ι × ℕ

section

variable [DecidableEq ι] {σ : ℕ → Option (Job ι)} {j : Job ι} {t t' : ℕ}

/-- The time that the job had before `t`. -/
def ran (σ : ℕ → Option (Job ι)) (j : Job ι) (t : ℕ) : ℕ :=
  ((Finset.range t).filter fun u => σ u = some j).card

def release (task : ι → Task) (j : Job ι) : ℕ := j.2 * (task j.1).T

def deadline (task : ι → Task) (j : Job ι) : ℕ := release task j + (task j.1).D

/-- The job is released and is not finished. -/
structure Pending (s : Finset ι) (task : ι → Task) (σ : ℕ → Option (Job ι)) (j : Job ι) (t : ℕ) :
    Prop where
  mem : j.1 ∈ s
  released : release task j ≤ t
  unfinished : ran σ j t < (task j.1).C

/-- Earliest deadline first, preemptive, on one processor. -/
structure IsEdf (s : Finset ι) (task : ι → Task) (σ : ℕ → Option (Job ι)) : Prop where
  idle : ∀ t, σ t = none → ∀ j, ¬ Pending s task σ j t
  runs : ∀ t j, σ t = some j → Pending s task σ j t ∧
    ∀ j', Pending s task σ j' t → deadline task j ≤ deadline task j'

theorem ran_succ : ran σ j (t + 1) = ran σ j t + if σ t = some j then 1 else 0 := by
  unfold ran
  rw [Finset.range_add_one, Finset.filter_insert]
  split_ifs
  · exact Finset.card_insert_of_notMem fun h => by simp at h
  · rfl

theorem ran_mono (h : t ≤ t') : ran σ j t ≤ ran σ j t' :=
  Finset.card_le_card (Finset.filter_subset_filter _ (Finset.range_mono h))

theorem IsEdf.ran_le (h : IsEdf s task σ) (j : Job ι) (t : ℕ) : ran σ j t ≤ (task j.1).C := by
  induction t with
  | zero => exact Nat.zero_le _
  | succ t ih =>
    rw [ran_succ]
    split_ifs with hj
    · exact (h.runs t j hj).1.unfinished
    · exact ih

/-- A pending job keeps the processor busy with jobs that are due no later. -/
theorem IsEdf.busy (h : IsEdf s task σ) (hj : Pending s task σ j t) :
    ∃ i, σ t = some i ∧ Pending s task σ i t ∧ deadline task i ≤ deadline task j := by
  cases hσ : σ t with
  | none => exact absurd hj (h.idle t hσ j)
  | some i =>
    obtain ⟨hi, hmin⟩ := h.runs t i hσ
    exact ⟨i, rfl, hi, hmin j hj⟩

/-- At `t` no job that is due by `d` is left from before. -/
def Clear (s : Finset ι) (task : ι → Task) (σ : ℕ → Option (Job ι)) (d t : ℕ) : Prop :=
  ∀ j : Job ι, j.1 ∈ s → deadline task j ≤ d → release task j < t → ran σ j t = (task j.1).C

/-- The slots from the last clear time run jobs that are released from then on and due by `d`. -/
theorem IsEdf.busy_from {t₀ d u : ℕ} (h : IsEdf s task σ) (h₀ : Clear s task σ d t₀) (htu : t₀ ≤ u)
    (hu : ¬ Clear s task σ d (u + 1)) :
    ∃ i, σ u = some i ∧ i.1 ∈ s ∧ t₀ ≤ release task i ∧ deadline task i ≤ d := by
  obtain ⟨i, hi, hd, hr, hran⟩ : ∃ i : Job ι, i.1 ∈ s ∧ deadline task i ≤ d ∧
      release task i < u + 1 ∧ ran σ i (u + 1) ≠ (task i.1).C := by
    simpa only [Clear, not_forall, exists_prop] using hu
  have hlt : ran σ i u < (task i.1).C :=
    (ran_mono u.le_succ).trans_lt (lt_of_le_of_ne (h.ran_le i (u + 1)) hran)
  obtain ⟨i', hσ, hp, hd'⟩ := h.busy ⟨hi, Nat.lt_succ_iff.mp hr, hlt⟩
  refine ⟨i', hσ, hp.mem, ?_, hd'.trans hd⟩
  by_contra hlt
  have hdone := h₀ i' hp.mem (hd'.trans hd) (not_le.mp hlt)
  have hmono := ran_mono (σ := σ) (j := i') htu
  have := hp.unfinished
  omega

/-- The jobs that are released from `t₀` on and due by `d` are at most those that are due by
`d - t₀`. -/
theorem due_sub_le {τ : Task} {t₀ d : ℕ} (hT : 0 < τ.T) (h : t₀ ≤ d) :
    τ.due d - τ.released t₀ ≤ τ.due (d - t₀) := by
  have := Task.due_add (τ := τ) (L := t₀) (u := d - t₀) hT
  rw [Nat.add_sub_cancel' h] at this
  omega

/-- The slots from `t₀` to `d` go to jobs that are released and due there. -/
theorem IsEdf.slots_lt {t₀ d : ℕ} (h : IsEdf s task σ) (hT : ∀ i ∈ s, 0 < (task i).T)
    (hslot : ∀ u ∈ Finset.Ico t₀ d, ∃ i, σ u = some i ∧ i.1 ∈ s ∧ t₀ ≤ release task i ∧
      deadline task i ≤ d) (hj : j.1 ∈ s) (hjt : t₀ ≤ release task j) (hjd : deadline task j ≤ d)
    (hlt : ran σ j d < (task j.1).C) :
    d - t₀ < ∑ i ∈ s, ((task i).due d - (task i).released t₀) * (task i).C := by
  have : Nonempty (Job ι) := ⟨j⟩
  choose! f hf using hslot
  have hmem : ∀ i : Job ι, i.1 ∈ s → t₀ ≤ release task i → deadline task i ≤ d →
      (⟨i.1, i.2⟩ : Σ _ : ι, ℕ) ∈
        s.sigma fun i => Finset.Ico ((task i).released t₀) ((task i).due d) := by
    intro i hi hr hd
    refine Finset.mem_sigma.mpr ⟨hi, Finset.mem_Ico.mpr ⟨?_, ?_⟩⟩
    · exact (Task.released_le_iff (hT i.1 hi)).mpr hr
    · exact (Task.lt_due_iff (hT i.1 hi)).mpr hd
  have hcard := Finset.card_eq_sum_card_fiberwise (s := Finset.Ico t₀ d)
    (f := fun u => (⟨(f u).1, (f u).2⟩ : Σ _ : ι, ℕ)) fun u hu =>
      hmem (f u) (hf u hu).2.1 (hf u hu).2.2.1 (hf u hu).2.2.2
  have hfiber : ∀ i : Σ _ : ι, ℕ, (Finset.filter (fun u => (⟨(f u).1, (f u).2⟩ : Σ _ : ι, ℕ) = i)
      (Finset.Ico t₀ d)).card ≤ ran σ (i.1, i.2) d := by
    intro i
    refine Finset.card_le_card fun u hu => ?_
    obtain ⟨hu, hi⟩ := Finset.mem_filter.mp hu
    refine Finset.mem_filter.mpr ⟨Finset.mem_range.mpr (Finset.mem_Ico.mp hu).2, ?_⟩
    rw [(hf u hu).1, ← hi]
  rw [← Nat.card_Ico, hcard]
  calc _ < ∑ i ∈ s.sigma fun i => Finset.Ico ((task i).released t₀) ((task i).due d),
          (task i.1).C := by
        refine Finset.sum_lt_sum (fun i _ => (hfiber i).trans (h.ran_le _ _)) ⟨⟨j.1, j.2⟩, ?_, ?_⟩
        · exact hmem j hj hjt hjd
        · exact (hfiber _).trans_lt hlt
    _ = _ := by
        rw [Finset.sum_sigma]
        refine Finset.sum_congr rfl fun i _ => ?_
        change ∑ _k ∈ Finset.Ico ((task i).released t₀) ((task i).due d), (task i).C = _
        rw [Finset.sum_const, Nat.card_Ico]
        rfl

theorem IsEdf.meets (h : IsEdf s task σ) (hT : ∀ i ∈ s, 0 < (task i).T)
    (hD : ∀ i ∈ s, 0 < (task i).D) (hd : ∀ t, demand s task t ≤ t) (hj : j.1 ∈ s) :
    ran σ j (deadline task j) = (task j.1).C := by
  classical
  by_contra hne
  obtain ⟨d, hdj⟩ : ∃ d, d = deadline task j := ⟨_, rfl⟩
  have hlt : ran σ j d < (task j.1).C := hdj ▸ lt_of_le_of_ne (h.ran_le j _) hne
  have hjd : release task j < d := by
    have := hD j.1 hj
    rw [hdj, deadline]
    omega
  -- the last time before `d` with nothing left that is due by `d`
  obtain ⟨t₀, ht₀⟩ : ∃ t₀, t₀ = Nat.findGreatest (Clear s task σ d) d := ⟨_, rfl⟩
  have hclear : Clear s task σ d t₀ := by
    rw [ht₀]
    exact Nat.findGreatest_spec (m := 0) (Nat.zero_le d) fun _ _ _ h => absurd h (Nat.not_lt_zero _)
  have hnot : ∀ u, t₀ < u → u ≤ d → ¬ Clear s task σ d u := fun u hu hud =>
    Nat.findGreatest_is_greatest (by rwa [← ht₀]) hud
  have htd : t₀ < d := by
    refine lt_of_le_of_ne (ht₀ ▸ Nat.findGreatest_le d) fun heq => ?_
    have := hclear j hj hdj.ge (heq ▸ hjd)
    rw [heq] at this
    omega
  have hjt : t₀ ≤ release task j := by
    by_contra hjt
    have := hclear j hj hdj.ge (not_le.mp hjt)
    have hmono := ran_mono (σ := σ) (j := j) htd.le
    omega
  have hsum := h.slots_lt hT (fun u hu =>
    have hu := Finset.mem_Ico.mp hu
    h.busy_from hclear hu.1 (hnot (u + 1) (Nat.lt_succ_of_le hu.1) hu.2)) hj hjt hdj.ge hlt
  have hle : ∑ i ∈ s, ((task i).due d - (task i).released t₀) * (task i).C ≤
      demand s task (d - t₀) :=
    Finset.sum_le_sum fun i hi => Nat.mul_le_mul_right _ (due_sub_le (hT i hi) htd.le)
  have := hd (d - t₀)
  omega

end

end NixMark.Lib
