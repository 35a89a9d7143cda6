import Mathlib.Logic.Basic

/-!
# Loops that may not end

A round of a loop goes on with a new state, or it ends with a value.

* `Round`, `Round.All`: what a round leads to.
* `loop`, `Ends`: at most so many rounds; the loop ends, and with which value.
* `Ends.unique`, `ends_next`, `ends_done`: the value, round by round.
* `Ends.holds`: what the rounds keep leads to what holds at the end.
* `ends_of`: a loop whose rounds keep an invariant and lower a measure ends.
-/

namespace NixMark.Lib

inductive Round (σ α : Type) where
  | next (s : σ)
  | done (a : α)

variable {σ α : Type} {step : σ → Round σ α} {s s' : σ} {a b : α}

/-- A state to go on with has `P`, a value to end with has `Q`. -/
def Round.All (P : σ → Prop) (Q : α → Prop) : Round σ α → Prop
  | .next s => P s
  | .done a => Q a

/-- The value of the loop, if it ends within `n` rounds. -/
def loop (step : σ → Round σ α) : Nat → σ → Option α
  | 0, _ => none
  | n + 1, s =>
    match step s with
    | .next s => loop step n s
    | .done a => some a

def Ends (step : σ → Round σ α) (s : σ) (a : α) : Prop := ∃ n, loop step n s = some a

theorem loop_next (h : step s = .next s') (n : Nat) : loop step (n + 1) s = loop step n s' := by
  rw [loop, h]

theorem loop_done (h : step s = .done a) (n : Nat) : loop step (n + 1) s = some a := by
  rw [loop, h]

theorem ends_next (h : step s = .next s') : Ends step s a ↔ Ends step s' a := by
  constructor
  · rintro ⟨n, hn⟩
    cases n with
    | zero => cases hn
    | succ n =>
      rw [loop_next h] at hn
      exact ⟨n, hn⟩
  · rintro ⟨n, hn⟩
    exact ⟨n + 1, (loop_next h n).trans hn⟩

theorem ends_done (h : step s = .done a) : Ends step s b ↔ b = a := by
  constructor
  · rintro ⟨n, hn⟩
    cases n with
    | zero => cases hn
    | succ n =>
      rw [loop_done h] at hn
      exact (Option.some.inj hn).symm
  · rintro rfl
    exact ⟨1, loop_done h 0⟩

theorem Ends.unique (h : Ends step s a) (h' : Ends step s b) : a = b := by
  obtain ⟨n, hn⟩ := h
  induction n generalizing s with
  | zero => cases hn
  | succ n ih =>
    cases hs : step s with
    | next s' =>
      rw [loop_next hs] at hn
      exact ih ((ends_next hs).mp h') hn
    | done c =>
      rw [loop_done hs] at hn
      cases hn
      exact ((ends_done hs).mp h').symm

/-- However a loop ends: its rounds keep `P`, and they end with `Q`. -/
theorem Ends.holds {P : σ → Prop} {Q : α → Prop} (h : Ends step s a)
    (hround : ∀ s, P s → (step s).All P Q) (hs : P s) : Q a := by
  obtain ⟨n, hn⟩ := h
  induction n generalizing s with
  | zero => cases hn
  | succ n ih =>
    have hr := hround s hs
    cases hstep : step s with
    | next s' =>
      rw [loop_next hstep] at hn
      rw [hstep] at hr
      exact ih hr hn
    | done c =>
      rw [loop_done hstep] at hn
      rw [hstep] at hr
      cases hn
      exact hr

/-- A loop ends when its rounds keep `P` and lower `m`. -/
theorem ends_of {P : σ → Prop} {Q : α → Prop} (m : σ → Nat)
    (h : ∀ s, P s → (step s).All (fun s' => P s' ∧ m s' < m s) Q) (hs : P s) :
    ∃ a, Ends step s a ∧ Q a := by
  generalize hm : m s = k
  induction k using Nat.strongRecOn generalizing s with
  | ind k ih =>
    have hround := h s hs
    cases hstep : step s with
    | done a =>
      rw [hstep] at hround
      exact ⟨a, (ends_done hstep).mpr rfl, hround⟩
    | next s' =>
      rw [hstep] at hround
      obtain ⟨a, ha, hq⟩ := ih (m s') (hm ▸ hround.2) hround.1 rfl
      exact ⟨a, (ends_next hstep).mpr ha, hq⟩

end NixMark.Lib
