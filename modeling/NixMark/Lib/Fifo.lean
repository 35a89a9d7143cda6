import NixMark.Lib.Lts

/-!
# First in, first out

The abstract queue of the items `α`: what is pushed goes to the back, what is popped comes from the
front. `fifo_conservation`: along every run the items popped, followed by the items that are left,
are the items pushed, in order. A system refines the queue when each of its steps is matched by
pushes and pops (`Lts.Run.simulate`); `Lts.Run.fifo` is what it gains.
-/

namespace NixMark.Lib

universe u v w

/-- A push or a pop of several items. -/
inductive FifoEvent (α : Type u) where
  | push (xs : List α)
  | pop (xs : List α)

namespace FifoEvent

variable {α : Type u}

def pushed : FifoEvent α → List α
  | push xs => xs
  | pop _ => []

def popped : FifoEvent α → List α
  | push _ => []
  | pop xs => xs

/-- The event takes the contents `c` to `c'`. -/
def Moves (c c' : List α) : FifoEvent α → Prop
  | push xs => c' = c ++ xs
  | pop xs => c = xs ++ c'

theorem Moves.conserve {c c' : List α} {e : FifoEvent α} (h : e.Moves c c') :
    c ++ e.pushed = e.popped ++ c' := by
  cases e with
  | push xs => exact h.symm
  | pop xs => exact (List.append_nil c).trans h

end FifoEvent

/-- The abstract queue. -/
def fifo (α : Type u) : Lts (List α) (FifoEvent α) where
  init c := c = []
  step c e c' := e.Moves c c'

variable {α : Type u}

theorem fifo_conservation {es : List (FifoEvent α)} {c : List α} (h : (fifo α).Run es c) :
    es.flatMap FifoEvent.popped ++ c = es.flatMap FifoEvent.pushed := by
  induction h with
  | init hc => exact hc
  | @step es c c' e _ hs ih =>
    rw [List.flatMap_append, List.flatMap_append, ← ih, List.flatMap_singleton,
      List.flatMap_singleton, List.append_assoc, List.append_assoc, FifoEvent.Moves.conserve hs]

/-- The effect of a step on the contents: at most one push or pop. -/
def Effect (c c' : List α) : Option (FifoEvent α) → Prop
  | none => c' = c
  | some e => e.Moves c c'

/-- A system whose steps push to and pop from its contents is a queue. -/
theorem Lts.Run.fifo {σ : Type v} {ε : Type w} {S : Lts σ ε} {I : σ → Prop} {f : σ → List α}
    {g : ε → Option (FifoEvent α)} (hI : S.Inductive I) (h0 : ∀ s, S.init s → f s = [])
    (h1 : ∀ s e s', I s → S.step s e s' → Effect (f s) (f s') (g e))
    {es : List ε} {s : σ} (h : S.Run es s) :
    (es.flatMap fun e => (g e).toList).flatMap FifoEvent.popped ++ f s =
      (es.flatMap fun e => (g e).toList).flatMap FifoEvent.pushed := by
  obtain ⟨c, hc, -, rfl⟩ := h.simulate (T := Lib.fifo α) (f := fun e => (g e).toList)
    (R := fun s c => I s ∧ f s = c) (fun s hs => ⟨_, h0 s hs, hI.init s hs, rfl⟩) <| by
      rintro s c e s' ⟨hs, rfl⟩ hst
      have he := h1 s e s' hs hst
      refine ⟨f s', ⟨hI.step s e s' hs hst, rfl⟩, fun ds hd => ?_⟩
      cases hg : g e with
      | none =>
        rw [hg] at he
        rw [show f s' = f s from he]
        simpa using hd
      | some d =>
        rw [hg] at he
        exact hd.step he
  exact fifo_conservation hc

end NixMark.Lib
