import Mathlib.Data.List.Basic

/-!
# Labelled transition systems and their invariants

* `Lts`: states, initial states and labelled steps; `Lts.Run`: the labels of a run and the state
  that it reaches; `Lts.Reach`: the reachable states.
* `Lts.restrict`: the runs whose steps all meet a condition. `Run.exec`, `Reach.exec`: the state that
  a step function computes from a list of labels is reached by them.
* `Run.induct`: a relation between the labels so far and the state is kept along a run;
  `Inductive.reach`: an inductive invariant holds of every reachable state.
* `Run.simulate`: a system whose steps are matched by runs of another one.
-/

namespace NixMark.Lib

universe u v w x

/-- A labelled transition system. -/
structure Lts (σ : Type u) (ε : Type v) where
  init : σ → Prop
  step : σ → ε → σ → Prop

namespace Lts

variable {σ : Type u} {ε : Type v} {S : Lts σ ε}

/-- The labels `es` lead from an initial state to the state. -/
inductive Run (S : Lts σ ε) : List ε → σ → Prop
  | init {s : σ} : S.init s → Run S [] s
  | step {es : List ε} {s s' : σ} {e : ε} : Run S es s → S.step s e s' → Run S (es ++ [e]) s'

/-- The states that a run reaches. -/
def Reach (S : Lts σ ε) (s : σ) : Prop := ∃ es, S.Run es s

variable {s s' : σ}

theorem Reach.step {e : ε} (h : S.Reach s) (hs : S.step s e s') : S.Reach s' :=
  have ⟨es, h⟩ := h
  ⟨es ++ [e], h.step hs⟩

variable {f : σ → ε → Option σ} {es : List ε}

/-- A list of labels that a step function executes. -/
theorem Run.exec (hf : ∀ s e s', f s e = some s' → S.step s e s') {ds : List ε} (h : S.Run ds s)
    (he : es.foldlM f s = some s') : S.Run (ds ++ es) s' := by
  induction es generalizing ds s with
  | nil =>
    cases he
    rw [List.append_nil]
    exact h
  | cons e es ih =>
    rw [List.foldlM_cons] at he
    obtain ⟨s₁, h₁, he⟩ := Option.bind_eq_some_iff.mp he
    have h := ih (h.step (hf _ _ _ h₁)) he
    rw [List.append_assoc] at h
    exact h

theorem Reach.exec (hf : ∀ s e s', f s e = some s' → S.step s e s') (h : S.Reach s)
    (he : es.foldlM f s = some s') : S.Reach s' :=
  have ⟨ds, h⟩ := h
  ⟨ds ++ es, h.exec hf he⟩

/-- The runs whose steps all meet `G`. -/
def restrict (S : Lts σ ε) (G : σ → ε → Prop) : Lts σ ε where
  init := S.init
  step s e s' := S.step s e s' ∧ G s e

variable {G : σ → ε → Prop}

theorem Run.of_restrict (h : (S.restrict G).Run es s) : S.Run es s := by
  induction h with
  | init hi => exact .init hi
  | step _ hs ih => exact ih.step hs.1

theorem Reach.of_restrict (h : (S.restrict G).Reach s) : S.Reach s :=
  have ⟨es, h⟩ := h
  ⟨es, h.of_restrict⟩

/-- Labels that meet the condition in every state. -/
theorem Reach.exec_restrict (hf : ∀ s e s', f s e = some s' → S.step s e s')
    (h : (S.restrict G).Reach s) (hG : ∀ e ∈ es, ∀ s, G s e) (he : es.foldlM f s = some s') :
    (S.restrict G).Reach s' := by
  induction es generalizing s with
  | nil =>
    cases he
    exact h
  | cons e es ih =>
    rw [List.foldlM_cons] at he
    obtain ⟨s₁, h₁, he⟩ := Option.bind_eq_some_iff.mp he
    exact ih (h.step ⟨hf _ _ _ h₁, hG e List.mem_cons_self s⟩)
      (fun e he => hG e (List.mem_cons_of_mem _ he)) he

/-- A relation between the labels so far and the state that every step keeps. -/
theorem Run.induct {I : List ε → σ → Prop} (h0 : ∀ s, S.init s → I [] s)
    (h1 : ∀ es s e s', I es s → S.step s e s' → I (es ++ [e]) s') (h : S.Run es s) : I es s := by
  induction h with
  | init hi => exact h0 _ hi
  | step _ hs ih => exact h1 _ _ _ _ ih hs

/-- An inductive invariant: it holds initially and every step keeps it. -/
structure Inductive (S : Lts σ ε) (I : σ → Prop) : Prop where
  init : ∀ s, S.init s → I s
  step : ∀ s e s', I s → S.step s e s' → I s'

theorem Inductive.reach {I : σ → Prop} (h : S.Inductive I) (hs : S.Reach s) : I s :=
  have ⟨_, hs⟩ := hs
  hs.induct (I := fun _ s => I s) h.init fun _ s e s' => h.step s e s'

/-- Every run is matched, label by label through `f`, by a run of `T` that ends in a related
state. -/
theorem Run.simulate {τ : Type w} {δ : Type x} {T : Lts τ δ} {R : σ → τ → Prop} {f : ε → List δ}
    (h0 : ∀ s, S.init s → ∃ t, T.init t ∧ R s t)
    (h1 : ∀ s t e s', R s t → S.step s e s' → ∃ t', R s' t' ∧
      ∀ ds, T.Run ds t → T.Run (ds ++ f e) t')
    (h : S.Run es s) : ∃ t, T.Run (es.flatMap f) t ∧ R s t := by
  induction h with
  | init hi =>
    obtain ⟨t, ht, hR⟩ := h0 _ hi
    exact ⟨t, .init ht, hR⟩
  | @step es s s' e _ hs ih =>
    obtain ⟨t, ht, hR⟩ := ih
    obtain ⟨t', hR', hrun⟩ := h1 s t e s' hR hs
    refine ⟨t', ?_, hR'⟩
    rw [List.flatMap_append, List.flatMap_singleton]
    exact hrun _ ht

end Lts

end NixMark.Lib
