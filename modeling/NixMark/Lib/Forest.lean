import Mathlib.Data.List.Basic

/-!
# Trees in a store

The nodes of some trees, each with a list of children and a pointer to its parent.

* `Below kids r n`: the node `n` is in the tree below `r`.
* `Below.unique`: two trees whose nodes know their parents have no node in common.
-/

namespace NixMark.Lib

universe u

variable {α : Type u} {kids kids' : α → List α} {parent : α → Option α} {a b c r r' : α}

inductive Below (kids : α → List α) (r : α) : α → Prop
  | here : Below kids r r
  | step {a b : α} : Below kids r a → b ∈ kids a → Below kids r b

theorem Below.child (h : b ∈ kids a) : Below kids a b := .step .here h

theorem Below.trans (h : Below kids a b) (h' : Below kids b c) : Below kids a c := by
  induction h' with
  | here => exact h
  | step _ hc ih => exact ih.step hc

/-- The tree does not change when its nodes do not. -/
theorem Below.congr (h : Below kids r a) (he : ∀ b, Below kids r b → kids' b = kids b) :
    Below kids' r a := by
  induction h with
  | here => exact .here
  | step hb hc ih =>
    refine ih.step ?_
    rwa [he _ hb]

theorem Below.congr_iff (he : ∀ b, Below kids r b → kids' b = kids b) :
    Below kids' r a ↔ Below kids r a := by
  refine ⟨fun h => ?_, fun h => h.congr he⟩
  induction h with
  | here => exact .here
  | step _ hc ih =>
    rw [he _ ih] at hc
    exact ih.step hc

/-- The node is the root, or it is a child of a node of the tree. -/
theorem Below.cases_root (h : Below kids r a) : a = r ∨ ∃ b, Below kids r b ∧ a ∈ kids b := by
  cases h with
  | here => exact .inl rfl
  | step hb ha => exact .inr ⟨_, hb, ha⟩

/-- A property that a root has, and that goes from a node to its children. -/
theorem Below.induct {Q : α → Prop} (h : Below kids r a) (h0 : Q r)
    (h1 : ∀ a b, Q a → b ∈ kids a → Q b) : Q a := by
  induction h with
  | here => exact h0
  | step _ hb ih => exact h1 _ _ ih hb

theorem Below.unique (hp : ∀ a b, b ∈ kids a → parent b = some a) (hr : parent r = none)
    (hr' : parent r' = none) (h : Below kids r a) (h' : Below kids r' a) : r = r' := by
  induction h with
  | here =>
    obtain rfl | ⟨b, -, hb⟩ := h'.cases_root
    · rfl
    · rw [hp b r hb] at hr
      cases hr
  | @step a b _ hb ih =>
    obtain rfl | ⟨a', ha', hb'⟩ := h'.cases_root
    · rw [hp a b hb] at hr'
      cases hr'
    · have he := (hp a b hb).symm.trans (hp a' b hb')
      cases he
      exact ih ha'

end NixMark.Lib
