import Mathlib.Data.List.Nodup

/-!
# Linked lists in a store

`next` is the link of each node; a pointer that is nil is `none`.

* `Chain next p l`: from the pointer `p` the links go through `l` and end with nil.
* `Path next a l c`: from the node `a` the links go through `l`, whose last node is `c`.
* `Ring next r l`: a circular list; `r` points to its last node.
* `Chain.push`, `Chain.splice`, `Chain.unlink`, `Ring.single`, `Ring.insert`, `Ring.unlink`: the
  changes of a list by writes of links. `Chain.congr` and `Ring.congr`: the links of other nodes do
  not matter.
-/

namespace NixMark.Lib

open Function (update update_of_ne update_self)

universe u

variable {α : Type u} {next next' : α → Option α}

/-! ## Lists that end with nil -/

def Chain (next : α → Option α) (p : Option α) : List α → Prop
  | [] => p = none
  | a :: l => p = some a ∧ Chain next (next a) l

variable {p : Option α} {l : List α}

theorem Chain.congr (h : Chain next p l) (he : ∀ a ∈ l, next' a = next a) : Chain next' p l := by
  induction l generalizing p with
  | nil => exact h
  | cons a l ih =>
    refine ⟨h.1, ?_⟩
    rw [he a List.mem_cons_self]
    exact ih h.2 fun b hb => he b (List.mem_cons_of_mem a hb)

theorem Chain.head (h : Chain next p l) : l.head? = p := by
  cases l with
  | nil => exact h.symm
  | cons a l => exact h.1.symm

variable {l₁ l₂ : List α} {q : α}

/-- What follows a node of the list. -/
theorem Chain.rest (h : Chain next p (l₁ ++ q :: l₂)) : Chain next (next q) l₂ := by
  induction l₁ generalizing p with
  | nil => exact h.2
  | cons a l₁ ih => exact ih h.2

/-- The node `q` is linked to another list. -/
theorem Chain.splice {l₃ : List α} (h : Chain next p (l₁ ++ q :: l₂))
    (he : ∀ a ∈ l₁, next' a = next a) (h₃ : Chain next' (next' q) l₃) :
    Chain next' p (l₁ ++ q :: l₃) := by
  induction l₁ generalizing p with
  | nil => exact ⟨h.1, h₃⟩
  | cons a l₁ ih =>
    refine ⟨h.1, ?_⟩
    rw [he a List.mem_cons_self]
    exact ih h.2 fun b hb => he b (List.mem_cons_of_mem a hb)

theorem Chain.unique {l' : List α} (h : Chain next p l) (h' : Chain next p l') : l = l' := by
  induction l generalizing p l' with
  | nil =>
    cases l' with
    | nil => rfl
    | cons a l' => cases (show p = none from h).symm.trans h'.1
  | cons a l ih =>
    cases l' with
    | nil => cases h.1.symm.trans (show p = none from h')
    | cons b l' =>
      cases h.1.symm.trans h'.1
      rw [ih h.2 h'.2]

variable [DecidableEq α]

variable {a : α}

/-- A node is put in front. -/
theorem Chain.push (h : Chain next p l) (ha : a ∉ l) :
    Chain (update next a p) (some a) (a :: l) := by
  refine ⟨rfl, ?_⟩
  rw [update_self]
  apply h.congr
  intro b hb
  exact update_of_ne (ne_of_mem_of_not_mem hb ha) _ _

/-- A node is taken out after its predecessor `q`. -/
theorem Chain.unlink (h : Chain next p (l₁ ++ q :: a :: l₂)) (hn : (l₁ ++ q :: a :: l₂).Nodup) :
    Chain (update next q (next a)) p (l₁ ++ q :: l₂) := by
  induction l₁ generalizing p with
  | nil =>
    refine ⟨h.1, ?_⟩
    rw [update_self]
    apply h.2.2.congr
    intro b hb
    have hn : q ∉ a :: l₂ := (List.nodup_cons.mp hn).1
    exact update_of_ne (ne_of_mem_of_not_mem (List.mem_cons_of_mem a hb) hn) _ _
  | cons b l₁ ih =>
    have hn := List.nodup_cons.mp hn
    refine ⟨h.1, ?_⟩
    have hb : b ≠ q := by
      rintro rfl
      exact hn.1 (by simp)
    rw [update_of_ne hb]
    exact ih h.2 hn.2

omit [DecidableEq α]

/-- The links lead from the pointer to the node. -/
inductive Follows (next : α → Option α) : Option α → α → Prop
  | here (a : α) : Follows next (some a) a
  | step {a b : α} : Follows next (next a) b → Follows next (some a) b

variable {b : α}

/-- The links lead to nothing outside of what is closed under them. -/
theorem Follows.mem_of_closed (hf : Follows next p b) (hp : ∀ a, p = some a → a ∈ l)
    (hl : ∀ a ∈ l, ∀ c, next a = some c → c ∈ l) : b ∈ l := by
  induction hf with
  | here a => exact hp a rfl
  | step _ ih => exact ih (hl _ (hp _ rfl))

theorem Chain.mem_of_follows (h : Chain next p l) (hf : Follows next p b) : b ∈ l := by
  induction hf generalizing l with
  | here a =>
    cases l with
    | nil => cases h
    | cons c l =>
      cases h.1
      exact List.mem_cons_self
  | step _ ih =>
    cases l with
    | nil => cases h
    | cons c l =>
      obtain ⟨⟨⟩, h⟩ := h
      exact List.mem_cons_of_mem _ (ih h)

theorem Chain.follows (h : Chain next p l) (hb : b ∈ l) : Follows next p b := by
  induction l generalizing p with
  | nil => cases hb
  | cons a l ih =>
    obtain ⟨rfl, h⟩ := h
    rcases List.mem_cons.mp hb with rfl | hb
    · exact .here b
    · exact .step (ih h hb)

/-! ## Circular lists -/

def Path (next : α → Option α) (a : α) : List α → α → Prop
  | [], c => a = c
  | b :: l, c => next a = some b ∧ Path next b l c

variable {c : α}

theorem Path.congr (h : Path next a l c) (ha : next' a = next a) (he : ∀ b ∈ l, next' b = next b) :
    Path next' a l c := by
  induction l generalizing a with
  | nil => exact h
  | cons b l ih =>
    refine ⟨ha.trans h.1, ih h.2 (he b List.mem_cons_self) fun d hd => ?_⟩
    exact he d (List.mem_cons_of_mem b hd)

theorem Path.last_mem (h : Path next a l c) (hl : l ≠ []) : c ∈ l := by
  induction l generalizing a with
  | nil => exact absurd rfl hl
  | cons b l ih =>
    cases l with
    | nil =>
      cases h.2
      exact List.mem_cons_self
    | cons d l => exact List.mem_cons_of_mem b (ih h.2 (List.cons_ne_nil d l))

/-- The link of a node of the path leads to a node of the path, but for the last one. -/
theorem Path.next_mem {z : α} (h : Path next a l z) (hb : b ∈ l) (hc : next b = some c) :
    c ∈ l ∨ b = z := by
  induction l generalizing a with
  | nil => cases hb
  | cons d l ih =>
    rcases List.mem_cons.mp hb with rfl | hb
    · cases l with
      | nil => exact .inr h.2
      | cons e l =>
        have he := h.2.1
        rw [hc] at he
        cases he
        exact .inl (by simp)
    · exact (ih h.2 hb).imp_left (List.mem_cons_of_mem d)

/-- The link of the last node does not matter, unless the path comes through it before. -/
theorem Path.congr_last (h : Path next a l c) (hn : (a :: l).Nodup)
    (he : ∀ b ∈ a :: l, b ≠ c → next' b = next b) : Path next' a l c := by
  induction l generalizing a with
  | nil => exact h
  | cons b l ih =>
    have hn := List.nodup_cons.mp hn
    have hac : a ≠ c := (ne_of_mem_of_not_mem (h.last_mem (List.cons_ne_nil b l)) hn.1).symm
    refine ⟨(he a List.mem_cons_self hac).trans h.1, ih h.2 hn.2 fun d hd hdc => ?_⟩
    exact he d (List.mem_cons_of_mem a hd) hdc

theorem Path.append (h₁ : Path next a l₁ b) (h₂ : Path next b l₂ c) : Path next a (l₁ ++ l₂) c := by
  induction l₁ generalizing a with
  | nil =>
    cases h₁
    exact h₂
  | cons d l ih => exact ⟨h₁.1, ih h₁.2⟩

/-- The nodes of a circular list, from the one after `r`; none when `r` is nil. -/
def Ring (next : α → Option α) (r : Option α) (l : List α) : Prop :=
  match r with
  | none => l = []
  | some a => l ≠ [] ∧ l.Nodup ∧ Path next a l a

theorem Ring.rover_mem (h : Ring next (some a) l) : a ∈ l :=
  h.2.2.last_mem h.1

variable {r : Option α}

theorem Ring.nodup (h : Ring next r l) : l.Nodup := by
  cases r with
  | none =>
    have h : l = [] := h
    rw [h]
    exact List.nodup_nil
  | some a => exact h.2.1

/-- The links of a circular list lead to its nodes only. -/
theorem Ring.mem_of_follows (h : Ring next r l) (hf : Follows next r b) : b ∈ l := by
  cases r with
  | none => cases hf
  | some r =>
    refine hf.mem_of_closed (fun a ha => Option.some.inj ha ▸ h.rover_mem) fun a ha c hc => ?_
    obtain hcl | rfl := h.2.2.next_mem ha hc
    · exact hcl
    · cases l with
      | nil => cases ha
      | cons d l =>
        have hd := h.2.2.1
        rw [hc] at hd
        cases hd
        exact List.mem_cons_self

theorem Path.follows (h : Path next a l c) (hb : b ∈ l) : Follows next (next a) b := by
  induction l generalizing a with
  | nil => cases hb
  | cons d l ih =>
    obtain ⟨hd, h⟩ := h
    rw [hd]
    rcases List.mem_cons.mp hb with rfl | hb
    · exact .here b
    · exact .step (ih h hb)

/-- They lead to all of them. -/
theorem Ring.follows (h : Ring next r l) (hb : b ∈ l) : Follows next r b := by
  cases r with
  | none =>
    have h : l = [] := h
    rw [h] at hb
    cases hb
  | some a => exact .step (h.2.2.follows hb)

theorem Ring.congr (h : Ring next r l) (he : ∀ a ∈ l, next' a = next a) : Ring next' r l := by
  cases r with
  | none => exact h
  | some a => exact ⟨h.1, h.2.1, h.2.2.congr (he a h.rover_mem) he⟩

/-- A node that points to itself. -/
theorem Ring.single (h : next a = some a) : Ring next (some a) [a] :=
  ⟨List.cons_ne_nil a [], List.nodup_singleton a, h, rfl⟩

/-- The node after `r` is the only one when it points to itself. -/
theorem Path.self_loop {prev r : α} (hn : (l₁ ++ a :: l₂).Nodup) (h₁ : Path next r l₁ prev)
    (hl : next prev = some a) (h₂ : Path next a l₂ r) (h : next prev = next a) :
    l₁ = [] ∧ l₂ = [] := by
  rw [hl] at h
  have h2 : l₂ = [] := by
    cases l₂ with
    | nil => rfl
    | cons b l =>
      have hb : a = b := Option.some.inj (h.trans h₂.1)
      subst hb
      have hn := (List.nodup_append.mp hn).2.1
      exact absurd List.mem_cons_self (List.nodup_cons.mp hn).1
  subst h2
  cases h₂
  refine ⟨?_, rfl⟩
  cases l₁ with
  | nil => rfl
  | cons b l =>
    have hb : a = b := Option.some.inj (h.trans h₁.1)
    subst hb
    exact absurd (List.mem_append_right _ List.mem_cons_self) (List.nodup_cons.mp hn).1

variable [DecidableEq α]

/-- A node is put in after `r`. -/
theorem Ring.insert {r : α} (h : Ring next (some r) l) (ha : a ∉ l) :
    Ring (update (update next a (next r)) r (some a)) (some r) (a :: l) := by
  have har : a ≠ r := fun e => ha (e ▸ h.rover_mem)
  obtain ⟨hne, hn, hp⟩ := h
  refine ⟨List.cons_ne_nil a l, List.nodup_cons.mpr ⟨ha, hn⟩, ?_⟩
  refine ⟨update_self .., ?_⟩
  cases l with
  | nil => exact absurd rfl hne
  | cons b l =>
    refine ⟨?_, ?_⟩
    · rw [update_of_ne har, update_self]
      exact hp.1
    · apply hp.2.congr_last hn
      intro d hd hdr
      rw [update_of_ne hdr]
      exact update_of_ne (ne_of_mem_of_not_mem hd ha) _ _

/-- A node is taken out after its predecessor `prev`, which the pointer is moved to. -/
theorem Ring.unlink {r prev : α} (hn : (l₁ ++ a :: l₂).Nodup) (h₁ : Path next r l₁ prev)
    (hl : next prev = some a) (h₂ : Path next a l₂ r) (hne : next prev ≠ next a) :
    Ring (update next prev (next a)) (some prev) (l₂ ++ l₁) := by
  have hnil : l₂ ++ l₁ ≠ [] := by
    intro e
    obtain ⟨rfl, rfl⟩ := List.append_eq_nil_iff.mp e
    cases h₁
    cases h₂
    exact hne rfl
  have hn' : (l₂ ++ l₁).Nodup := by
    have := List.nodup_append_comm.mp hn
    exact (List.nodup_cons.mp this).2
  refine ⟨hnil, hn', ?_⟩
  -- the path from `prev` goes through `l₂` to `r`, and through `l₁` back to `prev`
  have hb : ∀ (l : List α) (b : α), next a = some b → Path next b l prev → (b :: l).Nodup →
      Path (update next prev (next a)) prev (b :: l) prev := by
    intro l b hab hp hbn
    refine ⟨by rw [update_self]; exact hab, ?_⟩
    apply hp.congr_last hbn
    intro d _ hd
    exact update_of_ne hd _ _
  cases l₂ with
  | nil =>
    cases h₂
    cases l₁ with
    | nil => exact absurd rfl hnil
    | cons b l => exact hb l b h₁.1 h₁.2 hn'
  | cons b l => exact hb (l ++ l₁) b h₂.1 (h₂.2.append h₁) hn'

end NixMark.Lib
