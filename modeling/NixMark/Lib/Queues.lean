import NixMark.Lib.Links

/-!
# Queues with links

A family of linked lists that share a store, each with a pointer to its first node and one to its
last; a node is on one of them at most.

* `Queues next head tail L`: the pointers are those of the lists `L`.
* `walk`: the loop that looks for a node and keeps the one before it; `walk_spec`: where it ends.
* `Queues.insert`, `Queues.push`, `Queues.remove`: the writes that put a node in and take it out.
* `Heads`: lists without a pointer to the last node, whose nodes keep their link when they are taken
  out.
-/

namespace NixMark.Lib

open Function (update update_eq_self update_of_ne update_self)

universe u v

variable {α : Type u} {κ : Type v} {next : α → Option α}

/-- `p` is looked at next, after `l`. -/
def walk (next : α → Option α) (test : α → Bool) :
    Nat → Option α → Option α → Option α × Option α
  | 0, l, _ => (l, none)
  | _ + 1, l, none => (l, none)
  | fuel + 1, l, some p => if test p then (l, some p) else walk next test fuel (some p) (next p)

variable {fuel : Nat} {p : Option α} {l : List α}

/-- The loop ends between two parts of the list: nothing in the first one passes the test, and the
first node of the second one does. -/
theorem walk_append (test : α → Bool) (pre : List α) (h : Chain next p l) (hfuel : l.length ≤ fuel)
    (hpre : ∀ a ∈ pre, test a = false) :
    ∃ l₁ l₂, pre ++ l = l₁ ++ l₂ ∧
      walk next test fuel pre.getLast? p = (l₁.getLast?, l₂.head?) ∧
      (∀ a ∈ l₁, test a = false) ∧ ∀ a, l₂.head? = some a → test a = true := by
  induction l generalizing fuel p pre with
  | nil =>
    refine ⟨pre, [], rfl, ?_, hpre, nofun⟩
    rw [show p = none from h]
    cases fuel <;> rfl
  | cons a l ih =>
    obtain ⟨rfl, h⟩ := h
    cases fuel with
    | zero => cases hfuel
    | succ fuel =>
      rw [walk]
      by_cases ha : test a = true
      · rw [if_pos ha]
        refine ⟨pre, a :: l, rfl, rfl, hpre, fun b hb => ?_⟩
        cases hb
        exact ha
      · rw [if_neg ha]
        have hpre' : ∀ b ∈ pre ++ [a], test b = false := by
          intro b hb
          rcases List.mem_append.mp hb with hb | hb
          · exact hpre b hb
          · rw [List.mem_singleton.mp hb]
            exact Bool.eq_false_iff.mpr ha
        obtain ⟨l₁, l₂, he, hw, h₁, h₂⟩ := ih (pre ++ [a]) h (Nat.le_of_succ_le_succ hfuel) hpre'
        rw [List.getLast?_concat] at hw
        exact ⟨l₁, l₂, by rw [← he, List.append_assoc, List.singleton_append], hw, h₁, h₂⟩

theorem walk_spec (test : α → Bool) (h : Chain next p l) (hfuel : l.length ≤ fuel) :
    ∃ l₁ l₂, l = l₁ ++ l₂ ∧ walk next test fuel none p = (l₁.getLast?, l₂.head?) ∧
      (∀ a ∈ l₁, test a = false) ∧ ∀ a, l₂.head? = some a → test a = true :=
  walk_append test [] h hfuel nofun

theorem walk_test {test : α → Bool} {l : Option α} {l' : Option α} {a : α}
    (h : walk next test fuel l p = (l', some a)) : test a = true := by
  induction fuel generalizing l p with
  | zero => cases h
  | succ fuel ih =>
    cases p with
    | none => cases h
    | some q =>
      rw [walk] at h
      split_ifs at h with hq
      · cases h
        exact hq
      · exact ih h

/-- The lists of a family, and their pointers. -/
structure Queues (next : α → Option α) (head tail : κ → Option α) (L : κ → List α) : Prop where
  chain : ∀ k, Chain next (head k) (L k)
  tail : ∀ k, tail k = (L k).getLast?
  nodup : ∀ k, (L k).Nodup
  apart : ∀ {a k k'}, a ∈ L k → a ∈ L k' → k = k'
  off : ∀ a, (∀ k, a ∉ L k) → next a = none

variable [DecidableEq α] [DecidableEq κ] {head tail : κ → Option α} {L : κ → List α} {a : α}
  {k : κ} {l₁ l₂ : List α}

/-- The pointer that leads to what follows `prev`, or to the first node. -/
def relink (next : α → Option α) (prev : Option α) (p : Option α) : α → Option α :=
  match prev with
  | some q => Function.update next q p
  | none => next

def rehead (head : κ → Option α) (k : κ) (prev : Option α) (p : Option α) : κ → Option α :=
  match prev with
  | some _ => head
  | none => Function.update head k p

theorem relink_of_ne {prev : Option α} {b : α} (h : prev ≠ some b) :
    relink next prev p b = next b := by
  cases prev with
  | none => rfl
  | some q => exact update_of_ne (fun e => h (congrArg some e.symm)) _ _

/-- The links are changed behind `l₁`, so that `l₃` follows there. -/
theorem Chain.relink {r : Option α} {l₃ : List α} (h : Chain next p (l₁ ++ l₂))
    (hn : (l₁ ++ l₂).Nodup) (h₃ : Chain (Lib.relink next l₁.getLast? r) r l₃) :
    Chain (Lib.relink next l₁.getLast? r) (if l₁ = [] then r else p) (l₁ ++ l₃) := by
  rcases List.eq_nil_or_concat l₁ with rfl | ⟨l, q, rfl⟩
  · exact h₃
  · rw [List.concat_eq_append] at *
    rw [List.getLast?_concat] at *
    rw [if_neg (by simp), List.append_assoc, List.singleton_append]
    rw [List.append_assoc, List.singleton_append] at h hn
    refine h.splice (fun b hb => ?_) ?_
    · have hbq : b ≠ q := fun e =>
        (List.nodup_append.mp hn).2.2 b hb q List.mem_cons_self e
      exact update_of_ne hbq _ _
    · rw [show Lib.relink next (some q) r q = r from update_self ..]
      exact h₃

variable {next' : α → Option α}

omit [DecidableEq α] [DecidableEq κ] in
/-- The other lists do not see a change of the links of `k`. -/
theorem Queues.others (h : Queues next head tail L) {k' : κ} (hk : k' ≠ k)
    (he : ∀ b, b ∉ L k → (∃ k, b ∈ L k) → next' b = next b) : Chain next' (head k') (L k') :=
  (h.chain k').congr fun b hb => he b (fun hb' => hk (h.apart hb hb')) ⟨k', hb⟩

/-- The lists after the list `k` was replaced by `l`. -/
theorem Queues.change (h : Queues next head tail L) {r : Option α} (hc : Chain next' r l)
    (hn : l.Nodup) (hsub : ∀ b ∈ l, b ∈ L k ∨ ∀ k, b ∉ L k)
    (hkeep : ∀ b, b ∉ L k → (∃ k, b ∈ L k) → next' b = next b)
    (hoff : ∀ b, b ∉ l → (b ∈ L k ∨ ∀ k, b ∉ L k) → next' b = none) :
    Queues next' (update head k r) (update tail k l.getLast?) (update L k l) where
  chain k' := by
    by_cases hk : k' = k
    · subst hk
      rwa [update_self, update_self]
    · rw [update_of_ne hk, update_of_ne hk]
      exact h.others hk hkeep
  tail k' := by
    by_cases hk : k' = k
    · subst hk
      rw [update_self, update_self]
    · rw [update_of_ne hk, update_of_ne hk]
      exact h.tail k'
  nodup k' := by
    by_cases hk : k' = k
    · subst hk
      rwa [update_self]
    · rw [update_of_ne hk]
      exact h.nodup k'
  apart {b k₁ k₂} h₁ h₂ := by
    by_cases hk₁ : k₁ = k <;> by_cases hk₂ : k₂ = k
    · rw [hk₁, hk₂]
    · subst hk₁
      rw [update_self] at h₁
      rw [update_of_ne hk₂] at h₂
      rcases hsub b h₁ with hb | hb
      · exact h.apart hb h₂
      · exact absurd h₂ (hb k₂)
    · subst hk₂
      rw [update_self] at h₂
      rw [update_of_ne hk₁] at h₁
      rcases hsub b h₂ with hb | hb
      · exact h.apart h₁ hb
      · exact absurd h₁ (hb k₁)
    · rw [update_of_ne hk₁] at h₁
      rw [update_of_ne hk₂] at h₂
      exact h.apart h₁ h₂
  off b hb := by
    have hbl : b ∉ l := by
      have := hb k
      rwa [update_self] at this
    have hother : ∀ k', k' ≠ k → b ∉ L k' := by
      intro k' hk
      have := hb k'
      rwa [update_of_ne hk] at this
    by_cases hbk : b ∈ L k
    · exact hoff b hbl (.inl hbk)
    · refine hoff b hbl (.inr fun k' => ?_)
      by_cases hk : k' = k
      · rwa [hk]
      · exact hother k' hk

/-- A node that is on no list is put in behind `l₁`. -/
theorem Queues.insert (h : Queues next head tail L) (hl : L k = l₁ ++ l₂) (ha : ∀ k, a ∉ L k) :
    Queues (relink (update next a l₂.head?) l₁.getLast? (some a))
      (rehead head k l₁.getLast? (some a)) (if l₂ = [] then update tail k (some a) else tail)
      (update L k (l₁ ++ a :: l₂)) := by
  have hn := h.nodup k
  have hc := h.chain k
  rw [hl] at hn hc
  have hal : a ∉ l₁ ++ l₂ := hl ▸ ha k
  have hlast : ∀ q, l₁.getLast? = some q → q ∈ l₁ := fun q hq => List.mem_of_getLast? hq
  have ha₁ : l₁.getLast? ≠ some a := fun e => hal (List.mem_append_left _ (hlast a e))
  -- the links of `l₂` are as they were
  have hrest : Chain (relink (update next a l₂.head?) l₁.getLast? (some a)) l₂.head? l₂ := by
    have hbase : Chain next l₂.head? l₂ := by
      rcases List.eq_nil_or_concat l₁ with rfl | ⟨l, q, rfl⟩
      · rw [List.nil_append] at hc
        rwa [hc.head]
      · rw [List.concat_eq_append, List.append_assoc, List.singleton_append] at hc
        have := hc.rest
        rwa [this.head]
    refine hbase.congr fun b hb => ?_
    rw [relink_of_ne, update_of_ne]
    · rintro rfl
      exact hal (List.mem_append_right _ hb)
    · exact fun e => (List.nodup_append.mp hn).2.2 b (hlast b e) b hb rfl
  have hc' : Chain (update next a l₂.head?) (head k) (l₁ ++ l₂) := hc.congr fun b hb =>
    update_of_ne (ne_of_mem_of_not_mem hb hal) _ _
  have hbehind : Chain (relink (update next a l₂.head?) l₁.getLast? (some a)) (some a)
      (a :: l₂) := ⟨rfl, by rwa [relink_of_ne ha₁, update_self]⟩
  have hchain := hc'.relink hn hbehind
  have hq := h.change (k := k) hchain
    (by
      refine (List.perm_middle.nodup_iff).mpr (List.nodup_cons.mpr ⟨hal, hn⟩))
    (fun b hb => by
      rcases List.mem_append.mp hb with hb | hb
      · exact .inl (hl ▸ List.mem_append_left _ hb)
      · rcases List.mem_cons.mp hb with rfl | hb
        · exact .inr ha
        · exact .inl (hl ▸ List.mem_append_right _ hb))
    (fun b hb ⟨k', hb'⟩ => by
      rw [hl] at hb
      rw [relink_of_ne fun e => hb (List.mem_append_left _ (hlast b e)), update_of_ne]
      rintro rfl
      exact ha k' hb')
    (fun b hb hb' => by
      have hba : b ≠ a := fun e => hb (e ▸ List.mem_append_right _ List.mem_cons_self)
      have hbl : ∀ k, b ∉ L k := by
        refine hb'.resolve_left fun hbk => hb ?_
        rw [hl] at hbk
        rcases List.mem_append.mp hbk with hbk | hbk
        · exact List.mem_append_left _ hbk
        · exact List.mem_append_right _ (List.mem_cons_of_mem a hbk)
      rw [relink_of_ne fun e => hbl k (hl ▸ List.mem_append_left _ (hlast b e)), update_of_ne hba]
      exact h.off b hbl)
  have htail := h.tail k
  rw [hl] at htail
  have hhead : update head k (if l₁ = [] then some a else head k) =
      rehead head k l₁.getLast? (some a) := by
    rcases List.eq_nil_or_concat l₁ with rfl | ⟨l, q, rfl⟩
    · rfl
    · rw [if_neg (by simp), update_eq_self, List.concat_eq_append, List.getLast?_concat]
      rfl
  have htail' : update tail k (l₁ ++ a :: l₂).getLast? =
      if l₂ = [] then update tail k (some a) else tail := by
    split_ifs with h₂
    · rw [h₂, List.getLast?_concat]
    · rw [List.getLast?_append_of_ne_nil _ (List.cons_ne_nil a l₂), List.getLast?_cons_of_ne_nil h₂,
        ← List.getLast?_append_of_ne_nil l₁ h₂, ← htail, update_eq_self]
  rwa [hhead, htail'] at hq

/-- A node is put in at the end. -/
theorem Queues.push (h : Queues next head tail L) (k : κ) (ha : ∀ k, a ∉ L k) :
    Queues (relink next (tail k) (some a)) (rehead head k (tail k) (some a))
      (update tail k (some a)) (update L k (L k ++ [a])) := by
  have hq := h.insert (k := k) (List.append_nil _).symm ha
  rwa [if_pos rfl, ← h.tail k, List.head?_nil, ← h.off a ha, update_eq_self] at hq

/-- The node `a` is taken out. -/
theorem Queues.remove (h : Queues next head tail L) (hl : L k = l₁ ++ a :: l₂) :
    Queues (update (relink next l₁.getLast? (next a)) a none)
      (rehead head k l₁.getLast? (next a))
      (if next a = none then update tail k l₁.getLast? else tail)
      (update L k (l₁ ++ l₂)) := by
  have hn := h.nodup k
  have hc := h.chain k
  rw [hl] at hn hc
  obtain ⟨hal, hn'⟩ := List.nodup_cons.mp (List.perm_middle.nodup_iff.mp hn)
  have hlast : ∀ q, l₁.getLast? = some q → q ∈ l₁ := fun q hq => List.mem_of_getLast? hq
  have hrest := hc.rest
  have hne : ∀ b ∈ l₂, l₁.getLast? ≠ some b := fun b hb e =>
    (List.nodup_append.mp hn').2.2 b (hlast b e) b hb rfl
  have hbehind : Chain (relink next l₁.getLast? (next a)) (next a) l₂ :=
    hrest.congr fun b hb => relink_of_ne (hne b hb)
  have hchain : Chain (update (relink next l₁.getLast? (next a)) a none)
      (if l₁ = [] then next a else head k) (l₁ ++ l₂) := (hc.relink hn hbehind).congr fun b hb =>
    update_of_ne (ne_of_mem_of_not_mem hb hal) _ _
  have hq := h.change (k := k) hchain hn'
    (fun b hb => .inl (by
      rw [hl]
      exact ((List.sublist_cons_self a l₂).append_left l₁).subset hb))
    (fun b hb _ => by
      rw [hl] at hb
      rw [update_of_ne, relink_of_ne fun e => hb (List.mem_append_left _ (hlast b e))]
      rintro rfl
      exact hb (List.mem_append_right _ List.mem_cons_self))
    (fun b hb hb' => by
      by_cases hba : b = a
      · rw [hba, update_self]
      · have hbl : ∀ k, b ∉ L k := by
          refine hb'.resolve_left fun hbk => hb ?_
          rw [hl] at hbk
          rcases List.mem_append.mp hbk with hbk | hbk
          · exact List.mem_append_left _ hbk
          · exact List.mem_append_right _ ((List.mem_cons.mp hbk).resolve_left hba)
        rw [update_of_ne hba, relink_of_ne fun e => hbl k (hl ▸ List.mem_append_left _ (hlast b e))]
        exact h.off b hbl)
  have htail := h.tail k
  rw [hl] at htail
  have hhead : update head k (if l₁ = [] then next a else head k) =
      rehead head k l₁.getLast? (next a) := by
    rcases List.eq_nil_or_concat l₁ with rfl | ⟨l, q, rfl⟩
    · rfl
    · rw [if_neg (by simp), update_eq_self, List.concat_eq_append, List.getLast?_concat]
      rfl
  have htail' : update tail k (l₁ ++ l₂).getLast? =
      if next a = none then update tail k l₁.getLast? else tail := by
    rw [← hrest.head]
    rcases l₂ with _ | ⟨b, l₂⟩
    · rw [List.append_nil, List.head?_nil, if_pos rfl]
    · rw [if_neg (by simp), List.getLast?_append_of_ne_nil _ (List.cons_ne_nil b l₂),
        ← List.getLast?_append_of_ne_nil (l₁ ++ [a]) (List.cons_ne_nil b l₂), List.append_assoc,
        List.singleton_append, ← htail, update_eq_self]
  rwa [hhead, htail'] at hq

/-! ## Lists without a pointer to the last node -/

omit [DecidableEq α] [DecidableEq κ] in
/-- The lists of a family, and the pointers to their first nodes. -/
structure Heads (next : α → Option α) (head : κ → Option α) (L : κ → List α) : Prop where
  chain : ∀ k, Chain next (head k) (L k)
  nodup : ∀ k, (L k).Nodup
  apart : ∀ {a k k'}, a ∈ L k → a ∈ L k' → k = k'

open Classical in
/-- The links, without those of the nodes that are on no list. -/
noncomputable def linked (next : α → Option α) (L : κ → List α) (a : α) : Option α :=
  if ∃ k, a ∈ L k then next a else none

section
omit [DecidableEq α] [DecidableEq κ]

theorem linked_of_mem (h : a ∈ L k) : linked next L a = next a := if_pos ⟨k, h⟩

theorem Heads.queues (h : Heads next head L) :
    Queues (linked next L) head (fun k => (L k).getLast?) L where
  chain k := (h.chain k).congr fun _ ha => linked_of_mem ha
  tail _ := rfl
  nodup := h.nodup
  apart := h.apart
  off _ ha := if_neg fun ⟨k, hk⟩ => ha k hk

theorem Queues.heads (h : Queues next head tail L) (he : ∀ k, ∀ a ∈ L k, next' a = next a) :
    Heads next' head L where
  chain k := (h.chain k).congr (he k)
  nodup := h.nodup
  apart := h.apart

end

theorem relink_congr {prev : Option α} (h : next' a = next a) :
    relink next' prev p a = relink next prev p a := by
  cases prev with
  | none => exact h
  | some q =>
    change update next' q p a = update next q p a
    by_cases haq : a = q
    · rw [haq, update_self, update_self]
    · rw [update_of_ne haq, update_of_ne haq, h]

theorem Heads.insert (h : Heads next head L) (hl : L k = l₁ ++ l₂) (ha : ∀ k, a ∉ L k) :
    Heads (relink (update next a l₂.head?) l₁.getLast? (some a))
      (rehead head k l₁.getLast? (some a)) (update L k (l₁ ++ a :: l₂)) := by
  refine (h.queues.insert hl ha).heads fun k' b hb => relink_congr ?_
  by_cases hba : b = a
  · rw [hba, update_self, update_self]
  · rw [update_of_ne hba, update_of_ne hba]
    refine (linked_of_mem (k := k') ?_).symm
    by_cases hk : k' = k
    · rw [hk, update_self] at hb
      rw [hk, hl]
      obtain hb | hb := List.mem_append.mp hb
      · exact List.mem_append_left _ hb
      · exact List.mem_append_right _ ((List.mem_cons.mp hb).resolve_left hba)
    · rwa [update_of_ne hk] at hb

theorem Heads.remove (h : Heads next head L) (hl : L k = l₁ ++ a :: l₂) :
    Heads (relink next l₁.getLast? (next a)) (rehead head k l₁.getLast? (next a))
      (update L k (l₁ ++ l₂)) := by
  have ha : a ∈ L k := by
    rw [hl]
    exact List.mem_append_right _ List.mem_cons_self
  have hsub : ∀ b ∈ l₁ ++ l₂, b ∈ L k ∧ b ≠ a := by
    intro b hb
    rw [hl]
    refine ⟨((List.sublist_cons_self a l₂).append_left l₁).subset hb, ?_⟩
    have hn := h.nodup k
    rw [hl] at hn
    exact ne_of_mem_of_not_mem hb (List.nodup_cons.mp (List.perm_middle.nodup_iff.mp hn)).1
  have hq := h.queues.remove hl
  rw [linked_of_mem ha] at hq
  refine hq.heads fun k' b hb => ?_
  have hb' : b ∈ L k' ∧ b ≠ a := by
    by_cases hk : k' = k
    · rw [hk, update_self] at hb
      rw [hk]
      exact hsub b hb
    · rw [update_of_ne hk] at hb
      refine ⟨hb, ?_⟩
      rintro rfl
      exact hk (h.apart hb ha)
  rw [update_of_ne hb'.2]
  exact relink_congr (linked_of_mem hb'.1).symm

end NixMark.Lib
