import NixMark.Lib.Queues

/-!
# Lists that are linked both ways

* `Dlist next prev hd tl l`: from `hd` the links `next` go through `l`, and from `tl` the links
  `prev` go back through it.
* `Dlist.unlink`, `Dlist.append`: the writes that take a node out anywhere, and put one in at the end.
-/

namespace NixMark.Lib

universe u

variable {α : Type u} {next prev : α → Option α} {hd tl : Option α} {l l₁ l₂ : List α} {s : α}

structure Dlist (next prev : α → Option α) (hd tl : Option α) (l : List α) : Prop where
  chain : Chain next hd l
  back : Chain prev tl l.reverse
  nodup : l.Nodup

namespace Dlist

theorem hd_eq (h : Dlist next prev hd tl l) : hd = l.head? := h.chain.head.symm

theorem tl_eq (h : Dlist next prev hd tl l) : tl = l.getLast? := by
  rw [← h.back.head, List.head?_reverse]

theorem next_eq (h : Dlist next prev hd tl (l₁ ++ s :: l₂)) : next s = l₂.head? :=
  h.chain.rest.head.symm

/-- The list, from its end. -/
theorem flip (h : Dlist next prev hd tl l) : Dlist prev next tl hd l.reverse where
  chain := h.back
  back := by
    rw [List.reverse_reverse]
    exact h.chain
  nodup := List.nodup_reverse.mpr h.nodup

theorem prev_eq (h : Dlist next prev hd tl (l₁ ++ s :: l₂)) : prev s = l₁.getLast? := by
  have hf := h.flip
  rw [List.reverse_append, List.reverse_cons, List.append_assoc, List.singleton_append] at hf
  rw [hf.next_eq, List.head?_reverse]

variable [DecidableEq α]

/-- One direction of `unlink`. -/
theorem unlink_chain (h : Chain next hd (l₁ ++ s :: l₂)) (hn : (l₁ ++ s :: l₂).Nodup) :
    Chain (Function.update (relink next l₁.getLast? (next s)) s none)
      (if l₁ = [] then next s else hd) (l₁ ++ l₂) := by
  have hn' := List.nodup_append.mp hn
  have hs : ∀ a ∈ l₁ ++ l₂, a ≠ s := by
    intro a ha
    exact ne_of_mem_of_not_mem ha (List.nodup_cons.mp (List.perm_middle.nodup_iff.mp hn)).1
  have hrest : Chain (relink next l₁.getLast? (next s)) (next s) l₂ := by
    refine h.rest.congr fun a ha => relink_of_ne fun he => ?_
    exact hn'.2.2 a (List.mem_of_getLast? he) a (List.mem_cons_of_mem s ha) rfl
  refine (h.relink hn hrest).congr fun a ha => ?_
  exact Function.update_of_ne (hs a ha) _ _

/-- A node is taken out. -/
theorem unlink (h : Dlist next prev hd tl (l₁ ++ s :: l₂)) :
    Dlist (Function.update (relink next l₁.getLast? (next s)) s none)
      (Function.update (relink prev l₂.head? (prev s)) s none)
      (if l₁ = [] then next s else hd) (if l₂ = [] then prev s else tl) (l₁ ++ l₂) where
  chain := unlink_chain h.chain h.nodup
  back := by
    have hf := h.flip
    rw [List.reverse_append, List.reverse_cons, List.append_assoc, List.singleton_append] at hf
    have hu := unlink_chain hf.chain hf.nodup
    rw [List.getLast?_reverse] at hu
    rw [List.reverse_append]
    simp only [List.reverse_eq_nil_iff] at hu
    exact hu
  nodup := (List.nodup_cons.mp (List.perm_middle.nodup_iff.mp h.nodup)).2

/-- A node is put in at the end. -/
theorem append (h : Dlist next prev hd tl l) (hs : s ∉ l) (hnext : next s = none) :
    Dlist (relink next tl (some s)) (Function.update prev s tl) (if l = [] then some s else hd)
      (some s) (l ++ [s]) where
  chain := by
    have hl : Chain next hd (l ++ []) := by
      rw [List.append_nil]
      exact h.chain
    have hn : (l ++ []).Nodup := by
      rw [List.append_nil]
      exact h.nodup
    rw [h.tl_eq]
    refine hl.relink hn ⟨rfl, ?_⟩
    rw [relink_of_ne fun he => hs (List.mem_of_getLast? he)]
    exact hnext
  back := by
    rw [List.reverse_append, List.reverse_singleton, List.singleton_append]
    refine ⟨rfl, ?_⟩
    rw [Function.update_self]
    refine h.back.congr fun a ha => Function.update_of_ne (fun he => hs ?_) _ _
    rw [← he]
    exact List.mem_reverse.mp ha
  nodup := List.nodup_append.mpr ⟨h.nodup, List.nodup_singleton s, fun a ha b hb he =>
    hs (by rw [← List.mem_singleton.mp hb, ← he]; exact ha)⟩

end Dlist

end NixMark.Lib
