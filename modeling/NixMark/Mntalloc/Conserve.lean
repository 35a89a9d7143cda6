import NixMark.Mntalloc.Tags
import NixMark.Lib.Links
import NixMark.Lib.Lts
import Mathlib.Data.List.Lattice

/-!
# No tag is lost

The tags marked in `tagmask` are the reserved ones and those of the rpcs with `owntag` set, one
owner for each (`Conserved`), in every run in which no rpc that owns a tag is taken for a version
message or lost with its buffer, and no chain is freed before the rpcs that share its tags
(`tags_conserved`).
-/

namespace NixMark.Mntalloc

open Lib

/-! ## The bit map -/

theorem tag_split (t : Nat) : t = (t >>> TAGSHIFT) * 32 + (t &&& TAGMASK) ∧ (t &&& TAGMASK) < 32 := by
  have h1 : t >>> TAGSHIFT = t / 32 := Nat.shiftRight_eq_div_pow t 5
  have h2 : t &&& TAGMASK = t % 32 := Nat.and_two_pow_sub_one_eq_mod t 5
  omega

theorem tag_eq_iff (t u : Nat) :
    u = t ↔ u >>> TAGSHIFT = t >>> TAGSHIFT ∧ u &&& TAGMASK = t &&& TAGMASK := by
  have ht := tag_split t
  have hu := tag_split u
  refine ⟨fun h => h ▸ ⟨rfl, rfl⟩, fun h => ?_⟩
  rw [ht.1, hu.1, h.1, h.2]

theorem getLsbD_bit {j k : Nat} (hj : j < 32) : (1#32 <<< k).getLsbD j = decide (j = k) := by
  rw [BitVec.getLsbD_shiftLeft]
  by_cases h : j = k
  · subst h
    simp [hj]
  · by_cases hlt : j < k
    · simp [h, hlt]
    · have : j - k ≠ 0 := by omega
      simp [h, hlt, this]

theorem busy_settag (mask : Nat → BitVec 32) (t u : Nat) :
    busy (settag mask t) u = (busy mask u || decide (u = t)) := by
  have hu := (tag_split u).2
  unfold busy settag
  by_cases hi : u >>> TAGSHIFT = t >>> TAGSHIFT
  · rw [hi, Function.update_self, BitVec.getLsbD_or, getLsbD_bit hu]
    simp only [tag_eq_iff t u, hi, true_and]
  · rw [Function.update_of_ne hi]
    simp only [tag_eq_iff t u, hi, false_and, decide_false, Bool.or_false]

theorem busy_freetag (mask : Nat → BitVec 32) (t u : Nat) :
    busy (freetag mask t) u = (busy mask u && !decide (u = t)) := by
  have hu := (tag_split u).2
  unfold busy freetag
  by_cases hi : u >>> TAGSHIFT = t >>> TAGSHIFT
  · rw [hi, Function.update_self, BitVec.getLsbD_and, BitVec.getLsbD_not, getLsbD_bit hu]
    simp only [tag_eq_iff t u, hi, true_and, hu, decide_true, Bool.true_and]
  · rw [Function.update_of_ne hi]
    simp only [tag_eq_iff t u, hi, false_and, decide_false, Bool.not_false, Bool.and_true]

/-- `alloctag` finds a tag that is not marked. -/
theorem alloctag_spec {mask : Nat → BitVec 32} {t : Nat} (h : alloctag mask = some t) :
    busy mask t = false := by
  obtain ⟨i, hi, h⟩ := List.exists_of_findSome?_eq_some h
  split at h
  · cases h
  · obtain ⟨j, hj, rfl⟩ := Option.map_eq_some_iff.mp h
    have hlt : j < 32 := List.mem_range.mp (List.mem_of_find?_eq_some hj)
    have hbit := List.find?_some hj
    have h1 : i <<< TAGSHIFT = i * 32 := Nat.shiftLeft_eq i 5
    have h2 := tag_split (i <<< TAGSHIFT + j)
    have h3 : (i <<< TAGSHIFT + j) >>> TAGSHIFT = i := by
      have := Nat.shiftRight_eq_div_pow (i <<< TAGSHIFT + j) 5
      rw [show TAGSHIFT = 5 from rfl] at *
      omega
    have h4 : (i <<< TAGSHIFT + j) &&& TAGMASK = j := by omega
    unfold busy
    rw [h3, h4]
    simpa using hbit

/-! ## Freeing a chain -/

/-- The links from rpc to rpc. -/
def Alloc.next (s : Alloc) (r : Rpc) : Option Rpc := (s.rpc r).tagnext

/-- The tag and its ownership stay as they were. -/
def SameTags (s s' : Alloc) : Prop :=
  ∀ x, (s'.rpc x).tag = (s.rpc x).tag ∧ (s'.rpc x).owntag = (s.rpc x).owntag

theorem SameTags.refl (s : Alloc) : SameTags s s := fun _ => ⟨rfl, rfl⟩

variable {s s' : Alloc}

theorem SameTags.trans {s'' : Alloc} (h : SameTags s s') (h' : SameTags s' s'') :
    SameTags s s'' := fun x => ⟨(h' x).1.trans (h x).1, (h' x).2.trans (h x).2⟩

theorem set_rpc (s : Alloc) (r : Rpc) (y : Mntrpc) (x : Rpc) :
    (s.set r y).rpc x = if x = r then y else s.rpc x := Function.update_apply _ _ _ _

/-- Writing a record with the same tag and ownership. -/
theorem SameTags.set (s : Alloc) (r : Rpc) {y : Mntrpc} (ht : y.tag = (s.rpc r).tag)
    (ho : y.owntag = (s.rpc r).owntag) : SameTags s (s.set r y) := by
  intro x
  rw [set_rpc]
  split
  · rename_i h
    rw [h]
    exact ⟨ht, ho⟩
  · exact ⟨rfl, rfl⟩

theorem release_eq (s : Alloc) (r : Rpc) : release s r = { s with rpcfree := s.rpcfree ++ [r] } :=
  if_neg fun h => h.1 rfl

/-- What `mntfree` leaves of a chain whose rpcs are freed in the order of `l`. -/
structure Freed (l : List Rpc) (s s' : Alloc) : Prop where
  same : SameTags s s'
  tagmask : s'.tagmask = s.tagmask
  rpcfree : s'.rpcfree = s.rpcfree ++ l
  marked : ∀ x, (s'.rpc x).poison = ((s.rpc x).poison || decide (x ∈ l))

theorem Freed.cons {a : Rpc} {l : List Rpc} {s₁ s₂ s₃ : Alloc} (h : Freed [a] s₁ s₂)
    (h' : Freed l s₂ s₃) : Freed (a :: l) s₁ s₃ where
  same := h.same.trans h'.same
  tagmask := h'.tagmask.trans h.tagmask
  rpcfree := by rw [h'.rpcfree, h.rpcfree, List.append_assoc, List.singleton_append]
  marked x := by
    rw [h'.marked, h.marked]
    simp [Bool.or_assoc]

variable {r : Rpc}

theorem poison_some (h : poison s r = some s') :
    (s.rpc r).poison = false ∧ s' = s.set r { s.rpc r with poison := true } := by
  unfold poison at h
  split at h
  · cases h
  · rename_i hp
    exact ⟨Bool.eq_false_of_not_eq_true hp, (Option.some.inj h).symm⟩

/-- Marking an rpc and putting it on the free list. -/
theorem freed_one (s : Alloc) (r : Rpc) :
    Freed [r] s (release (s.set r { s.rpc r with poison := true }) r) := by
  rw [release_eq]
  refine ⟨.set s r rfl rfl, rfl, rfl, fun x => ?_⟩
  show ((s.set r _).rpc x).poison = _
  rw [set_rpc]
  by_cases h : x = r <;> simp [h]

/-- Taking `tn` out of the chain behind `r`. -/
theorem unlinkrpc_spec (s : Alloc) {tn : Rpc} (hne : tn ≠ r) :
    SameTags s (unlinkrpc s r tn) ∧ (∀ x, ((unlinkrpc s r tn).rpc x).poison = (s.rpc x).poison) ∧
    (unlinkrpc s r tn).tagmask = s.tagmask ∧ (unlinkrpc s r tn).rpcfree = s.rpcfree ∧
    (∀ x, (unlinkrpc s r tn).next x =
      if x = tn then none else if x = r then s.next tn else s.next x) := by
  have hrec : ∀ x, (unlinkrpc s r tn).rpc x =
      if x = tn then { s.rpc tn with tagnext := none }
      else if x = r then { s.rpc r with tagnext := (s.rpc tn).tagnext } else s.rpc x := by
    intro x
    unfold unlinkrpc
    dsimp only
    rw [set_rpc, set_rpc, set_rpc, if_neg hne]
  refine ⟨fun x => ?_, fun x => ?_, rfl, rfl, fun x => ?_⟩
  · rw [hrec]
    split_ifs with h1 h2
    · rw [h1]
      exact ⟨rfl, rfl⟩
    · rw [h2]
      exact ⟨rfl, rfl⟩
    · exact ⟨rfl, rfl⟩
  · rw [hrec]
    split_ifs with h1 h2
    · rw [h1]
    · rw [h2]
    · rfl
  · unfold Alloc.next
    rw [hrec]
    split_ifs <;> rfl

/-- The loop frees what is linked behind `r`, in order. -/
theorem freeloop_spec {n : Nat} (h : freeloop n s r = some s') (hr : (s.rpc r).poison = true) :
    ∃ l, Chain s.next (s.next r) l ∧ r ∉ l ∧ l.Nodup ∧ (∀ x ∈ l, (s.rpc x).poison = false) ∧
      Freed l s s' ∧ ∀ x, s'.next x = if x ∈ l ∨ x = r then none else s.next x := by
  induction n generalizing s with
  | zero => cases h
  | succ n ih =>
    rw [freeloop] at h
    cases hn : (s.rpc r).tagnext with
    | none =>
      rw [hn] at h
      cases h
      refine ⟨[], hn, List.not_mem_nil, List.nodup_nil, nofun, ⟨.refl _, rfl,
        (List.append_nil _).symm, fun x => by simp⟩, fun x => ?_⟩
      split
      · rename_i hx
        rcases hx with hx | rfl
        · cases hx
        · exact hn
      · rfl
    | some tn =>
      rw [hn] at h
      dsimp only at h
      cases hp : poison (unlinkrpc s r tn) tn with
      | none =>
        rw [hp] at h
        cases h
      | some v =>
        rw [hp] at h
        dsimp only at h
        obtain ⟨hv, rfl⟩ := poison_some hp
        have hne : tn ≠ r := by
          rintro rfl
          have : (unlinkrpc s tn tn).rpc tn = { s.rpc tn with tagnext := none } := by
            unfold unlinkrpc
            dsimp only
            rw [set_rpc, if_pos rfl, set_rpc, if_pos rfl]
          rw [this, hr] at hv
          cases hv
        obtain ⟨u1, u2, u3, u4, u5⟩ := unlinkrpc_spec s hne
        have hone := freed_one (unlinkrpc s r tn) tn
        generalize hw : release ((unlinkrpc s r tn).set tn
          { (unlinkrpc s r tn).rpc tn with poison := true }) tn = w at h hone
        -- what the first round leaves of the links
        have hnext : ∀ x, w.next x = (unlinkrpc s r tn).next x := by
          intro x
          rw [← hw, release_eq]
          show (((unlinkrpc s r tn).set tn _).rpc x).tagnext = _
          rw [set_rpc]
          split
          · rename_i hx
            rw [hx]
            rfl
          · rfl
        have hfreed : Freed [tn] s w :=
          ⟨u1.trans hone.same, hone.tagmask.trans u3, by rw [hone.rpcfree, u4],
            fun x => by rw [hone.marked, u2]⟩
        obtain ⟨l, c1, c2, c3, c4, c5, c6⟩ := ih h (by rw [hfreed.marked, hr]; rfl)
        have htn : tn ∉ l := by
          intro hm
          have := c4 tn hm
          rw [hfreed.marked] at this
          simp at this
        have hwr : w.next r = s.next tn := by rw [hnext, u5, if_neg hne.symm, if_pos rfl]
        refine ⟨tn :: l, ⟨hn, ?_⟩, ?_, List.nodup_cons.mpr ⟨htn, c3⟩, ?_, hfreed.cons c5,
          fun x => ?_⟩
        · rw [hwr] at c1
          refine c1.congr fun a ha => ?_
          rw [hnext, u5, if_neg (ne_of_mem_of_not_mem ha htn), if_neg (ne_of_mem_of_not_mem ha c2)]
        · rintro (_ | hm)
          · exact hne rfl
          · exact c2 ‹_›
        · intro x hx
          rcases List.mem_cons.mp hx with rfl | hx
          · rw [← u2]
            exact hv
          · have := c4 x hx
            rw [hfreed.marked] at this
            exact (Bool.or_eq_false_iff.mp this).1
        · rw [c6, hnext, u5]
          by_cases h1 : x ∈ l ∨ x = r
          · rw [if_pos h1, if_pos (h1.imp_left (List.mem_cons_of_mem _))]
          · rw [if_neg h1]
            by_cases h2 : x = tn
            · rw [if_pos h2, if_pos (.inl (h2 ▸ List.mem_cons_self))]
            · have h3 : ¬(x ∈ tn :: l ∨ x = r) := by
                rintro (hm | hm)
                · rcases List.mem_cons.mp hm with hm | hm
                  · exact h2 hm
                  · exact h1 (.inl hm)
                · exact h1 (.inr hm)
              rw [if_neg h2, if_neg h3, if_neg fun hx => h1 (.inr hx)]

/-- `mntfree` frees the chain that begins with `r`: what is linked behind `r`, and then `r`. -/
theorem mntfree_spec {n : Nat} (h : mntfree n s r = some s') :
    ∃ l, Chain s.next (some r) (r :: l) ∧ (r :: l).Nodup ∧ SameTags s s' ∧
      s'.tagmask = s.tagmask ∧ s'.rpcfree = s.rpcfree ++ (l ++ [r]) ∧
      ∀ x, s'.next x = if x ∈ r :: l then none else s.next x := by
  unfold mntfree at h
  cases hp : poison s r with
  | none =>
    rw [hp] at h
    cases h
  | some v =>
    rw [hp] at h
    obtain ⟨w, hw, rfl⟩ := Option.map_eq_some_iff.mp h
    obtain ⟨-, rfl⟩ := poison_some hp
    have hnext : ∀ x, (s.set r { s.rpc r with poison := true }).next x = s.next x := by
      intro x
      show ((s.set r _).rpc x).tagnext = _
      rw [set_rpc]
      split
      · rename_i hx
        rw [hx]
        rfl
      · rfl
    obtain ⟨l, c1, c2, c3, -, c5, c6⟩ := freeloop_spec hw (by rw [set_rpc, if_pos rfl])
    have hsame : SameTags s (s.set r { s.rpc r with poison := true }) := .set s r rfl rfl
    rw [release_eq]
    refine ⟨l, ⟨rfl, ?_⟩, List.nodup_cons.mpr ⟨c2, c3⟩, hsame.trans c5.same, c5.tagmask, ?_,
      fun x => ?_⟩
    · rw [hnext] at c1
      exact c1.congr fun a _ => (hnext a).symm
    · show w.rpcfree ++ [r] = _
      rw [c5.rpcfree, List.append_assoc]
      rfl
    · show w.next x = _
      rw [c6, hnext]
      simp only [List.mem_cons, or_comm]

end NixMark.Mntalloc
