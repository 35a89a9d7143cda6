import Mathlib.Data.List.Perm.Subperm
import NixMark.Asm.Map
import NixMark.Lib.Links
import NixMark.Lib.Lts
import NixMark.Lib.Spans

/-!
# Runs of the map of physical addresses

* `Map.Rep s l f`: the map goes through the entries `l`, which are sorted, apart and joined where
  they can be, and the free list through `f`.
* `put_spec`, `asmfree_spec`, `cut_spec`, `asmalloc_spec`: the calls keep it, unless an allocation
  takes the end of the first entry, or an alignment leads out of the entry that it chose.
* `map_intact`: what holds in every run whose calls meet that.
-/

namespace NixMark.Asm

open Lib
open Function (update update_eq_self update_of_ne update_self)

/-- The addresses of an entry. -/
def Map.span (s : Map) (i : Nat) : Span Int :=
  ⟨(s.addr i).toNat, (s.addr i).toNat + (s.size i).toNat, s.type i⟩

/-- The map is the list `l` and the free list is `f`. -/
structure Map.Rep (s : Map) (l f : List Nat) : Prop where
  list : Chain s.next s.asmlist l
  free : Chain s.next s.asmfreelist f
  nodup : (l ++ f).Nodup
  lt : ∀ i ∈ l ++ f, i < s.asmindex
  index : s.asmindex ≤ nelem
  tidy : Tidy (l.map s.span)
  top : ∀ i ∈ l, (s.addr i).toNat + (s.size i).toNat < 2 ^ 64

namespace Map

variable {s : Map} {l l₁ l₂ f : List Nat} {i q n : Nat}

theorem Rep.lengths_le (h : Rep s l f) : l.length + f.length ≤ nelem := by
  have hs : l ++ f ⊆ List.range s.asmindex := fun i hi => List.mem_range.mpr (h.lt i hi)
  have := (h.nodup.subperm hs).length_le
  rw [List.length_range, List.length_append] at this
  exact this.trans h.index

theorem Rep.length_le (h : Rep s l f) : l.length ≤ nelem :=
  (Nat.le_add_right _ _).trans h.lengths_le

theorem Rep.pos (h : Rep s l f) (hi : i ∈ l) : 0 < (s.size i).toNat := by
  have := h.tidy.pos _ (List.mem_map_of_mem hi)
  simp only [span] at this
  omega

/-- The map with another address and size of the entry `i`. -/
def resize (s : Map) (i : Nat) (a z : Uintmem) : Map :=
  { s with addr := Function.update s.addr i a, size := Function.update s.size i z }

theorem span_resize_self (s : Map) (i : Nat) (a z : Uintmem) :
    (s.resize i a z).span i = ⟨a.toNat, a.toNat + z.toNat, s.type i⟩ := by
  simp only [span, resize, update_self]

theorem span_resize_ne (s : Map) {i j : Nat} (a z : Uintmem) (h : j ≠ i) :
    (s.resize i a z).span j = s.span j := by
  simp only [span, resize, update_of_ne h]

variable {a : Uintmem}

/-- The address and the size of one entry are changed. -/
theorem Rep.resize (h : Rep s (l₁ ++ i :: l₂) f) {z : Uintmem} (hz : 0 < z.toNat)
    (ht : a.toNat + z.toNat < 2 ^ 64)
    (hp : ∀ p ∈ l₁.getLast?, (s.span p).Before ⟨a.toNat, a.toNat + z.toNat, s.type i⟩)
    (hq : ∀ q ∈ l₂.head?, Span.Before ⟨a.toNat, a.toNat + z.toNat, s.type i⟩ (s.span q)) :
    (s.resize i a z).Rep (l₁ ++ i :: l₂) f := by
  have hn := (List.nodup_append.mp h.nodup).1
  obtain ⟨-, hn₂, hd⟩ := List.nodup_append.mp hn
  have h₁ : ∀ j ∈ l₁, j ≠ i := fun j hj => hd j hj i List.mem_cons_self
  have h₂ : ∀ j ∈ l₂, j ≠ i := fun j hj => ne_of_mem_of_not_mem hj (List.nodup_cons.mp hn₂).1
  obtain ⟨t₁, t, -⟩ := tidy_append.mp (List.map_append ▸ h.tidy)
  obtain ⟨-, t₂, -⟩ := tidy_cons.mp t
  refine ⟨h.list, h.free, h.nodup, h.lt, h.index, ?_, fun j hj => ?_⟩
  · rw [List.map_append, List.map_cons, span_resize_self,
      List.map_congr_left fun j hj => s.span_resize_ne a z (h₁ j hj),
      List.map_congr_left fun j hj => s.span_resize_ne a z (h₂ j hj)]
    refine t₁.glue t₂ (Nat.lt_add_of_pos_right hz) ?_ ?_
    · intro p hp'
      rw [List.getLast?_map] at hp'
      obtain ⟨j, hj, rfl⟩ := Option.mem_map.mp hp'
      exact hp j hj
    · intro p hp'
      rw [List.head?_map] at hp'
      obtain ⟨j, hj, rfl⟩ := Option.mem_map.mp hp'
      exact hq j hj
  · by_cases hji : j = i
    · subst hji
      simpa only [Map.resize, update_self] using ht
    · simpa only [Map.resize, update_of_ne hji] using h.top j hj

/-- The map goes through `l` and the free list through `f`; nothing is said about the ranges. -/
structure Linked (s : Map) (l f : List Nat) : Prop where
  list : Chain s.next s.asmlist l
  free : Chain s.next s.asmfreelist f
  nodup : (l ++ f).Nodup
  lt : ∀ i ∈ l ++ f, i < s.asmindex
  index : s.asmindex ≤ nelem

theorem Rep.linked (h : Rep s l f) : Linked s l f := ⟨h.list, h.free, h.nodup, h.lt, h.index⟩

/-- The entry after `q` is taken out. -/
theorem Linked.unlink (h : Linked s (l₁ ++ q :: n :: l₂) f) :
    Linked ({ s with next := update s.next q (s.next n) }.toss n) (l₁ ++ q :: l₂) (n :: f) := by
  have hl := (List.nodup_append.mp h.nodup).1
  have hfree : ∀ j ∈ f, ∀ k ∈ l₁ ++ q :: n :: l₂, j ≠ k := fun j hj k hk =>
    ((List.nodup_append.mp h.nodup).2.2 k hk j hj).symm
  have hqn : q ≠ n := by
    rintro rfl
    simp [List.nodup_append] at hl
  have hnl : n ∉ l₁ ++ q :: l₂ := by
    intro hm
    simp only [List.nodup_append, List.nodup_cons, List.mem_cons, List.mem_append] at hl hm
    rcases hm with hm | rfl | hm
    · exact hl.2.2 n hm n (.inr (.inl rfl)) rfl
    · exact hqn rfl
    · exact hl.2.1.2.1 hm
  have hperm : ((l₁ ++ q :: n :: l₂) ++ f).Perm ((l₁ ++ q :: l₂) ++ n :: f) := by
    simp only [List.append_assoc, List.cons_append]
    exact List.Perm.append_left _ (List.Perm.cons _ List.perm_middle.symm)
  refine ⟨?_, ?_, hperm.nodup h.nodup, fun j hj => h.lt j (hperm.mem_iff.mpr hj), h.index⟩
  · refine (h.list.unlink hl).congr fun j hj => ?_
    exact update_of_ne (ne_of_mem_of_not_mem hj hnl) _ _
  · have hf : Chain (update s.next q (s.next n)) s.asmfreelist f :=
      h.free.congr fun j hj => update_of_ne (hfree j hj q (by simp)) _ _
    exact hf.push fun hm => hfree n hm n (by simp) rfl

theorem Rep.unlink (h : Rep s (l₁ ++ q :: n :: l₂) f) :
    Rep ({ s with next := update s.next q (s.next n) }.toss n) (l₁ ++ q :: l₂) (n :: f) := by
  have hl := h.linked.unlink
  refine ⟨hl.list, hl.free, hl.nodup, hl.lt, hl.index, ?_, fun j hj => h.top j ?_⟩
  · have ht := h.tidy
    rw [show l₁ ++ q :: n :: l₂ = (l₁ ++ [q]) ++ n :: l₂ by simp, List.map_append,
      List.map_cons] at ht
    have ht := ht.drop
    rw [← List.map_append, List.append_assoc] at ht
    exact ht
  · simp only [List.mem_append, List.mem_cons] at hj ⊢
    tauto

/-- An entry is left. -/
def Room (s : Map) : Prop := s.asmfreelist ≠ none ∨ s.asmindex < nelem

/-- An entry `p` that is on neither list. -/
structure Spare (s : Map) (l f : List Nat) (p : Nat) : Prop where
  list : Chain s.next s.asmlist l
  free : Chain s.next s.asmfreelist f
  nodup : (p :: l ++ f).Nodup
  lt : ∀ i ∈ p :: l ++ f, i < s.asmindex
  index : s.asmindex ≤ nelem

/-- An entry is taken from the free list, or the next one of the array; the array may be used up. -/
theorem Linked.asmnew (h : Linked s l f) (a z : Uintmem) (t : Int) :
    (s.asmnew a z t = (none, s) ∧ ¬ s.Room) ∨
    ∃ p s' f', s.asmnew a z t = (some p, s') ∧ Spare s' l f' p ∧
      (∀ i, i ≠ p → s'.span i = s.span i) ∧ s'.addr p = a ∧ s'.size p = z ∧ s'.type p = t := by
  obtain ⟨hl, hf, hd⟩ := List.nodup_append.mp h.nodup
  unfold Map.asmnew
  cases f with
  | cons p f =>
    refine .inr ⟨p, _, f, by rw [h.free.1], ?_, fun i hi => ?_, ?_⟩
    · have hpl : ∀ i ∈ l, i ≠ p := fun i hi => hd i hi p List.mem_cons_self
      have hpf : ∀ i ∈ f, i ≠ p := fun i hi => ne_of_mem_of_not_mem hi (List.nodup_cons.mp hf).1
      have hperm : (l ++ p :: f).Perm (p :: l ++ f) := List.perm_middle
      exact ⟨h.list.congr fun i hi => update_of_ne (hpl i hi) _ _,
        h.free.2.congr fun i hi => update_of_ne (hpf i hi) _ _,
        hperm.nodup h.nodup, fun i hi => h.lt i (hperm.mem_iff.mpr hi), h.index⟩
    · simp only [span, update_of_ne hi]
    · exact ⟨update_self _ _ _, update_self _ _ _, update_self _ _ _⟩
  | nil =>
    rw [show s.asmfreelist = none from h.free]
    by_cases hi : nelem ≤ s.asmindex
    · refine .inl ⟨if_pos hi, ?_⟩
      rintro (hr | hr)
      · exact hr h.free
      · exact Nat.not_le_of_lt hr hi
    · have hlt : ∀ i ∈ l, i ≠ s.asmindex := fun i hi => (h.lt i (List.mem_append_left _ hi)).ne
      refine .inr ⟨s.asmindex, _, [], if_neg hi, ⟨h.list, rfl, ?_, ?_, ?_⟩,
        fun i hi => ?_, update_self _ _ _, update_self _ _ _,
        update_self _ _ _⟩
      · rw [List.append_nil]
        exact List.nodup_cons.mpr ⟨fun hm => hlt _ hm rfl, hl⟩
      · intro i hi
        rw [List.append_nil] at hi
        rcases List.mem_cons.mp hi with rfl | hi
        · exact Nat.lt_succ_self _
        · exact Nat.lt_succ_of_lt (h.lt i (List.mem_append_left _ hi))
      · exact Nat.lt_of_not_le hi
      · simp only [span, update_of_ne hi]

variable {p : Nat}

/-- The entry is linked between the last of `l₁` and the first of `l₂`. -/
theorem Spare.link (h : Spare s (l₁ ++ l₂) f p) :
    Linked { s.setppp l₁.getLast? (some p) with
      next := update (s.setppp l₁.getLast? (some p)).next p l₂.head? }
      (l₁ ++ p :: l₂) f := by
  have hperm : (p :: (l₁ ++ l₂) ++ f).Perm ((l₁ ++ p :: l₂) ++ f) :=
    List.Perm.append_right f List.perm_middle.symm
  have hmem : ∀ i, i ∈ (l₁ ++ p :: l₂) ++ f ↔ i ∈ p :: (l₁ ++ l₂) ++ f := fun i =>
    hperm.mem_iff.symm
  have hnd := hperm.nodup h.nodup
  have hn : (l₁ ++ p :: l₂).Nodup := (List.nodup_append.mp hnd).1
  have hpn : ∀ i ∈ (l₁ ++ l₂) ++ f, i ≠ p := fun i hi =>
    ne_of_mem_of_not_mem hi (List.nodup_cons.mp h.nodup).1
  rcases List.eq_nil_or_concat l₁ with rfl | ⟨l₁, q, rfl⟩
  · refine ⟨⟨rfl, ?_⟩, ?_, hnd, fun i hi => h.lt i ((hmem i).mp hi), h.index⟩
    · simp only [setppp, List.getLast?_nil, update_self]
      rw [show l₂.head? = s.asmlist from h.list.head]
      exact h.list.congr fun i hi => update_of_ne (hpn i (by simp_all)) _ _
    · exact h.free.congr fun i hi =>
        update_of_ne (hpn i (List.mem_append_right _ hi)) _ _
  · have hgl : (l₁ ++ [q]).getLast? = some q := List.getLast?_concat
    rw [List.concat_eq_append] at *
    simp only [hgl, setppp]
    have hqp : q ≠ p := hpn q (by simp)
    have hlist : Chain s.next s.asmlist (l₁ ++ q :: l₂) := by simpa using h.list
    have hn' : (l₁ ++ q :: p :: l₂).Nodup := by simpa using hn
    refine ⟨?_, ?_, hnd, fun i hi => h.lt i ((hmem i).mp hi), h.index⟩
    · rw [List.append_assoc]
      refine hlist.splice (fun i hi => ?_) ⟨?_, ?_⟩
      · have hiq : i ≠ q := (List.nodup_append.mp hn').2.2 i hi q List.mem_cons_self
        exact (update_of_ne (hpn i (by simp [hi])) _ _).trans (update_of_ne hiq _ _)
      · exact (update_of_ne hqp _ _).trans (update_self _ _ _)
      · simp only [update_self]
        rw [hlist.rest.head]
        refine hlist.rest.congr fun i hi => ?_
        have hiq : i ≠ q := by
          rintro rfl
          have := (List.nodup_append.mp hn').2.1
          simp [hi] at this
        exact (update_of_ne (hpn i (by simp [hi])) _ _).trans (update_of_ne hiq _ _)
    · refine h.free.congr fun i hi => ?_
      have hiq : i ≠ q := by
        rintro rfl
        exact (List.nodup_append.mp hnd).2.2 i (by simp) i hi rfl
      exact (update_of_ne (hpn i (List.mem_append_right _ hi)) _ _).trans (update_of_ne hiq _ _)

/-- An unused entry `p` that has been filled in. -/
structure New (s : Map) (l f : List Nat) (p : Nat) : Prop extends Spare s l f p where
  tidy : Tidy (l.map s.span)
  top : ∀ i ∈ l, (s.addr i).toNat + (s.size i).toNat < 2 ^ 64

theorem asmnew_spec (h : Rep s l f) (a z : Uintmem) (t : Int) :
    (s.asmnew a z t = (none, s) ∧ ¬ s.Room) ∨
    ∃ p s' f', s.asmnew a z t = (some p, s') ∧ New s' l f' p ∧ (∀ i ∈ l, s'.span i = s.span i) ∧
      s'.addr p = a ∧ s'.size p = z ∧ s'.type p = t := by
  refine (h.linked.asmnew a z t).imp_right ?_
  rintro ⟨p, s', f', e, hs, hspan, hp⟩
  have hsame : ∀ i ∈ l, s'.span i = s.span i := fun i hi => hspan i <| by
    rintro rfl
    exact (List.nodup_cons.mp hs.nodup).1 (List.mem_append_left _ hi)
  refine ⟨p, s', f', e, ⟨hs, ?_, fun i hi => ?_⟩, hsame, hp⟩
  · rw [List.map_congr_left hsame]
    exact h.tidy
  · have hhi : (s'.span i).hi = (s.span i).hi := by rw [hsame i hi]
    exact lt_of_eq_of_lt hhi (h.top i hi)

/-- A new entry is linked between two that its range is apart from. -/
theorem New.link (h : New s (l₁ ++ l₂) f p) (hz : 0 < (s.size p).toNat)
    (ht : (s.addr p).toNat + (s.size p).toNat < 2 ^ 64)
    (hp : ∀ q ∈ l₁.getLast?, (s.span q).Before (s.span p))
    (hq : ∀ q ∈ l₂.head?, (s.span p).Before (s.span q)) :
    Rep { s.setppp l₁.getLast? (some p) with
      next := update (s.setppp l₁.getLast? (some p)).next p l₂.head? }
      (l₁ ++ p :: l₂) f := by
  obtain ⟨t₁, t₂, -⟩ := tidy_append.mp (List.map_append ▸ h.tidy)
  have htidy : Tidy ((l₁ ++ p :: l₂).map s.span) := by
    rw [List.map_append, List.map_cons]
    refine t₁.glue t₂ (Nat.lt_add_of_pos_right hz) ?_ ?_
    · intro q hq'
      rw [List.getLast?_map] at hq'
      obtain ⟨j, hj, rfl⟩ := Option.mem_map.mp hq'
      exact hp j hj
    · intro q hq'
      rw [List.head?_map] at hq'
      obtain ⟨j, hj, rfl⟩ := Option.mem_map.mp hq'
      exact hq j hj
  have htop : ∀ i ∈ l₁ ++ p :: l₂, (s.addr i).toNat + (s.size i).toNat < 2 ^ 64 := by
    intro i hi
    by_cases hip : i = p
    · exact hip ▸ ht
    · refine h.top i ?_
      simp only [List.mem_append, List.mem_cons] at hi ⊢
      tauto
  have hl := h.toSpare.link
  -- the links do not matter for the ranges
  have hspan : ∀ q : Option Nat, (s.setppp q (some p)).span = s.span := by
    rintro (_ | q) <;> rfl
  refine ⟨hl.list, hl.free, hl.nodup, hl.lt, hl.index, ?_, ?_⟩
  · exact (congrArg (fun g => Tidy (List.map g (l₁ ++ p :: l₂))) (hspan l₁.getLast?)).mpr htidy
  · intro i hi
    have h₁ : ((s.setppp l₁.getLast? (some p)).span i).hi = (s.span i).hi := by rw [hspan]
    exact lt_of_eq_of_lt h₁ (htop i hi)

/-! ## Returning a range -/

/-- The loop of `asmfree` splits the map at `a`. -/
theorem walk_spec (s : Map) (a : Uintmem) {p : Option Nat} {fuel : Nat} (pre : List Nat)
    (h : Chain s.next p l) (hf : l.length ≤ fuel) : ∃ l₁ l₂, l = l₁ ++ l₂ ∧
      s.walk a fuel pre.getLast? p = some ((pre ++ l₁).getLast?, l₂.head?) ∧
      (∀ i ∈ l₁, s.addr i ≤ a) ∧ ∀ i ∈ l₂.head?, a < s.addr i := by
  induction l generalizing p fuel pre with
  | nil =>
    cases h
    exact ⟨[], [], rfl, by cases fuel <;> simp [walk], by simp, by simp⟩
  | cons i l ih =>
    obtain ⟨rfl, h⟩ := h
    cases fuel with
    | zero => cases hf
    | succ fuel =>
      by_cases hi : s.addr i ≤ a
      · obtain ⟨l₁, l₂, rfl, hw, h₁, h₂⟩ := ih (pre ++ [i]) h (Nat.le_of_succ_le_succ hf)
        refine ⟨i :: l₁, l₂, rfl, ?_, List.forall_mem_cons.mpr ⟨hi, h₁⟩, h₂⟩
        rw [List.getLast?_concat, List.append_assoc] at hw
        rw [walk, if_pos hi]
        exact hw
      · refine ⟨[], i :: l, rfl, ?_, by simp, ?_⟩
        · simp [walk, hi]
        · intro j hj
          cases hj
          exact BitVec.not_le.mp hi

/-- The range that is returned, as a span. -/
def range (a z : Uintmem) (t : Int) : Span Int := ⟨a.toNat, a.toNat + z.toNat, t⟩

/-- A neighbour before the range does not reach into it. -/
theorem not_overlaps_prev {z : Uintmem} {np : Option Nat} (ho : ¬ s.overlaps a z (some p) np = true)
    (ht : (s.addr p).toNat + (s.size p).toNat < 2 ^ 64) :
    (s.addr p).toNat + (s.size p).toNat ≤ a.toNat := by
  simp only [overlaps, Option.any_some, Bool.or_eq_true, decide_eq_true_eq, not_or] at ho
  have := ho.1
  bv_omega

/-- The range does not reach into a neighbour behind it. -/
theorem not_overlaps_next {z : Uintmem} {pp : Option Nat} (ho : ¬ s.overlaps a z pp (some n) = true)
    (ht : a.toNat + z.toNat < 2 ^ 64) : a.toNat + z.toNat ≤ (s.addr n).toNat := by
  simp only [overlaps, Option.any_some, Bool.or_eq_true, decide_eq_true_eq, not_or] at ho
  have := ho.2
  bv_omega

variable {t : Int}

/-- A neighbour before the range that is not joined with it. -/
theorem before_of_prev {z : Uintmem} (he : (s.addr p).toNat + (s.size p).toNat ≤ a.toNat)
    (hf : (some p).filter (fun p => s.type p == t && s.addr p + s.size p == a) = none) :
    (s.span p).Before (range a z t) := by
  refine ⟨he, fun hk hx => ?_⟩
  simp only [Option.filter_eq_none_iff, Option.some.injEq, forall_eq', Bool.and_eq_true,
    beq_iff_eq, not_and] at hf
  refine hf hk ?_
  simp only [span, range] at hx
  bv_omega

/-- A neighbour behind the range that is not joined with it. -/
theorem before_of_next {z : Uintmem} (he : a.toNat + z.toNat ≤ (s.addr n).toNat)
    (hf : (some n).filter (fun n => s.type n == t && a + z == s.addr n) = none) :
    (range a z t).Before (s.span n) := by
  refine ⟨he, fun hk hx => ?_⟩
  simp only [Option.filter_eq_none_iff, Option.some.injEq, forall_eq', Bool.and_eq_true,
    beq_iff_eq, not_and] at hf
  refine hf hk.symm ?_
  simp only [span, range] at hx
  bv_omega

/-- The neighbours of an entry are apart from it. -/
theorem Rep.around (h : Rep s (l₁ ++ i :: l₂) f) :
    (∀ q ∈ l₁.getLast?, (s.span q).Before (s.span i)) ∧
      ∀ q ∈ l₂.head?, (s.span i).Before (s.span q) := by
  have ht := h.tidy
  rw [List.map_append, List.map_cons] at ht
  obtain ⟨-, ht, hb⟩ := tidy_append.mp ht
  obtain ⟨-, -, ha⟩ := tidy_cons.mp ht
  refine ⟨fun q hq => hb _ ?_ _ rfl, fun q hq => ha _ ?_⟩
  · rw [List.getLast?_map]
    exact Option.mem_map_of_mem _ hq
  · rw [List.head?_map]
    exact Option.mem_map_of_mem _ hq

theorem resize_addr (s : Map) (i : Nat) (z : Uintmem) :
    s.resize i (s.addr i) z = { s with size := update s.size i z } := by
  simp only [resize, update_eq_self]

/-- The range joins the entry before it. -/
theorem Rep.joinprev (h : Rep s (l₁ ++ p :: l₂) f) {z : Uintmem} (hpt : s.type p = t)
    (hpe : s.addr p + s.size p = a) (ht : a.toNat + z.toNat < 2 ^ 64)
    (hq : ∀ q ∈ l₂.head?, (range a z t).Before (s.span q)) :
    Rep { s with size := update s.size p (s.size p + z) } (l₁ ++ p :: l₂) f := by
  have hz := h.pos (i := p) (by simp)
  have htop := h.top p (by simp)
  have hpe := congrArg BitVec.toNat hpe
  rw [BitVec.toNat_add] at hpe
  have hsum : (s.addr p).toNat + (s.size p + z).toNat = a.toNat + z.toNat := by
    rw [BitVec.toNat_add]
    omega
  rw [← resize_addr]
  refine h.resize (by omega) (by omega) (fun q hq' => h.around.1 q hq') fun q hq' => ?_
  rw [hsum, hpt]
  exact hq q hq'

/-- The range fills the gap between two entries of its type. -/
theorem Rep.joinboth (h : Rep s (l₁ ++ p :: n :: l₂) f) {z : Uintmem} (hpt : s.type p = t)
    (hpe : s.addr p + s.size p = a) (hnt : s.type n = t) (hne : a + z = s.addr n)
    (ht : a.toNat + z.toNat < 2 ^ 64) :
    Rep ({ s with
      size := update s.size p (s.size p + z + s.size n)
      next := update s.next p (s.next n) }.toss n) (l₁ ++ p :: l₂) (n :: f) := by
  have hz := h.pos (i := p) (by simp)
  have htop := h.top p (by simp)
  have hntop := h.top n (by simp)
  have hpe := congrArg BitVec.toNat hpe
  have hne := congrArg BitVec.toNat hne
  rw [BitVec.toNat_add] at hpe hne
  have hsum : (s.addr p).toNat + (s.size p + z + s.size n).toNat =
      (s.addr n).toNat + (s.size n).toNat := by
    rw [BitVec.toNat_add, BitVec.toNat_add]
    omega
  have hr := h.unlink.resize (a := s.addr p) (z := s.size p + z + s.size n) (by omega) (by omega)
    (fun q hq => h.around.1 q hq) fun q hq => ?_
  · rwa [show s.addr p = ({ s with next := update s.next p (s.next n) }.toss n).addr p from
      rfl, resize_addr] at hr
  · -- the end and the type are those of `n`
    have hn := (show Rep s ((l₁ ++ [p]) ++ n :: l₂) f by simpa using h).around.2 q hq
    rw [hsum]
    exact ⟨hn.1, fun hk => hn.2 ((hnt.trans hpt.symm).trans hk)⟩

/-- The range joins the entry behind it. -/
theorem Rep.joinnext (h : Rep s (l₁ ++ n :: l₂) f) {z : Uintmem} (hnt : s.type n = t)
    (hne : a + z = s.addr n) (hz : 0 < z.toNat) (ht : a.toNat + z.toNat < 2 ^ 64)
    (hp : ∀ p ∈ l₁.getLast?, (s.span p).Before (range a z t)) :
    Rep { s with
      addr := update s.addr n (s.addr n - z)
      size := update s.size n (s.size n + z) } (l₁ ++ n :: l₂) f := by
  have htop := h.top n (by simp)
  have hne := congrArg BitVec.toNat hne
  rw [BitVec.toNat_add] at hne
  have ha : (s.addr n - z).toNat = a.toNat := by
    rw [BitVec.toNat_sub]
    omega
  have hsize : (s.size n + z).toNat = (s.size n).toNat + z.toNat := by
    rw [BitVec.toNat_add]
    omega
  have hsum : (s.addr n - z).toNat + (s.size n + z).toNat = (s.addr n).toNat + (s.size n).toNat := by
    omega
  refine h.resize (by omega) (by omega) (fun p hp' => ?_) fun q hq => ?_
  · obtain ⟨h₁, h₂⟩ := hp p hp'
    rw [ha, hnt]
    exact ⟨h₁, h₂⟩
  · rw [hsum]
    exact h.around.2 q hq

theorem put_spec (h : Rep s (l₁ ++ l₂) f) {z : Uintmem} (t : Int) (hz : 0 < z.toNat)
    (ht : a.toNat + z.toNat < 2 ^ 64) :
    ∃ l' f', (s.put a z t l₁.getLast? l₂.head?).2.Rep l' f' := by
  unfold put
  by_cases ho : s.overlaps a z l₁.getLast? l₂.head? = true
  · rw [if_pos ho]
    exact ⟨_, f, h⟩
  rw [if_neg ho]
  have hprev : ∀ p ∈ l₁.getLast?, (s.addr p).toNat + (s.size p).toNat ≤ a.toNat := by
    intro p hp
    rw [show l₁.getLast? = some p from hp] at ho
    exact not_overlaps_prev ho (h.top p (List.mem_append_left _ (List.mem_of_getLast? hp)))
  have hnext : ∀ n ∈ l₂.head?, a.toNat + z.toNat ≤ (s.addr n).toNat := by
    intro n hn
    rw [show l₂.head? = some n from hn] at ho
    exact not_overlaps_next ho ht
  -- what is behind the range, if it is not joined with it
  have hq : l₂.head?.filter (fun n => s.type n == t && a + z == s.addr n) = none →
      ∀ q ∈ l₂.head?, (range a z t).Before (s.span q) := by
    intro hN q hq
    rw [show l₂.head? = some q from hq] at hN
    exact before_of_next (hnext q hq) hN
  have hp : l₁.getLast?.filter (fun p => s.type p == t && s.addr p + s.size p == a) = none →
      ∀ p ∈ l₁.getLast?, (s.span p).Before (range a z t) := by
    intro hP p hp
    rw [show l₁.getLast? = some p from hp] at hP
    exact before_of_prev (hprev p hp) hP
  cases hP : l₁.getLast?.filter (fun p => s.type p == t && s.addr p + s.size p == a) with
  | some p =>
    obtain ⟨hlast, hb⟩ := Option.filter_eq_some_iff.mp hP
    obtain ⟨hpt, hpe⟩ : s.type p = t ∧ s.addr p + s.size p = a := by simpa using hb
    obtain ⟨l₁, rfl⟩ : ∃ l, l₁ = l ++ [p] := ⟨_, (List.dropLast_append_getLast? p hlast).symm⟩
    rw [List.append_assoc] at h
    cases hN : l₂.head?.filter (fun n => s.type n == t && a + z == s.addr n) with
    | some n =>
      obtain ⟨hhead, hb⟩ := Option.filter_eq_some_iff.mp hN
      obtain ⟨hnt, hne⟩ : s.type n = t ∧ a + z = s.addr n := by simpa using hb
      obtain ⟨l₂, rfl⟩ : ∃ l, l₂ = n :: l := ⟨_, (List.cons_head?_tail hhead).symm⟩
      exact ⟨_, _, h.joinboth hpt hpe hnt hne ht⟩
    | none => exact ⟨_, _, h.joinprev hpt hpe ht (hq hN)⟩
  | none =>
    cases hN : l₂.head?.filter (fun n => s.type n == t && a + z == s.addr n) with
    | some n =>
      obtain ⟨hhead, hb⟩ := Option.filter_eq_some_iff.mp hN
      obtain ⟨hnt, hne⟩ : s.type n = t ∧ a + z = s.addr n := by simpa using hb
      obtain ⟨l₂, rfl⟩ : ∃ l, l₂ = n :: l := ⟨_, (List.cons_head?_tail hhead).symm⟩
      exact ⟨_, _, h.joinnext hnt hne hz ht (hp hP)⟩
    | none =>
      rcases asmnew_spec h a z t with ⟨hnew, -⟩ | ⟨p, s', f', hnew, hn, hs, hpa, hpz, hpt⟩
      · simp only [hnew]
        exact ⟨_, f, h⟩
      · have hsp : s'.span p = range a z t := by simp only [span, range, hpa, hpz, hpt]
        simp only [hnew]
        refine ⟨_, f', hn.link (by rw [hpz]; exact hz) (by rw [hpa, hpz]; exact ht) ?_ ?_⟩
        · intro q hq'
          rw [hsp, hs q (List.mem_append_left _ (List.mem_of_getLast? hq'))]
          exact hp hP q hq'
        · intro q hq'
          rw [hsp, hs q (List.mem_append_right _ (List.mem_of_head? hq'))]
          exact hq hN q hq'

/-- Returning a range keeps the map, if its end does not wrap around. -/
theorem asmfree_spec (h : Rep s l f) {z : Uintmem} (t : Int)
    (ht : z = 0 ∨ a.toNat + z.toNat < 2 ^ 64) :
    ∃ r s' l' f', s.asmfree a z t = some (r, s') ∧ s'.Rep l' f' := by
  unfold asmfree
  by_cases hz : z = 0
  · rw [if_pos hz]
    exact ⟨_, _, l, f, rfl, h⟩
  · obtain ⟨l₁, l₂, rfl, hw, -, -⟩ := walk_spec s a [] h.list h.length_le
    rw [if_neg hz, show s.walk a nelem none s.asmlist = _ from hw]
    have hpos : 0 < z.toNat := by
      rcases Nat.eq_zero_or_pos z.toNat with h0 | h0
      · exact absurd (BitVec.eq_of_toNat_eq h0) hz
      · exact h0
    obtain ⟨l', f', hr⟩ := put_spec h t hpos (ht.resolve_left hz)
    exact ⟨_, _, l', f', rfl, hr⟩

/-! ## Taking a range -/

/-- The loop of `asmalloc` ends, and it chooses an entry of the map. -/
theorem search_spec (s : Map) (a z : Uintmem) (t align : Int) {p : Option Nat} {fuel : Nat}
    (pre : List Nat) (h : Chain s.next p l) (hf : l.length ≤ fuel) :
    ∃ r, s.search a z t align fuel pre.getLast? p = some r ∧ ∀ pp i x, r = some (pp, i, x) →
      ∃ l₁ l₂, l = l₁ ++ i :: l₂ ∧ pp = (pre ++ l₁).getLast? ∧ s.fit i a z t align = .take x ∧
        ∀ j ∈ l₁, s.fit j a z t align = .skip := by
  induction l generalizing p fuel pre with
  | nil =>
    cases h
    exact ⟨none, by cases fuel <;> rfl, nofun⟩
  | cons i l ih =>
    obtain ⟨rfl, h⟩ := h
    cases fuel with
    | zero => cases hf
    | succ fuel =>
      rw [search]
      cases hfit : s.fit i a z t align with
      | skip =>
        obtain ⟨r, hr, hs⟩ := ih (pre ++ [i]) h (Nat.le_of_succ_le_succ hf)
        rw [List.getLast?_concat] at hr
        refine ⟨r, hr, fun pp j x hx => ?_⟩
        obtain ⟨l₁, l₂, rfl, hpp, hj, hskip⟩ := hs pp j x hx
        exact ⟨i :: l₁, l₂, rfl, by rw [hpp, List.append_assoc]; rfl, hj,
          List.forall_mem_cons.mpr ⟨hfit, hskip⟩⟩
      | stop => exact ⟨none, rfl, nofun⟩
      | take x =>
        refine ⟨some (pre.getLast?, i, x), rfl, fun pp j y hy => ?_⟩
        cases hy
        exact ⟨[], l, rfl, by rw [List.append_nil], hfit, by simp⟩

/-- The range from `x` on lies in the entry `i`. -/
def Inside (s : Map) (i : Nat) (x z : Uintmem) : Prop :=
  (s.addr i).toNat ≤ x.toNat ∧ x.toNat + z.toNat ≤ (s.addr i).toNat + (s.size i).toNat

theorem fitAt_take {x y z : Uintmem} (h : s.fitAt i x z = .take y) :
    y = x ∧ ¬ s.addr i + s.size i - x < z := by
  unfold fitAt at h
  split at h
  · cases h
  · next hn =>
    cases h
    exact ⟨rfl, hn⟩

/-- Without an alignment, the chosen range lies in its entry, and the end of the range that was
asked for does not wrap around. -/
theorem fit_inside {x z : Uintmem} {align : Int} (ha : ¬ 0 < align)
    (ht : (s.addr i).toNat + (s.size i).toNat < 2 ^ 64) (h : s.fit i a z t align = .take x) :
    s.Inside i x z ∧ a.toNat + z.toNat < 2 ^ 64 := by
  unfold fit at h
  simp only [aligned, if_neg ha] at h
  split at h
  · cases h
  split at h
  · split at h
    · cases h
    split at h
    · cases h
    split at h
    · cases h
    · obtain ⟨rfl, hfit⟩ := fitAt_take h
      refine ⟨⟨?_, ?_⟩, ?_⟩ <;> bv_omega
  · next h0 =>
    obtain ⟨rfl, hfit⟩ := fitAt_take h
    rw [not_not.mp h0]
    refine ⟨⟨?_, ?_⟩, ?_⟩ <;> bv_omega

/-- An entry that is not in the map does not matter. -/
theorem Rep.resize_other (h : Rep s l f) (hi : i ∉ l) (a z : Uintmem) :
    (s.resize i a z).Rep l f := by
  have hne : ∀ j ∈ l, j ≠ i := fun j hj => ne_of_mem_of_not_mem hj hi
  refine ⟨h.list, h.free, h.nodup, h.lt, h.index, ?_, fun j hj => ?_⟩
  · rw [List.map_congr_left fun j hj => s.span_resize_ne a z (hne j hj)]
    exact h.tidy
  · simpa only [Map.resize, update_of_ne (hne j hj)] using h.top j hj

variable {x z : Uintmem}

/-- What is left of the entry behind the range from `x` on. -/
def rest (s : Map) (i : Nat) (x z : Uintmem) : Uintmem := s.size i - (x - s.addr i + z)

/-- The entry `i`, cut down. -/
def trimmed (s : Map) (i : Nat) (x z : Uintmem) : Map := s.resize i (x + z) (s.rest i x z)

theorem cut_kept (pp : Option Nat) (h : s.rest i x z ≠ 0) : s.cut pp i x z = s.trimmed i x z := by
  simp only [cut, update_self]
  exact if_neg h

theorem cut_tossed (h : s.rest i x z = 0) : s.cut (some q) i x z =
    { s.trimmed i x z with next := update s.next q (s.next i) }.toss i := by
  simp only [cut, update_self]
  exact if_pos h

theorem cut_first (h : s.rest i x z = 0) : s.cut none i x z = (s.trimmed i x z).toss i := by
  simp only [cut, update_self]
  exact if_pos h

theorem rest_toNat (hin : s.Inside i x z) (htop : (s.span i).hi < 2 ^ 64) :
    (s.rest i x z).toNat = (s.span i).hi - (x.toNat + z.toNat) := by
  obtain ⟨hlo, hhi⟩ := hin
  simp only [span] at htop
  rw [rest, BitVec.toNat_sub, BitVec.toNat_add, BitVec.toNat_sub]
  simp only [span]
  omega

theorem rest_eq_zero (hin : s.Inside i x z) (htop : (s.span i).hi < 2 ^ 64) :
    s.rest i x z = 0 ↔ x.toNat + z.toNat = (s.span i).hi := by
  have hr := rest_toNat hin htop
  have hhi : x.toNat + z.toNat ≤ (s.span i).hi := hin.2
  constructor
  · intro h
    rw [h, show (0 : Uintmem).toNat = 0 from rfl] at hr
    omega
  · intro h
    apply BitVec.eq_of_toNat_eq
    rw [hr, show (0 : Uintmem).toNat = 0 from rfl]
    omega

theorem trimmed_span_ne {j : Nat} (h : j ≠ i) : (s.trimmed i x z).span j = s.span j :=
  span_resize_ne _ _ _ h

theorem trimmed_span (hin : s.Inside i x z) (htop : (s.span i).hi < 2 ^ 64) :
    (s.trimmed i x z).span i = ⟨x.toNat + z.toNat, (s.span i).hi, s.type i⟩ := by
  have hhi : x.toNat + z.toNat ≤ (s.span i).hi := hin.2
  have ha : (x + z).toNat = x.toNat + z.toNat := by
    rw [BitVec.toNat_add]
    omega
  rw [trimmed, span_resize_self, ha, rest_toNat hin htop, Nat.add_sub_cancel' hhi]

theorem Rep.nodup_mid (h : Rep s (l₁ ++ i :: l₂) f) : i ∉ l₁ ++ l₂ := by
  have hn := (List.nodup_append.mp h.nodup).1
  exact (List.nodup_cons.mp (List.perm_middle.nodup hn)).1

/-- A range is cut out of an entry that something is left of. -/
theorem Rep.trim (h : Rep s (l₁ ++ i :: l₂) f) (hin : s.Inside i x z) (hr : s.rest i x z ≠ 0) :
    (s.trimmed i x z).Rep (l₁ ++ i :: l₂) f := by
  have htop : (s.span i).hi < 2 ^ 64 := h.top i (by simp)
  have hlo : (s.addr i).toNat ≤ x.toNat := hin.1
  have hhi : x.toNat + z.toNat ≤ (s.span i).hi := hin.2
  have hs := rest_toNat hin htop
  have hne := (rest_eq_zero hin htop).not.mp hr
  have ha : (x + z).toNat = x.toNat + z.toNat := by
    rw [BitVec.toNat_add]
    omega
  refine h.resize (by omega) (by omega) (fun p hp => ?_) fun q hq => ?_
  · obtain ⟨h₁, h₂⟩ := h.around.1 p hp
    simp only [span, Span.Before, ha] at h₁ h₂ ⊢
    exact ⟨by omega, fun hk => by have := h₂ hk; omega⟩
  · rw [ha, hs, Nat.add_sub_cancel' hhi]
    exact h.around.2 q hq

/-- An entry that nothing is left of is taken out. -/
theorem Rep.pull (h : Rep s (l₁ ++ q :: i :: l₂) f) (x z : Uintmem) :
    ({ s.trimmed i x z with next := update s.next q (s.next i) }.toss i).Rep
      (l₁ ++ q :: l₂) (i :: f) := by
  have h' : Rep s ((l₁ ++ [q]) ++ i :: l₂) f := by simpa using h
  have hi := h'.nodup_mid
  rw [List.append_assoc] at hi
  exact h.unlink.resize_other hi _ _

/-- A range is cut out of an entry; if the rest of the entry is empty, it is not the first. -/
theorem cut_spec (h : Rep s (l₁ ++ i :: l₂) f) (hin : s.Inside i x z)
    (hhead : l₁ = [] → x.toNat + z.toNat ≠ (s.addr i).toNat + (s.size i).toNat) :
    ∃ l' f', (s.cut l₁.getLast? i x z).Rep l' f' := by
  by_cases h0 : s.rest i x z = 0
  · rcases List.eq_nil_or_concat l₁ with rfl | ⟨l₁, q, rfl⟩
    · exact absurd ((rest_eq_zero hin (h.top i (by simp))).mp h0) (hhead rfl)
    · rw [List.concat_eq_append] at *
      rw [List.getLast?_concat, cut_tossed h0]
      have h' : Rep s (l₁ ++ q :: i :: l₂) f := by simpa using h
      exact ⟨_, _, h'.pull x z⟩
  · rw [cut_kept _ h0]
    exact ⟨_, _, h.trim hin h0⟩

/-- What goes well in an allocation: if an alignment is asked for, the aligned range lies in the
entry that is chosen, and the end of the first entry is not taken. -/
def AllocOk (s : Map) (a z : Uintmem) (t align : Int) : Prop :=
  ∀ pp i x, s.search a z t align nelem none s.asmlist = some (some (pp, i, x)) →
    (0 < align → s.Inside i x z) ∧
    (pp = none → x.toNat + z.toNat ≠ (s.addr i).toNat + (s.size i).toNat)

theorem asmalloc_spec (h : Rep s l f) {z : Uintmem} {align : Int} (hok : s.AllocOk a z t align) :
    ∃ r s' l' f', s.asmalloc a z t align = some (r, s') ∧ s'.Rep l' f' ∧
      (¬ 0 < align → r ≠ 0 → a.toNat + z.toNat < 2 ^ 64) := by
  obtain ⟨r, hr, hs⟩ := search_spec s a z t align [] h.list h.length_le
  rw [List.getLast?_nil] at hr
  unfold asmalloc
  rw [hr]
  rcases r with _ | ⟨pp, i, x⟩
  · exact ⟨_, _, l, f, rfl, h, fun _ h0 => absurd rfl h0⟩
  · obtain ⟨l₁, l₂, rfl, rfl, hfit, -⟩ := hs pp i x rfl
    obtain ⟨hal, hhead⟩ := hok _ i x hr
    rw [List.nil_append] at hhead
    have htop := h.top i (by simp)
    have hend : ¬ 0 < align → x ≠ 0 → a.toNat + z.toNat < 2 ^ 64 := fun ha _ =>
      (fit_inside ha htop hfit).2
    have hin : s.Inside i x z := by
      by_cases ha : 0 < align
      · exact hal ha
      · exact (fit_inside ha htop hfit).1
    obtain ⟨l', f', hcut⟩ := cut_spec h hin fun hl => hhead (by rw [hl]; rfl)
    simp only [List.nil_append]
    by_cases ho : s.addr i ≠ x
    · rw [if_pos ho]
      -- the part before the range is returned to the map
      obtain ⟨r, s', l', f', he, hrep⟩ := asmfree_spec hcut (a := s.addr i) (z := x - s.addr i) t
        (.inr (by have := hin.1; rw [BitVec.toNat_sub]; omega))
      exact ⟨x, s', l', f', by rw [he]; rfl, hrep, hend⟩
    · rw [if_neg ho]
      exact ⟨_, _, l', f', rfl, hcut, hend⟩

theorem asminsert_spec (h : Rep s l f) {z : Uintmem} (hok : t ≠ AsmNONE → s.AllocOk a z AsmNONE 0) :
    ∃ s' l' f', s.asminsert a z t = some s' ∧ s'.Rep l' f' := by
  unfold asminsert
  by_cases ht : t = AsmNONE
  · rw [if_pos ht]
    exact ⟨s, l, f, rfl, h⟩
  rw [if_neg ht]
  obtain ⟨r, s₁, l₁, f₁, h₁, hr₁, hend⟩ := asmalloc_spec h (hok ht)
  simp only [h₁]
  by_cases h0 : r = 0
  · rw [if_pos h0]
    exact ⟨s₁, l₁, f₁, rfl, hr₁⟩
  rw [if_neg h0]
  have hend := hend (by decide) h0
  obtain ⟨r₂, s₂, l₂, f₂, h₂, hr₂⟩ := asmfree_spec hr₁ t (.inr hend)
  simp only [h₂]
  by_cases h0 : r₂ = 0
  · rw [if_pos h0]
    exact ⟨s₂, l₂, f₂, rfl, hr₂⟩
  · rw [if_neg h0]
    obtain ⟨r₃, s₃, l₃, f₃, h₃, hr₃⟩ := asmfree_spec hr₂ 0 (.inr hend)
    exact ⟨s₃, l₃, f₃, by rw [h₃]; rfl, hr₃⟩

end Map

/-! ## Runs -/

/-- The allocation that a call makes, if it makes one. -/
def Op.alloc (s : Sys) : Op → Option (Uintmem × Uintmem × Int × Int)
  | asmfree .. => none
  | asmalloc addr size type align => some (addr, size, type, align)
  | asminsert addr size type => if type = AsmNONE then none else some (addr, size, AsmNONE, 0)
  | asmmapinit addr size type =>
    if type = AsmNONE then none
    else (mapinitRange s addr size type).map fun (addr, size) => (addr, size, AsmNONE, 0)
  | asmmodinit start end_ =>
    (modinitSize s start end_).map fun size => (s.pmstart, size, AsmNONE, 0)

/-- The call's allocation goes well, and the end of a range that is returned does not wrap
around. -/
structure Op.Ok (s : Sys) (op : Op) : Prop where
  alloc : ∀ a z t align, op.alloc s = some (a, z, t, align) → s.map.AllocOk a z t align
  free : ∀ a z t, op = .asmfree a z t → z = 0 ∨ a.toNat + z.toNat < 2 ^ 64

/-- The runs from the single free entry. -/
def addresses : Lts Sys Op where
  init s := s.map = Map.start
  step s op s' := op.run s = some s'

theorem Op.Ok.run {s : Sys} {op : Op} (hok : op.Ok s) {l f : List Nat} (h : s.map.Rep l f) :
    ∃ s' l' f', op.run s = some s' ∧ s'.map.Rep l' f' := by
  cases op with
  | asmfree a z t =>
    obtain ⟨r, m, l', f', e, hr⟩ := Map.asmfree_spec h t (hok.free a z t rfl)
    exact ⟨_, l', f', by rw [Op.run, e]; rfl, hr⟩
  | asmalloc a z t align =>
    obtain ⟨r, m, l', f', e, hr, -⟩ := Map.asmalloc_spec h (hok.alloc a z t align rfl)
    exact ⟨_, l', f', by rw [Op.run, e]; rfl, hr⟩
  | asminsert a z t =>
    obtain ⟨m, l', f', e, hr⟩ := Map.asminsert_spec h fun ht =>
      hok.alloc a z AsmNONE 0 (by rw [Op.alloc, if_neg ht])
    exact ⟨_, l', f', by rw [Op.run, e]; rfl, hr⟩
  | asmmapinit a z t =>
    simp only [Op.run, Asm.asmmapinit]
    cases hm : mapinitRange s a z t with
    | none => exact ⟨s, l, f, rfl, h⟩
    | some r =>
      obtain ⟨a', z'⟩ := r
      obtain ⟨m, l', f', e, hr⟩ := Map.asminsert_spec h (a := a') (z := z') (t := t) fun ht =>
        hok.alloc a' z' AsmNONE 0 (by rw [Op.alloc, if_neg ht, hm]; rfl)
      refine ⟨_, l', f', by simp only [e]; rfl, ?_⟩
      split <;> exact hr
  | asmmodinit start end_ =>
    simp only [Op.run, Asm.asmmodinit]
    cases hm : modinitSize s start end_ with
    | none => exact ⟨s, l, f, rfl, h⟩
    | some z =>
      obtain ⟨r, m, l', f', e, hr, -⟩ := Map.asmalloc_spec h
        (hok.alloc s.pmstart z AsmNONE 0 (by rw [Op.alloc, hm]; rfl))
      exact ⟨_, l', f', by simp only [e]; rfl, hr⟩

theorem Map.start_rep : Map.start.Rep [0] [] where
  list := ⟨rfl, rfl⟩
  free := rfl
  nodup := List.nodup_singleton 0
  lt i hi := by
    rw [List.mem_singleton.mp hi]
    exact Nat.one_pos
  index := by decide
  tidy := tidy_cons.mpr ⟨by decide, .nil, by simp⟩
  top i hi := by
    rw [List.mem_singleton.mp hi]
    decide

theorem rep_inductive : (addresses.restrict fun s op => op.Ok s).Inductive
    fun s => ∃ l f, s.map.Rep l f where
  init s hs := ⟨[0], [], (show s.map = Map.start from hs) ▸ Map.start_rep⟩
  step s op s' h hs := by
    obtain ⟨l, f, h⟩ := h
    obtain ⟨t, l', f', e, hr⟩ := hs.2.run h
    obtain rfl : t = s' := Option.some.inj (e.symm.trans hs.1)
    exact ⟨l', f', hr⟩

/-- The map is a finite list of entries that are not empty, are sorted and apart, and are joined
where two of one type touch; none of them is on the free list, which is finite too. -/
def Map.Intact (s : Map) : Prop :=
  ∃ l f, Chain s.next s.asmlist l ∧ Chain s.next s.asmfreelist f ∧
    (∀ i ∈ l, s.size i ≠ 0) ∧
    l.Pairwise (fun i j => (s.addr i).toNat + (s.size i).toNat ≤ (s.addr j).toNat) ∧
    l.IsChain (fun i j => s.type i = s.type j →
      (s.addr i).toNat + (s.size i).toNat ≠ (s.addr j).toNat) ∧
    ∀ i ∈ l, i ∉ f

theorem Map.Rep.intact {s : Map} {l f : List Nat} (h : s.Rep l f) : s.Intact := by
  refine ⟨l, f, h.list, h.free, fun i hi h0 => ?_, ?_, ?_, fun i hi hf => ?_⟩
  · have := h.pos hi
    rw [h0] at this
    exact absurd this (by decide)
  · exact List.pairwise_map.mp h.tidy.pairwise
  · exact ((List.isChain_map s.span).mp h.tidy.chain).imp fun i j hij => hij.2
  · exact (List.nodup_append.mp h.nodup).2.2 i hi i hf rfl

/-- In every run in which no allocation takes the end of the first entry of the map or leaves the
entry that it chose, and no range that is returned wraps around: the map is intact, and the next
such call returns. -/
theorem map_intact {s : Sys} (h : (addresses.restrict fun s op => op.Ok s).Reach s) :
    s.map.Intact ∧ ∀ op : Op, op.Ok s → ∃ s', op.run s = some s' := by
  obtain ⟨l, f, hr⟩ := rep_inductive.reach h
  refine ⟨hr.intact, fun op hok => ?_⟩
  obtain ⟨s', -, -, he, -⟩ := hok.run hr
  exact ⟨s', he⟩

/-! ## The end of the first entry -/

private def cold : Sys := ⟨Map.start, 0, 0, 0⟩

/-- The first megabyte is taken, as `asminit` does. -/
private def lowMemory : Op := .asmalloc 0 0x100000 AsmNONE 0

theorem lowMemory_ok : lowMemory.Ok cold where
  alloc a z t align h := by
    cases h
    have hs : cold.map.search 0 0x100000 AsmNONE 0 nelem none cold.map.asmlist =
        some (some (none, 0, 0)) := by decide
    intro pp i x hx
    rw [hs] at hx
    cases hx
    exact ⟨fun h => absurd h (by decide), fun _ => by decide⟩
  free := nofun

theorem map_intact_low : ∃ s, lowMemory.run cold = some s ∧ s.map.Intact := by
  obtain ⟨s, -, -, he, -⟩ := lowMemory_ok.run Map.start_rep
  exact ⟨s, he, (map_intact (.step ⟨[], .init (s := cold) rfl⟩ ⟨he, lowMemory_ok⟩)).1⟩

/-- A bank of memory that is the first entry of the map, and all of it is allocated. -/
private def wholeBank : List Op :=
  [lowMemory, .asminsert 0x100000 0x100000 AsmMEMORY, .asmalloc 0 0x100000 AsmMEMORY 0]

theorem wholeBank_ends : (wholeBank.foldlM Op.run cold).map (fun s =>
    (s.map.asmlist, s.map.asmfreelist, s.map.size 1)) = some (some 1, some 1, 0) := by
  decide +kernel

/-- The first entry is put on the free list with the map still pointing to it. -/
theorem map_lost : ∃ s, addresses.Reach s ∧ ¬ s.map.Intact := by
  obtain ⟨s, hs, he⟩ := Option.map_eq_some_iff.mp wholeBank_ends
  simp only [Prod.mk.injEq] at he
  refine ⟨s, Lts.Reach.exec (fun _ _ _ h => h) ⟨[], .init (s := cold) rfl⟩ hs, ?_⟩
  rintro ⟨l, f, hl, hf, hz, -⟩
  rw [he.1] at hl
  cases l with
  | nil => cases hl
  | cons i l =>
    obtain ⟨⟨⟩, -⟩ := hl
    exact hz 1 List.mem_cons_self he.2.2

end NixMark.Asm
