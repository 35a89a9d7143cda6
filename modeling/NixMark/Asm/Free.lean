import NixMark.Asm.Owned

/-!
# What `asmfree` does with a range

* `Map.Sorted`: a map whose entries are sorted and apart; they may end at 2⁶⁴.
* `Returned`: what a call promises, whether it takes the range or not.
* `Straight`: when it is so. A sum that is 2⁶⁴ is 0 for the code.
-/

namespace NixMark.Asm

open Lib
open Function (update update_of_ne update_self)

namespace Map

variable {s : Map} {l l₁ l₂ f : List Nat} {i q n : Nat} {t : Int} {a z : Uintmem}

/-- The map goes through the entries `l`, which are not empty, are sorted and are apart. -/
structure Sorted (s : Map) (l f : List Nat) : Prop extends Linked s l f where
  apart : l.Pairwise fun i j => (s.span i).hi ≤ (s.span j).lo
  pos : ∀ i ∈ l, (s.span i).lo < (s.span i).hi
  top : ∀ i ∈ l, (s.span i).hi ≤ 2 ^ 64

/-- An entry has an address of the range. -/
def Meets (s : Map) (l : List Nat) (a z : Uintmem) : Prop :=
  ∃ i ∈ l, (s.span i).lo < a.toNat + z.toNat ∧ a.toNat < (s.span i).hi

/-- An entry of the type touches the range, so that no new one is needed. -/
def Joins (s : Map) (l : List Nat) (a z : Uintmem) (t : Int) : Prop :=
  ∃ i ∈ l, s.type i = t ∧ ((s.span i).hi = a.toNat ∨ (s.span i).lo = a.toNat + z.toNat)

/-- What a call promises of its result and of the map that it leaves. -/
structure Returned (s : Map) (l : List Nat) (a z : Uintmem) (t : Int) (r : Int) (s' : Map) :
    Prop where
  result : r = 0 ∨ r = -1
  accepted : r = 0 ↔ z = 0 ∨ ¬ s.Meets l a z ∧ (s.Joins l a z t ∨ s.Room)
  added : r = 0 → ∀ k y, s'.Mapped k y ↔ s.Mapped k y ∨ (range a z t).At k y.toNat
  sorted : ∃ l' f', s'.Sorted l' f'
  kept : r ≠ 0 → s' = s

/-! ## When the sums are right -/

/-- An overlap with an entry, where the sum that is compared does not wrap around. -/
def Seen (s : Map) (l : List Nat) (a z : Uintmem) : Prop :=
  ∃ i ∈ l, (s.span i).lo ≤ a.toNat ∧ a.toNat < (s.span i).hi ∧ (s.span i).hi < 2 ^ 64 ∨
    a.toNat < (s.span i).lo ∧ (s.span i).lo < a.toNat + z.toNat ∧ a.toNat + z.toNat < 2 ^ 64

/-- An overlap with an entry, where the sum that is compared wraps around. -/
def Hidden (s : Map) (l : List Nat) (a z : Uintmem) : Prop :=
  ∃ i ∈ l, (s.span i).lo ≤ a.toNat ∧ (s.span i).hi = 2 ^ 64 ∨
    a.toNat < (s.span i).lo ∧ a.toNat + z.toNat = 2 ^ 64

/-- The range would join an entry that ends where it begins. -/
def Continues (s : Map) (l : List Nat) (a : Uintmem) (t : Int) : Prop :=
  ∃ i ∈ l, s.type i = t ∧ (s.span i).hi = a.toNat ∧ ∀ j ∈ l, (s.span j).lo ≠ a.toNat

/-- The range and the entries that it joins are all addresses. -/
def Whole (s : Map) (l : List Nat) (a z : Uintmem) (t : Int) : Prop :=
  (a.toNat = 0 ∨ ∃ i ∈ l, s.type i = t ∧ (s.span i).lo = 0 ∧ (s.span i).hi = a.toNat) ∧
  (a.toNat + z.toNat = 2 ^ 64 ∨
    ∃ i ∈ l, s.type i = t ∧ (s.span i).lo = a.toNat + z.toNat ∧ (s.span i).hi = 2 ^ 64)

/-- No sum that matters wraps around: an overlap is seen, or there is none and what is joined has
less than 2⁶⁴ addresses; or the range is not taken because no entry is left. -/
def Straight (s : Map) (l : List Nat) (a z : Uintmem) (t : Int) : Prop :=
  z = 0 ∨ s.Seen l a z ∨ (¬ s.Hidden l a z ∧ ¬ s.Whole l a z t) ∨
    (s.Hidden l a z ∧ ¬ s.Continues l a t ∧ ¬ s.Room)

/-! ## The neighbours -/

/-- The loop splits the map. -/
structure Splits (s : Map) (l₁ l₂ : List Nat) (f : List Nat) (a z : Uintmem) : Prop where
  sorted : s.Sorted (l₁ ++ l₂) f
  below : ∀ i ∈ l₁, (s.span i).lo ≤ a.toNat
  above : ∀ i ∈ l₂, a.toNat < (s.span i).lo
  pos : 0 < z.toNat
  top : a.toNat + z.toNat ≤ 2 ^ 64

theorem Splits.last (h : Splits s l₁ l₂ f a z) (hq : q ∈ l₁.getLast?) (hi : i ∈ l₁) :
    i = q ∨ (s.span i).hi ≤ (s.span q).lo := by
  obtain ⟨l, rfl⟩ : ∃ l, l₁ = l ++ [q] := ⟨_, (List.dropLast_append_getLast? q hq).symm⟩
  obtain ⟨h₁, -, -⟩ := List.pairwise_append.mp h.sorted.apart
  rcases List.mem_append.mp hi with hi | hi
  · exact .inr ((List.pairwise_append.mp h₁).2.2 i hi q (by simp))
  · exact .inl (List.mem_singleton.mp hi)

theorem Splits.first (h : Splits s l₁ l₂ f a z) (hq : q ∈ l₂.head?) (hi : i ∈ l₂) :
    i = q ∨ (s.span q).hi ≤ (s.span i).lo := by
  obtain ⟨l, rfl⟩ : ∃ l, l₂ = q :: l := ⟨_, (List.cons_head?_tail hq).symm⟩
  obtain ⟨-, h₂, -⟩ := List.pairwise_append.mp h.sorted.apart
  rcases List.mem_cons.mp hi with rfl | hi
  · exact .inl rfl
  · exact .inr ((List.pairwise_cons.mp h₂).1 i hi)

/-- The first list has a last entry, which ends last. -/
theorem Splits.exists_last (h : Splits s l₁ l₂ f a z) (hi : i ∈ l₁) :
    ∃ q ∈ l₁.getLast?, q ∈ l₁ ∧ (i = q ∨ (s.span i).hi ≤ (s.span q).lo) := by
  have hne : l₁ ≠ [] := List.ne_nil_of_mem hi
  have hq : l₁.getLast hne ∈ l₁.getLast? := List.getLast_mem_getLast? hne
  exact ⟨_, hq, List.getLast_mem hne, h.last hq hi⟩

theorem Splits.exists_first (h : Splits s l₁ l₂ f a z) (hi : i ∈ l₂) :
    ∃ q ∈ l₂.head?, q ∈ l₂ ∧ (i = q ∨ (s.span q).hi ≤ (s.span i).lo) := by
  cases l₂ with
  | nil => cases hi
  | cons q l => exact ⟨q, rfl, List.mem_cons_self, h.first rfl hi⟩

/-- A sum that is at most 2⁶⁴. -/
theorem sum_toNat {x y : Uintmem} (h : x.toNat + y.toNat ≤ 2 ^ 64) :
    (x + y).toNat = if x.toNat + y.toNat = 2 ^ 64 then 0 else x.toNat + y.toNat := by
  rw [BitVec.toNat_add]
  by_cases he : x.toNat + y.toNat = 2 ^ 64
  · rw [if_pos he, he, Nat.mod_self]
  · rw [if_neg he]
    exact Nat.mod_eq_of_lt (by omega)

theorem end_toNat (s : Map) (i : Nat) (h : (s.span i).hi ≤ 2 ^ 64) :
    (s.addr i + s.size i).toNat = if (s.span i).hi = 2 ^ 64 then 0 else (s.span i).hi := sum_toNat h

/-- The comparisons of the code. -/
theorem Splits.overlaps_iff (h : Splits s l₁ l₂ f a z) :
    s.overlaps a z l₁.getLast? l₂.head? = true ↔ s.Seen (l₁ ++ l₂) a z := by
  have htop := h.top
  simp only [overlaps, Bool.or_eq_true, Option.any_eq_true, decide_eq_true_eq, BitVec.lt_def]
  constructor
  · rintro (⟨p, hp, hlt⟩ | ⟨p, hp, hlt⟩)
    · have hm := List.mem_of_getLast? hp
      have hhi := h.sorted.top p (List.mem_append_left _ hm)
      rw [end_toNat s p hhi] at hlt
      refine ⟨p, List.mem_append_left _ hm, .inl ⟨h.below p hm, ?_⟩⟩
      split at hlt <;> omega
    · have hm := List.mem_of_head? hp
      rw [sum_toNat htop] at hlt
      have hlo : (s.span p).lo = (s.addr p).toNat := rfl
      refine ⟨p, List.mem_append_right _ hm, .inr ⟨h.above p hm, ?_⟩⟩
      split at hlt <;> omega
  · rintro ⟨i, hi, hs⟩
    rcases List.mem_append.mp hi with him | him
    · obtain ⟨p, hp, hm, hor⟩ := h.exists_last him
      have hab := h.below p hm
      have hlo := h.below i him
      obtain ⟨-, hlt, hhi⟩ : (s.span i).lo ≤ a.toNat ∧ a.toNat < (s.span i).hi ∧
          (s.span i).hi < 2 ^ 64 := hs.resolve_right fun hr => by omega
      obtain rfl : i = p := hor.resolve_right fun hr => by omega
      refine .inl ⟨i, hp, ?_⟩
      rw [end_toNat s i (by omega), if_neg (by omega)]
      exact hlt
    · obtain ⟨q, hq, hm, hor⟩ := h.exists_first him
      have hpos := h.sorted.pos q (List.mem_append_right _ hm)
      have hlo := h.above i him
      obtain ⟨-, hlt, hE⟩ : a.toNat < (s.span i).lo ∧ (s.span i).lo < a.toNat + z.toNat ∧
          a.toNat + z.toNat < 2 ^ 64 := hs.resolve_left fun hr => by omega
      refine .inr ⟨q, hq, ?_⟩
      rw [sum_toNat htop, if_neg (by omega)]
      have hq' : (s.span q).lo = (s.addr q).toNat := rfl
      rcases hor with rfl | hor <;> omega

/-- No entry meets the range. -/
structure Splits.Clear (s : Map) (l₁ l₂ : List Nat) (f : List Nat) (a z : Uintmem) : Prop extends
    Splits s l₁ l₂ f a z where
  left : ∀ i ∈ l₁, (s.span i).hi ≤ a.toNat
  right : ∀ i ∈ l₂, a.toNat + z.toNat ≤ (s.span i).lo

theorem Splits.clear (h : Splits s l₁ l₂ f a z) (hs : ¬ s.Seen (l₁ ++ l₂) a z)
    (hh : ¬ s.Hidden (l₁ ++ l₂) a z) : Splits.Clear s l₁ l₂ f a z := by
  refine ⟨h, fun i hi => Nat.not_lt.mp fun hlt => ?_, fun i hi => Nat.not_lt.mp fun hlt => ?_⟩
  · have hm := List.mem_append_left l₂ hi
    have hlo := h.below i hi
    rcases Nat.lt_or_eq_of_le (h.sorted.top i hm) with ht | ht
    · exact hs ⟨i, hm, .inl ⟨hlo, hlt, ht⟩⟩
    · exact hh ⟨i, hm, .inl ⟨hlo, ht⟩⟩
  · have hm := List.mem_append_right l₁ hi
    have hlo := h.above i hi
    rcases Nat.lt_or_eq_of_le h.top with ht | ht
    · exact hs ⟨i, hm, .inr ⟨hlo, hlt, ht⟩⟩
    · exact hh ⟨i, hm, .inr ⟨hlo, ht⟩⟩

theorem Splits.Clear.not_meets (h : Splits.Clear s l₁ l₂ f a z) : ¬ s.Meets (l₁ ++ l₂) a z := by
  rintro ⟨i, hi, hlo, hhi⟩
  rcases List.mem_append.mp hi with hi | hi
  · have := h.left i hi
    omega
  · have := h.right i hi
    omega

/-- The entry before the range, if it is joined with it. -/
theorem Splits.Clear.prev_iff (h : Splits.Clear s l₁ l₂ f a z) (hq : q ∈ l₁.getLast?) :
    (s.type q == t && s.addr q + s.size q == a) = true ↔ s.type q = t ∧ (s.span q).hi = a.toNat := by
  have hm := List.mem_of_getLast? hq
  have hhi := h.left q hm
  have ha := a.isLt
  have he := end_toNat s q (by omega)
  rw [if_neg (by omega)] at he
  simp only [Bool.and_eq_true, beq_iff_eq, ← BitVec.toNat_inj, he]

/-- The entry behind the range, if it is joined with it. -/
theorem Splits.Clear.next_iff (h : Splits.Clear s l₁ l₂ f a z) (hq : q ∈ l₂.head?) :
    (s.type q == t && a + z == s.addr q) = true ↔
      s.type q = t ∧ (s.span q).lo = a.toNat + z.toNat := by
  have hm := List.mem_of_head? hq
  have hlo := h.right q hm
  have hq' : (s.span q).lo = (s.addr q).toNat := rfl
  have he := sum_toNat h.top
  have hlt := (s.addr q).isLt
  rw [if_neg (by omega)] at he
  simp only [Bool.and_eq_true, beq_iff_eq, ← BitVec.toNat_inj, he, hq']
  exact and_congr_right fun _ => eq_comm

/-! ## The range is put into the map -/

/-- The range and the entries that it joins are the entry `m`, between `l₁` and `l₂`, and should have
the addresses from `lo` to `hi`. -/
structure Filled (s : Map) (l : List Nat) (a z : Uintmem) (t : Int) (s' : Map) (l₁ : List Nat)
    (m : Nat) (l₂ f' : List Nat) (lo hi : Nat) : Prop where
  linked : s'.Linked (l₁ ++ m :: l₂) f'
  same : ∀ i ∈ l₁ ++ l₂, s'.span i = s.span i
  addr : (s'.addr m).toNat = lo
  size : (s'.size m).toNat = (hi - lo) % 2 ^ 64
  type : s'.type m = t
  low : lo ≤ a.toNat
  high : a.toNat + z.toNat ≤ hi
  top : hi ≤ 2 ^ 64
  before : ∀ i ∈ l₁, (s.span i).hi ≤ lo
  behind : ∀ i ∈ l₂, hi ≤ (s.span i).lo
  sub : (l₁ ++ l₂).Sublist l
  covers : ∀ k (y : Uintmem), s.Covers l k y ∨ (range a z t).At k y.toNat ↔
    s.Covers (l₁ ++ l₂) k y ∨ (⟨lo, hi, t⟩ : Span Int).At k y.toNat
  whole : lo = 0 ∧ hi = 2 ^ 64 ↔ s.Whole l a z t

variable {s' : Map} {f' : List Nat} {m lo hi : Nat}

theorem Filled.returned (h : Filled s l a z t s' l₁ m l₂ f' lo hi) (hs : s.Sorted l f)
    (hz : 0 < z.toNat) (hno : ¬ s.Meets l a z) (hroom : s.Joins l a z t ∨ s.Room) :
    s.Returned l a z t 0 s' ↔ ¬ s.Whole l a z t := by
  have hlow := h.low
  have hhigh := h.high
  have htop := h.top
  rw [← h.whole]
  constructor
  · -- the entry would be empty, and its first address be lost
    rintro hr ⟨h0, ht⟩
    have hsize := h.size
    rw [h0, ht, Nat.sub_zero, Nat.mod_self] at hsize
    have hmap := (hr.added rfl t a).mpr (.inr ⟨rfl, Nat.le.refl, Nat.lt_add_of_pos_right hz⟩)
    obtain ⟨i, hi, -, hlo, hhi⟩ := (mapped_iff h.linked.list).mp hmap
    rcases List.mem_append.mp hi with hi | hi
    · rw [h.same i (List.mem_append_left _ hi)] at hhi
      have := h.before i hi
      omega
    rcases List.mem_cons.mp hi with rfl | hi
    · have haddr := h.addr
      simp only [span] at hhi
      omega
    · rw [h.same i (List.mem_append_right _ hi)] at hlo
      have := h.behind i hi
      omega
  · intro hw
    have hsize : (s'.size m).toNat = hi - lo := by
      rw [h.size]
      exact Nat.mod_eq_of_lt (by omega)
    have hspan : s'.span m = ⟨lo, hi, t⟩ := by
      simp only [span, h.addr, hsize, h.type]
      rw [Nat.add_sub_cancel' (by omega)]
    have hmem : ∀ i ∈ l₁ ++ m :: l₂, i = m ∨ i ∈ l₁ ++ l₂ := fun i hi =>
      List.mem_cons.mp (List.perm_middle.mem_iff.mp hi)
    refine ⟨.inl rfl, iff_of_true rfl (.inr ⟨hno, hroom⟩), fun _ k y => ?_, ⟨_, _, h.linked, ?_, ?_,
      ?_⟩, fun h => absurd rfl h⟩
    · rw [mapped_iff hs.list, mapped_iff h.linked.list, h.covers, covers_mid, hspan,
        Covers.congr h.same]
    · have hp := hs.apart.sublist h.sub
      obtain ⟨h₁, h₂, h₁₂⟩ := List.pairwise_append.mp hp
      have same₁ : ∀ i ∈ l₁, s'.span i = s.span i := fun i hi => h.same i (List.mem_append_left _ hi)
      have same₂ : ∀ i ∈ l₂, s'.span i = s.span i := fun i hi => h.same i (List.mem_append_right _ hi)
      refine List.pairwise_append.mpr ⟨?_, List.pairwise_cons.mpr ⟨fun j hj => ?_, ?_⟩,
        fun i hi j hj => ?_⟩
      · exact h₁.imp_of_mem fun hi hj hij => by rwa [same₁ _ hi, same₁ _ hj]
      · rw [hspan, same₂ j hj]
        exact h.behind j hj
      · exact h₂.imp_of_mem fun hi hj hij => by rwa [same₂ _ hi, same₂ _ hj]
      · rw [same₁ i hi]
        rcases List.mem_cons.mp hj with rfl | hj
        · rw [hspan]
          exact h.before i hi
        · rw [same₂ j hj]
          exact h₁₂ i hi j hj
    · intro i hi
      rcases hmem i hi with rfl | hi
      · rw [hspan]
        exact lt_of_le_of_lt hlow (lt_of_lt_of_le (Nat.lt_add_of_pos_right hz) hhigh)
      · rw [h.same i hi]
        exact hs.pos i (h.sub.subset hi)
    · intro i hi
      rcases hmem i hi with rfl | hi
      · rw [hspan]
        exact htop
      · rw [h.same i hi]
        exact hs.top i (h.sub.subset hi)

/-! ## All addresses -/

section Whole

variable (h : Splits.Clear s l₁ l₂ f a z)

include h

/-- The range is not joined with the entry before it. -/
theorem Splits.Clear.whole_left (hp : ∀ p ∈ l₁.getLast?, ¬ (s.type p = t ∧ (s.span p).hi = a.toNat)) :
    (a.toNat = 0 ∨ ∃ i ∈ l₁ ++ l₂, s.type i = t ∧ (s.span i).lo = 0 ∧ (s.span i).hi = a.toNat) ↔
      a.toNat = 0 := by
  refine ⟨fun hor => hor.elim id ?_, .inl⟩
  rintro ⟨i, hi, ht, hlo, hhi⟩
  rcases List.mem_append.mp hi with him | him
  · obtain ⟨q, hq, hm, rfl | hor⟩ := h.exists_last him
    · exact absurd ⟨ht, hhi⟩ (hp i hq)
    · have hb := h.left q hm
      have hpos := h.sorted.pos q (List.mem_append_left _ hm)
      omega
  · have := h.above i him
    omega

/-- The range is joined with the entry `p` before it. -/
theorem Splits.Clear.whole_prev {p : Nat} (hp : p ∈ l₁.getLast?) (ht : s.type p = t)
    (he : (s.span p).hi = a.toNat) :
    (a.toNat = 0 ∨ ∃ i ∈ l₁ ++ l₂, s.type i = t ∧ (s.span i).lo = 0 ∧ (s.span i).hi = a.toNat) ↔
      (s.span p).lo = 0 := by
  have hpm := List.mem_append_left l₂ (List.mem_of_getLast? hp)
  have hpos := h.sorted.pos p hpm
  refine ⟨fun hor => hor.elim (fun h0 => by omega) ?_, fun h0 => .inr ⟨p, hpm, ht, h0, he⟩⟩
  rintro ⟨i, hi, -, hlo, hhi⟩
  rcases List.mem_append.mp hi with him | him
  · rcases h.last hp him with rfl | hor
    · exact hlo
    · omega
  · have := h.above i him
    omega

theorem Splits.Clear.whole_right
    (hn : ∀ n ∈ l₂.head?, ¬ (s.type n = t ∧ (s.span n).lo = a.toNat + z.toNat)) :
    (a.toNat + z.toNat = 2 ^ 64 ∨ ∃ i ∈ l₁ ++ l₂, s.type i = t ∧
      (s.span i).lo = a.toNat + z.toNat ∧ (s.span i).hi = 2 ^ 64) ↔ a.toNat + z.toNat = 2 ^ 64 := by
  refine ⟨fun hor => hor.elim id ?_, .inl⟩
  rintro ⟨i, hi, ht, hlo, hhi⟩
  rcases List.mem_append.mp hi with him | him
  · have hb := h.below i him
    have hz := h.pos
    omega
  · obtain ⟨q, hq, hm, rfl | hor⟩ := h.exists_first him
    · exact absurd ⟨ht, hlo⟩ (hn i hq)
    · have hb := h.right q hm
      have hpos := h.sorted.pos q (List.mem_append_right _ hm)
      omega

theorem Splits.Clear.whole_next (hn : n ∈ l₂.head?) (ht : s.type n = t)
    (he : (s.span n).lo = a.toNat + z.toNat) :
    (a.toNat + z.toNat = 2 ^ 64 ∨ ∃ i ∈ l₁ ++ l₂, s.type i = t ∧
      (s.span i).lo = a.toNat + z.toNat ∧ (s.span i).hi = 2 ^ 64) ↔ (s.span n).hi = 2 ^ 64 := by
  have hnm := List.mem_append_right l₁ (List.mem_of_head? hn)
  have hpos := h.sorted.pos n hnm
  have htop := h.sorted.top n hnm
  refine ⟨fun hor => hor.elim (fun h0 => by omega) ?_, fun h0 => .inr ⟨n, hnm, ht, he, h0⟩⟩
  rintro ⟨i, hi, -, hlo, hhi⟩
  rcases List.mem_append.mp hi with him | him
  · have hb := h.below i him
    have hz := h.pos
    omega
  · rcases h.first hn him with rfl | hor
    · exact hhi
    · omega

end Whole

/-! ## The four cases -/

theorem at_iff {sp : Span Int} {k : Int} {x : Nat} : sp.At k x ↔ sp.kind = k ∧ sp.lo ≤ x ∧ x < sp.hi :=
  Iff.rfl

theorem span_at {k : Int} {y : Uintmem} (ht : s.type i = t) :
    (s.span i).At k y.toNat ↔ t = k ∧ (s.span i).lo ≤ y.toNat ∧ y.toNat < (s.span i).hi := by
  rw [at_iff, ← ht]
  rfl

/-- The entries but `m`, when that one changes. -/
theorem Sorted.others (h : s.Sorted (l₁ ++ i :: l₂) f) : ∀ j ∈ l₁ ++ l₂, j ≠ i := by
  have hn := (List.nodup_append.mp h.nodup).1
  intro j hj
  exact ne_of_mem_of_not_mem hj (List.nodup_cons.mp (List.perm_middle.nodup hn)).1

theorem Sorted.around (h : s.Sorted (l₁ ++ i :: l₂) f) :
    (∀ j ∈ l₁, (s.span j).hi ≤ (s.span i).lo) ∧ ∀ j ∈ l₂, (s.span i).hi ≤ (s.span j).lo := by
  obtain ⟨-, h₂, h₁⟩ := List.pairwise_append.mp h.apart
  exact ⟨fun j hj => h₁ j hj i List.mem_cons_self, (List.pairwise_cons.mp h₂).1⟩

/-- The range fills the gap between two entries of its type. -/
theorem Splits.Clear.fill_both {p : Nat} (h : Splits.Clear s (l₁ ++ [p]) (n :: l₂) f a z)
    (hpt : s.type p = t) (hpe : (s.span p).hi = a.toNat) (hnt : s.type n = t)
    (hne : (s.span n).lo = a.toNat + z.toNat) :
    Filled s (l₁ ++ [p] ++ n :: l₂) a z t
      ({ s with
        size := update s.size p (s.size p + z + s.size n)
        next := update s.next p (s.next n) }.toss n)
      l₁ p l₂ (n :: f) (s.span p).lo (s.span n).hi := by
  have hs := h.sorted
  rw [List.append_assoc] at hs ⊢
  have hl := hs.toLinked.unlink
  have hlist : l₁ ++ p :: n :: l₂ = (l₁ ++ [p]) ++ n :: l₂ := by simp
  have hmem : ∀ i ∈ l₁ ++ l₂, i ≠ p := fun i hi => hs.others i (by
    rcases List.mem_append.mp hi with hi | hi <;> simp [hi])
  have hpos := hs.pos p (by simp)
  have hnpos := hs.pos n (by simp)
  refine ⟨⟨hl.list, hl.free, hl.nodup, hl.lt, hl.index⟩, fun i hi => ?_, rfl, ?_, hpt, ?_, ?_,
    hs.top n (by simp), hs.around.1, fun i hi => ?_, ?_, fun k y => ?_, ?_⟩
  · simp only [span, toss, update_of_ne (hmem i hi)]
  · simp only [toss, update_self, BitVec.toNat_add]
    simp only [span] at hpe hne ⊢
    omega
  · omega
  · omega
  · exact ((hlist ▸ hs : s.Sorted ((l₁ ++ [p]) ++ n :: l₂) f)).around.2 i hi
  · exact (List.Sublist.refl l₁).append ((List.Sublist.refl l₂).cons n |>.cons p)
  · simp only [List.singleton_append, covers_append, covers_cons, span_at hpt, span_at hnt, at_iff,
      range]
    constructor
    · rintro ((h | ⟨hk, _, _⟩ | ⟨hk, _, _⟩ | h) | ⟨hk, _, _⟩)
      · exact .inl (.inl h)
      · exact .inr ⟨hk, by omega, by omega⟩
      · exact .inr ⟨hk, by omega, by omega⟩
      · exact .inl (.inr h)
      · exact .inr ⟨hk, by omega, by omega⟩
    · rintro ((h | h) | ⟨hk, hlo, hhi⟩)
      · exact .inl (.inl h)
      · exact .inl (.inr (.inr (.inr h)))
      · rcases Nat.lt_or_ge y.toNat a.toNat with hy | hy
        · exact .inl (.inr (.inl ⟨hk, hlo, by omega⟩))
        rcases Nat.lt_or_ge y.toNat (a.toNat + z.toNat) with hy' | hy'
        · exact .inr ⟨hk, hy, hy'⟩
        · exact .inl (.inr (.inr (.inl ⟨hk, by omega, hhi⟩)))
  · have hw := and_congr (h.whole_prev (by simp) hpt hpe) (h.whole_next rfl hnt hne)
    rw [List.append_assoc] at hw
    exact hw.symm

/-- The range joins the entry before it. -/
theorem Splits.Clear.fill_prev {p : Nat} (h : Splits.Clear s (l₁ ++ [p]) l₂ f a z)
    (hpt : s.type p = t) (hpe : (s.span p).hi = a.toNat)
    (hn : ∀ n ∈ l₂.head?, ¬ (s.type n = t ∧ (s.span n).lo = a.toNat + z.toNat)) :
    Filled s (l₁ ++ [p] ++ l₂) a z t { s with size := update s.size p (s.size p + z) }
      l₁ p l₂ f (s.span p).lo (a.toNat + z.toNat) := by
  have hs := h.sorted
  rw [List.append_assoc] at hs ⊢
  have hpos := hs.pos p (by simp)
  refine ⟨⟨hs.list, hs.free, hs.nodup, hs.lt, hs.index⟩, fun i hi => ?_, rfl, ?_, hpt, ?_,
    Nat.le.refl, h.top, hs.around.1, h.right, ?_, fun k y => ?_, ?_⟩
  · simp only [span, update_of_ne (hs.others i hi)]
  · simp only [update_self, BitVec.toNat_add]
    simp only [span] at hpe ⊢
    omega
  · omega
  · exact (List.Sublist.refl l₁).append ((List.Sublist.refl l₂).cons p)
  · simp only [List.singleton_append, covers_append, covers_cons, span_at hpt, at_iff, range]
    constructor
    · rintro ((h | ⟨hk, _, _⟩ | h) | ⟨hk, _, _⟩)
      · exact .inl (.inl h)
      · exact .inr ⟨hk, by omega, by omega⟩
      · exact .inl (.inr h)
      · exact .inr ⟨hk, by omega, by omega⟩
    · rintro ((h | h) | ⟨hk, hlo, hhi⟩)
      · exact .inl (.inl h)
      · exact .inl (.inr (.inr h))
      · rcases Nat.lt_or_ge y.toNat a.toNat with hy | hy
        · exact .inl (.inr (.inl ⟨hk, hlo, by omega⟩))
        · exact .inr ⟨hk, hy, hhi⟩
  · have hw := and_congr (h.whole_prev (by simp) hpt hpe) (h.whole_right hn)
    rw [List.append_assoc] at hw
    exact hw.symm

/-- The range joins the entry behind it. -/
theorem Splits.Clear.fill_next (h : Splits.Clear s l₁ (n :: l₂) f a z)
    (hp : ∀ p ∈ l₁.getLast?, ¬ (s.type p = t ∧ (s.span p).hi = a.toNat)) (hnt : s.type n = t)
    (hne : (s.span n).lo = a.toNat + z.toNat) :
    Filled s (l₁ ++ n :: l₂) a z t { s with
      addr := update s.addr n (s.addr n - z)
      size := update s.size n (s.size n + z) } l₁ n l₂ f a.toNat (s.span n).hi := by
  have hs := h.sorted
  have hpos := hs.pos n (by simp)
  refine ⟨⟨hs.list, hs.free, hs.nodup, hs.lt, hs.index⟩, fun i hi => ?_, ?_, ?_, hnt, Nat.le.refl, ?_,
    hs.top n (by simp), h.left, hs.around.2, ?_, fun k y => ?_, ?_⟩
  · simp only [span, update_of_ne (hs.others i hi)]
  · simp only [update_self, BitVec.toNat_sub]
    simp only [span] at hne
    omega
  · simp only [update_self, BitVec.toNat_add]
    simp only [span] at hne ⊢
    omega
  · omega
  · exact (List.Sublist.refl l₁).append ((List.Sublist.refl l₂).cons n)
  · simp only [covers_append, covers_cons, span_at hnt, at_iff, range]
    constructor
    · rintro ((h | ⟨hk, _, _⟩ | h) | ⟨hk, _, _⟩)
      · exact .inl (.inl h)
      · exact .inr ⟨hk, by omega, by omega⟩
      · exact .inl (.inr h)
      · exact .inr ⟨hk, by omega, by omega⟩
    · rintro ((h | h) | ⟨hk, hlo, hhi⟩)
      · exact .inl (.inl h)
      · exact .inl (.inr (.inr h))
      · rcases Nat.lt_or_ge y.toNat (a.toNat + z.toNat) with hy | hy
        · exact .inr ⟨hk, hlo, hy⟩
        · exact .inl (.inr (.inl ⟨hk, by omega, hhi⟩))
  · exact (and_congr (h.whole_left hp) (h.whole_next rfl hnt hne)).symm

/-- The range becomes an entry of its own. -/
theorem Splits.Clear.fill_new {p : Nat} {m : Map} (h : Splits.Clear s l₁ l₂ f a z)
    (hp : ∀ p ∈ l₁.getLast?, ¬ (s.type p = t ∧ (s.span p).hi = a.toNat))
    (hn : ∀ n ∈ l₂.head?, ¬ (s.type n = t ∧ (s.span n).lo = a.toNat + z.toNat))
    (hm : m.Spare (l₁ ++ l₂) f' p) (hspan : ∀ i, i ≠ p → m.span i = s.span i)
    (ha : m.addr p = a) (hz : m.size p = z) (ht : m.type p = t) :
    Filled s (l₁ ++ l₂) a z t (m.linkin l₁.getLast? p l₂.head?) l₁ p l₂ f' a.toNat
      (a.toNat + z.toNat) := by
  have hl := linkin_span m l₁.getLast? p l₂.head?
  have hsp : (m.linkin l₁.getLast? p l₂.head?).span p = range a z t := by
    rw [hl]
    simp only [span, range, ha, hz, ht]
  have haddr : ((m.linkin l₁.getLast? p l₂.head?).addr p).toNat = a.toNat := congrArg Span.lo hsp
  have hhi := congrArg Span.hi hsp
  refine ⟨hm.link, fun i hi => ?_, haddr, ?_, congrArg Span.kind hsp, Nat.le.refl, Nat.le.refl, h.top,
    h.left, h.right, List.Sublist.refl _, fun k y => ?_, ?_⟩
  · have hip : i ≠ p := by
      rintro rfl
      exact (List.nodup_cons.mp hm.nodup).1 (List.mem_append_left _ hi)
    rw [hl, hspan i hip]
  · have hlt := z.isLt
    simp only [span, range] at hhi
    rw [Nat.add_sub_cancel_left, Nat.mod_eq_of_lt hlt]
    omega
  · rfl
  · exact (and_congr (h.whole_left hp) (h.whole_right hn)).symm

/-! ## The call -/

theorem room_of_asmnew {p : Nat} (h : s.asmnew a z t = (some p, s')) : s.Room := by
  by_contra hno
  obtain ⟨hfree, hidx⟩ := not_or.mp hno
  rw [asmnew, not_not.mp hfree] at h
  simp only [if_pos (Nat.not_lt.mp hidx)] at h
  cases h

theorem Splits.ne_zero (h : Splits s l₁ l₂ f a z) : z ≠ 0 := by
  rintro rfl
  exact absurd h.pos (by decide)

/-- The range is refused. -/
theorem Splits.refused (h : Splits s l₁ l₂ f a z)
    (hno : ¬ (¬ s.Meets (l₁ ++ l₂) a z ∧ (s.Joins (l₁ ++ l₂) a z t ∨ s.Room))) :
    s.Returned (l₁ ++ l₂) a z t (-1) s :=
  ⟨.inr rfl, iff_of_false (by decide) fun hor => hor.elim h.ne_zero hno, fun h => absurd h (by decide),
    ⟨_, _, h.sorted⟩, fun _ => rfl⟩

/-- A range that meets an entry must not be taken. -/
theorem Splits.not_returned (h : Splits s l₁ l₂ f a z) (hm : s.Meets (l₁ ++ l₂) a z) {s' : Map} :
    ¬ s.Returned (l₁ ++ l₂) a z t 0 s' :=
  fun hr => (hr.accepted.mp rfl).elim h.ne_zero fun hno => hno.1 hm

theorem Splits.meets_of_seen (h : Splits s l₁ l₂ f a z) (hs : s.Seen (l₁ ++ l₂) a z) :
    s.Meets (l₁ ++ l₂) a z := by
  have hz := h.pos
  obtain ⟨i, hi, ⟨hlo, hhi, -⟩ | ⟨hlo, hhi, -⟩⟩ := hs
  · exact ⟨i, hi, by omega, hhi⟩
  · have := h.sorted.pos i hi
    exact ⟨i, hi, hhi, by omega⟩

theorem Splits.meets_of_hidden (h : Splits s l₁ l₂ f a z) (hh : s.Hidden (l₁ ++ l₂) a z) :
    s.Meets (l₁ ++ l₂) a z := by
  have hz := h.pos
  have ha := a.isLt
  obtain ⟨i, hi, ⟨hlo, hhi⟩ | ⟨hlo, hhi⟩⟩ := hh
  · exact ⟨i, hi, by omega, by omega⟩
  · have hpos := h.sorted.pos i hi
    have htop := h.sorted.top i hi
    exact ⟨i, hi, by omega, by omega⟩

/-- Whatever wraps around, the code joins the range with the entry before it only if that ends where
the range begins. -/
theorem Splits.continues_iff (h : Splits s l₁ l₂ f a z) :
    s.Continues (l₁ ++ l₂) a t ↔
      ∃ p, l₁.getLast?.filter (fun p => s.type p == t && s.addr p + s.size p == a) = some p := by
  constructor
  · rintro ⟨i, hi, ht, he, hno⟩
    have hpos := h.sorted.pos i hi
    rcases List.mem_append.mp hi with him | him
    · obtain ⟨q, hq, hm, rfl | hor⟩ := h.exists_last him
      · refine ⟨i, Option.filter_eq_some_iff.mpr ⟨hq, ?_⟩⟩
        have hsum := end_toNat s i (h.sorted.top i hi)
        have ha := a.isLt
        rw [if_neg (by omega), he] at hsum
        simp only [Bool.and_eq_true, beq_iff_eq]
        exact ⟨ht, BitVec.toNat_inj.mp hsum⟩
      · have hb := h.below q hm
        exact absurd (by omega) (hno q (List.mem_append_left _ hm))
    · have := h.above i him
      omega
  · rintro ⟨p, hp⟩
    obtain ⟨hq, hb⟩ := Option.filter_eq_some_iff.mp hp
    obtain ⟨ht, he⟩ : s.type p = t ∧ s.addr p + s.size p = a := by simpa using hb
    have hpm := List.mem_of_getLast? hq
    have hm := List.mem_append_left l₂ hpm
    have hpos := h.sorted.pos p hm
    have hlo := h.below p hpm
    have he := congrArg BitVec.toNat he
    rw [end_toNat s p (h.sorted.top p hm)] at he
    have hsz := (s.size p).isLt
    have hhi : (s.span p).hi = a.toNat := by
      split at he
      · next htop =>
        simp only [span] at htop hlo
        omega
      · exact he
    refine ⟨p, hm, ht, hhi, fun j hj hj0 => ?_⟩
    rcases List.mem_append.mp hj with hj | hj
    · have hjpos := h.sorted.pos j (List.mem_append_left _ hj)
      rcases h.last hq hj with rfl | hor <;> omega
    · have := h.above j hj
      omega

/-- An overlap that is not seen: the range is taken if there is an entry for it. -/
theorem Splits.put_hidden (h : Splits s l₁ l₂ f a z) (hs : ¬ s.Seen (l₁ ++ l₂) a z)
    (hh : s.Hidden (l₁ ++ l₂) a z) :
    s.Returned (l₁ ++ l₂) a z t (s.put a z t l₁.getLast? l₂.head?).1
      (s.put a z t l₁.getLast? l₂.head?).2 ↔ ¬ s.Continues (l₁ ++ l₂) a t ∧ ¬ s.Room := by
  have hmeets := h.meets_of_hidden hh
  have hN : l₂.head?.filter (fun n => s.type n == t && a + z == s.addr n) = none := by
    rw [Option.filter_eq_none_iff]
    intro n hn
    have hnm := List.mem_of_head? hn
    have hlo := h.above n hnm
    have hlt := (s.addr n).isLt
    have hE : a.toNat + z.toNat = 2 ^ 64 := by
      obtain ⟨i, hi, ⟨hlo, hhi⟩ | ⟨-, hE⟩⟩ := hh
      · rcases List.mem_append.mp hi with him | him
        · have := (List.pairwise_append.mp h.sorted.apart).2.2 i him n hnm
          simp only [span] at this hhi
          omega
        · have := h.above i him
          omega
      · exact hE
    have hsum := sum_toNat h.top
    rw [if_pos hE] at hsum
    simp only [Bool.and_eq_true, beq_iff_eq, not_and]
    intro _ he
    rw [he] at hsum
    simp only [span] at hlo
    omega
  have hoverlaps : ¬ s.overlaps a z l₁.getLast? l₂.head? = true := fun ho =>
    hs (h.overlaps_iff.mp ho)
  rw [put, if_neg hoverlaps, hN]
  cases hP : l₁.getLast?.filter (fun p => s.type p == t && s.addr p + s.size p == a) with
  | some p => exact iff_of_false (h.not_returned hmeets) fun hc => hc.1 (h.continues_iff.mpr ⟨p, hP⟩)
  | none =>
    have hc : ¬ s.Continues (l₁ ++ l₂) a t := by
      rw [h.continues_iff, hP]
      rintro ⟨p, hp⟩
      cases hp
    rcases h.sorted.asmnew a z t with ⟨hnew, hroom⟩ | ⟨p, s', f', hnew, -⟩
    · simp only [hnew]
      exact iff_of_true (h.refused fun hno => hno.1 hmeets) ⟨hc, hroom⟩
    · simp only [hnew]
      exact iff_of_false (h.not_returned hmeets) fun hno => hno.2 (room_of_asmnew hnew)

/-- No entry touches the range. -/
theorem Splits.Clear.not_joins (h : Splits.Clear s l₁ l₂ f a z)
    (hp : ∀ p ∈ l₁.getLast?, ¬ (s.type p = t ∧ (s.span p).hi = a.toNat))
    (hn : ∀ n ∈ l₂.head?, ¬ (s.type n = t ∧ (s.span n).lo = a.toNat + z.toNat)) :
    ¬ s.Joins (l₁ ++ l₂) a z t := by
  have hz := h.pos
  rintro ⟨i, hi, ht, he⟩
  have hpos := h.sorted.pos i hi
  rcases List.mem_append.mp hi with him | him
  · have hlo := h.below i him
    have he : (s.span i).hi = a.toNat := he.resolve_right fun he => by omega
    obtain ⟨q, hq, hm, rfl | hor⟩ := h.exists_last him
    · exact hp i hq ⟨ht, he⟩
    · have hb := h.left q hm
      have hqpos := h.sorted.pos q (List.mem_append_left _ hm)
      omega
  · have hlo := h.above i him
    have he : (s.span i).lo = a.toNat + z.toNat := he.resolve_left fun he => by omega
    obtain ⟨q, hq, hm, rfl | hor⟩ := h.exists_first him
    · exact hn i hq ⟨ht, he⟩
    · have hb := h.right q hm
      have hqpos := h.sorted.pos q (List.mem_append_right _ hm)
      omega

/-- No entry meets the range. -/
theorem Splits.Clear.put_clear (h : Splits.Clear s l₁ l₂ f a z) (hs : ¬ s.Seen (l₁ ++ l₂) a z) :
    s.Returned (l₁ ++ l₂) a z t (s.put a z t l₁.getLast? l₂.head?).1
      (s.put a z t l₁.getLast? l₂.head?).2 ↔ ¬ s.Whole (l₁ ++ l₂) a z t := by
  have hno := h.not_meets
  have hoverlaps : ¬ s.overlaps a z l₁.getLast? l₂.head? = true := fun ho =>
    hs (h.overlaps_iff.mp ho)
  rw [put, if_neg hoverlaps]
  -- when the filters find nothing, no neighbour is joined
  have hprev : l₁.getLast?.filter (fun p => s.type p == t && s.addr p + s.size p == a) = none →
      ∀ p ∈ l₁.getLast?, ¬ (s.type p = t ∧ (s.span p).hi = a.toNat) := fun hP p hp he =>
    Option.filter_eq_none_iff.mp hP p hp ((h.prev_iff hp).mpr he)
  have hnext : l₂.head?.filter (fun n => s.type n == t && a + z == s.addr n) = none →
      ∀ n ∈ l₂.head?, ¬ (s.type n = t ∧ (s.span n).lo = a.toNat + z.toNat) := fun hN n hn he =>
    Option.filter_eq_none_iff.mp hN n hn ((h.next_iff hn).mpr he)
  cases hP : l₁.getLast?.filter (fun p => s.type p == t && s.addr p + s.size p == a) with
  | some p =>
    obtain ⟨hlast, hb⟩ := Option.filter_eq_some_iff.mp hP
    obtain ⟨hpt, hpe⟩ := (h.prev_iff hlast).mp hb
    have hjoins : s.Joins (l₁ ++ l₂) a z t :=
      ⟨p, List.mem_append_left _ (List.mem_of_getLast? hlast), hpt, .inl hpe⟩
    obtain ⟨l₁, rfl⟩ : ∃ l, l₁ = l ++ [p] := ⟨_, (List.dropLast_append_getLast? p hlast).symm⟩
    cases hN : l₂.head?.filter (fun n => s.type n == t && a + z == s.addr n) with
    | some n =>
      obtain ⟨hhead, hb⟩ := Option.filter_eq_some_iff.mp hN
      obtain ⟨hnt, hne⟩ := (h.next_iff hhead).mp hb
      obtain ⟨l₂, rfl⟩ : ∃ l, l₂ = n :: l := ⟨_, (List.cons_head?_tail hhead).symm⟩
      exact (h.fill_both hpt hpe hnt hne).returned h.sorted h.pos hno (.inl hjoins)
    | none =>
      exact (h.fill_prev hpt hpe (hnext hN)).returned h.sorted h.pos hno (.inl hjoins)
  | none =>
    cases hN : l₂.head?.filter (fun n => s.type n == t && a + z == s.addr n) with
    | some n =>
      obtain ⟨hhead, hb⟩ := Option.filter_eq_some_iff.mp hN
      obtain ⟨hnt, hne⟩ := (h.next_iff hhead).mp hb
      have hjoins : s.Joins (l₁ ++ l₂) a z t :=
        ⟨n, List.mem_append_right _ (List.mem_of_head? hhead), hnt, .inr hne⟩
      obtain ⟨l₂, rfl⟩ : ∃ l, l₂ = n :: l := ⟨_, (List.cons_head?_tail hhead).symm⟩
      exact (h.fill_next (hprev hP) hnt hne).returned h.sorted h.pos hno (.inl hjoins)
    | none =>
      have hj := h.not_joins (hprev hP) (hnext hN)
      rcases h.sorted.asmnew a z t with ⟨hnew, hroom⟩ | ⟨p, s', f', hnew, hm, hspan, ha, hz, ht⟩
      · simp only [hnew]
        refine iff_of_true (h.refused fun hr => hr.2.elim hj hroom) fun hw => ?_
        -- the range alone is not all addresses
        have h0 := (h.whole_left (hprev hP)).mp hw.1
        have hE := (h.whole_right (hnext hN)).mp hw.2
        have hlt := z.isLt
        omega
      · simp only [hnew]
        exact (h.fill_new (hprev hP) (hnext hN) hm hspan ha hz ht).returned h.sorted h.pos hno
          (.inr (room_of_asmnew hnew))

theorem Sorted.length_le (h : s.Sorted l f) : l.length ≤ nelem := by
  have hs : l ++ f ⊆ List.range s.asmindex := fun i hi => List.mem_range.mpr (h.lt i hi)
  have hle := (h.nodup.subperm hs).length_le
  rw [List.length_range, List.length_append] at hle
  exact (Nat.le_add_right _ _).trans (hle.trans h.index)

/-- `asmfree` returns 0 just when no entry meets the range and an entry is there if one is needed,
and then the map has the range as well; otherwise it is as before: just when no sum that matters is
2⁶⁴. -/
theorem asmfree_exact (s : Map) (l f : List Nat) (a z : Uintmem) (t : Int) (h : s.Sorted l f)
    (htop : a.toNat + z.toNat ≤ 2 ^ 64) :
    (∃ r s', s.asmfree a z t = some (r, s') ∧ s.Returned l a z t r s') ↔ s.Straight l a z t := by
  by_cases hz : z = 0
  · refine iff_of_true ⟨0, s, if_pos hz, .inl rfl, iff_of_true rfl (.inl hz), fun _ k y => ?_,
      ⟨l, f, h⟩, fun _ => rfl⟩ (.inl hz)
    refine (or_iff_left ?_).symm
    rintro ⟨-, hlo, hhi⟩
    rw [hz] at hhi
    exact Nat.not_lt.mpr hlo hhi
  obtain ⟨l₁, l₂, rfl, hw, hb, ha⟩ := walk_spec s a [] h.list h.length_le
  have hpos : 0 < z.toNat := Nat.pos_of_ne_zero fun h0 => hz (BitVec.eq_of_toNat_eq h0)
  -- the entries behind the first one that is above are above too
  have hsplit : Splits s l₁ l₂ f a z := by
    refine ⟨h, hb, fun i hi => ?_, hpos, htop⟩
    cases l₂ with
    | nil => cases hi
    | cons q l₂ =>
      have hq : a.toNat < (s.span q).lo := ha q rfl
      rcases List.mem_cons.mp hi with rfl | hi
      · exact hq
      · have hlt := h.pos q (by simp)
        have hle := h.around.2 i hi
        omega
  have hcall : (∃ r s', s.asmfree a z t = some (r, s') ∧ s.Returned (l₁ ++ l₂) a z t r s') ↔
      s.Returned (l₁ ++ l₂) a z t (s.put a z t l₁.getLast? l₂.head?).1
        (s.put a z t l₁.getLast? l₂.head?).2 := by
    rw [asmfree_eq hz hw]
    refine ⟨fun ⟨r, s', he, hr⟩ => ?_, fun hr => ⟨_, _, rfl, hr⟩⟩
    have he : s.put a z t l₁.getLast? l₂.head? = (r, s') := Option.some.inj he
    rw [he]
    exact hr
  rw [hcall]
  unfold Straight
  rw [or_iff_right hz]
  by_cases hs : s.Seen (l₁ ++ l₂) a z
  · rw [put, if_pos (hsplit.overlaps_iff.mpr hs)]
    exact iff_of_true (hsplit.refused fun hno => hno.1 (hsplit.meets_of_seen hs)) (.inl hs)
  rw [or_iff_right hs]
  by_cases hh : s.Hidden (l₁ ++ l₂) a z
  · rw [hsplit.put_hidden hs hh]
    exact ⟨fun hc => .inr ⟨hh, hc⟩, fun hor => hor.elim (fun hn => absurd hh hn.1) And.right⟩
  · rw [(hsplit.clear hs hh).put_clear hs]
    exact ⟨fun hw => .inl ⟨hh, hw⟩, fun hor => hor.elim And.right fun hn => absurd hn.1 hh⟩

/-- An entry of one page, with an unused entry behind it. -/
private def page : Map where
  addr i := if i = 0 then 0x2000 else 0
  size i := if i = 0 then 0x1000 else 0
  type _ := AsmMEMORY
  next _ := none
  asmlist := some 0
  asmfreelist := none
  asmindex := 1

theorem page_sorted : page.Sorted [0] [] where
  list := ⟨rfl, rfl⟩
  free := rfl
  nodup := List.nodup_singleton 0
  lt i hi := by
    rw [List.mem_singleton.mp hi]
    exact Nat.one_pos
  index := by decide
  apart := List.pairwise_singleton _ _
  pos i hi := by
    rw [List.mem_singleton.mp hi]
    decide
  top i hi := by
    rw [List.mem_singleton.mp hi]
    decide

/-- The page that follows. -/
theorem asmfree_exact_page : ∃ r s', page.asmfree 0x3000 0x1000 AsmMEMORY = some (r, s') ∧
    page.Returned [0] 0x3000 0x1000 AsmMEMORY r s' := by
  refine (asmfree_exact page [0] [] 0x3000 0x1000 AsmMEMORY page_sorted (by decide)).mpr
    (.inr (.inr (.inl ⟨?_, ?_⟩)))
  · rintro ⟨i, hi, h⟩
    rw [List.mem_singleton.mp hi] at h
    exact absurd h (by decide)
  · rintro ⟨h | ⟨i, hi, -, h, -⟩, -⟩
    · exact absurd h (by decide)
    · rw [List.mem_singleton.mp hi] at h
      exact absurd h (by decide)

/-- All addresses from the page before it on: the overlap is not seen. -/
theorem asmfree_wraps : ¬ ∀ (s : Map) (l f : List Nat) (a z : Uintmem) (t : Int), s.Sorted l f →
    a.toNat + z.toNat ≤ 2 ^ 64 →
    ∃ r s', s.asmfree a z t = some (r, s') ∧ s.Returned l a z t r s' := by
  intro h
  obtain ⟨r, s', he, hr⟩ := h page [0] [] 0x1000 (-0x1000) AsmNONE page_sorted (by decide)
  have hfree : (page.asmfree 0x1000 (-0x1000) AsmNONE).map Prod.fst = some 0 := by decide
  rw [he] at hfree
  obtain rfl : r = 0 := Option.some.inj hfree
  exact (hr.accepted.mp rfl).elim (by decide) fun hno => hno.1 ⟨0, by decide, by decide, by decide⟩

end Map

end NixMark.Asm
