import Mathlib.Data.List.TakeWhile
import NixMark.Lib.Pieces

/-!
# A piece is laid over others

The pieces of a list are apart and in the order in which they begin. A new piece goes to its place:
the one before it is cut where the new one begins, those behind it lose their front or are taken out,
so that all are apart again. A piece that the one before it covers is left out.

* `Cuts`: where a piece begins and ends, and what is left of it.
* `place`: the list with the new piece; `uncover` is what becomes of those behind it.
* `place_spec`: the pieces are apart, and they cover what they did and the new piece.
-/

namespace NixMark.Lib
namespace Pieces

universe u

/-- The ends of a piece, and the piece without what is behind or in front of a place. -/
structure Cuts (α : Type u) where
  lo : α → Nat
  hi : α → Nat
  cut : α → Nat → α
  front : α → Nat → α

variable {α : Type u} {o : Cuts α} {P : α → Prop} {l l' : List α} {a b : α} {x : Nat}

structure Cuts.Lawful (o : Cuts α) : Prop where
  le : ∀ a, o.lo a ≤ o.hi a
  cut_lo : ∀ a x, o.lo (o.cut a x) = o.lo a
  cut_hi : ∀ {a x}, o.lo a ≤ x → o.hi (o.cut a x) = min (o.hi a) x
  cut_of_le : ∀ {a x}, o.hi a ≤ x → o.cut a x = a
  front_lo : ∀ a x, o.lo (o.front a x) = x
  front_hi : ∀ {a x}, o.lo a ≤ x → x ≤ o.hi a → o.hi (o.front a x) = o.hi a

/-- What is left of the pieces behind one that ends at `t`. -/
def uncover (o : Cuts α) (t : Nat) : List α → List α
  | [] => []
  | b :: l => if t ≤ o.lo b then b :: l else if t < o.hi b then o.front b t :: l else uncover o t l

def place (o : Cuts α) (l : List α) (a : α) : Option (List α) :=
  let before := l.takeWhile fun b => o.lo b < o.lo a
  let after := l.dropWhile fun b => o.lo b < o.lo a
  match before.getLast? with
  | none => some (a :: uncover o (o.hi a) after)
  | some p =>
    if o.lo a < o.hi p ∧ o.hi a ≤ o.hi p then none
    else some (before.dropLast ++ o.cut p (o.lo a) :: a :: uncover o (o.hi a) after)

/-- Pieces that are apart, each of them as `P` says. -/
structure Laid (o : Cuts α) (P : α → Prop) (l : List α) : Prop where
  all : ∀ b ∈ l, P b
  apart : Apart o.lo o.hi l

theorem Laid.tail (h : Laid o P (b :: l)) : Laid o P l :=
  ⟨fun c hc => h.all c (List.mem_cons_of_mem b hc), (List.pairwise_cons.mp h.apart).2⟩

theorem Laid.head_le (h : Laid o P (b :: l)) : ∀ c ∈ l, o.hi b ≤ o.lo c :=
  (List.pairwise_cons.mp h.apart).1

theorem Laid.cons (hl : Laid o P l) (hb : P b) (h : ∀ c ∈ l, o.hi b ≤ o.lo c) : Laid o P (b :: l) :=
  ⟨fun _ hc => (List.mem_cons.mp hc).elim (fun he => he ▸ hb) (hl.all _),
    List.pairwise_cons.mpr ⟨h, hl.apart⟩⟩

/-- The pieces behind `a` after those that it covers are taken out. -/
theorem uncover_spec (ho : o.Lawful) (h : Laid o P l)
    (hf : ∀ b ∈ l, o.lo b < o.hi a → o.hi a < o.hi b → P (o.front b (o.hi a))) :
    Laid o P (uncover o (o.hi a) l) ∧ (∀ b ∈ uncover o (o.hi a) l, o.hi a ≤ o.lo b) ∧
      ∀ x, o.hi a ≤ x → (Covers o.lo o.hi (uncover o (o.hi a) l) x ↔ Covers o.lo o.hi l x) := by
  induction l with
  | nil => exact ⟨h, List.forall_mem_nil _, fun _ _ => Iff.rfl⟩
  | cons b l ih =>
    have hb := ho.le b
    unfold uncover
    by_cases h₁ : o.hi a ≤ o.lo b
    · rw [if_pos h₁]
      refine ⟨h, ?_, fun _ _ => Iff.rfl⟩
      rintro c (_ | ⟨_, hc⟩)
      · exact h₁
      · exact (h₁.trans hb).trans (h.head_le c hc)
    rw [if_neg h₁]
    have h₁' := Nat.lt_of_not_le h₁
    by_cases h₂ : o.hi a < o.hi b
    · -- the front of the first one is cut off
      have hend := ho.front_hi h₁'.le h₂.le
      rw [if_pos h₂]
      refine ⟨h.tail.cons (hf b List.mem_cons_self h₁' h₂) ?_, ?_, fun x hx => ?_⟩
      · rw [hend]
        exact h.head_le
      · rintro c (_ | ⟨_, hc⟩)
        · exact (ho.front_lo b _).ge
        · exact h₂.le.trans (h.head_le c hc)
      · rw [covers_cons, covers_cons, hend, ho.front_lo]
        have : (o.hi a ≤ x ∧ x < o.hi b) ↔ (o.lo b ≤ x ∧ x < o.hi b) := by omega
        rw [this]
    · rw [if_neg h₂]
      obtain ⟨h₃, h₄, h₅⟩ := ih h.tail fun c hc => hf c (List.mem_cons_of_mem b hc)
      refine ⟨h₃, h₄, fun x hx => ?_⟩
      rw [h₅ x hx, covers_cons]
      have : ¬ (o.lo b ≤ x ∧ x < o.hi b) := by omega
      rw [or_iff_right this]

/-- The list with the new piece in its place. -/
structure Placed (o : Cuts α) (P : α → Prop) (l : List α) (a : α) (l' : List α) : Prop where
  laid : Laid o P l'
  covers : ∀ x, Covers o.lo o.hi l' x ↔ Covers o.lo o.hi l x ∨ (o.lo a ≤ x ∧ x < o.hi a)
  head : (∃ r, l' = a :: r ∧ ∀ b ∈ l, o.lo a ≤ o.lo b) ∨
    ∃ h t r, l = h :: t ∧ o.lo h < o.lo a ∧ l' = o.cut h (o.lo a) :: r

/-- The pieces in front of the place are cut where the new one begins, and what is left of those
behind it follows. -/
theorem Laid.placed {before after : List α} (ho : o.Lawful) (ha : P a)
    (h : Laid o P (before ++ after)) (hlt : ∀ b ∈ before, o.lo b < o.lo a)
    (hend : ∀ b ∈ before, o.hi b ≤ o.lo a ∨ o.hi b < o.hi a) (hle : ∀ b ∈ after, o.lo a ≤ o.lo b)
    (hc : ∀ b ∈ before, o.lo a < o.hi b → o.hi b < o.hi a → P (o.cut b (o.lo a)))
    (hf : ∀ b ∈ after, o.lo b < o.hi a → o.hi a < o.hi b → P (o.front b (o.hi a))) :
    Placed o P (before ++ after) a
      (before.map (o.cut · (o.lo a)) ++ a :: uncover o (o.hi a) after) := by
  have hbf := ho.le a
  obtain ⟨h₁, h₂, h₃⟩ := List.pairwise_append.mp h.apart
  obtain ⟨hl, hfo, hcov⟩ := uncover_spec (P := P) ho (a := a)
    (l := after) ⟨fun b hb => h.all b (List.mem_append_right _ hb), h₂⟩ hf
  have hcut : ∀ b ∈ before, o.hi (o.cut b (o.lo a)) = min (o.hi b) (o.lo a) := fun b hb =>
    ho.cut_hi (hlt b hb).le
  refine ⟨⟨?_, ?_⟩, ?_, ?_⟩
  · intro c hc'
    rcases List.mem_append.mp hc' with hc' | hc'
    · obtain ⟨b, hb, rfl⟩ := List.mem_map.mp hc'
      rcases Nat.lt_or_ge (o.lo a) (o.hi b) with hlt' | hge
      · exact hc b hb hlt' ((hend b hb).resolve_left (Nat.not_le.mpr hlt'))
      · rw [ho.cut_of_le hge]
        exact h.all b (List.mem_append_left _ hb)
    · rcases List.mem_cons.mp hc' with rfl | hc'
      · exact ha
      · exact hl.all c hc'
  · refine List.pairwise_append.mpr ⟨?_, List.pairwise_cons.mpr ⟨hfo, hl.apart⟩, ?_⟩
    · refine List.pairwise_map.mpr (h₁.imp_of_mem fun {b c} hb _ hbc => ?_)
      rw [hcut b hb, ho.cut_lo]
      exact (Nat.min_le_left _ _).trans hbc
    · intro c hc' d hd
      obtain ⟨b, hb, rfl⟩ := List.mem_map.mp hc'
      rw [hcut b hb]
      refine (Nat.min_le_right _ _).trans ?_
      rcases List.mem_cons.mp hd with rfl | hd
      · exact Nat.le_refl _
      · exact hbf.trans (hfo d hd)
  · intro x
    have hbefore : Covers o.lo o.hi (before.map (o.cut · (o.lo a))) x ↔
        Covers o.lo o.hi before x ∧ x < o.lo a := by
      constructor
      · rintro ⟨c, hc', hcx, hxc⟩
        obtain ⟨b, hb, rfl⟩ := List.mem_map.mp hc'
        rw [ho.cut_lo] at hcx
        rw [hcut b hb] at hxc
        exact ⟨⟨b, hb, hcx, hxc.trans_le (Nat.min_le_left _ _)⟩,
          hxc.trans_le (Nat.min_le_right _ _)⟩
      · rintro ⟨⟨b, hb, hbx, hxb⟩, hx⟩
        refine ⟨_, List.mem_map_of_mem hb, ?_, ?_⟩
        · rwa [ho.cut_lo]
        · rw [hcut b hb]
          exact lt_min hxb hx
    have hafter : Covers o.lo o.hi after x → o.lo a ≤ x := fun ⟨b, hb, hbx, _⟩ =>
      (hle b hb).trans hbx
    have hrest : Covers o.lo o.hi (uncover o (o.hi a) after) x → o.hi a ≤ x :=
      fun ⟨b, hb, hbx, _⟩ => (hfo b hb).trans hbx
    have hfront : Covers o.lo o.hi before x → x < o.lo a ∨ x < o.hi a := by
      rintro ⟨b, hb, -, hxb⟩
      exact (hend b hb).imp hxb.trans_le hxb.trans
    have hcx := hcov x
    rw [covers_append, covers_append, covers_cons, hbefore]
    rcases Nat.lt_or_ge x (o.hi a) with hx | hx
    · have hno : ¬ Covers o.lo o.hi (uncover o (o.hi a) after) x := fun h =>
        absurd (hrest h) (Nat.not_le.mpr hx)
      rcases Nat.lt_or_ge x (o.lo a) with hx' | hx'
      · have hno' : ¬ Covers o.lo o.hi after x := fun h => absurd (hafter h) (Nat.not_le.mpr hx')
        grind
      · grind
    · have hno : ¬ Covers o.lo o.hi before x := fun h => by
        have := hfront h
        omega
      grind
  · cases before with
    | nil => exact .inl ⟨_, rfl, hle⟩
    | cons b before => exact .inr ⟨b, _, _, rfl, hlt b List.mem_cons_self, rfl⟩

/-- The pieces from the place of the new one on. -/
theorem Laid.lo_le_dropWhile (ho : o.Lawful) (h : Laid o P l) {t : Nat} :
    ∀ b ∈ l.dropWhile (fun b => o.lo b < t), t ≤ o.lo b := by
  induction l with
  | nil => exact List.forall_mem_nil _
  | cons b l ih =>
    rw [List.dropWhile_cons]
    split_ifs with hb
    · exact ih h.tail
    · have hb' := Nat.le_of_not_lt (of_decide_eq_false (Bool.not_eq_true _ ▸ hb))
      rintro c (_ | ⟨_, hc⟩)
      · exact hb'
      · exact (hb'.trans (ho.le b)).trans (h.head_le c hc)

/-- A new piece is laid over the others, or it is left out when the one before it covers it. -/
theorem place_spec (ho : o.Lawful) (h : Laid o P l) (ha : P a)
    (hc : ∀ b ∈ l, o.lo b < o.lo a → o.lo a < o.hi b → o.hi b < o.hi a → P (o.cut b (o.lo a)))
    (hf : ∀ b ∈ l, o.lo a ≤ o.lo b → o.lo b < o.hi a → o.hi a < o.hi b → P (o.front b (o.hi a))) :
    (place o l a = none ∧ ∃ c ∈ l, o.lo c < o.lo a ∧ o.lo a < o.hi c ∧ o.hi a ≤ o.hi c) ∨
      ∃ l', place o l a = some l' ∧ Placed o P l a l' := by
  have hsplit := List.takeWhile_append_dropWhile (p := fun b => decide (o.lo b < o.lo a)) (l := l)
  have hle := h.lo_le_dropWhile ho (t := o.lo a)
  have hlt : ∀ b ∈ l.takeWhile (fun b => o.lo b < o.lo a), o.lo b < o.lo a := fun b hb => by
    simpa using List.mem_takeWhile_imp hb
  unfold place
  generalize l.takeWhile (fun b => decide (o.lo b < o.lo a)) = before at *
  generalize l.dropWhile (fun b => decide (o.lo b < o.lo a)) = after at *
  subst hsplit
  have hc' := fun b hb => hc b (List.mem_append_left after hb) (hlt b hb)
  have hf' := fun b hb => hf b (List.mem_append_right before hb) (hle b hb)
  cases hlast : before.getLast? with
  | none =>
    rw [List.getLast?_eq_none_iff] at hlast
    subst hlast
    exact .inr ⟨_, rfl, h.placed ho ha hlt (List.forall_mem_nil _) hle hc' hf'⟩
  | some p =>
    obtain ⟨pre, rfl⟩ : ∃ pre, before = pre ++ [p] :=
      ⟨_, (List.dropLast_append_getLast? p hlast).symm⟩
    have hp : p ∈ pre ++ [p] := List.mem_append_right _ (List.mem_singleton_self _)
    have hpre : ∀ b ∈ pre, o.hi b ≤ o.lo p := fun b hb =>
      (List.pairwise_append.mp (List.pairwise_append.mp h.apart).1).2.2 b hb p
        (List.mem_singleton_self _)
    simp only [hlast]
    by_cases hcov : o.lo a < o.hi p ∧ o.hi a ≤ o.hi p
    · rw [if_pos hcov]
      exact .inl ⟨rfl, p, List.mem_append_left _ hp, hlt p hp, hcov⟩
    · rw [if_neg hcov]
      have hend : ∀ b ∈ pre ++ [p], o.hi b ≤ o.lo a ∨ o.hi b < o.hi a := by
        intro b hb
        rcases List.mem_append.mp hb with hb | hb
        · exact .inl ((hpre b hb).trans (hlt p hp).le)
        · rw [List.mem_singleton.mp hb]
          omega
      have hmap : (pre ++ [p]).map (o.cut · (o.lo a)) = pre ++ [o.cut p (o.lo a)] := by
        rw [List.map_append, List.map_singleton]
        refine congrArg (· ++ [o.cut p (o.lo a)]) ((List.map_congr_left fun b hb => ?_).trans
          (List.map_id _))
        exact ho.cut_of_le ((hpre b hb).trans (hlt p hp).le)
      have hi := h.placed ho ha hlt hend hle hc' hf'
      rw [hmap, List.append_assoc pre [o.cut p (o.lo a)]] at hi
      rw [List.dropLast_concat]
      exact .inr ⟨_, rfl, hi⟩

end Pieces
end NixMark.Lib
