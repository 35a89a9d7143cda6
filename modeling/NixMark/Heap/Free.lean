import NixMark.Heap.Lists

/-!
# Free

* `outs B`: the ranges that are out, with the bytes that the user asked for.
* `giveback_spec`, `qfreeinternal_spec`: a block that is out goes to the tail, to its quick list or
  to the fragments, and no panic is reached. `free_spec`: the same for a block of the user.
-/

namespace NixMark.Heap

open Lib
open Function (update update_eq_self update_idem update_of_ne update_self)

variable {h h' : Arena} {B : Ranges Kind} {p s m : Nat} {n : Option Nat}

/-! ## The ranges that are out -/

def outOf : Option (Nat × Kind) → Option (Nat × Option Nat)
  | some (s, .out n) => some (s, n)
  | _ => none

/-- Length and bytes asked for, by address, of the ranges that are on no list. -/
def outs (B : Ranges Kind) (p : Nat) : Option (Nat × Option Nat) := outOf (B p)

theorem outs_update (B : Ranges Kind) (p : Nat) (r : Option (Nat × Kind)) :
    outs (update B p r) = update (outs B) p (outOf r) := by
  funext q
  by_cases hq : q = p
  · subst hq
    simp only [outs, update_self]
  · simp only [outs, update_of_ne hq]

theorem outs_some {r : Nat × Option Nat} : outs B p = some r ↔ B p = some (r.1, .out r.2) := by
  obtain ⟨s, n⟩ := r
  unfold outs outOf
  split
  · rename_i heq
    rw [heq]
    simp
  · rename_i hne
    refine iff_of_false (by simp) fun e => hne _ _ e

/-- Nothing is taken away from the ranges that are out. -/
theorem update_outs_none (hp : outs B p = none) : update (outs B) p none = outs B := by
  rw [← hp]
  exact update_eq_self p (outs B)

/-- What a call that frees `p` leaves alone: the bounds of the segments, and the headers of the
other ranges that are out. -/
structure Keeps (h h' : Arena) (B : Ranges Kind) (p : Nat) : Prop where
  segs : h'.segs = h.segs
  base : h'.base = h.base
  end_ : h'.end_ = h.end_
  header : ∀ {q t n}, q ≠ p → B q = some (t, .out n) → h'.size q = h.size q ∧ h'.next q = h.next q

theorem raisemax_fields (h : Arena) (m x : Nat) :
    (h.raisemax m x).segs = h.segs ∧ (h.raisemax m x).base = h.base ∧
    (h.raisemax m x).end_ = h.end_ ∧ (h.raisemax m x).size = h.size ∧
    (h.raisemax m x).next = h.next := by
  unfold Arena.raisemax
  split <;> exact ⟨rfl, rfl, rfl, rfl, rfl⟩

theorem Keeps.raisemax {x : Nat} (hk : Keeps h h' B p) : Keeps h (h'.raisemax m x) B p := by
  obtain ⟨h1, h2, h3, h4, h5⟩ := raisemax_fields h' m x
  refine ⟨h1.trans hk.segs, h2.trans hk.base, h3.trans hk.end_, fun hq hB => ?_⟩
  rw [h4, h5]
  exact hk.header hq hB

/-! ## Where a block goes -/

theorem giveback_spec (IOHDRSZ : Nat) (hR : Rep h B) (hm : m ∈ h.segs)
    (hp : B p = some (s, .out none)) (hs : h.size p = s) (hb : h.base m ≤ p)
    (he : p < h.end_ m) :
    ∃ B', Rep (h.giveback IOHDRSZ m p s) B' ∧ outs B' = update (outs B) p none ∧
      Keeps h (h.giveback IOHDRSZ m p s) B p := by
  have hside : ∀ {q t n}, q ≠ p → B q = some (t, .out n) → ∀ x : Option Nat,
      update h.next p x q = h.next q :=
    fun hq _ x => update_of_ne hq x h.next
  unfold Arena.giveback
  split
  · -- the block is the last one before the tail
    rename_i ht
    refine ⟨_, hR.retract hm hp hb ht, outs_update B p none, ?_⟩
    exact ⟨rfl, rfl, rfl, fun _ _ => ⟨rfl, rfl⟩⟩
  · split
    · refine ⟨_, hR.push hp hs, outs_update B p _, ?_⟩
      exact ⟨rfl, rfl, rfl, fun hq hB => ⟨rfl, hside hq hB _⟩⟩
    · split
      · rename_i hr
        refine ⟨_, hR.newring hm hp hs hb he hr, outs_update B p _, ?_⟩
        exact ⟨rfl, rfl, rfl, fun hq hB => ⟨rfl, hside hq hB _⟩⟩
      · rename_i prev hr
        have hprev := hR.rover hm hr
        have hne : ∀ {q t n}, B q = some (t, .out n) → q ≠ prev := by
          rintro q t n hq rfl
          rw [hprev] at hq
          cases hq
        split
        · rename_i hadj
          -- the sum is the length of a range of the segment
          have hsum : uint (h.size prev + h.size p) = h.size prev + s := by
            obtain ⟨-, hb', -⟩ := hR.rover_home hprev
            have ht := (hR.home_of hm hp hb he).1
            have := hR.segs.tail_le m hm
            have := hR.segs.small m hm
            rw [hs, uint_of_lt (by omega)]
          dsimp only
          rw [hsum]
          refine ⟨_, (hR.merge hm hp hb he hr hadj).raisemax m _, ?_, Keeps.raisemax ?_⟩
          · rw [outs_update, outs_update]
            apply Function.update_eq_iff.mpr
            refine ⟨?_, fun _ _ => rfl⟩
            have hpp : prev ≠ p := by
              rintro rfl
              exact absurd rfl (hne hp)
            rw [update_of_ne hpp]
            unfold outs
            rw [hprev]
            rfl
          · exact ⟨rfl, rfl, rfl, fun _ hB => ⟨update_of_ne (hne hB) _ _, rfl⟩⟩
        · refine ⟨_, (hR.insert hm hp hs hb he hr).raisemax m _, outs_update B p _,
            Keeps.raisemax ?_⟩
          refine ⟨rfl, rfl, rfl, fun hq hB => ⟨rfl, ?_⟩⟩
          exact (update_of_ne (hne hB) _ _).trans (hside hq hB _)

/-- A block that is out, with a clean header, is freed. -/
theorem qfreeinternal_spec (IOHDRSZ : Nat) (hR : Rep h B) (hm : m ∈ h.segs)
    (hp : B p = some (s, .out n)) (hs : h.size p = s) (hn : h.next p = none)
    (hb : h.base m ≤ p) (he : p < h.end_ m) (checktag : Bool) (hc : checktag = true → n ≠ none) :
    ∃ h', h.qfreeinternal IOHDRSZ m p checktag = .ok h' ∧
      ∃ B', Rep h' B' ∧ outs B' = update (outs B) p none ∧ Keeps h h' B p := by
  have hpos := hR.carved.pos hp
  have htag : checktag = true → h.last (p + s - 1) = ATAG := by
    intro hck
    cases n with
    | none => exact absurd rfl (hc hck)
    | some k => exact ((hR.sound hp).live k rfl).tag
  -- the end tag is overwritten, so that the block is no longer the user's
  have hR' : Rep (h.settag p s FTAG) (update B p (some (s, .out none))) :=
    hR.settag hp none fun k e => by cases e
  have hp' : update B p (some (s, Kind.out none)) p = some (s, .out none) :=
    update_self ..
  obtain ⟨B', hB', houts, hkeep⟩ := giveback_spec IOHDRSZ hR' hm hp' hs hb he
  refine ⟨_, ?_, B', hB', ?_, ?_⟩
  · unfold Arena.qfreeinternal
    dsimp only
    rw [hs, if_neg (by omega), if_neg (by rw [hn]; simp; omega)]
    rw [if_neg, if_neg]
    · rintro ⟨hck, hne⟩
      exact hne (htag hck)
    · rintro ⟨hck, heq⟩
      rw [htag hck] at heq
      cases heq
  · rw [houts, outs_update, update_idem]
  · refine ⟨hkeep.segs, hkeep.base, hkeep.end_, fun hq hB => ?_⟩
    exact hkeep.header (n := _) hq ((update_of_ne hq _ _).trans hB)

/-- The segment of a block of the user is found. -/
theorem find_seg (hR : Rep h B) {c : Nat} (hp : B p = some (s, .out (some c))) :
    ∃ m ∈ h.segs, h.segs.find? (fun m => h.base m ≤ p + 1 ∧ p + 1 < h.end_ m) = some m ∧
      h.base m ≤ p ∧ p < h.end_ m := by
  obtain ⟨m, hm, h1, h2, -⟩ := (hR.sound hp).home
  have hroom := ((hR.sound hp).live c rfl).room
  have hend := hR.segs.tail_le m hm
  have hs : 2 ≤ s := by
    simp only [Unitsz] at hroom
    omega
  have hin : h.base m ≤ p + 1 ∧ p + 1 < h.end_ m := by omega
  cases hf : h.segs.find? fun m => h.base m ≤ p + 1 ∧ p + 1 < h.end_ m with
  | none =>
    have := List.find?_eq_none.mp hf m hm
    exact absurd hin (by simpa using this)
  | some m' =>
    have hm' := List.mem_of_find?_eq_some hf
    have hin' := List.find?_some hf
    simp only [decide_eq_true_eq] at hin'
    obtain rfl := hR.segs.unique hm' hm hin'.1 hin'.2 hin.1 hin.2
    exact ⟨m', hm', rfl, h1, by omega⟩

/-- A block of the user is freed. -/
theorem free_spec (IOHDRSZ : Nat) (hR : Rep h B) {c : Nat}
    (hp : B p = some (s, .out (some c))) :
    ∃ h', h.free IOHDRSZ (some (p + 1)) = .ok h' ∧
      ∃ B', Rep h' B' ∧ outs B' = update (outs B) p none := by
  obtain ⟨m, hm, hf, hb, he⟩ := find_seg hR hp
  have hs := hR.sound hp
  obtain ⟨h', hq, B', hB', houts, -⟩ := qfreeinternal_spec IOHDRSZ hR hm hp (hs.size (by simp))
    (hs.live c rfl).next hb he true (by simp)
  refine ⟨h', ?_, B', hB', houts⟩
  unfold Arena.free
  dsimp only
  rw [hf]
  exact hq

end NixMark.Heap
