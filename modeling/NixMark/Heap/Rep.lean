import NixMark.Heap.Arena
import NixMark.Lib.Carve
import NixMark.Lib.Links

/-!
# What the heap represents

The heap stands for ranges of units with labels: handed out, on a quick list, or on the list of
fragments of a segment.

* `SegsOk`: the segments do not overlap, and each tail is in its segment.
* `Listed`: the lists have the ranges with their labels.
* `Rep h B`: the ranges `B` do not overlap, each is below the tail of a segment, the headers have
  their sizes, and the handed out blocks have a clean header and their end tag.
* `Rep.poke`, `Rep.settag`, `Rep.tail`, `Rep.retract`, `Rep.push`, `Rep.pop`, `Rep.newring`,
  `Rep.insert`, `Rep.merge`, `Rep.unlink`, `Rep.split`, `Rep.extend`, `Rep.addseg`: each write of the
  heap, as a change of the ranges.
-/

namespace NixMark.Heap

open Lib
open Function (update update_apply update_idem update_of_ne update_self)

/-- Where a range of units is. -/
inductive Kind
  /-- With the user, who asked for `n` bytes; `none`: with the allocator, between two lists. -/
  | out (n : Option Nat)
  /-- On the quick list for its size. -/
  | quick
  /-- On the list of segment `m`. -/
  | rover (m : Nat)
  deriving DecidableEq

/-- The range is on a list. -/
def Kind.listed : Kind → Bool
  | .out _ => false
  | _ => true

/-- The segments do not overlap, and their tails are inside. -/
structure SegsOk (h : Arena) : Prop where
  nodup : h.segs.Nodup
  base_le : ∀ m ∈ h.segs, h.base m ≤ h.tailptr m
  tail_le : ∀ m ∈ h.segs, h.tailptr m ≤ h.end_ m
  end_le : ∀ m ∈ h.segs, h.end_ m ≤ 2 ^ 59
  small : ∀ m ∈ h.segs, h.end_ m < h.base m + 2 ^ 32
  apart : ∀ m ∈ h.segs, ∀ m' ∈ h.segs, m ≠ m' → h.end_ m ≤ h.base m' ∨ h.end_ m' ≤ h.base m

/-- The quick list for `k` units has the ranges of that length, and the list of a segment has the
fragments of the segment. -/
structure Listed (next : Nat → Option Nat) (quick rover : Nat → Option Nat) (segs : List Nat)
    (B : Ranges Kind) : Prop where
  quick : ∀ k, ∃ l, Chain next (quick k) l ∧ l.Nodup ∧ ∀ p, p ∈ l ↔ B p = some (k, .quick)
  rover : ∀ m ∈ segs, ∃ l, Ring next (rover m) l ∧ ∀ p, p ∈ l ↔ ∃ s, B p = some (s, .rover m)

/-- The range is below the tail of a segment, which is `m'` for a fragment of `m'`. -/
def Home (h : Arena) (p s : Nat) (k : Kind) : Prop :=
  ∃ m ∈ h.segs, h.base m ≤ p ∧ p + s ≤ h.tailptr m ∧ ∀ m', k = .rover m' → m' = m

/-- A block of the user: its header, its end tag, and room for `n` bytes before the tag. -/
structure Live (h : Arena) (p s n : Nat) : Prop where
  next : h.next p = none
  tag : h.last (p + s - 1) = ATAG
  room : n + 1 ≤ (s - 1) * Unitsz

/-- What a range with its label is in the heap. -/
structure Sound (h : Arena) (p s : Nat) (k : Kind) : Prop where
  home : Home h p s k
  size : k ≠ .out none → h.size p = s
  live : ∀ n, k = .out (some n) → Live h p s n

/-- The heap stands for the ranges `B`. -/
structure Rep (h : Arena) (B : Ranges Kind) : Prop where
  segs : SegsOk h
  carved : Carved B
  sound : ∀ {p s k}, B p = some (s, k) → Sound h p s k
  lists : Listed h.next h.quick h.rover h.segs B

variable {h : Arena} {B : Ranges Kind} {p s m : Nat} {n : Option Nat}

/-! ## Homes -/

/-- The segment of an address is the only one. -/
theorem SegsOk.unique (hS : SegsOk h) {m m' p : Nat} (hm : m ∈ h.segs) (hm' : m' ∈ h.segs)
    (h1 : h.base m ≤ p) (h2 : p < h.end_ m) (h1' : h.base m' ≤ p) (h2' : p < h.end_ m') :
    m = m' := by
  by_contra hne
  have := hS.apart m hm m' hm' hne
  omega

/-- A range that starts in a segment is below its tail. -/
theorem Rep.home_of (hR : Rep h B) {k : Kind} (hm : m ∈ h.segs) (hp : B p = some (s, k))
    (h1 : h.base m ≤ p) (h2 : p < h.end_ m) :
    p + s ≤ h.tailptr m ∧ ∀ m', k = .rover m' → m' = m := by
  obtain ⟨m₁, hm₁, hb, ht, hk⟩ := (hR.sound hp).home
  have hpos := hR.carved.pos hp
  have hend := hR.segs.tail_le m₁ hm₁
  obtain rfl : m = m₁ := hR.segs.unique hm hm₁ h1 h2 hb (by omega)
  exact ⟨ht, hk⟩

/-- A fragment of a segment is in the segment. -/
theorem Rep.rover_home (hR : Rep h B) (hp : B p = some (s, .rover m)) :
    m ∈ h.segs ∧ h.base m ≤ p ∧ p + s ≤ h.tailptr m := by
  obtain ⟨m', hm', h1, h2, h3⟩ := (hR.sound hp).home
  obtain rfl := h3 m rfl
  exact ⟨hm', h1, h2⟩

/-- Nothing starts in the tail of a segment. -/
theorem Rep.none_above (hR : Rep h B) (hm : m ∈ h.segs) (h1 : h.tailptr m ≤ p)
    (h2 : p < h.end_ m) : B p = none := by
  cases hp : B p with
  | none => rfl
  | some r =>
    obtain ⟨s, k⟩ := r
    have hb := hR.segs.base_le m hm
    have := (hR.home_of hm hp (by omega) h2).1
    have hpos := hR.carved.pos hp
    omega

/-! ## Lists -/

theorem Listed.congr {next next' quick rover : Nat → Option Nat} {segs : List Nat}
    {B' : Ranges Kind} (hL : Listed next quick rover segs B)
    (hq : ∀ p k, B' p = some (k, .quick) ↔ B p = some (k, .quick))
    (hr : ∀ p m, (∃ s, B' p = some (s, .rover m)) ↔ ∃ s, B p = some (s, .rover m))
    (hn : ∀ p s k, B p = some (s, k) → k.listed = true → next' p = next p) :
    Listed next' quick rover segs B' := by
  constructor
  · intro k
    obtain ⟨l, hl, hd, hmem⟩ := hL.quick k
    refine ⟨l, hl.congr fun p hp => hn p k .quick ((hmem p).mp hp) rfl, hd, fun p => ?_⟩
    rw [hmem, hq]
  · intro m hm
    obtain ⟨l, hl, hmem⟩ := hL.rover m hm
    refine ⟨l, hl.congr fun p hp => ?_, fun p => ?_⟩
    · obtain ⟨s, hs⟩ := (hmem p).mp hp
      exact hn p s _ hs rfl
    · rw [hmem, hr]

/-- A range that is on no list gets a label of a range that is on no list. -/
theorem Listed.relabel {next next' quick rover : Nat → Option Nat} {segs : List Nat}
    (hL : Listed next quick rover segs B) (hp : ∀ s k, B p = some (s, k) → k.listed = false)
    {r : Option (Nat × Kind)} (hr : ∀ s k, r = some (s, k) → k.listed = false)
    (hn : ∀ q s k, B q = some (s, k) → k.listed = true → next' q = next q) :
    Listed next' quick rover segs (update B p r) := by
  apply hL.congr
  · intro q k
    by_cases hq : q = p
    · subst hq
      rw [update_self]
      exact ⟨fun e => absurd (hr _ _ e) (by decide), fun e => absurd (hp _ _ e) (by decide)⟩
    · rw [update_of_ne hq]
  · intro q m
    by_cases hq : q = p
    · subst hq
      rw [update_self]
      exact ⟨fun ⟨_, e⟩ => absurd (hr _ _ e) Bool.false_ne_true.symm,
        fun ⟨_, e⟩ => absurd (hp _ _ e) Bool.false_ne_true.symm⟩
    · rw [update_of_ne hq]
  · exact hn

/-! ## Writes that change no list -/

/-- Writes outside of the headers and the end tags that matter. -/
theorem Rep.poke (hR : Rep h B) {next : Nat → Option Nat} {size last : Nat → Nat}
    (hh : ∀ p s k, B p = some (s, k) → k ≠ .out none → next p = h.next p ∧ size p = h.size p)
    (ht : ∀ p s n, B p = some (s, .out (some n)) → last (p + s - 1) = h.last (p + s - 1)) :
    Rep { h with next := next, size := size, last := last } B where
  segs := ⟨hR.segs.nodup, hR.segs.base_le, hR.segs.tail_le, hR.segs.end_le, hR.segs.small,
    hR.segs.apart⟩
  carved := hR.carved
  sound {p s k} hp := by
    have hs := hR.sound hp
    refine ⟨hs.home, fun hk => ((hh _ _ _ hp hk).2).trans (hs.size hk), ?_⟩
    rintro n rfl
    have hl := hs.live n rfl
    have hne : Kind.out (some n) ≠ .out none := by simp
    exact ⟨((hh _ _ _ hp hne).1).trans hl.next, (ht _ _ _ hp).trans hl.tag, hl.room⟩
  lists := by
    apply hR.lists.congr (fun _ _ => Iff.rfl) (fun _ _ => Iff.rfl)
    intro p s k hp hk
    have hne : k ≠ .out none := by
      rintro rfl
      cases hk
    exact (hh p s k hp hne).1

theorem Rep.maxsz (hR : Rep h B) (f : Nat → Nat) : Rep { h with maxsz := f } B where
  segs := ⟨hR.segs.nodup, hR.segs.base_le, hR.segs.tail_le, hR.segs.end_le, hR.segs.small,
    hR.segs.apart⟩
  carved := hR.carved
  sound hp :=
    have hs := hR.sound hp
    ⟨hs.home, hs.size, fun n hn => ⟨(hs.live n hn).next, (hs.live n hn).tag, (hs.live n hn).room⟩⟩
  lists := hR.lists

theorem Rep.raisemax (hR : Rep h B) (m x : Nat) : Rep (h.raisemax m x) B := by
  unfold Arena.raisemax
  split
  · exact hR.maxsz _
  · exact hR

theorem Rep.dropmax (hR : Rep h B) (m x : Nat) : Rep (h.dropmax m x) B := by
  unfold Arena.dropmax
  split
  · exact hR.maxsz _
  · exact hR

/-- The end tag of a block that is out: the block may go to the user, or back. -/
theorem Rep.settag (hR : Rep h B) (hp : B p = some (s, .out n)) (n' : Option Nat) {x : Nat}
    (hn : ∀ k, n' = some k → h.size p = s ∧ h.next p = none ∧ x = ATAG ∧ k + 1 ≤ (s - 1) * Unitsz) :
    Rep (h.settag p s x) (update B p (some (s, .out n'))) where
  segs := ⟨hR.segs.nodup, hR.segs.base_le, hR.segs.tail_le, hR.segs.end_le, hR.segs.small,
    hR.segs.apart⟩
  carved := hR.carved.shrink hp (hR.carved.pos hp) (Nat.le_refl s)
  sound := by
    apply Ranges.of_put
    · obtain ⟨m, hm, h1, h2, -⟩ := (hR.sound hp).home
      refine ⟨⟨m, hm, h1, h2, fun m' e => by cases e⟩, ?_, ?_⟩
      · intro hk
        cases n' with
        | none => exact absurd rfl hk
        | some k => exact (hn k rfl).1
      · intro k hk
        obtain ⟨-, h1, rfl, h2⟩ := hn k (Kind.out.inj hk)
        exact ⟨h1, update_self .., h2⟩
    · intro q t j hqp hq
      have hs := hR.sound hq
      refine ⟨hs.home, hs.size, fun k hk => ?_⟩
      have hl := hs.live k hk
      have hap := hR.carved.apart hp hq (Ne.symm hqp)
      have h1 := hR.carved.pos hp
      have h2 := hR.carved.pos hq
      have hne : q + t - 1 ≠ p + s - 1 := by
        unfold Apart at hap
        omega
      exact ⟨hl.next, (update_of_ne hne _ _).trans hl.tag, hl.room⟩
  lists := by
    apply hR.lists.relabel
    · intro t k e
      rw [hp] at e
      cases e
      rfl
    · intro t k e
      cases e
      rfl
    · exact fun _ _ _ _ _ => rfl

/-! ## The tail -/

/-- The segments after a tail has moved inside of its segment. -/
theorem SegsOk.settail (hS : SegsOk h) {x : Nat} (h1 : h.base m ≤ x) (h2 : x ≤ h.end_ m) :
    SegsOk { h with tailptr := update h.tailptr m x } where
  nodup := hS.nodup
  base_le m' hm' := by
    have := hS.base_le m' hm'
    grind [update_apply]
  tail_le m' hm' := by
    have := hS.tail_le m' hm'
    grind [update_apply]
  end_le := hS.end_le
  small := hS.small
  apart := hS.apart

/-- A range that is below the new tail keeps its segment. -/
theorem Sound.settail {k : Kind} (hs : Sound h p s k) {x : Nat}
    (hx : h.base m ≤ p → p + s ≤ h.tailptr m → p + s ≤ x) :
    Sound { h with tailptr := update h.tailptr m x } p s k := by
  obtain ⟨m', hm', h1, h2, h3⟩ := hs.home
  refine ⟨⟨m', hm', h1, ?_, h3⟩, hs.size, fun n hn => ?_⟩
  · dsimp only
    by_cases hmm : m' = m
    · subst hmm
      rw [update_self]
      exact hx h1 h2
    · rw [update_of_ne hmm]
      exact h2
  · exact ⟨(hs.live n hn).next, (hs.live n hn).tag, (hs.live n hn).room⟩

/-- Units from the tail. -/
theorem Rep.tail (hR : Rep h B) (hm : m ∈ h.segs) {c : Nat} (hc : 0 < c)
    (hle : h.tailptr m + c ≤ h.end_ m) :
    Rep { h with tailptr := update h.tailptr m (h.tailptr m + c) }
      (update B (h.tailptr m) (some (c, .out none))) := by
  have hnone : B (h.tailptr m) = none := hR.none_above hm (Nat.le_refl _) (by omega)
  have hbase := hR.segs.base_le m hm
  refine ⟨hR.segs.settail (by omega) hle, ?_, ?_, ?_⟩
  · apply hR.carved.put hc
    intro q t j hq hB
    obtain ⟨m', hm', h1, h2, -⟩ := (hR.sound hB).home
    unfold Apart
    by_cases hmm : m' = m
    · subst hmm
      omega
    · have := hR.segs.apart m hm m' hm' (Ne.symm hmm)
      have := hR.segs.tail_le m' hm'
      omega
  · apply Ranges.of_put
    · refine ⟨⟨m, hm, hbase, ?_, fun m' e => by cases e⟩, fun e => absurd rfl e,
        fun k e => by cases e⟩
      dsimp only
      rw [update_self]
    · intro q t j _ hq
      apply (hR.sound hq).settail
      omega
  · apply hR.lists.relabel
    · intro t k e
      rw [hnone] at e
      cases e
    · intro t k e
      cases e
      rfl
    · exact fun _ _ _ _ _ => rfl

/-- The last block before the tail goes back to it. -/
theorem Rep.retract (hR : Rep h B) (hm : m ∈ h.segs) (hp : B p = some (s, .out n))
    (hb : h.base m ≤ p) (ht : p + s = h.tailptr m) :
    Rep { h with tailptr := update h.tailptr m p } (update B p none) := by
  have hend := hR.segs.tail_le m hm
  refine ⟨hR.segs.settail hb (by omega), hR.carved.erase, ?_, ?_⟩
  · apply Ranges.of_erase
    intro q t j hqp hq
    apply (hR.sound hq).settail
    intro h1 h2
    have hap := hR.carved.apart hp hq (Ne.symm hqp)
    have := hR.carved.pos hq
    unfold Apart at hap
    omega
  · apply hR.lists.relabel
    · intro t k e
      rw [hp] at e
      cases e
      rfl
    · intro t k e
      cases e
    · exact fun _ _ _ _ _ => rfl

/-- A block before the tail takes in units from the tail. -/
theorem Rep.extend (hR : Rep h B) (hm : m ∈ h.segs) (hp : B p = some (s, .out n))
    (hb : h.base m ≤ p) (ht : p + s = h.tailptr m) {c : Nat} (hc : s ≤ c)
    (hle : p + c ≤ h.end_ m) :
    Rep { h with tailptr := update h.tailptr m (p + c) } (update B p (some (c, .out none))) := by
  have hpos := hR.carved.pos hp
  have hend := hR.segs.tail_le m hm
  have hR' := (hR.retract hm hp hb ht).tail (m := m) (c := c) hm (by omega)
  dsimp only at hR'
  rw [update_self, update_idem, update_idem] at hR'
  exact hR' hle

end NixMark.Heap
