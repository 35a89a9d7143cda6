import NixMark.Heap.Rep

/-!
# The lists of the heap

* `Rep.push`, `Rep.pop`: a block goes on its quick list, and is taken from it.
* `Rep.newring`, `Rep.insert`, `Rep.merge`: a fragment goes on the list of its segment, or is joined
  to the fragment before it. `Rep.unlink`: a fragment is taken out.
* `Rep.split`: a block or a fragment is cut in two.
* `Rep.addseg`: a new segment.
-/

namespace NixMark.Heap

open Lib
open Function (update update_apply update_of_ne update_self)

variable {h : Arena} {B : Ranges Kind} {p s m : Nat} {n : Option Nat}

variable {next quick : Nat → Option Nat}

theorem SegsOk.setlists (hS : SegsOk h) {size : Nat → Nat} {rover : Nat → Option Nat} :
    SegsOk { h with next := next, size := size, rover := rover, quick := quick } :=
  ⟨hS.nodup, hS.base_le, hS.tail_le, hS.end_le, hS.small, hS.apart⟩

variable {k : Kind}

/-- Links and sizes of other ranges are written. -/
theorem Sound.setlists (hs : Sound h p s k) {size : Nat → Nat} {rover : Nat → Option Nat}
    (hz : k ≠ .out none → size p = h.size p)
    (hn : k.listed = false → k ≠ .out none → next p = h.next p) :
    Sound { h with next := next, size := size, rover := rover, quick := quick } p s k := by
  refine ⟨hs.home, fun hk => (hz hk).trans (hs.size hk), ?_⟩
  rintro n rfl
  have hl := hs.live n rfl
  exact ⟨(hn rfl (by simp)).trans hl.next, hl.tag, hl.room⟩

/-- A range that is out keeps off the lists. -/
theorem ne_of_listed (hp : B p = some (s, .out n)) {q t : Nat} (hq : B q = some (t, k))
    (hk : k.listed = true) : q ≠ p := by
  rintro rfl
  rw [hp] at hq
  cases hq
  cases hk

/-! ## Quick lists -/

theorem Rep.push (hR : Rep h B) (hp : B p = some (s, .out none)) (hs : h.size p = s) :
    Rep { h with next := update h.next p (h.quick s),
                 quick := update h.quick s (some p) }
      (update B p (some (s, .quick))) where
  segs := hR.segs.setlists
  carved := hR.carved.shrink hp (hR.carved.pos hp) (Nat.le_refl s)
  sound := by
    apply Ranges.of_put
    · obtain ⟨m, hm, h1, h2, -⟩ := (hR.sound hp).home
      exact ⟨⟨m, hm, h1, h2, fun m' e => by cases e⟩, fun _ => hs, fun k e => by cases e⟩
    · intro q t j hqp hq
      exact (hR.sound hq).setlists (fun _ => rfl) fun _ _ => update_of_ne hqp _ _
  lists := by
    constructor
    · intro k
      obtain ⟨l, hl, hd, hmem⟩ := hR.lists.quick k
      have hpl : p ∉ l := fun hpl => ne_of_listed hp ((hmem p).mp hpl) rfl rfl
      by_cases hk : k = s
      · subst hk
        refine ⟨p :: l, ?_, List.nodup_cons.mpr ⟨hpl, hd⟩, fun q => ?_⟩
        · dsimp only
          rw [update_self]
          exact hl.push hpl
        · grind [update_apply]
      · refine ⟨l, ?_, hd, fun q => ?_⟩
        · dsimp only
          rw [update_of_ne hk]
          exact hl.congr fun q hq => update_of_ne (ne_of_mem_of_not_mem hq hpl) _ _
        · grind [update_apply]
    · intro m hm
      obtain ⟨l, hl, hmem⟩ := hR.lists.rover m hm
      refine ⟨l, hl.congr fun q hq => ?_, fun q => ?_⟩
      · obtain ⟨t, ht⟩ := (hmem q).mp hq
        exact update_of_ne (ne_of_listed hp ht rfl) _ _
      · grind [update_apply]

/-- A block leaves its quick list; the links of that list are written. -/
theorem Rep.pop (hR : Rep h B) (hp : B p = some (s, .quick))
    (hl : ∃ l, Chain next (quick s) l ∧ l.Nodup ∧ ∀ q, q ∈ l ↔ q ≠ p ∧ B q = some (s, .quick))
    (hquick : ∀ k, k ≠ s → quick k = h.quick k)
    (hnext : ∀ q, B q ≠ some (s, .quick) → next q = h.next q) :
    Rep { h with next := next, quick := quick } (update B p (some (s, .out none))) where
  segs := hR.segs.setlists
  carved := hR.carved.shrink hp (hR.carved.pos hp) (Nat.le_refl s)
  sound := by
    apply Ranges.of_put
    · obtain ⟨m, hm, h1, h2, -⟩ := (hR.sound hp).home
      exact ⟨⟨m, hm, h1, h2, fun m' e => by cases e⟩, fun e => absurd rfl e, fun k e => by cases e⟩
    · intro q t j hqp hq
      refine (hR.sound hq).setlists (fun _ => rfl) fun hj _ => hnext q ?_
      intro e
      rw [hq] at e
      cases e
      cases hj
  lists := by
    constructor
    · intro k
      by_cases hk : k = s
      · subst hk
        obtain ⟨l, hl, hd, hmem⟩ := hl
        refine ⟨l, hl, hd, fun q => ?_⟩
        grind [update_apply]
      · obtain ⟨l, hl, hd, hmem⟩ := hR.lists.quick k
        refine ⟨l, ?_, hd, fun q => ?_⟩
        · dsimp only
          rw [hquick k hk]
          apply hl.congr
          intro q hq
          apply hnext
          rw [(hmem q).mp hq]
          intro e
          cases e
          exact hk rfl
        · grind [update_apply]
    · intro m hm
      obtain ⟨l, hl, hmem⟩ := hR.lists.rover m hm
      refine ⟨l, hl.congr fun q hq => ?_, fun q => ?_⟩
      · obtain ⟨t, ht⟩ := (hmem q).mp hq
        apply hnext
        rw [ht]
        intro e
        cases e
      · grind [update_apply]

/-! ## The fragments of a segment -/

/-- The list of segment `m` is changed at `p`. -/
theorem Listed.ring {next' rover rover' : Nat → Option Nat} {segs : List Nat}
    (hL : Listed next quick rover segs B) {r : Option (Nat × Kind)}
    (hp : ∀ s k, B p = some (s, k) → k.listed = true → k = .rover m)
    (hr : ∀ s k, r = some (s, k) → k.listed = true → k = .rover m)
    (hrover : ∀ m', m' ≠ m → rover' m' = rover m')
    (hnext : ∀ q s k, B q = some (s, k) → k.listed = true → k ≠ .rover m → next' q = next q)
    (hl : ∃ l, Ring next' (rover' m) l ∧ ∀ q, q ∈ l ↔ ∃ s, update B p r q = some (s, .rover m)) :
    Listed next' quick rover' segs (update B p r) := by
  have hsame : ∀ q s k, k.listed = true → k ≠ .rover m →
      (update B p r q = some (s, k) ↔ B q = some (s, k)) := by
    intro q s k hk hne
    by_cases hq : q = p
    · subst hq
      rw [update_self]
      exact ⟨fun e => absurd (hr _ _ e hk) hne, fun e => absurd (hp _ _ e hk) hne⟩
    · rw [update_of_ne hq]
  constructor
  · intro k
    obtain ⟨l, hl, hd, hmem⟩ := hL.quick k
    refine ⟨l, hl.congr fun q hq => ?_, hd, fun q => ?_⟩
    · exact hnext q _ _ ((hmem q).mp hq) rfl (by simp)
    · rw [hmem, hsame q k .quick rfl (by simp)]
  · intro m' hm'
    by_cases hmm : m' = m
    · subst hmm
      exact hl
    · obtain ⟨l, hl, hmem⟩ := hL.rover m' hm'
      have hne : Kind.rover m' ≠ .rover m := fun e => hmm (Kind.rover.inj e)
      rw [hrover m' hmm]
      refine ⟨l, hl.congr fun q hq => ?_, fun q => ?_⟩
      · obtain ⟨s, hs⟩ := (hmem q).mp hq
        exact hnext q s _ hs rfl hne
      · rw [hmem]
        exact exists_congr fun s => (hsame q s _ rfl hne).symm

/-- A block becomes a fragment; the list of the segment is written. -/
theorem Rep.fragment (hR : Rep h B) (hm : m ∈ h.segs) (hp : B p = some (s, .out none))
    (hs : h.size p = s) (hb : h.base m ≤ p) (he : p < h.end_ m) {rover : Nat → Option Nat}
    (hrover : ∀ m', m' ≠ m → rover m' = h.rover m')
    (hnext : ∀ q, q ≠ p → (∀ t, B q ≠ some (t, .rover m)) → next q = h.next q)
    (hl : ∃ l, Ring next (rover m) l ∧ ∀ q, q ∈ l ↔ q = p ∨ ∃ t, B q = some (t, .rover m)) :
    Rep { h with next := next, rover := rover } (update B p (some (s, .rover m))) where
  segs := hR.segs.setlists
  carved := hR.carved.shrink hp (hR.carved.pos hp) (Nat.le_refl s)
  sound := by
    apply Ranges.of_put
    · refine ⟨⟨m, hm, hb, (hR.home_of hm hp hb he).1, ?_⟩, fun _ => hs, fun k e => by cases e⟩
      intro m' e
      exact (Kind.rover.inj e).symm
    · intro q t j hqp hq
      refine (hR.sound hq).setlists (fun _ => rfl) fun hj _ => hnext q hqp fun t' e => ?_
      rw [hq] at e
      cases e
      cases hj
  lists := by
    apply hR.lists.ring (m := m)
    · intro t k e hk
      rw [hp] at e
      cases e
      cases hk
    · intro t k e hk
      cases e
      rfl
    · exact hrover
    · intro q t k hq hk hne
      apply hnext
      · exact ne_of_listed hp hq hk
      · intro t' e
        rw [hq] at e
        cases e
        exact hne rfl
    · obtain ⟨l, hl, hmem⟩ := hl
      refine ⟨l, hl, fun q => ?_⟩
      rw [hmem]
      by_cases hq : q = p
      · subst hq
        rw [update_self]
        exact ⟨fun _ => ⟨s, rfl⟩, fun _ => .inl rfl⟩
      · rw [update_of_ne hq]
        exact or_iff_right hq

/-- The first fragment of a segment. -/
theorem Rep.newring (hR : Rep h B) (hm : m ∈ h.segs) (hp : B p = some (s, .out none))
    (hs : h.size p = s) (hb : h.base m ≤ p) (he : p < h.end_ m) (hr : h.rover m = none) :
    Rep { h with rover := update h.rover m (some p),
                 next := update h.next p (some p) }
      (update B p (some (s, .rover m))) := by
  apply hR.fragment hm hp hs hb he
  · exact fun m' hm' => update_of_ne hm' _ _
  · exact fun q hq _ => update_of_ne hq _ _
  · obtain ⟨l, hl, hmem⟩ := hR.lists.rover m hm
    rw [hr] at hl
    obtain rfl : l = [] := hl
    refine ⟨[p], ?_, fun q => ?_⟩
    · rw [update_self]
      exact Ring.single (update_self ..)
    · grind

variable {prev : Nat}

/-- A fragment goes after `prev`. -/
theorem Rep.insert (hR : Rep h B) (hm : m ∈ h.segs) (hp : B p = some (s, .out none))
    (hs : h.size p = s) (hb : h.base m ≤ p) (he : p < h.end_ m) (hr : h.rover m = some prev) :
    Rep { h with next := update (update h.next p (h.next prev)) prev (some p) }
      (update B p (some (s, .rover m))) := by
  obtain ⟨l, hl, hmem⟩ := hR.lists.rover m hm
  rw [hr] at hl
  have hpl : p ∉ l := by
    intro hpl
    obtain ⟨t, ht⟩ := (hmem p).mp hpl
    exact ne_of_listed hp ht rfl rfl
  obtain ⟨t, ht⟩ := (hmem prev).mp hl.rover_mem
  apply hR.fragment hm hp hs hb he
  · exact fun m' _ => rfl
  · intro q hq hqr
    have hqprev : q ≠ prev := by
      rintro rfl
      exact hqr t ht
    rw [update_of_ne hqprev, update_of_ne hq]
  · refine ⟨p :: l, ?_, fun q => ?_⟩
    · rw [hr]
      exact hl.insert hpl
    · rw [List.mem_cons, hmem]

/-- The first fragment of a list. -/
theorem Rep.rover (hR : Rep h B) (hm : m ∈ h.segs) {r : Nat} (hr : h.rover m = some r) :
    B r = some (h.size r, .rover m) := by
  obtain ⟨l, hl, hmem⟩ := hR.lists.rover m hm
  rw [hr] at hl
  obtain ⟨t, ht⟩ := (hmem r).mp hl.rover_mem
  rw [ht, (hR.sound ht).size (by simp)]

/-- A block is joined to the fragment that ends at it. -/
theorem Rep.merge (hR : Rep h B) (hm : m ∈ h.segs) (hp : B p = some (s, .out none))
    (hb : h.base m ≤ p) (he : p < h.end_ m) (hr : h.rover m = some prev)
    (hadj : prev + h.size prev = p) :
    Rep { h with size := update h.size prev (h.size prev + s) }
      (update (update B p none) prev (some (h.size prev + s, .rover m))) := by
  have hprev := hR.rover hm hr
  obtain ⟨-, hbp, -⟩ := hR.rover_home hprev
  have ht := (hR.home_of hm hp hb he).1
  have hpos := hR.carved.pos hprev
  have hne : prev ≠ p := by omega
  subst hadj
  refine ⟨hR.segs.setlists, hR.carved.merge hprev hp, ?_, ?_⟩
  · apply Ranges.of_put
    · refine ⟨⟨m, hm, hbp, by dsimp only; omega, fun m' e => (Kind.rover.inj e).symm⟩, ?_,
        fun k e => by cases e⟩
      exact fun _ => update_self ..
    · intro q t j hq hB
      have hB := Ranges.of_erase (Q := fun q t j => B q = some (t, j)) (fun _ _ _ _ e => e) hB
      exact (hR.sound hB).setlists (fun _ => update_of_ne hq _ _) fun _ _ => rfl
  · have hL : Listed h.next h.quick h.rover h.segs
        (update B (prev + h.size prev) none) := by
      apply hR.lists.relabel
      · intro t k e
        rw [hp] at e
        cases e
        rfl
      · intro t k e
        cases e
      · exact fun _ _ _ _ _ => rfl
    have hprev' : update B (prev + h.size prev) none prev =
        some (h.size prev, .rover m) := by
      rw [update_of_ne hne, hprev]
    generalize update B (prev + h.size prev) none = B' at hL hprev'
    apply hL.congr
    · intro q k
      grind [update_apply]
    · intro q m'
      by_cases hq : q = prev
      · subst hq
        rw [update_self, hprev']
        exact ⟨fun ⟨_, e⟩ => ⟨h.size q, by cases e; rfl⟩, fun ⟨_, e⟩ => ⟨_, by cases e; rfl⟩⟩
      · rw [update_of_ne hq]
    · exact fun _ _ _ _ _ => rfl

/-- A fragment is taken out after `prev`. -/
theorem Rep.unlink (hR : Rep h B) (hp : B p = some (s, .rover m)) {r : Nat} {l₁ l₂ : List Nat}
    (hn : (l₁ ++ p :: l₂).Nodup) (hmem : ∀ q, q ∈ l₁ ++ p :: l₂ ↔ ∃ t, B q = some (t, .rover m))
    (h₁ : Path h.next r l₁ prev) (hl : h.next prev = some p) (h₂ : Path h.next p l₂ r) :
    Rep (h.unlink m prev p) (update B p (some (s, .out none))) := by
  have hprev : ∃ t, B prev = some (t, .rover m) := by
    apply (hmem prev).mp
    by_cases hl₁ : l₁ = []
    · subst hl₁
      have hr : r = prev := h₁
      rw [hr] at h₂
      have h₂ : Path h.next prev (p :: l₂) prev := ⟨hl, h₂⟩
      exact h₂.last_mem (List.cons_ne_nil p l₂)
    · exact List.mem_append_left _ (h₁.last_mem hl₁)
  have hout : ∀ q, q ≠ p → ((∃ t, update B p (some (s, Kind.out none)) q =
      some (t, .rover m)) ↔ ∃ t, B q = some (t, .rover m)) := by
    intro q hq
    rw [update_of_ne hq]
  have hself : ¬ ∃ t, update B p (some (s, Kind.out none)) p = some (t, .rover m) := by
    rw [update_self]
    rintro ⟨t, e⟩
    cases e
  have hring : ∀ (next rover : Nat → Option Nat) (l : List Nat), Ring next (rover m) l →
      (∀ q, q ∈ l ↔ q ∈ l₁ ∨ q ∈ l₂) → (∀ m', m' ≠ m → rover m' = h.rover m') →
      (∀ q, q ≠ prev → next q = h.next q) →
      Rep { h with next := next, rover := rover } (update B p (some (s, .out none))) := by
    intro next rover l hring hlmem hrover hnext
    have hpl : p ∉ l := by
      rw [hlmem]
      have hpl : p ∉ l₂ ++ l₁ := (List.nodup_cons.mp (List.nodup_append_comm.mp hn)).1
      rw [List.mem_append] at hpl
      exact fun h => hpl h.symm
    refine ⟨hR.segs.setlists, hR.carved.shrink hp (hR.carved.pos hp) (Nat.le_refl s), ?_, ?_⟩
    · apply Ranges.of_put
      · obtain ⟨m, hm, h1, h2, -⟩ := (hR.sound hp).home
        exact ⟨⟨m, hm, h1, h2, fun m' e => by cases e⟩, fun e => absurd rfl e,
          fun k e => by cases e⟩
      · intro q t j hqp hq
        refine (hR.sound hq).setlists (fun _ => rfl) fun hj _ => hnext q ?_
        rintro rfl
        obtain ⟨t', ht'⟩ := hprev
        rw [hq] at ht'
        cases ht'
        cases hj
    · apply hR.lists.ring (m := m)
      · intro t k e _
        rw [hp] at e
        cases e
        rfl
      · intro t k e hk
        cases e
        cases hk
      · exact hrover
      · intro q t k hq _ hne
        apply hnext
        rintro rfl
        obtain ⟨t', ht'⟩ := hprev
        rw [hq] at ht'
        cases ht'
        exact hne rfl
      · refine ⟨l, hring, fun q => ?_⟩
        by_cases hq : q = p
        · subst hq
          exact iff_of_false hpl hself
        · rw [hout q hq, ← hmem, hlmem, List.mem_append, List.mem_cons]
          exact or_congr_right (or_iff_right hq).symm
  unfold Arena.unlink
  split
  · rename_i heq
    obtain ⟨rfl, rfl⟩ := Path.self_loop hn h₁ hl h₂ heq
    apply hring h.next (update h.rover m none) []
    · rw [update_self]
      rfl
    · simp
    · exact fun m' hm' => update_of_ne hm' _ _
    · exact fun _ _ => rfl
  · rename_i hne
    apply hring _ (update h.rover m (some prev)) (l₂ ++ l₁)
    · rw [update_self]
      exact Ring.unlink hn h₁ hl h₂ hne
    · intro q
      rw [List.mem_append]
      exact or_comm
    · exact fun m' hm' => update_of_ne hm' _ _
    · exact fun q hq => update_of_ne hq _ _

/-! ## Cuts, and new segments -/

/-- The end of a block or of a fragment becomes a block. -/
theorem Rep.split (hR : Rep h B) (hp : B p = some (s, k)) (hk : k ≠ .quick)
    (hk' : ∀ c, k ≠ .out (some c)) {a : Nat} (ha : 0 < a) (has : a < s) :
    Rep { h with size := update (update h.size p a) (p + a) (s - a) }
      (update (update B p (some (a, k))) (p + a) (some (s - a, .out none))) := by
  have hnone : B (p + a) = none := hR.carved.none_inside hp (by omega) (by omega)
  refine ⟨hR.segs.setlists, hR.carved.split hp ha has, ?_, ?_⟩
  · obtain ⟨m, hm, h1, h2, h3⟩ := (hR.sound hp).home
    apply Ranges.of_put
    · exact ⟨⟨m, hm, Nat.le_add_right_of_le h1, by dsimp only; omega, fun m' e => by cases e⟩,
        fun e => absurd rfl e, fun k e => by cases e⟩
    · intro q t j hqa hq
      revert hqa
      revert hq
      apply Ranges.of_put
      · intro hpa
        refine ⟨⟨m, hm, h1, by dsimp only; omega, h3⟩, fun _ => ?_, fun c e => absurd e (hk' c)⟩
        dsimp only
        rw [update_of_ne hpa, update_self]
      · intro q t j hqp hq hqa
        apply (hR.sound hq).setlists
        · intro _
          rw [update_of_ne hqa, update_of_ne hqp]
        · exact fun _ _ => rfl
  · apply hR.lists.congr
    · intro q c
      grind [update_apply]
    · intro q m'
      by_cases hqa : q = p + a
      · subst hqa
        rw [update_self, hnone]
        constructor
        · rintro ⟨t, e⟩
          cases e
        · rintro ⟨t, e⟩
          cases e
      · rw [update_of_ne hqa]
        by_cases hq : q = p
        · subst hq
          rw [update_self, hp]
          exact ⟨fun ⟨_, e⟩ => ⟨s, by cases e; rfl⟩, fun ⟨_, e⟩ => ⟨a, by cases e; rfl⟩⟩
        · rw [update_of_ne hq]
    · exact fun _ _ _ _ _ => rfl

/-- The page from `newpg` at `a`: it is apart from all segments. -/
structure FreshPage (h : Arena) (a : Nat) : Prop where
  new : a ∉ h.segs
  top : a + mallocpgsz / Unitsz ≤ 2 ^ 59
  apart : ∀ m ∈ h.segs, a + mallocpgsz / Unitsz ≤ h.base m ∨ h.end_ m ≤ a

/-- The bounds of a new segment. -/
theorem mallocinitseg_bounds (h : Arena) (a : Nat) :
    let h' := h.mallocinitseg a (a * Unitsz + Arena.sizeofMSeg) (mallocpgsz - Arena.sizeofMSeg)
    h'.base a = a + 3 ∧ h'.tailptr a = a + 3 ∧ h'.end_ a = a + 65536 ∧ h'.rover a = none := by
  have hb : (a * Unitsz + Arena.sizeofMSeg + (Unitsz - 1)) / Unitsz = a + 3 := by
    simp only [Unitsz, Arena.sizeofMSeg]
    omega
  have he : a + 3 + (a * Unitsz + Arena.sizeofMSeg + (mallocpgsz - Arena.sizeofMSeg) -
      (a + 3) * Unitsz) / Unitsz = a + 65536 := by
    have : mallocpgsz = 2097152 := rfl
    simp only [Unitsz, Arena.sizeofMSeg, this]
    omega
  simp only [Arena.mallocinitseg, update_self, hb, he, and_self]

/-- `morecore` adds an empty segment. -/
theorem Rep.morecore (hR : Rep h B) {a : Nat} (hf : FreshPage h a) (nunits : Nat) :
    Rep (h.morecore nunits (some a)).1 B := by
  unfold Arena.morecore
  split
  · exact hR
  · obtain ⟨hbase, htail, hend, hrover⟩ := mallocinitseg_bounds h a
    have hpg : mallocpgsz / Unitsz = 65536 := rfl
    have htop := hf.top
    have hap := hf.apart
    rw [hpg] at htop hap
    have hold : ∀ m ∈ h.segs, m ≠ a := fun m hm => ne_of_mem_of_not_mem hm hf.new
    dsimp only
    generalize hh : h.mallocinitseg a _ _ = h' at hbase htail hend hrover
    have hsame : ∀ m, m ≠ a → h'.base m = h.base m ∧ h'.tailptr m = h.tailptr m ∧
        h'.end_ m = h.end_ m ∧ h'.rover m = h.rover m := by
      intro m hm
      rw [← hh]
      simp only [Arena.mallocinitseg, update_of_ne hm, and_self]
    have hother : h'.next = h.next ∧ h'.size = h.size ∧ h'.last = h.last ∧ h'.quick = h.quick ∧
        h'.segs = h.segs := by
      rw [← hh]
      exact ⟨rfl, rfl, rfl, rfl, rfl⟩
    obtain ⟨hnext, hsize, hlast, hquick, hsegs⟩ := hother
    have hperm : (h'.segs.take 1 ++ a :: h'.segs.drop 1).Perm (a :: h.segs) := by
      rw [hsegs]
      have hp : (h.segs.take 1 ++ a :: h.segs.drop 1).Perm (a :: (h.segs.take 1 ++ h.segs.drop 1)) :=
        List.perm_middle
      rwa [List.take_append_drop] at hp
    have hmem : ∀ m, m ∈ h'.segs.take 1 ++ a :: h'.segs.drop 1 → m = a ∨ m ∈ h.segs :=
      fun m hm => List.mem_cons.mp (hperm.mem_iff.mp hm)
    have hin : ∀ m ∈ h.segs, m ∈ h'.segs.take 1 ++ a :: h'.segs.drop 1 :=
      fun m hm => hperm.mem_iff.mpr (List.mem_cons_of_mem a hm)
    refine ⟨⟨?_, ?_, ?_, ?_, ?_, ?_⟩, hR.carved, ?_, ?_⟩
    · exact hperm.nodup_iff.mpr (List.nodup_cons.mpr ⟨hf.new, hR.segs.nodup⟩)
    · intro m hm
      obtain rfl | hm := hmem m hm
      · exact Nat.le_of_eq (hbase.trans htail.symm)
      · obtain ⟨h1, h2, -, -⟩ := hsame m (hold m hm)
        exact h1 ▸ h2 ▸ hR.segs.base_le m hm
    · intro m hm
      obtain rfl | hm := hmem m hm
      · dsimp only
        omega
      · obtain ⟨-, h2, h3, -⟩ := hsame m (hold m hm)
        exact h2 ▸ h3 ▸ hR.segs.tail_le m hm
    · intro m hm
      obtain rfl | hm := hmem m hm
      · exact hend ▸ htop
      · exact (hsame m (hold m hm)).2.2.1 ▸ hR.segs.end_le m hm
    · intro m hm
      obtain rfl | hm := hmem m hm
      · dsimp only
        omega
      · obtain ⟨h1, -, h3, -⟩ := hsame m (hold m hm)
        exact h1 ▸ h3 ▸ hR.segs.small m hm
    · intro m hm m' hm' hne
      dsimp only
      rcases hmem m hm with rfl | hmold
      · obtain rfl | hm' := hmem m' hm'
        · exact absurd rfl hne
        · obtain ⟨h1, -, h3, -⟩ := hsame m' (hold m' hm')
          have := hap m' hm'
          omega
      · obtain ⟨h1, -, h3, -⟩ := hsame m (hold m hmold)
        obtain rfl | hm' := hmem m' hm'
        · have := hap m hmold
          omega
        · obtain ⟨h1', -, h3', -⟩ := hsame m' (hold m' hm')
          have := hR.segs.apart m hmold m' hm' hne
          omega
    · intro p s k hp
      have hs := hR.sound hp
      obtain ⟨m, hm, h1, h2, h3⟩ := hs.home
      obtain ⟨hb, ht, -, -⟩ := hsame m (hold m hm)
      refine ⟨⟨m, hin m hm, hb ▸ h1, ht ▸ h2, h3⟩, fun hk => hsize ▸ hs.size hk, fun n hn => ?_⟩
      have hl := hs.live n hn
      exact ⟨hnext ▸ hl.next, hlast ▸ hl.tag, hl.room⟩
    · constructor
      · intro k
        obtain ⟨l, hl, hd, hmem⟩ := hR.lists.quick k
        exact ⟨l, hnext ▸ hquick ▸ hl, hd, hmem⟩
      · intro m hm
        obtain rfl | hm := hmem m hm
        · refine ⟨[], by dsimp only; rw [hrover]; rfl, fun q => ?_⟩
          refine iff_of_false List.not_mem_nil ?_
          rintro ⟨s, hs⟩
          exact hf.new (hR.rover_home hs).1
        · obtain ⟨l, hl, hmem⟩ := hR.lists.rover m hm
          refine ⟨l, ?_, hmem⟩
          dsimp only
          rw [hnext, (hsame m (hold m hm)).2.2.2]
          exact hl

end NixMark.Heap
