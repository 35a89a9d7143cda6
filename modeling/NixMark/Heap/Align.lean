import NixMark.Heap.Alloc

/-!
# Aligned blocks

* `Aligning`: the units of an alignment below `2^37`; `aligning_of_pow2`: every power of two above
  `Unitsz` is one.
* `frontrunt_spec`, `rearrunt_spec`: the runts around an aligned block are freed, and the block
  stays.
* `qmallocalign_spec`, `mallocalign_spec`, `realloc_spec`: what the caller gets.
-/

namespace NixMark.Heap

open Lib
open Function (update update_comm update_eq_self update_idem update_of_ne update_self)

variable {h h' : Arena} {B B' : Ranges Kind} {p s m n a b c : Nat}

/-! ## Alignments in units -/

/-- The alignment `a` is `b` units, and nothing is cut off where it is computed with. -/
structure Aligning (a b : Nat) : Prop where
  two_le : 2 ≤ b
  le : b ≤ 2 ^ 31
  naligned : Arena.naligned a = b
  ge : ∀ q, q + b ≤ 2 ^ 59 → q ≤ ALIGNHDR q a
  lt : ∀ q, q + b ≤ 2 ^ 59 → ALIGNHDR q a < q + b
  ne : ∀ q, q + b ≤ 2 ^ 59 → ALIGNED q a = false → ALIGNHDR q a ≠ q

theorem pred_eq (h0 : 0 < a) (h1 : a < 2 ^ 64) : pred a = a - 1 := by
  unfold pred usize
  omega

/-- A power of two is a number of units. -/
theorem aligning_of_pow2 (h2 : a &&& pred a = 0) (hlo : Unitsz < a) (hhi : a < 2 ^ 37) :
    ∃ b, Aligning a b := by
  have hpred : pred a = a - 1 := pred_eq (by omega) (by omega)
  rw [hpred] at h2
  have hlo : 32 < a := hlo
  obtain ⟨k, hk⟩ := (Nat.and_sub_one_eq_zero_iff_isPowerOfTwo (by omega)).mp h2
  have hk5 : 5 < k := by
    by_contra hle
    have : 2 ^ k ≤ 2 ^ 5 := Nat.pow_le_pow_right (by decide) (Nat.le_of_not_lt hle)
    omega
  have hk37 : k < 37 := by
    by_contra hle
    have : 2 ^ 37 ≤ 2 ^ k := Nat.pow_le_pow_right (by decide) (Nat.le_of_not_lt hle)
    omega
  have hab : a = 32 * 2 ^ (k - 5) := by
    have := Nat.pow_add 2 5 (k - 5)
    rw [show 5 + (k - 5) = k by omega] at this
    rw [hk, this]
  have hb : 2 ≤ 2 ^ (k - 5) := Nat.le_self_pow (by omega) 2
  have hb' : 2 ^ (k - 5) ≤ 2 ^ 31 := Nat.pow_le_pow_right (by decide) (by omega)
  generalize 2 ^ (k - 5) = b at hab hb hb'
  have hmask : ∀ x, x &&& (a - 1) = x % a := by
    intro x
    rw [hk]
    exact Nat.and_two_pow_sub_one_eq_mod x k
  -- rounding up, with the quotient `d` of the address that is rounded down
  have hhdr : ∀ q, q + b ≤ 2 ^ 59 → ∃ d, ALIGNHDR q a = b * d ∧
      32 * (b * d) ≤ 32 * q + 32 * b - 1 ∧ 32 * q + 32 * b - 1 < 32 * (b * d) + 32 * b := by
    intro q hq
    refine ⟨(q * 32 + (a - 1)) / a, ?_⟩
    have hx : usize (q * 32 + (a - 1)) = q * 32 + (a - 1) := usize_of_lt (by omega)
    have hdiv := Nat.div_add_mod (q * 32 + (a - 1)) a
    have hmod := Nat.mod_lt (q * 32 + (a - 1)) (show 0 < a by omega)
    have hmul : a * ((q * 32 + (a - 1)) / a) = 32 * (b * ((q * 32 + (a - 1)) / a)) := by
      rw [← Nat.mul_assoc, ← hab]
    unfold ALIGNHDR
    rw [hpred]
    simp only [Unitsz, hx, hmask]
    generalize (q * 32 + (a - 1)) / a = d at hdiv hmul ⊢
    generalize b * d = e at hmul ⊢
    omega
  refine ⟨b, hb, hb', ?_, ?_, ?_, ?_⟩
  · unfold Arena.naligned
    rw [HOWMANY_of_lt (by simp only [Unitsz]; omega), uint_of_lt]
    · simp only [Unitsz]
      omega
    · simp only [Unitsz]
      omega
  · intro q hq
    obtain ⟨d, h1, h2, h3⟩ := hhdr q hq
    omega
  · intro q hq
    obtain ⟨d, h1, h2, h3⟩ := hhdr q hq
    omega
  · intro q hq hal heq
    obtain ⟨d, h1, -, -⟩ := hhdr q hq
    unfold ALIGNED at hal
    rw [hpred, hmask] at hal
    have hmod : q * Unitsz % a = 0 := by
      have hqd : q * Unitsz = a * d := by
        rw [hab, Nat.mul_assoc, ← h1, heq]
        exact Nat.mul_comm q 32
      rw [hqd]
      exact Nat.mul_mod_right a d
    rw [hmod] at hal
    cases hal

theorem Aligning.uint_add (ha : Aligning a b) (hc : c < 2 ^ 28) :
    uint (c + Arena.naligned a) = c + b := by
  have := ha.le
  rw [ha.naligned, uint_of_lt (by omega)]

variable {q d : Nat}

/-- The difference of addresses that are close. -/
theorem ptrdiff_eq (hd : d < 2 ^ 32) : ptrdiff (q + d) q = d := by
  unfold ptrdiff uint
  omega

/-! ## Quick lists -/

/-- A block after `q` leaves its quick list. -/
theorem Rep.popafter (hR : Rep h B) {l₁ l₂ : List Nat}
    (hl : Chain h.next (h.quick c) (l₁ ++ q :: p :: l₂)) (hd : (l₁ ++ q :: p :: l₂).Nodup)
    (hmem : ∀ x, x ∈ l₁ ++ q :: p :: l₂ ↔ B x = some (c, .quick)) :
    Rep { h with next := update h.next q (h.next p) } (update B p (some (c, .out none))) := by
  have hp : B p = some (c, .quick) := (hmem p).mp (by simp)
  have hq : B q = some (c, .quick) := (hmem q).mp (by simp)
  have hd' : (l₁ ++ q :: l₂).Nodup ∧ p ∉ l₁ ++ q :: l₂ := by
    have hperm : (l₁ ++ q :: p :: l₂).Perm (p :: (l₁ ++ q :: l₂)) := by
      have h1 : l₁ ++ q :: p :: l₂ = (l₁ ++ [q]) ++ p :: l₂ := by simp
      have h2 : p :: (l₁ ++ q :: l₂) = p :: ((l₁ ++ [q]) ++ l₂) := by simp
      rw [h1, h2]
      exact List.perm_middle
    have := List.nodup_cons.mp (hperm.nodup_iff.mp hd)
    exact ⟨this.2, this.1⟩
  apply hR.pop hp
  · refine ⟨l₁ ++ q :: l₂, hl.unlink hd, hd'.1, fun x => ?_⟩
    rw [← hmem]
    constructor
    · intro hx
      refine ⟨ne_of_mem_of_not_mem hx hd'.2, ?_⟩
      simp only [List.mem_append, List.mem_cons] at hx ⊢
      tauto
    · rintro ⟨hne, hx⟩
      simp only [List.mem_append, List.mem_cons] at hx ⊢
      tauto
  · exact fun _ _ => rfl
  · intro x hx
    refine update_of_ne ?_ _ _
    rintro rfl
    exact hx hq

/-- The walk of a quick list: `l₁` is behind, `l₂` ahead. -/
theorem quickwalk_spec (hR : Rep h B) (l₁ : List Nat) {l₂ : List Nat} {pp cur : Option Nat}
    (hl : Chain h.next (h.quick c) (l₁ ++ l₂)) (hd : (l₁ ++ l₂).Nodup)
    (hmem : ∀ x, x ∈ l₁ ++ l₂ ↔ B x = some (c, .quick)) (hcur : Chain h.next cur l₂)
    (hpp : (pp = none ∧ l₁ = []) ∨ ∃ q l, pp = some q ∧ l₁ = l ++ [q])
    (hroom : n + 1 ≤ (c - 1) * Unitsz) (fuel : Nat) (hf : l₂.length ≤ fuel) :
    Meets (h.quickwalk c a fuel pp cur) (fun _ => False) fun r =>
      ∀ h' p, r = some (h', p) → Taken h B n h' p := by
  induction l₂ generalizing l₁ pp cur fuel with
  | nil =>
    obtain rfl : cur = none := hcur
    unfold Arena.quickwalk
    rintro h' p ⟨⟩
  | cons p l₂ ih =>
    obtain ⟨rfl, hnext⟩ := hcur
    cases fuel with
    | zero => cases hf
    | succ fuel =>
      have hB : B p = some (c, .quick) := (hmem p).mp (by simp)
      have hs := (hR.sound hB).size (by simp)
      have hnew : outs B p = none := outs_of_listed hB rfl
      unfold Arena.quickwalk
      split
      · rintro h' p' ⟨⟩
        obtain ⟨rfl, rfl⟩ | ⟨q, l, rfl, rfl⟩ := hpp
        · exact ⟨_, _, Ready.of_put (hR.pophead hl.1).2 hs hroom hnew, Shrinks.update (by simp),
            rfl, rfl⟩
        · rw [List.append_assoc] at hl hd hmem
          exact ⟨_, _, Ready.of_put (hR.popafter hl hd hmem) hs hroom hnew,
            Shrinks.update (by simp), rfl, rfl⟩
      · have happ : l₁ ++ p :: l₂ = (l₁ ++ [p]) ++ l₂ := by simp
        rw [happ] at hl hd hmem
        exact ih (l₁ ++ [p]) hl hd hmem hnext (.inr ⟨p, l₁, rfl, rfl⟩) fuel (Nat.le_of_succ_le_succ hf)

/-- A quick list is not longer than the segments. -/
theorem quick_length (hR : Rep h B) {l : List Nat} (hd : l.Nodup)
    (hmem : ∀ x ∈ l, B x = some (c, .quick)) : l.length ≤ h.quickfuel := by
  have hsub : l ⊆ h.segs.flatMap fun m => List.range' (h.base m) (h.below m) := by
    intro x hx
    have hB := hmem x hx
    obtain ⟨m, hm, h1, h2, -⟩ := (hR.sound hB).home
    have := hR.carved.pos hB
    rw [List.mem_flatMap]
    refine ⟨m, hm, ?_⟩
    rw [List.mem_range'_1]
    unfold Arena.below
    omega
  have hle := (hd.subperm hsub).length_le
  rw [List.length_flatMap] at hle
  simp only [List.length_range'] at hle
  exact hle

theorem quickalign_spec (IOHDRSZ : Nat) (hR : Rep h B) (hroom : n + 1 ≤ (c - 1) * Unitsz) :
    Meets (h.quickalign IOHDRSZ c a) (fun _ => False) fun r =>
      ∀ h' p, r = some (h', p) → Taken h B n h' p := by
  unfold Arena.quickalign
  split
  · obtain ⟨l, hl, hd, hmem⟩ := hR.lists.quick c
    exact quickwalk_spec hR [] hl hd hmem hl (.inl ⟨rfl, rfl⟩) hroom _
      (quick_length hR hd fun x hx => (hmem x).mp hx)
  · rintro h' p ⟨⟩

/-! ## Runts -/

/-- A runt `r` is freed, and the block `p` stays ready for the user. -/
theorem Rep.freerunt (IOHDRSZ : Nat) (hR : Rep h B') {r : Nat} (hm : m ∈ h.segs)
    (hr : B' r = some (d, .out none)) (hs : h.size r = d) (hn : h.next r = none) (hb : h.base m ≤ r)
    (he : r < h.end_ m) (hne : p ≠ r) (hp : B' p = some (s, .out none))
    (hroom : n + 1 ≤ (h.size p - 1) * Unitsz) (hnew : outs B p = none)
    (hout : update (outs B') r none = update (outs B) p (some (h.size p, none))) :
    ∃ h' B'', h.qfreeinternal IOHDRSZ m r false = .ok h' ∧ Ready B n h' p B'' ∧
      h'.size p = h.size p ∧ h'.next p = h.next p ∧ Keeps h h' B' r := by
  obtain ⟨h', hq, B'', hR', houts, hkeep⟩ := qfreeinternal_spec IOHDRSZ hR hm hr hs hn hb he
    false (by simp)
  obtain ⟨hks, hkn⟩ := hkeep.header hne hp
  rw [hout] at houts
  have hself : outs B'' p = some (h.size p, none) := by
    rw [houts, update_self]
  refine ⟨h', B'', hq, ⟨hR', ?_, ?_, hnew, ?_⟩, hks, hkn, hkeep⟩
  · rw [hks]
    exact outs_some.mp hself
  · rw [hks]
    exact hroom
  · rw [hks]
    exact houts

/-- The heap with two blocks from the tail, of `d` and of `c` units. -/
def twotails (h : Arena) (m d c : Nat) : Arena := ((h.tailalloc m d).1.tailalloc m c).1

/-- The ranges of these blocks. -/
def twoblocks (h : Arena) (B : Ranges Kind) (m d c : Nat) : Ranges Kind :=
  Function.update (Function.update B (h.tailptr m) (some (d, .out none))) (h.tailptr m + d)
    (some (c, .out none))

structure Twotails (h : Arena) (B : Ranges Kind) (m d c : Nat) : Prop where
  rep : Rep (twotails h m d c) (twoblocks h B m d c)
  new : outs B (h.tailptr m) = none
  new' : outs B (h.tailptr m + d) = none
  size : (twotails h m d c).size (h.tailptr m) = d
  next : (twotails h m d c).next (h.tailptr m) = none
  size' : (twotails h m d c).size (h.tailptr m + d) = c
  next' : (twotails h m d c).next (h.tailptr m + d) = none

theorem Rep.twotails (hR : Rep h B) (hm : m ∈ h.segs) (hd : 0 < d) (hc : 0 < c)
    (hle : h.tailptr m + d + c ≤ h.end_ m) : Twotails h B m d c := by
  obtain ⟨hnone, hR₁⟩ := hR.tailalloc hm hd (by omega)
  have ht₁ : (h.tailalloc m d).1.tailptr m = h.tailptr m + d := update_self ..
  obtain ⟨hnone₁, hR₂⟩ := hR₁.tailalloc (m := m) hm hc (by rw [ht₁]; exact hle)
  rw [ht₁] at hnone₁ hR₂
  have hne : h.tailptr m ≠ h.tailptr m + d := by omega
  have hsize : (Heap.twotails h m d c).size =
      update (update h.size (h.tailptr m) d) (h.tailptr m + d) c := by
    rw [← ht₁]
    rfl
  have hnext : (Heap.twotails h m d c).next =
      update (update h.next (h.tailptr m) none) (h.tailptr m + d) none := by
    rw [← ht₁]
    rfl
  refine ⟨hR₂, ?_, ?_, ?_, ?_, ?_, ?_⟩
  · unfold outs
    rw [hnone]
    rfl
  · rw [update_of_ne hne.symm] at hnone₁
    unfold outs
    rw [hnone₁]
    rfl
  · rw [hsize, update_of_ne hne, update_self]
  · rw [hnext, update_of_ne hne, update_self]
  · rw [hsize, update_self]
  · rw [hnext, update_self]

/-- A part of the tail before the block goes back. -/
theorem Rep.tailrunt (IOHDRSZ : Nat) (hR : Rep h B) (hm : m ∈ h.segs) (hd : 0 < d) (hc : 0 < c)
    (hle : h.tailptr m + d + c ≤ h.end_ m) (hroom : n + 1 ≤ (c - 1) * Unitsz) :
    ∃ h' B', (Heap.twotails h m d c).qfreeinternal IOHDRSZ m (h.tailptr m) false = .ok h' ∧
      Ready B n h' (h.tailptr m + d) B' ∧ h'.next (h.tailptr m + d) = none ∧
      h'.size (h.tailptr m + d) = c := by
  have ht := hR.twotails hm hd hc hle
  have hne : h.tailptr m ≠ h.tailptr m + d := by omega
  have hb : h.base m ≤ h.tailptr m := hR.segs.base_le m hm
  obtain ⟨h', B', hq, hr, hs', hn', -⟩ := ht.rep.freerunt IOHDRSZ (B := B) (n := n) (s := c)
    (p := h.tailptr m + d) hm (r := h.tailptr m) (d := d)
    (by rw [twoblocks, update_of_ne hne, update_self]) ht.size ht.next hb
    (show h.tailptr m < h.end_ m by omega) hne.symm (update_self ..)
    (by rw [ht.size']; exact hroom) ht.new'
    (by
      rw [ht.size', twoblocks, outs_update, outs_update, update_comm hne.symm,
        update_idem, update_outs_none ht.new]
      rfl)
  exact ⟨h', B', hq, hr, hn'.trans ht.next', hs'.trans ht.size'⟩

theorem aligntail_spec (IOHDRSZ : Nat) (hR : Rep h B) (ha : Aligning a b) (hc : 0 < c)
    (hc' : c < 2 ^ 28) (hroom : n + 1 ≤ (c - 1) * Unitsz) (ms : List Nat)
    (hms : ∀ m ∈ ms, m ∈ h.segs) :
    Meets (Arena.aligntail IOHDRSZ c a ms h) (fun _ => False) fun r =>
      ∀ h' p, r = some (h', p) → Got B n h' p := by
  induction ms with
  | nil => rintro h' p ⟨⟩
  | cons m ms ih =>
    have ih := ih fun m hm => hms m (List.mem_cons_of_mem _ hm)
    have hm := hms m List.mem_cons_self
    have htail := hR.segs.tail_le m hm
    have hend := hR.segs.end_le m hm
    unfold Arena.aligntail
    split
    · exact ih
    · dsimp only
      split
      · rename_i hne
        split
        · exact ih
        · rename_i hfit
          rw [ha.uint_add hc'] at hfit
          have hge := ha.ge (h.tailptr m + 1) (by omega)
          have hlt := ha.lt (h.tailptr m + 1) (by omega)
          have hb31 := ha.le
          -- the runt has `d` units, fewer than the alignment
          obtain ⟨d, hd⟩ := Nat.exists_eq_add_of_le hge
          rw [hd, ptrdiff_eq (by omega)]
          have ht₁ : ((h.tailalloc m d).1.tailalloc m c).2 = h.tailptr m + d :=
            update_self ..
          obtain ⟨h', B', hq, hr, hn', hs'⟩ :=
            hR.tailrunt IOHDRSZ hm (d := d) (by omega) hc (by omega) hroom
          show Meets ((twotails h m d c).qfreeinternal IOHDRSZ m (h.tailptr m) false >>= _) _ _
          rw [hq]
          rintro h'' p ⟨⟩
          rw [ht₁]
          exact hr.tagged hn' hs'
      · rintro h' p ⟨⟩
        exact hR.tailgot hm hc (by omega) hroom

/-! ## Fragments -/

/-- The address is in the segment. -/
structure In (h : Arena) (m p : Nat) : Prop where
  mem : m ∈ h.segs
  base : h.base m ≤ p
  end_ : p < h.end_ m

theorem Keeps.in_ {r : Nat} (hk : Keeps h h' B r) (hi : In h m q) : In h' m q := by
  refine ⟨?_, ?_, ?_⟩
  · rw [hk.segs]
    exact hi.mem
  · rw [hk.base]
    exact hi.base
  · rw [hk.end_]
    exact hi.end_

/-- A block of `s` units, cut after `a` units. -/
def halves (B : Ranges Kind) (p a s : Nat) : Ranges Kind :=
  Function.update (Function.update B p (some (a, .out none))) (p + a) (some (s - a, .out none))

theorem halves_left (hc : 0 < c) : halves B p c s p = some (c, .out none) := by
  unfold halves
  rw [update_of_ne (by omega), update_self]

theorem halves_right : halves B p c s (p + c) = some (s - c, .out none) := update_self ..

theorem outs_halves : outs (halves B p c s) =
    update (update (outs B) p (some (c, none))) (p + c) (some (s - c, none)) := by
  unfold halves
  rw [outs_update, outs_update]
  rfl

/-- Headers of the two halves are written. -/
theorem Rep.halves (hR : Rep h B) (hp : B p = some (s, .out none)) (hc : 0 < c) (hcs : c < s)
    {next : Nat → Option Nat} {size : Nat → Nat} (hn : ∀ q, q ≠ p → q ≠ p + c → next q = h.next q)
    (hs : ∀ q, q ≠ p → q ≠ p + c → size q = h.size q) :
    Rep { h with next := next, size := size } (halves B p c s) := by
  apply (hR.split hp (by simp) (by simp) hc hcs).poke
  · intro q t k hq hk
    have hqp : q ≠ p := by
      rintro rfl
      rw [update_of_ne (by omega), update_self] at hq
      cases hq
      exact hk rfl
    have hqc : q ≠ p + c := by
      rintro rfl
      rw [update_self] at hq
      cases hq
      exact hk rfl
    dsimp only
    rw [update_of_ne hqc, update_of_ne hqp]
    exact ⟨hn q hqp hqc, hs q hqp hqc⟩
  · exact fun _ _ _ _ => rfl

/-- What is ready for the user has nothing new after its start. -/
theorem Ready.inside (hr : Ready B n h p B') (hd : 0 < d) (hlt : d < h.size p) :
    outs B (p + d) = none := by
  have hnone : B' (p + d) = none := hr.rep.carved.none_inside hr.block (by omega) (by omega)
  have hout := congrFun hr.out (p + d)
  rw [update_of_ne (by omega)] at hout
  rw [← hout]
  unfold outs
  rw [hnone]
  rfl

/-- The block `p` is cut after `d` units, for the runt `p` to be freed. -/
structure Halved (h h' : Arena) (B' : Ranges Kind) (p d : Nat) : Prop where
  rep : Rep h' (halves B' p d (h.size p))
  size : h'.size p = d
  next : h'.next p = none
  rest : h'.size (p + d) = h.size p - d
  segs : h'.segs = h.segs
  base : h'.base = h.base
  end_ : h'.end_ = h.end_
  maxsz : h'.maxsz = h.maxsz

/-- The runt in front of the alignment, which leaves `c` units. -/
theorem frontrunt_halved (IOHDRSZ : Nat) (hr : Ready B n h p B') (hi : In h m p)
    (ha : Aligning a b) (hc : 0 < c) (hal : ALIGNED (p + 1) a = false) (hfit : c + b ≤ h.size p) :
    ∃ d h₂, 0 < d ∧ d + c ≤ h.size p ∧ Halved h h₂ B' p d ∧
      h.frontrunt IOHDRSZ a m p =
        (h₂.qfreeinternal IOHDRSZ m p false >>= fun h' => .ok (h', p + d)) := by
  have ht := (hr.rep.home_of hi.mem hr.block hi.base hi.end_).1
  have htail := hr.rep.segs.tail_le m hi.mem
  have hend := hr.rep.segs.end_le m hi.mem
  have hsmall := hr.rep.segs.small m hi.mem
  have hbase := hi.base
  have hb2 := ha.two_le
  have hge := ha.ge (p + 1) (by omega)
  have hlt := ha.lt (p + 1) (by omega)
  have hne := ha.ne (p + 1) (by omega) hal
  obtain ⟨d, hd⟩ := Nat.exists_eq_add_of_le hge
  have hp' : ALIGNHDR (p + 1) a - 1 = p + d := by omega
  have hd0 : 0 < d := by omega
  have hsub : uint (h.size p + 2 ^ 32 - d) = h.size p - d := by
    unfold uint
    omega
  have hdiff : ptrdiff (p + d) p = d := ptrdiff_eq (by omega)
  have hpd : p ≠ p + d := by omega
  refine ⟨d, { h with
    size := update (update h.size (p + d) (h.size p - d)) p d
    next := update h.next p none }, hd0, by omega,
    ⟨?_, update_self .., update_self .., ?_, rfl, rfl, rfl, rfl⟩, ?_⟩
  · apply hr.rep.halves hr.block hd0 (by omega)
    · exact fun q hqp _ => update_of_ne hqp _ _
    · intro q hqp hqd
      rw [update_of_ne hqp, update_of_ne hqd]
  · dsimp only
    rw [update_of_ne hpd.symm, update_self]
  · unfold Arena.frontrunt
    rw [if_neg (by rw [hal]; decide)]
    dsimp only
    rw [hp', hdiff, hsub]

/-- The runt in front of the alignment is freed; `c` units are left. -/
theorem frontrunt_spec (IOHDRSZ : Nat) (hr : Ready B n h p B') (hi : In h m p)
    (ha : Aligning a b) (hroom : n + 1 ≤ (c - 1) * Unitsz) (hc : 0 < c) (hle : c ≤ h.size p)
    (hfit : ALIGNED (p + 1) a = true ∨ c + b ≤ h.size p) :
    ∃ h' p' B'', h.frontrunt IOHDRSZ a m p = .ok (h', p') ∧ Ready B n h' p' B'' ∧ In h' m p' ∧
      c ≤ h'.size p' ∧ h'.size p' ≤ h.size p := by
  by_cases hal : ALIGNED (p + 1) a = true
  · refine ⟨h, p, B', ?_, hr, hi, hle, Nat.le_refl _⟩
    unfold Arena.frontrunt
    rw [if_pos hal]
  · have hal : ALIGNED (p + 1) a = false := by simpa using hal
    have hfit := hfit.resolve_left (by rw [hal]; decide)
    obtain ⟨d, h₂, hd0, hdc, hh, heq⟩ := frontrunt_halved IOHDRSZ hr hi ha hc hal hfit
    have hpd : p ≠ p + d := by omega
    have hnew : outs B (p + d) = none := hr.inside hd0 (by omega)
    have hi₂ : In h₂ m p := ⟨by rw [hh.segs]; exact hi.mem, by rw [hh.base]; exact hi.base,
      by rw [hh.end_]; exact hi.end_⟩
    obtain ⟨h', B'', hq, hr', hs', -, hk⟩ := hh.rep.freerunt IOHDRSZ (B := B) (n := n)
      (p := p + d) hi₂.mem (halves_left hd0) hh.size hh.next hi₂.base hi₂.end_ hpd.symm halves_right
      (by rw [hh.rest]; exact room_mono hroom (by omega)) hnew
      (by
        rw [hh.rest, outs_halves, hr.out, update_idem, update_comm hpd.symm,
          update_idem, update_outs_none hr.new])
    have ht := (hr.rep.home_of hi.mem hr.block hi.base hi.end_).1
    have htail := hr.rep.segs.tail_le m hi.mem
    have hp₂ : In h₂ m (p + d) := ⟨hi₂.mem, Nat.le_add_right_of_le hi₂.base, by
      rw [hh.end_]
      omega⟩
    refine ⟨h', p + d, B'', ?_, hr', hk.in_ hp₂, ?_⟩
    · rw [heq, hq]
      rfl
    · rw [hs', hh.rest]
      omega

/-- The residue after `c` units is freed, from a heap `h₂` where it is a block of its own. -/
structure Residue (IOHDRSZ : Nat) (h h₂ h' : Arena) (B' B'' : Ranges Kind) (m p c : Nat) : Prop where
  rep₂ : Rep h₂ (halves B' p c (h.size p))
  size : h₂.size (p + c) = h.size p - c
  segs : h₂.segs = h.segs
  base : h₂.base = h.base
  end_ : h₂.end_ = h.end_
  maxsz : h₂.maxsz = h.maxsz
  free : h₂.qfreeinternal IOHDRSZ m (p + c) false = .ok h'
  rep : Rep h' B''
  eq : h.rearrunt IOHDRSZ c m p = .ok { h' with size := Function.update h'.size p c }

theorem rearrunt_freed (IOHDRSZ : Nat) (hr : Ready B n h p B') (hi : In h m p)
    (hroom : n + 1 ≤ (c - 1) * Unitsz) (hc : 0 < c)
    (hlt : c < h.size p ∧ Mult < h.size p - c) :
    ∃ h₂ h' B'', Residue IOHDRSZ h h₂ h' B' B'' m p c ∧
      Ready B n { h' with size := update h'.size p c } p B'' := by
  have ht := (hr.rep.home_of hi.mem hr.block hi.base hi.end_).1
  have htail := hr.rep.segs.tail_le m hi.mem
  have hbase := hi.base
  have hpc : p ≠ p + c := by omega
  -- the block still has its old length in its header
  have hR₂ : Rep { h with
      size := update h.size (p + c) (h.size p - c),
      next := update h.next (p + c) none } (halves B' p c (h.size p)) := by
    apply hr.rep.halves hr.block hc hlt.1
    · exact fun q _ hqc => update_of_ne hqc _ _
    · exact fun q _ hqc => update_of_ne hqc _ _
  obtain ⟨h', hq, B'', hR', houts, hk⟩ := qfreeinternal_spec IOHDRSZ hR₂ hi.mem halves_right
    (update_self ..) (update_self ..)
    (show h.base m ≤ p + c by omega) (show p + c < h.end_ m by omega) false
    (by simp)
  have hout : outs B'' = update (outs B) p (some (c, none)) := by
    rw [houts, outs_halves, hr.out, update_idem, update_idem]
    apply Function.update_eq_iff.mpr
    refine ⟨?_, fun _ _ => rfl⟩
    rw [update_of_ne hpc.symm]
    exact (hr.inside hc hlt.1).symm
  have hp'' : B'' p = some (c, .out none) :=
    outs_some.mp (by rw [hout, update_self])
  have hs : update h'.size p c p = c := update_self ..
  refine ⟨_, h', B'', ⟨hR₂, update_self .., rfl, rfl, rfl, rfl, hq, hR', ?_⟩,
    ?_, ?_, ?_, hr.new, ?_⟩
  · unfold Arena.rearrunt
    rw [if_pos hlt]
    dsimp only
    rw [hq]
    rfl
  · apply hR'.poke
    · intro x t k hx hk
      refine ⟨rfl, update_of_ne ?_ _ _⟩
      rintro rfl
      rw [hp''] at hx
      cases hx
      exact hk rfl
    · exact fun _ _ _ _ => rfl
  · dsimp only
    rw [hs]
    exact hp''
  · dsimp only
    rw [hs]
    exact hroom
  · dsimp only
    rw [hs]
    exact hout

theorem rearrunt_spec (IOHDRSZ : Nat) (hr : Ready B n h p B') (hi : In h m p)
    (hroom : n + 1 ≤ (c - 1) * Unitsz) (hc : 0 < c) :
    ∃ h' B'', h.rearrunt IOHDRSZ c m p = .ok h' ∧ Ready B n h' p B'' := by
  by_cases hlt : c < h.size p ∧ Mult < h.size p - c
  · obtain ⟨h₂, h', B'', hres, hr'⟩ := rearrunt_freed IOHDRSZ hr hi hroom hc hlt
    exact ⟨_, B'', hres.eq, hr'⟩
  · refine ⟨h, B', ?_, hr⟩
    unfold Arena.rearrunt
    rw [if_neg hlt]

theorem unlink_fields (h : Arena) (m q p : Nat) :
    (h.unlink m q p).segs = h.segs ∧ (h.unlink m q p).base = h.base ∧
    (h.unlink m q p).end_ = h.end_ := by
  unfold Arena.unlink
  split <;> exact ⟨rfl, rfl, rfl⟩

theorem dropmax_fields (h : Arena) (m x : Nat) :
    (h.dropmax m x).segs = h.segs ∧ (h.dropmax m x).base = h.base ∧
    (h.dropmax m x).end_ = h.end_ := by
  unfold Arena.dropmax
  split <;> exact ⟨rfl, rfl, rfl⟩

/-- The fragment that is taken, ready for its runts to be cut off. -/
theorem aligntake_ready (hR : Rep h B) (hp : B p = some (h.size p, .rover m))
    (hu : Rep (h.unlink m q p) (update B p (some (h.size p, .out none))))
    (hle : c ≤ h.size p) (hroom : n + 1 ≤ (c - 1) * Unitsz) :
    Ready B n ((h.unlink m q p).dropmax m (h.size p)) p
        (update B p (some (h.size p, .out none))) ∧
      In ((h.unlink m q p).dropmax m (h.size p)) m p ∧
      ((h.unlink m q p).dropmax m (h.size p)).size = h.size := by
  obtain ⟨hm, hb, ht⟩ := hR.rover_home hp
  have hpos := hR.carved.pos hp
  have htail := hR.segs.tail_le m hm
  refine ⟨(Ready.of_put hu (by rw [unlink_size]) (room_mono hroom hle)
    (outs_of_listed hp rfl)).dropmax m _, ?_, by rw [dropmax_size, unlink_size]⟩
  obtain ⟨h1, h2, h3⟩ := unlink_fields h m q p
  obtain ⟨h1', h2', h3'⟩ := dropmax_fields (h.unlink m q p) m (h.size p)
  refine ⟨?_, ?_, ?_⟩
  · rw [h1', h1]
    exact hm
  · rw [h2', h2]
    exact hb
  · rw [h3', h3]
    omega

/-- An aligned block is taken from a fragment that is large enough. -/
theorem aligntake_spec (IOHDRSZ : Nat) (hR : Rep h B) (ha : Aligning a b) (hc : 0 < c)
    (hc' : c < 2 ^ 28) (hroom : n + 1 ≤ (c - 1) * Unitsz) (hfit : h.alignfits c a p = true)
    (hp : B p = some (h.size p, .rover m))
    (hu : Rep (h.unlink m q p) (update B p (some (h.size p, .out none)))) :
    ∃ h' p', h.aligntake IOHDRSZ c a m q p = .ok (h', p') ∧ Got B n h' p' := by
  unfold Arena.alignfits at hfit
  simp only [decide_eq_true_eq, ha.uint_add hc'] at hfit
  obtain ⟨hle, hfit⟩ := hfit
  obtain ⟨hr, hi, hsize⟩ := aligntake_ready hR (c := c) (n := n) (q := q) hp hu hle hroom
  obtain ⟨h₁, p₁, B₁, hq₁, hr₁, hi₁, -⟩ := frontrunt_spec IOHDRSZ hr hi ha hroom hc
    (by rw [hsize]; exact hle) (by rw [hsize]; exact hfit)
  obtain ⟨h₂, B₂, hq₂, hr₂⟩ := rearrunt_spec IOHDRSZ hr₁ hi₁ hroom hc
  refine ⟨h₂.handout p₁, p₁, ?_, hr₂.got⟩
  unfold Arena.aligntake
  rw [hq₁]
  show (h₁.rearrunt IOHDRSZ c m p₁ >>= _) = _
  rw [hq₂]
  rfl

theorem alignrover_spec (IOHDRSZ : Nat) (hR : Rep h B) (ha : Aligning a b) (hc : 0 < c)
    (hc' : c < 2 ^ 28) (hroom : n + 1 ≤ (c - 1) * Unitsz) (ms : List Nat)
    (hms : ∀ m ∈ ms, m ∈ h.segs) :
    Meets (Arena.alignrover IOHDRSZ c a ms h) (fun _ => False) fun r =>
      ∀ h' p, r = some (h', p) → Got B n h' p := by
  induction ms with
  | nil => rintro h' p ⟨⟩
  | cons m ms ih =>
    have ih := ih fun m hm => hms m (List.mem_cons_of_mem _ hm)
    unfold Arena.alignrover
    split
    · exact ih
    · rename_i r hr
      have hw := hR.walk (hms m List.mem_cons_self) hr (h.alignfits c a)
      split
      · rename_i e he
        rw [he] at hw
        exact hw
      · exact ih
      · rename_i q p he
        rw [he] at hw
        obtain ⟨hfit, hp, hu⟩ := hw
        obtain ⟨h', p', ht, hg⟩ := aligntake_spec IOHDRSZ hR ha hc hc' hroom hfit hp hu
        rw [ht]
        rintro h'' p'' ⟨⟩
        exact hg

theorem alignsearch_spec (IOHDRSZ : Nat) (hR : Rep h B) (ha : Aligning a b) (hc : 0 < c)
    (hc' : c < 2 ^ 28) (hroom : n + 1 ≤ (c - 1) * Unitsz) :
    Meets (Arena.alignsearch IOHDRSZ c a h) (fun _ => False) (Found h B n) := by
  unfold Arena.alignsearch
  apply (aligntail_spec IOHDRSZ hR ha hc hc' hroom h.segs fun _ hm => hm).bind
  intro r hr
  cases r with
  | some r => exact hr _ _ rfl
  | none =>
    apply (alignrover_spec IOHDRSZ hR ha hc hc' hroom h.segs fun _ hm => hm).bind
    intro r hr
    cases r with
    | some r => exact hr _ _ rfl
    | none => exact ⟨hR, rfl, rfl, rfl⟩

/-! ## `mallocalign` -/

/-- Why a request may fail: there is no memory, or the arguments are wrong. -/
def Refused (e : Stop) : Prop := e = .nomem ∨ e = .align

variable {newpg : Nat → Option Nat}

theorem qmallocalign_spec (IOHDRSZ : Nat) (hR : Rep h B) (hn : Request n) (ha : a < 2 ^ 37)
    (hP : Pages h newpg 3) :
    Meets (h.qmallocalign IOHDRSZ n a newpg) Refused fun r => ∃ p, r.2 = some p ∧ Got B n r.1 p := by
  have hroom := NUNITS_room hn.lt
  have h2 := two_le_NUNITS hn.lt
  unfold Arena.qmallocalign
  rw [if_neg (by have := hn.pos; omega)]
  split
  · exact .inr rfl
  · rename_i hpow
    split
    · apply ((malloc_spec IOHDRSZ hR hn hP).imp (fun _ e => .inl e) (fun _ e => e)).bind
      rintro ⟨h', p⟩ hg
      exact ⟨p, rfl, hg⟩
    · rename_i hlo
      obtain ⟨b, hab⟩ := aligning_of_pow2 (not_not.mp hpow) (Nat.lt_of_not_le hlo) ha
      apply ((quickalign_spec IOHDRSZ hR hroom).imp (fun _ e => e.elim) (fun _ e => e)).bind
      intro q hq
      cases q with
      | some r => exact ⟨r.2, rfl, (hq _ _ rfl).got⟩
      | none =>
        have hs : ∀ h, Rep h B →
            Meets (Arena.alignsearch IOHDRSZ (NUNITS n) a h) (fun _ => False) (Found h B n) :=
          fun h hR => alignsearch_spec IOHDRSZ hR hab (by omega) (NUNITS_lt hn.lt) hroom
        apply ((again_spec hs _ 3 hR hP).imp (fun _ e => .inl e) (fun _ e => e)).bind
        rintro ⟨h', p⟩ hg
        exact ⟨p, rfl, hg⟩

/-- The alignment that `mallocalign` asks of `qmallocalign`. -/
def alignment (align span : Nat) : Nat := if span ≠ 0 ∧ align ≤ span then span else align

theorem mallocalign_spec (IOHDRSZ : Nat) (hR : Rep h B) (hn : Request n) {span : Nat}
    (ha : alignment a span < 2 ^ 37) (offset : Int) (hP : Pages h newpg 3) :
    Meets (h.mallocalign IOHDRSZ n a offset span newpg) Refused fun r =>
      r = (h, none) ∨ ∃ p, r.2 = some p ∧ Got B n r.1 p := by
  have hcheck : ∀ x, x < 2 ^ 37 →
      Meets (h.qmallocalign IOHDRSZ n x newpg >>= Arena.alignedblock x) Refused fun r =>
        r = (h, none) ∨ ∃ p, r.2 = some p ∧ Got B n r.1 p := by
    intro x hx
    apply (qmallocalign_spec IOHDRSZ hR hn hx hP).bind
    rintro ⟨h', r⟩ ⟨p, hp, hg⟩
    obtain rfl : r = some p := hp
    show Meets (if ALIGNED (p + 1) x then .ok (h', some p) else .error Stop.align) _ _
    split
    · exact .inr ⟨p, rfl, hg⟩
    · exact .inr rfl
  unfold alignment at ha
  unfold Arena.mallocalign
  split
  · rename_i hspan
    rw [if_pos hspan] at ha
    split
    · exact .inl rfl
    · split
      · exact .inr rfl
      · exact hcheck span ha
  · rename_i hspan
    rw [if_neg hspan] at ha
    split
    · exact .inr rfl
    · exact hcheck a ha

/-! ## `realloc` -/

/-- The block stays, with room for `n` bytes, or it is moved. -/
def Moved (B : Ranges Kind) (p n : Nat) (h' : Arena) (v : Nat) : Prop :=
  ∃ B' t, Rep h' B' ∧
    ((v = p ∧ outs B' = Function.update (outs B) p (some (t, some n))) ∨
      (outs B v = none ∧
        outs B' = Function.update (Function.update (outs B) v (some (t, some n))) p none))

/-- The block of the user is given new units up to the tail. -/
theorem Rep.realloctail (hR : Rep h B) (hm : m ∈ h.segs) {k : Nat}
    (hp : B p = some (s, .out (some k))) (hb : h.base m ≤ p) (ht : p + s = h.tailptr m)
    (hsc : s ≤ c) (hle : p + c ≤ h.end_ m) (hroom : n + 1 ≤ (c - 1) * Unitsz) :
    Rep ({ h with size := update h.size p c,
                  tailptr := update h.tailptr m (p + c) }.settag p c ATAG)
      (update B p (some (c, .out (some n)))) := by
  have hn := ((hR.sound hp).live k rfl).next
  have hR₁ := hR.extend hm hp hb ht hsc hle
  have hR₂ : Rep { h with
      size := update h.size p c,
      tailptr := update h.tailptr m (p + c) }
      (update B p (some (c, .out none))) := by
    apply hR₁.poke
    · intro q t k hq hk
      refine ⟨rfl, update_of_ne ?_ _ _⟩
      rintro rfl
      rw [update_self] at hq
      cases hq
      exact hk rfl
    · exact fun _ _ _ _ => rfl
  have hR₃ := hR₂.settag (update_self ..) (some n) (x := ATAG) fun k e => by
    cases e
    exact ⟨update_self .., hn, rfl, hroom⟩
  rwa [update_idem] at hR₃

theorem realloc_spec (IOHDRSZ : Nat) (hR : Rep h B) {k : Nat} (hp : B p = some (s, .out (some k)))
    (hn : Request n) (hP : Pages h newpg 3) :
    Meets (h.realloc IOHDRSZ (some (p + 1)) n newpg) (· = .nomem) fun r =>
      ∃ v, r.2 = some v ∧ Moved B p n r.1 v := by
  have hs := (hR.sound hp).size (by simp)
  have hl := (hR.sound hp).live k rfl
  have hpos := hR.carved.pos hp
  have hroom := NUNITS_room hn.lt
  unfold Arena.realloc
  rw [if_neg (by have := hn.pos; omega)]
  dsimp only
  rw [Nat.add_sub_cancel, hs, if_neg (by rw [hl.next]; simp; omega), hl.tag,
    if_neg (by decide), if_neg (by simp)]
  split
  · -- the block is large enough
    rename_i hle
    have hR' := hR.settag hp (some n) (x := ATAG) fun k e => by
      cases e
      exact ⟨hs, hl.next, rfl, room_mono hroom hle⟩
    have hsame : h.settag p s ATAG = h := by
      unfold Arena.settag
      rw [← hl.tag, update_eq_self]
    rw [hsame] at hR'
    exact ⟨p, rfl, _, s, hR', .inl ⟨rfl, outs_update B p _⟩⟩
  · rename_i hlt
    split
    · rename_i m hm
      have hin := List.mem_of_find?_eq_some hm
      have hfit := List.find?_some hm
      simp only [decide_eq_true_eq] at hfit
      obtain ⟨⟨hb, -⟩, ht, hle⟩ := hfit
      have hR' := hR.realloctail hin hp hb ht (by omega) hle hroom
      exact ⟨p, rfl, _, _, hR', .inl ⟨rfl, outs_update B p _⟩⟩
    · apply (malloc_spec IOHDRSZ hR hn hP).bind
      rintro ⟨h', v⟩ ⟨B', t, hR', hnew, hout⟩
      -- the old block is still the user's, and is freed
      have hpo : outs B p = some (s, some k) := outs_some.mpr hp
      have hne : p ≠ v := by
        rintro rfl
        rw [hnew] at hpo
        cases hpo
      have hp' : B' p = some (s, .out (some k)) :=
        outs_some.mp (by rw [hout, update_of_ne hne, hpo])
      obtain ⟨h'', hf, B'', hR'', hout'⟩ := free_spec IOHDRSZ hR' hp'
      dsimp only
      rw [hf]
      refine ⟨v, rfl, B'', t, hR'', .inr ⟨hnew, ?_⟩⟩
      rw [hout', hout]

end NixMark.Heap
