import Mathlib.Data.List.Perm.Subperm
import NixMark.Heap.Free
import NixMark.Lib.Outcome

/-!
# Malloc

* `Got`: a new block of the user, apart from all ranges that are out.
* `roverloop_spec`: the walk around the fragments of a segment ends, with a fragment that fits or
  with none. `again_spec`: the search with `morecore` in between.
* `qmalloc_spec`, `malloc_spec`: the caller gets a block, or the kernel has no memory left.
-/

namespace NixMark.Heap

open Lib
open Function (update update_eq_self update_idem update_of_ne update_self)

variable {h h' : Arena} {B B' : Ranges Kind} {p s m n : Nat}

/-- `p` is a new block for `n` bytes. -/
def Got (B : Ranges Kind) (n : Nat) (h' : Arena) (p : Nat) : Prop :=
  ∃ B' s, Rep h' B' ∧ outs B p = none ∧ outs B' = Function.update (outs B) p (some (s, some n))

/-- A block with its header goes to the user. -/
theorem Rep.handout (hR : Rep h B) (hp : B p = some (h.size p, .out none))
    (hroom : n + 1 ≤ (h.size p - 1) * Unitsz) :
    Rep (h.handout p) (update B p (some (h.size p, .out (some n)))) := by
  have hR' : Rep { h with next := update h.next p none } B := by
    apply hR.poke
    · intro q t k hq hk
      refine ⟨update_of_ne ?_ _ _, rfl⟩
      rintro rfl
      rw [hp] at hq
      cases hq
      exact hk rfl
    · exact fun _ _ _ _ => rfl
  apply hR'.settag hp (some n)
  rintro k ⟨⟩
  exact ⟨rfl, update_self .., rfl, hroom⟩

/-- `p` is a block that is about to be handed out for `n` bytes. -/
structure Ready (B : Ranges Kind) (n : Nat) (h' : Arena) (p : Nat) (B' : Ranges Kind) : Prop where
  rep : Rep h' B'
  block : B' p = some (h'.size p, .out none)
  room : n + 1 ≤ (h'.size p - 1) * Unitsz
  new : outs B p = none
  out : outs B' = Function.update (outs B) p (some (h'.size p, none))

theorem Ready.got (hr : Ready B n h' p B') : Got B n (h'.handout p) p := by
  refine ⟨_, h'.size p, hr.rep.handout hr.block hr.room, hr.new, ?_⟩
  rw [outs_update, hr.out, update_idem]
  rfl

/-- A range that was on a list, or unused, becomes a block. -/
theorem Ready.of_put {s : Nat} (hR : Rep h' (update B p (some (s, .out none))))
    (hs : h'.size p = s) (hroom : n + 1 ≤ (s - 1) * Unitsz) (hnew : outs B p = none) :
    Ready B n h' p (update B p (some (s, .out none))) := by
  subst hs
  exact ⟨hR, update_self .., hroom, hnew, outs_update B p _⟩

theorem outs_of_listed {k : Kind} (hp : B p = some (s, k)) (hk : k.listed = true) :
    outs B p = none := by
  unfold outs
  rw [hp]
  cases k with
  | out n => cases hk
  | _ => rfl

variable {a : Nat}

/-- More units have more room. -/
theorem room_mono {b : Nat} (h : n + 1 ≤ (a - 1) * Unitsz) (hab : a ≤ b) :
    n + 1 ≤ (b - 1) * Unitsz :=
  Nat.le_trans h (Nat.mul_le_mul_right _ (Nat.sub_le_sub_right hab 1))

/-- No fragment is new or has grown. -/
def Shrinks (B B' : Ranges Kind) : Prop :=
  ∀ q t m, B' q = some (t, .rover m) → ∃ t', t ≤ t' ∧ B q = some (t', .rover m)

/-- A range that is no fragment is put. -/
theorem Shrinks.update {r : Option (Nat × Kind)} (hr : ∀ t m, r ≠ some (t, .rover m)) :
    Shrinks B (update B p r) := by
  intro q t m hq
  by_cases hqp : q = p
  · subst hqp
    rw [update_self] at hq
    exact absurd hq (hr t m)
  · rw [update_of_ne hqp] at hq
    exact ⟨t, Nat.le_refl t, hq⟩

/-- `p` comes from a quick list; the fragments and their bounds stay. -/
def Taken (h : Arena) (B : Ranges Kind) (n : Nat) (h' : Arena) (p : Nat) : Prop :=
  ∃ h₀ B₀, Ready B n h₀ p B₀ ∧ Shrinks B B₀ ∧ h₀.maxsz = h.maxsz ∧ h' = h₀.handout p

theorem Taken.got (ht : Taken h B n h' p) : Got B n h' p := by
  obtain ⟨h₀, B₀, hr, -, -, rfl⟩ := ht
  exact hr.got

/-! ## Quick lists -/

variable {c : Nat}

/-- The first block of a quick list. -/
theorem Rep.pophead (hR : Rep h B) (hc : h.quick c = some p) :
    B p = some (c, .quick) ∧
    Rep { h with quick := update h.quick c (h.next p) } (update B p (some (c, .out none))) := by
  obtain ⟨l, hl, hd, hmem⟩ := hR.lists.quick c
  rw [hc] at hl
  cases l with
  | nil => cases hl
  | cons a l =>
    obtain ⟨⟨⟩, hl⟩ := hl
    have hd := List.nodup_cons.mp hd
    have hp := (hmem p).mp List.mem_cons_self
    refine ⟨hp, ?_⟩
    apply hR.pop hp
    · refine ⟨l, ?_, hd.2, fun q => ?_⟩
      · rw [update_self]
        exact hl
      · rw [← hmem, List.mem_cons]
        constructor
        · exact fun hq => ⟨ne_of_mem_of_not_mem hq hd.1, .inr hq⟩
        · exact fun hq => hq.2.resolve_left hq.1
    · exact fun k hk => update_of_ne hk _ _
    · exact fun _ _ => rfl

theorem quickloop_spec (IOHDRSZ : Nat) (hR : Rep h B) (k c : Nat)
    (hroom : n + 1 ≤ (c - 1) * Unitsz) :
    Meets (Arena.quickloop IOHDRSZ k c h) (fun _ => False) fun r =>
      ∀ h' p, r = some (h', p) → Taken h B n h' p := by
  induction k generalizing c with
  | zero =>
    rintro h' p ⟨⟩
  | succ k ih =>
    unfold Arena.quickloop
    split
    · split
      · exact ih (c + 1) (room_mono hroom (Nat.le_succ c))
      · rename_i p hp
        obtain ⟨hB, hR'⟩ := hR.pophead hp
        have hs := (hR.sound hB).size (by simp)
        rw [if_neg (by omega)]
        rintro h' p' ⟨⟩
        exact ⟨_, _, Ready.of_put hR' hs hroom (outs_of_listed hB rfl), Shrinks.update (by simp),
          rfl, rfl⟩
    · rintro h' p ⟨⟩

theorem quickalloc_spec (IOHDRSZ : Nat) (hR : Rep h B) (c : Nat)
    (hroom : n + 1 ≤ (c - 1) * Unitsz) :
    Meets (h.quickalloc IOHDRSZ c) (fun _ => False) fun r =>
      ∀ h' p, r = some (h', p) → Taken h B n h' p := by
  unfold Arena.quickalloc
  split
  · exact quickloop_spec IOHDRSZ hR _ _ hroom
  · rintro h' p ⟨⟩

/-! ## Fragments -/

/-- The walk from `prev` finds the first fragment that fits, or there is none. -/
theorem roverloop_spec {fits : Nat → Bool} {r prev : Nat} {l : List Nat}
    (hl : Path h.next prev l r) (hne : l ≠ []) (hd : l.Nodup) (fuel msize : Nat)
    (hf : l.length ≤ fuel) :
    Meets (h.roverloop fits r fuel prev msize) (fun _ => False) fun res =>
      match res with
      | .inr (q, p) => fits p = true ∧ ∃ l₁ l₂, l = l₁ ++ p :: l₂ ∧ Path h.next prev l₁ q ∧
          h.next q = some p ∧ Path h.next p l₂ r
      | .inl x => ∀ p ∈ l, fits p = false ∧ h.size p ≤ x := by
  suffices hs : Meets (h.roverloop fits r fuel prev msize) (fun _ => False) fun res =>
      match res with
      | .inr (q, p) => fits p = true ∧ ∃ l₁ l₂, l = l₁ ++ p :: l₂ ∧ Path h.next prev l₁ q ∧
          h.next q = some p ∧ Path h.next p l₂ r
      | .inl x => msize ≤ x ∧ ∀ p ∈ l, fits p = false ∧ h.size p ≤ x by
    apply hs.imp (fun _ e => e)
    rintro (x | ⟨q, p⟩) hx
    · exact hx.2
    · exact hx
  induction l generalizing prev fuel msize with
  | nil => exact absurd rfl hne
  | cons a l ih =>
    obtain ⟨hnext, hl⟩ := hl
    have hd := List.nodup_cons.mp hd
    cases fuel with
    | zero => cases hf
    | succ fuel =>
      have hsize : h.size a ≤ if msize < h.size a then h.size a else msize := by
        split <;> omega
      have hmsize : msize ≤ if msize < h.size a then h.size a else msize := by
        split <;> omega
      unfold Arena.roverloop
      rw [hnext]
      dsimp only
      split
      · rename_i hfit
        exact ⟨hfit, [], l, rfl, rfl, hnext, hl⟩
      · rename_i hfit
        have hfit : fits a = false := by simpa using hfit
        split
        · -- the walk is at the last fragment
          rename_i har
          subst har
          have hnil : l = [] := by
            by_contra hnil
            exact hd.1 (hl.last_mem hnil)
          subst hnil
          refine ⟨hmsize, fun p hp => ?_⟩
          rw [List.mem_singleton] at hp
          rw [hp]
          exact ⟨hfit, hsize⟩
        · rename_i har
          have hnil : l ≠ [] := by
            rintro rfl
            exact har hl
          apply (ih hl hnil hd.2 fuel _ (Nat.le_of_succ_le_succ hf)).imp (fun _ e => e)
          rintro (x | ⟨q, p⟩) hx
          · refine ⟨Nat.le_trans hmsize hx.1, fun p hp => ?_⟩
            rcases List.mem_cons.mp hp with rfl | hp
            · exact ⟨hfit, Nat.le_trans hsize hx.1⟩
            · exact hx.2 p hp
          · obtain ⟨hfp, l₁, l₂, rfl, h₁, hq, h₂⟩ := hx
            exact ⟨hfp, a :: l₁, l₂, rfl, ⟨hnext, h₁⟩, hq, h₂⟩

/-- Different addresses in an interval are at most as many as the interval is long. -/
theorem length_le_of_mem {l : List Nat} {b : Nat} (hd : l.Nodup) (hl : ∀ q ∈ l, a ≤ q ∧ q < b) :
    l.length ≤ b - a := by
  have hsub : l ⊆ List.range' a (b - a) := by
    intro q hq
    have := hl q hq
    rw [List.mem_range'_1]
    omega
  have hle := (hd.subperm hsub).length_le
  rwa [List.length_range'] at hle

/-- What the walk around the fragments of a segment finds. -/
theorem Rep.walk (hR : Rep h B) (hm : m ∈ h.segs) {r : Nat} (hr : h.rover m = some r)
    (fits : Nat → Bool) :
    Meets (h.roverloop fits r (h.below m) r 0) (fun _ => False) fun res =>
      match res with
      | .inr (q, p) => fits p = true ∧ B p = some (h.size p, .rover m) ∧
          Rep (h.unlink m q p) (update B p (some (h.size p, .out none)))
      | .inl x => ∀ p s, B p = some (s, .rover m) → fits p = false ∧ s ≤ x := by
  obtain ⟨l, hl, hmem⟩ := hR.lists.rover m hm
  rw [hr] at hl
  have hlen : l.length ≤ h.below m := by
    apply length_le_of_mem hl.nodup
    intro q hq
    obtain ⟨t, ht⟩ := (hmem q).mp hq
    have := hR.rover_home ht
    have := hR.carved.pos ht
    omega
  apply (roverloop_spec hl.2.2 hl.1 hl.2.1 _ 0 hlen).imp (fun _ e => e)
  rintro (x | ⟨q, p⟩) hx
  · intro p s hp
    have hps := hx p ((hmem p).mpr ⟨s, hp⟩)
    rw [(hR.sound hp).size (by simp)] at hps
    exact hps
  · obtain ⟨hfit, l₁, l₂, rfl, h₁, hq, h₂⟩ := hx
    obtain ⟨t, ht⟩ := (hmem p).mp (by simp)
    obtain rfl := (hR.sound ht).size (by simp)
    exact ⟨hfit, ht, hR.unlink ht hl.nodup hmem h₁ hq h₂⟩

theorem dropmax_size (h : Arena) (m x : Nat) : (h.dropmax m x).size = h.size := by
  unfold Arena.dropmax
  split <;> rfl

theorem unlink_size (h : Arena) (m q p : Nat) : (h.unlink m q p).size = h.size := by
  unfold Arena.unlink
  split <;> rfl

theorem Ready.dropmax (hr : Ready B n h' p B') (m x : Nat) : Ready B n (h'.dropmax m x) p B' := by
  have hs := dropmax_size h' m x
  refine ⟨hr.rep.dropmax m x, ?_, ?_, hr.new, ?_⟩
  · rw [hs]
    exact hr.block
  · rw [hs]
    exact hr.room
  · rw [hs]
    exact hr.out

/-- Units of a fragment that is large enough. -/
theorem cut_spec (hR : Rep h B) {q : Nat} (hp : B p = some (h.size p, .rover m))
    (hu : Rep (h.unlink m q p) (update B p (some (h.size p, .out none)))) (hc : 0 < c)
    (hle : c ≤ h.size p) (hroom : n + 1 ≤ (c - 1) * Unitsz) :
    ∃ B', Ready B n (h.cut m q p c).1 (h.cut m q p c).2 B' ∧ Shrinks B B' := by
  have hnew : outs B p = none := outs_of_listed hp rfl
  unfold Arena.cut
  split
  · have hs := hR.split hp (by simp) (by simp) (a := h.size p - c) (by omega) (by omega)
    rw [Nat.sub_sub_self hle] at hs
    have hnone : B (p + (h.size p - c)) = none :=
      hR.carved.none_inside hp (by omega) (by omega)
    have hself : (update (update h.size p (h.size p - c)) (p + (h.size p - c)) c)
        (p + (h.size p - c)) = c := update_self ..
    refine ⟨_, ⟨hs, ?_, ?_, ?_, ?_⟩, ?_⟩
    · dsimp only
      rw [update_self, hself]
    · dsimp only
      rw [hself]
      exact hroom
    · unfold outs
      dsimp only
      rw [hnone]
      rfl
    · dsimp only
      have hkeep : update (outs B) p (outOf (some (h.size p - c, .rover m))) = outs B :=
        update_outs_none hnew
      rw [outs_update, outs_update, hkeep, hself]
      rfl
    · intro x t m' hx
      by_cases hxr : x = p + (h.size p - c)
      · rw [hxr, update_self] at hx
        cases hx
      · rw [update_of_ne hxr] at hx
        by_cases hxp : x = p
        · subst hxp
          rw [update_self] at hx
          cases hx
          exact ⟨h.size x, Nat.sub_le _ _, hp⟩
        · rw [update_of_ne hxp] at hx
          exact ⟨t, Nat.le_refl t, hx⟩
  · refine ⟨_, Ready.of_put hu ?_ (room_mono hroom hle) hnew, Shrinks.update (by simp)⟩
    dsimp only
    rw [unlink_size]

/-- `qmalloc` takes units of a fragment that is large enough. -/
theorem take_spec (hR : Rep h B) {q : Nat} (hp : B p = some (h.size p, .rover m))
    (hu : Rep (h.unlink m q p) (update B p (some (h.size p, .out none)))) (hc : 0 < c)
    (hle : c ≤ h.size p) (hroom : n + 1 ≤ (c - 1) * Unitsz) :
    Got B n (h.take m q p c).1 (h.take m q p c).2 := by
  obtain ⟨B', hr, -⟩ := cut_spec hR hp hu hc hle hroom
  exact (hr.dropmax m _).got

/-- A search that finds nothing leaves the ranges and the segments. -/
structure Same (h h' : Arena) (B : Ranges Kind) : Prop where
  rep : Rep h' B
  segs : h'.segs = h.segs
  base : h'.base = h.base
  end_ : h'.end_ = h.end_

/-- What a search for `n` bytes finds. -/
def Found (h : Arena) (B : Ranges Kind) (n : Nat) : Arena × Option Nat → Prop
  | (h', some p) => Got B n h' p
  | (h', none) => Same h h' B

theorem roversegs_spec (hc : 0 < c) (hroom : n + 1 ≤ (c - 1) * Unitsz) (ms : List Nat)
    (hR : Rep h B) (hms : ∀ m ∈ ms, m ∈ h.segs) :
    Meets (Arena.roversegs c ms h) (fun _ => False) (Found h B n) := by
  induction ms generalizing h with
  | nil => exact ⟨hR, rfl, rfl, rfl⟩
  | cons m ms ih =>
    have hms' : ∀ m ∈ ms, m ∈ h.segs := fun m hm => hms m (List.mem_cons_of_mem _ hm)
    unfold Arena.roversegs
    split
    · exact ih hR hms'
    · rename_i r hr
      split
      · exact ih hR hms'
      · have hw := hR.walk (hms m List.mem_cons_self) hr fun p => decide (c ≤ h.size p)
        split
        · rename_i e he
          rw [he] at hw
          exact hw
        · rename_i q p he
          rw [he] at hw
          obtain ⟨hfit, hp, hu⟩ := hw
          exact take_spec hR hp hu hc (by simpa using hfit) hroom
        · rename_i x he
          have hR' := hR.maxsz (update h.maxsz m x)
          apply (ih hR' hms').imp (fun _ e => e)
          rintro ⟨h', r'⟩ hx
          cases r' with
          | some p => exact hx
          | none => exact ⟨hx.rep, hx.segs, hx.base, hx.end_⟩

/-- Units from the tail, with a clean header. -/
theorem Rep.tailalloc (hR : Rep h B) (hm : m ∈ h.segs) (hc : 0 < c)
    (hle : h.tailptr m + c ≤ h.end_ m) :
    B (h.tailptr m) = none ∧
    Rep (h.tailalloc m c).1 (update B (h.tailptr m) (some (c, .out none))) := by
  have hnone : B (h.tailptr m) = none := hR.none_above hm (Nat.le_refl _) (by omega)
  refine ⟨hnone, ?_⟩
  apply (hR.tail hm hc hle).poke
  · intro q t k hq hk
    have hne : q ≠ h.tailptr m := by
      rintro rfl
      rw [update_self] at hq
      cases hq
      exact hk rfl
    exact ⟨update_of_ne hne _ _, update_of_ne hne _ _⟩
  · exact fun _ _ _ _ => rfl

/-- A block whose link is nil already needs its end tag only. -/
theorem Ready.tagged (hr : Ready B n h' p B') (hn : h'.next p = none) (hc : h'.size p = c) :
    Got B n (h'.settag p c ATAG) p := by
  have hg := hr.got
  unfold Arena.handout at hg
  rw [hc, ← hn, update_eq_self] at hg
  exact hg

/-- A block of the user from the tail. -/
theorem Rep.tailgot (hR : Rep h B) (hm : m ∈ h.segs) (hc : 0 < c) (hle : h.tailptr m + c ≤ h.end_ m)
    (hroom : n + 1 ≤ (c - 1) * Unitsz) :
    Got B n ((h.tailalloc m c).1.settag (h.tailptr m) c ATAG) (h.tailptr m) := by
  obtain ⟨hnone, hR'⟩ := hR.tailalloc hm hc hle
  have hnew : outs B (h.tailptr m) = none := by
    unfold outs
    rw [hnone]
    rfl
  have hs : (h.tailalloc m c).1.size (h.tailptr m) = c := update_self ..
  exact (Ready.of_put hR' hs hroom hnew).tagged (update_self ..) hs

theorem search_spec (hc : 0 < c) (hroom : n + 1 ≤ (c - 1) * Unitsz) (hR : Rep h B) :
    Meets (Arena.search c h) (fun _ => False) (Found h B n) := by
  unfold Arena.search
  split
  · rename_i m hm
    have hin := List.mem_of_find?_eq_some hm
    have hfit := List.find?_some hm
    simp only [decide_eq_true_eq] at hfit
    have htail := hR.segs.tail_le m hin
    exact hR.tailgot hin hc (by omega) hroom
  · exact roversegs_spec hc hroom h.segs hR fun _ hm => hm

/-! ## `morecore` and the retries -/

/-- The pages that the next `k` calls of `newpg` return. -/
structure Pages (h : Arena) (newpg : Nat → Option Nat) (k : Nat) : Prop where
  fresh : ∀ j < k, ∀ a, newpg j = some a → FreshPage h a
  apart : ∀ i < k, ∀ j < k, ∀ a b, i ≠ j → newpg i = some a → newpg j = some b →
    a + mallocpgsz / Unitsz ≤ b ∨ b + mallocpgsz / Unitsz ≤ a

variable {newpg : Nat → Option Nat}

theorem Pages.same {k : Nat} (hP : Pages h newpg k) (hs : Same h h' B) : Pages h' newpg k := by
  refine ⟨fun j hj a ha => ?_, hP.apart⟩
  have hf := hP.fresh j hj a ha
  refine ⟨?_, hf.top, ?_⟩
  · rw [hs.segs]
    exact hf.new
  · rw [hs.segs, hs.base, hs.end_]
    exact hf.apart

/-- The pages left after `morecore`. -/
theorem Pages.morecore {k : Nat} (hP : Pages h newpg (k + 1)) (ha : newpg k = some a)
    (hsz : c ≤ mallocpgsz / Unitsz) : Pages (h.morecore c (some a)).1 newpg k := by
  refine ⟨fun j hj b hb => ?_, fun i hi j hj => hP.apart i (by omega) j (by omega)⟩
  have hf := hP.fresh j (by omega) b hb
  have hfa := hP.fresh k (by omega) a ha
  have hab := hP.apart k (by omega) j (by omega) a b (by omega) ha hb
  obtain ⟨hbase, -, hend, -⟩ := mallocinitseg_bounds h a
  have hpg : mallocpgsz / Unitsz = 65536 := rfl
  rw [hpg] at hab
  have hmem : ∀ m ∈ h.segs.take 1 ++ a :: h.segs.drop 1, m = a ∨ m ∈ h.segs := by
    intro m hm
    rcases List.mem_append.mp hm with hm | hm
    · exact .inr (List.mem_of_mem_take hm)
    · rcases List.mem_cons.mp hm with hm | hm
      · exact .inl hm
      · exact .inr (List.mem_of_mem_drop hm)
  unfold Arena.morecore
  rw [if_neg (by omega)]
  refine ⟨?_, hf.top, ?_⟩
  · intro hmb
    rcases hmem b hmb with rfl | hmb
    · omega
    · exact hf.new hmb
  · intro m hm
    rw [hpg]
    dsimp only
    rcases hmem m hm with rfl | hm
    · omega
    · have hne : m ≠ a := ne_of_mem_of_not_mem hm hfa.new
      have := hf.apart m hm
      rw [hpg] at this
      simp only [Arena.mallocinitseg, update_of_ne hne]
      exact this

/-- The search finds a block, or `morecore` has no more for it. -/
theorem again_spec {search : Arena → Except Stop (Arena × Option Nat)}
    (hs : ∀ h, Rep h B → Meets (search h) (fun _ => False) (Found h B n)) (more : Nat) (mc : Nat)
    (hR : Rep h B) (hP : Pages h newpg mc) :
    Meets (Arena.again search more newpg mc h) (· = .nomem) fun r => Got B n r.1 r.2 := by
  induction mc generalizing h with
  | zero =>
    unfold Arena.again
    apply ((hs h hR).imp (fun _ e => e.elim) (fun _ e => e)).bind
    rintro ⟨h', r⟩ hx
    cases r with
    | some p => exact hx
    | none => rfl
  | succ k ih =>
    unfold Arena.again
    apply ((hs h hR).imp (fun _ e => e.elim) (fun _ e => e)).bind
    rintro ⟨h', r⟩ hx
    cases r with
    | some p => exact hx
    | none =>
      have hP' := hP.same hx
      cases hpg : newpg k with
      | none =>
        have : (h'.morecore more none).2 = false := by
          unfold Arena.morecore
          split <;> rfl
        dsimp only
        generalize h'.morecore more none = r at this
        obtain ⟨h'', b⟩ := r
        cases this
        rfl
      | some a =>
        have hR' := hx.rep.morecore (hP'.fresh k (Nat.lt_succ_self k) a hpg) more
        dsimp only
        by_cases hsz : mallocpgsz / Unitsz < more
        · have : h'.morecore more (some a) = (h', false) := by
            unfold Arena.morecore
            rw [if_pos hsz]
          rw [this]
          rfl
        · have hP'' := hP'.morecore hpg (Nat.le_of_not_lt hsz)
          have : (h'.morecore more (some a)).2 = true := by
            unfold Arena.morecore
            rw [if_neg hsz]
          generalize h'.morecore more (some a) = r at this hR' hP''
          obtain ⟨h'', b⟩ := r
          cases this
          exact ih hR' hP''

/-- What a request for `n` bytes may be. -/
structure Request (n : Nat) : Prop where
  pos : 0 < n
  lt : n + Unitsz < 2 ^ 32

theorem qmalloc_spec (IOHDRSZ : Nat) (hR : Rep h B) (hn : Request n) (hP : Pages h newpg 3) :
    Meets (h.qmalloc IOHDRSZ n newpg) (· = .nomem) fun r => ∃ p, r.2 = some p ∧ Got B n r.1 p := by
  have hroom := NUNITS_room hn.lt
  have hpos : 0 < NUNITS n := by
    have := two_le_NUNITS hn.lt
    omega
  unfold Arena.qmalloc
  rw [if_neg (by have := hn.pos; omega)]
  apply ((quickalloc_spec IOHDRSZ hR _ hroom).imp (fun _ e => e.elim) (fun _ e => e)).bind
  intro q hq
  cases q with
  | some r => exact ⟨r.2, rfl, (hq _ _ rfl).got⟩
  | none =>
    apply (again_spec (fun h hR => search_spec hpos hroom hR) (NUNITS n) 3 hR hP).bind
    rintro ⟨h', p⟩ hg
    exact ⟨p, rfl, hg⟩

theorem malloc_spec (IOHDRSZ : Nat) (hR : Rep h B) (hn : Request n) (hP : Pages h newpg 3) :
    Meets (h.malloc IOHDRSZ n newpg) (· = .nomem) fun r => Got B n r.1 r.2 := by
  unfold Arena.malloc
  apply (qmalloc_spec IOHDRSZ hR hn hP).bind
  rintro ⟨h', r⟩ ⟨p, hr, hg⟩
  obtain rfl : r = some p := hr
  exact hg

end NixMark.Heap
