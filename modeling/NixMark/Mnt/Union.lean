import NixMark.Mnt.Counts

/-!
# Mounts before and after a directory

* `visible`: the channels of the directory that a path names; `Union`: the channels that are
  searched at a mount point.
* `At`: a walk of the path, and the climb back; `old_visible`: what `initunion` finds.
* `mntmount_union`: when the directory that was visible stays in the union.
-/

namespace NixMark.Mnt

open Lib

variable {C : Type} {h h' h₀ h₁ h₂ : Heap C} {n m k r q u : ℕ} {l pre post ins : List (Mounted C)}
  {dev : Dev C} {el : String} {els p : List String} {flags : Order} {w : Heap.Walked C} {c : C}
  {mnt : Option ℕ}

/-- The first name was not found. -/
def Walkqid.Missed : Walkqid C → Prop
  | .nil => True
  | .part nqid => nqid = 0
  | .clone _ => False

/-- A device walks the names one by one, and a walk without names makes a clone. -/
structure Dev.Walks (dev : Dev C) : Prop where
  first : ∀ c el els els', (dev.walk c (el :: els)).Missed → (dev.walk c (el :: els')).Missed
  zero : ∀ c, ∃ d, dev.walk c [] = .clone d

/-- The walk of the names that are left in each channel of `*mp`. -/
def Heap.visible (dev : Dev C) (h : Heap C) (root : ℕ) (p : List String) : List C :=
  let w := h.mntwalk dev false false root p
  (h.chans w.mp).filterMap fun c => Heap.clwalk dev c (p.drop w.nres)

/-- A channel that comes before a `Mount` on the way has the name. -/
def Heap.hidden (dev : Dev C) (h : Heap C) : List String → ℕ → Bool
  | [], _ => false
  | el :: els, n =>
    match h.child n el with
    | none => false
    | some k =>
      match h.mntwalk1 dev true (decide (1 < (h.mnt n).um.length)) el els (h.mnt n).um with
      | .child _ => h.hidden dev els k
      | _ => true

/-- `p` is a mount point, and `cs` are the channels that `mntlookup` searches there. -/
structure Union (dev : Dev C) (h : Heap C) (root : ℕ) (p : List String) (cs : List C) : Prop where
  nc : (h.mntwalk dev true false root p).nc = none
  nres : (h.mntwalk dev true false root p).nres = p.length
  chans : h.chans (h.mntwalk dev true false root p).mp = cs

/-! ## Walks and climbs -/

/-- The walk of `p` is at `n`, with the names `els` left. -/
structure At (h : Heap C) (r : ℕ) (p : List String) (n : ℕ) (els : List String)
    (w : Heap.Walked C) : Prop where
  drop : p.drop w.i = els
  i : w.i + els.length = p.length
  nres : w.nres ≤ w.i
  nc : w.nc = none
  climb : h.climb h.next (some n) els =
    if (h.mnt w.mp).ismount ≠ 0 then some (w.mp, p.drop w.nres) else none
  root : n = r → w.mp = r ∧ w.nres = 0

/-- The walk goes to the `Mount` `k`. -/
def Heap.mark (h : Heap C) (k : ℕ) (w : Heap.Walked C) : Heap.Walked C :=
  if (h.mnt k).ismount ≠ 0 then ⟨w.i + 1, k, w.i + 1, none⟩ else { w with i := w.i + 1 }

theorem At.start (hr : Root h r) : At h r p r p ⟨0, r, 0, none⟩ := by
  refine ⟨rfl, Nat.zero_add _, le_rfl, rfl, ?_, fun _ => ⟨rfl, rfl⟩⟩
  obtain ⟨fuel, hf⟩ : ∃ f, h.next = f + 1 := ⟨h.next - 1, by have := hr.lt; omega⟩
  rw [hf, Heap.climb, hr.parent]
  split_ifs
  · rfl
  · cases fuel <;> rfl

theorem At.mark (ha : At h r p n (el :: els) w) (hs : Sound h) (hr : Root h r)
    (hb : Below h.children r n) (hc : h.child n el = some k) : At h r p k els (h.mark k w) := by
  obtain ⟨hmem, hel⟩ := child_mem hc
  have hlt := (hs n).order k hmem
  have hi := ha.i
  rw [List.length_cons] at hi
  have hdrop : p.drop (w.i + 1) = els := by
    rw [← List.drop_drop, ha.drop]
    rfl
  have hkr : k ≠ r := by
    rintro rfl
    exact hr.not_child hs hmem
  obtain ⟨fuel, hf⟩ : ∃ f, h.next = f + 1 := ⟨h.next - 1, by omega⟩
  have hclimb : (h.mnt k).ismount = 0 →
      h.climb h.next (some k) els = h.climb h.next (some n) (el :: els) := by
    intro hi
    rw [hf, Heap.climb, if_neg (not_not.mpr hi), hs.parent n k hmem, hel]
    exact climb_fuel hs hr hb (by omega) (by omega)
  unfold Heap.mark
  split_ifs with hi'
  · refine ⟨hdrop, by simp only; omega, le_rfl, rfl, ?_, fun e => absurd e hkr⟩
    rw [if_pos hi', hdrop, hf, Heap.climb, if_pos hi']
  · refine ⟨hdrop, by simp only; omega, ha.nres.trans (Nat.le_succ _), ha.nc, ?_,
      fun e => absurd e hkr⟩
    rw [hclimb (not_not.mp hi'), ha.climb]

theorem walkloop_false (els : List String) (n : ℕ) (w : Heap.Walked C) :
    h.walkloop dev false false (el :: els) n w =
      match h.child n el with
      | none => w
      | some k => h.walkloop dev false false els k (h.mark k w) := by
  rw [Heap.walkloop, mntwalk1_table]
  cases h.child n el with
  | none => rfl
  | some k =>
    simp only [Bool.false_eq_true, false_or]
    rfl

theorem At.walk (ha : At h r p n els w) (hs : Sound h) (hr : Root h r)
    (hb : Below h.children r n) : At h r p (h.trail els n).1 (h.trail els n).2
      (h.walkloop dev false false els n w) := by
  induction els generalizing n w with
  | nil => exact ha
  | cons el els ih =>
    rw [walkloop_false, Heap.trail]
    cases hc : h.child n el with
    | none => exact ha
    | some k => exact ih (ha.mark hs hr hb hc) (hb.step (child_mem hc).1)

theorem mntwalk_at (dev : Dev C) (p : List String) (hs : Sound h) (hr : Root h r) :
    At h r p (h.trail p r).1 (h.trail p r).2 (h.mntwalk dev false false r p) :=
  (At.start hr).walk hs hr .here

/-- `initunion` finds what was visible, where a `Mount` on the way has a count. -/
theorem old_visible (dev : Dev C) (p : List String) (hs : Sound h) (hr : Root h r) :
    h.old dev (h.trail p r).1 (h.trail p r).2 =
      if (h.mnt (h.mntwalk dev false false r p).mp).ismount ≠ 0 then h.visible dev r p else [] := by
  rw [Heap.old, (mntwalk_at dev p hs hr).climb]
  split_ifs <;> rfl

theorem trail_le (ho : Ordered h) (p : List String) (n : ℕ) : n ≤ (h.trail p n).1 := by
  induction p generalizing n with
  | nil => exact le_rfl
  | cons el els ih =>
    rw [Heap.trail]
    cases hc : h.child n el with
    | none => exact le_rfl
    | some k => exact (ho n k (child_mem hc).1).1.le.trans (ih k)

/-- A walk that wants a channel finds the same `Mount`, if it finds one. -/
theorem mntwalk1_child_true {union : Bool}
    (hf : h.mntwalk1 dev true union el els l = .child k) :
    h.mntwalk1 dev false union el els l = .child k := by
  induction l with
  | nil => cases hf
  | cons x l ih =>
    cases x with
    | child b =>
      rw [Heap.mntwalk1] at hf ⊢
      split_ifs at hf ⊢
      · exact hf
      · exact ih hf
    | chan c =>
      rw [Heap.mntwalk1, if_neg (by simp)]
      rw [Heap.mntwalk1] at hf
      split_ifs at hf
      · split at hf
        · exact ih hf
        · split_ifs at hf
          exact ih hf
        · cases hf
      · exact ih hf

/-! ## The way in another heap -/

theorem mntwalk1_congr {nc union : Bool} (he : ∀ k ∈ kids l, (h'.mnt k).elem = (h.mnt k).elem) :
    h'.mntwalk1 dev nc union el els l = h.mntwalk1 dev nc union el els l := by
  induction l with
  | nil => rfl
  | cons x l ih =>
    cases x with
    | chan c => rw [Heap.mntwalk1, Heap.mntwalk1, ih he]
    | child k =>
      rw [Heap.mntwalk1, Heap.mntwalk1, he k List.mem_cons_self,
        ih fun b hb => he b (List.mem_cons_of_mem k hb)]

/-- More names do not make a channel have the first one. -/
theorem mntwalk1_longer {union : Bool} {xs : List String} (hx : xs = [] ∨ dev.Walks)
    (hf : h.mntwalk1 dev true union el els l = .child k) :
    h.mntwalk1 dev true union el (els ++ xs) l = .child k := by
  obtain rfl | hx := hx
  · rwa [List.append_nil]
  induction l with
  | nil => cases hf
  | cons x l ih =>
    cases x with
    | child b =>
      rw [Heap.mntwalk1] at hf ⊢
      split_ifs at hf ⊢
      · exact hf
      · exact ih hf
    | chan c =>
      rw [Heap.mntwalk1] at hf ⊢
      split_ifs at hf ⊢
      · have hmiss : (dev.walk c (el :: els)).Missed ∧
            h.mntwalk1 dev true union el els l = .child k := by
          cases hw : dev.walk c (el :: els) with
          | nil =>
            rw [hw] at hf
            exact ⟨trivial, hf⟩
          | part nqid =>
            rw [hw] at hf
            simp only at hf
            split_ifs at hf with h0
            exact ⟨Nat.eq_zero_of_not_pos h0, hf⟩
          | clone d =>
            rw [hw] at hf
            cases hf
        have hmiss' := hx.first c el els (els ++ xs) hmiss.1
        cases hw : dev.walk c (el :: (els ++ xs)) with
        | nil => exact ih hmiss.2
        | part nqid =>
          rw [hw] at hmiss'
          simp only
          rw [if_neg (Nat.not_lt.mpr (Nat.le_zero.mpr hmiss'))]
          exact ih hmiss.2
        | clone d =>
          rw [hw] at hmiss'
          exact hmiss'.elim
      · exact ih hf

/-- The lists of `h` are in `h'`, the one of `q` apart. -/
structure Frame (h h' : Heap C) (q : ℕ) : Prop where
  um : ∀ k, k < h.next → k ≠ q → (h'.mnt k).um = (h.mnt k).um
  elem : ∀ k, k < h.next → (h'.mnt k).elem = (h.mnt k).elem

/-- The walk was at `n` with `w`, and is at `q` with `w'`. -/
structure Arrived (h : Heap C) (n q : ℕ) (w w' : Heap.Walked C) : Prop where
  nc : w'.nc = none
  nres : w'.nres ≤ w'.i
  here : n = q → w' = w
  marked : n ≠ q → (h.mnt q).ismount ≠ 0 → w'.mp = q ∧ w'.nres = w'.i
  bare : n ≠ q → (h.mnt q).ismount = 0 → w'.nres < w'.i

theorem Arrived.start (hw : w.nc = none) (hn : w.nres ≤ w.i) : Arrived h n n w w :=
  ⟨hw, hn, fun _ => rfl, fun h => absurd rfl h, fun h => absurd rfl h⟩

theorem Arrived.mark {w' : Heap.Walked C} (ha : Arrived h k q (h.mark k w) w') (hne : n ≠ q)
    (hn : w.nres ≤ w.i) : Arrived h n q w w' := by
  refine ⟨ha.nc, ha.nres, fun e => absurd e hne, fun _ hi => ?_, fun _ hi => ?_⟩
  · by_cases hk : k = q
    · rw [ha.here hk, Heap.mark, hk, if_pos hi]
      exact ⟨rfl, rfl⟩
    · exact ha.marked hk hi
  · by_cases hk : k = q
    · rw [ha.here hk, Heap.mark, hk, if_neg (not_not.mpr hi)]
      exact Nat.lt_succ_of_le hn
    · exact ha.bare hk hi

theorem mark_nres (k : ℕ) (hw : w.nc = none) (hn : w.nres ≤ w.i) :
    (h.mark k w).nc = none ∧ (h.mark k w).nres ≤ (h.mark k w).i ∧ (h.mark k w).i = w.i + 1 := by
  unfold Heap.mark
  split_ifs
  · exact ⟨rfl, le_rfl, rfl⟩
  · exact ⟨hw, hn.trans (Nat.le_succ _), rfl⟩

theorem walkloop_child {nc : Bool}
    (hf : h.mntwalk1 dev nc (decide (1 < (h.mnt n).um.length)) el els (h.mnt n).um = .child k) :
    h.walkloop dev nc false (el :: els) n w = h.walkloop dev nc false els k (h.mark k w) := by
  rw [Heap.walkloop, hf]
  simp only [Bool.false_eq_true, false_or]
  rfl

/-- The way is the same with channels, if it is not hidden. -/
theorem walk_shown {xs : List String} (hf : Frame h h' (h.trail els n).1) (ho : Ordered h)
    (hn : n < h.next) (hh : h.hidden dev els n = false) (hx : xs = [] ∨ dev.Walks)
    (hnc : w.nc = none) (hnres : w.nres ≤ w.i) :
    ∃ w', h'.walkloop dev true false (els ++ xs) n w =
        h'.walkloop dev true false ((h.trail els n).2 ++ xs) (h.trail els n).1 w' ∧
      w'.i + (h.trail els n).2.length = w.i + els.length ∧
      Arrived h' n (h.trail els n).1 w w' := by
  induction els generalizing n w with
  | nil => exact ⟨w, rfl, rfl, .start hnc hnres⟩
  | cons el els ih =>
    rw [Heap.hidden] at hh
    rw [Heap.trail] at hf ⊢
    cases hc : h.child n el with
    | none => exact ⟨w, rfl, rfl, .start hnc hnres⟩
    | some k =>
      simp only [hc] at hf hh ⊢
      obtain ⟨hmem, -⟩ := child_mem hc
      obtain ⟨hnk, hk⟩ := ho n k hmem
      have hle := trail_le ho els k
      have hne : n ≠ (h.trail els k).1 := by omega
      split at hh
      · rename_i k' hf'
        have hk' : k' = k := by
          have := mntwalk1_child_true hf'
          rw [mntwalk1_table, hc] at this
          cases this
          rfl
        rw [hk'] at hf'
        have hf'' : h'.mntwalk1 dev true (decide (1 < (h'.mnt n).um.length)) el (els ++ xs)
            (h'.mnt n).um = .child k := by
          rw [hf.um n hn hne, mntwalk1_congr fun b hb => hf.elem b (ho n b hb).2]
          exact mntwalk1_longer hx hf'
        obtain ⟨hnc', hnres', hi'⟩ := mark_nres (h := h') k hnc hnres
        obtain ⟨w', hrun, hi, ha⟩ := ih hf hk hh hnc' hnres'
        refine ⟨w', ?_, ?_, ha.mark hne hnres⟩
        · rw [List.cons_append, walkloop_child hf'', hrun]
        · rw [hi, hi', List.length_cons]
          omega
      · cases hh

/-- A walk that wants a channel stops where the way is hidden. -/
theorem walk_hidden (hf : Frame h h' (h.trail els n).1) (ho : Ordered h) (hn : n < h.next)
    (hh : h.hidden dev els n = true) (hnc : w.nc = none) (hnres : w.nres ≤ w.i) :
    (h'.walkloop dev true false els n w).nc ≠ none ∨
      (h'.walkloop dev true false els n w).nres < w.i + els.length := by
  induction els generalizing n w with
  | nil => cases hh
  | cons el els ih =>
    rw [Heap.hidden] at hh
    rw [Heap.trail] at hf
    cases hc : h.child n el with
    | none =>
      rw [hc] at hh
      cases hh
    | some k =>
      simp only [hc] at hf hh
      obtain ⟨hmem, -⟩ := child_mem hc
      obtain ⟨hnk, hk⟩ := ho n k hmem
      have hle := trail_le ho els k
      have hwalk : h'.mntwalk1 dev true (decide (1 < (h'.mnt n).um.length)) el els (h'.mnt n).um =
          h.mntwalk1 dev true (decide (1 < (h.mnt n).um.length)) el els (h.mnt n).um := by
        rw [hf.um n hn (by omega), mntwalk1_congr fun b hb => hf.elem b (ho n b hb).2]
      split at hh
      · rename_i k' hf'
        have hk' : k' = k := by
          have := mntwalk1_child_true hf'
          rw [mntwalk1_table, hc] at this
          cases this
          rfl
        rw [hk'] at hf'
        obtain ⟨hnc', hnres', hi'⟩ := mark_nres (h := h') k hnc hnres
        rw [walkloop_child (hwalk.trans hf')]
        have := ih hf hk hh hnc' hnres'
        rw [hi'] at this
        rw [List.length_cons]
        exact this.imp_right fun h => by omega
      · rename_i hne
        rw [Heap.walkloop, hwalk]
        cases hr : h.mntwalk1 dev true (decide (1 < (h.mnt n).um.length)) el els (h.mnt n).um with
        | nil =>
          refine .inr ?_
          rw [List.length_cons]
          simp only
          omega
        | child k' => exact absurd hr (hne k')
        | chan d => exact .inl (Option.some_ne_none d)

theorem Arrived.trans {w₁ w₂ : Heap.Walked C} (ha : Arrived h m n w w₁) (hb : Arrived h n k w₁ w₂)
    (hmk : m ≠ k) : Arrived h m k w w₂ := by
  refine ⟨hb.nc, hb.nres, fun e => absurd e hmk, fun _ hi => ?_, fun _ hi => ?_⟩
  · by_cases hnk : n = k
    · rw [hb.here hnk]
      rw [← hnk] at hi hmk ⊢
      exact ha.marked hmk hi
    · exact hb.marked hnk hi
  · by_cases hnk : n = k
    · rw [hb.here hnk]
      rw [← hnk] at hi hmk
      exact ha.bare hmk hi
    · exact hb.bare hnk hi

/-! ## The new `Mount`s -/

/-- Each of the `Mount`s is the first entry of the one before. -/
inductive Leads (h : Heap C) : List String → ℕ → ℕ → Prop
  | here {n : ℕ} : Leads h [] n n
  | step {n k m : ℕ} {el : String} {els : List String} {l : List (Mounted C)} :
    (h.mnt n).um = .child k :: l → (h.mnt k).elem = el → Leads h els k m → Leads h (el :: els) n m

theorem Leads.le (hL : Leads h els n m) (ho : Ordered h) : n ≤ m := by
  induction hL with
  | here => exact le_rfl
  | @step n k m el els l hum _ _ ih =>
    refine (ho n k ?_).1.le.trans ih
    rw [Heap.children, hum]
    exact List.mem_cons_self

theorem Leads.walk (xs : List String) (hL : Leads h els n m) (ho : Ordered h) (hnc : w.nc = none)
    (hnres : w.nres ≤ w.i) :
    ∃ w', h.walkloop dev true false (els ++ xs) n w = h.walkloop dev true false xs m w' ∧
      w'.i = w.i + els.length ∧ Arrived h n m w w' := by
  induction hL generalizing w with
  | here => exact ⟨w, rfl, rfl, .start hnc hnres⟩
  | @step n k m el els l hum hel hL ih =>
    have hmem : k ∈ h.children n := by
      rw [Heap.children, hum]
      exact List.mem_cons_self
    have hlt := (ho n k hmem).1
    have hle := hL.le ho
    have hf : h.mntwalk1 dev true (decide (1 < (h.mnt n).um.length)) el (els ++ xs)
        (h.mnt n).um = .child k := by
      generalize decide (1 < (h.mnt n).um.length) = union
      rw [hum, Heap.mntwalk1, if_pos hel]
    obtain ⟨hnc', hnres', hi'⟩ := mark_nres (h := h) k hnc hnres
    obtain ⟨w', hrun, hi, ha⟩ := ih hnc' hnres'
    refine ⟨w', ?_, ?_, ha.mark (by omega) hnres⟩
    · rw [List.cons_append, walkloop_child hf, hrun]
    · rw [hi, hi', List.length_cons]
      omega

theorem Leads.congr (hL : Leads h els n m) (ho : Ordered h) (hm : m < h.next)
    (hum : ∀ k, k < m → (h'.mnt k).um = (h.mnt k).um)
    (hel : ∀ k, k < h.next → (h'.mnt k).elem = (h.mnt k).elem) : Leads h' els n m := by
  induction hL with
  | here => exact .here
  | @step n k m el els l hn hk hL ih =>
    have hmem : k ∈ h.children n := by
      rw [Heap.children, hn]
      exact List.mem_cons_self
    have hlt := ho n k hmem
    have hle := hL.le ho
    refine .step (l := l) ?_ ?_ (ih hm hum)
    · rw [hum n (by omega), hn]
    · rw [hel k hlt.2, hk]

theorem mkmnts_elem (els : List String) (hn : n < h.next) (hk : k < h.next) :
    ((h.mkmnts n els).2.mnt k).elem = (h.mnt k).elem := by
  by_cases hels : els = []
  · rw [hels]
    rfl
  · have hm := mkmnts_spec hn hels
    by_cases hkn : k = n
    · rw [hkn, hm.dest]
    · rw [hm.old k hk hkn]

theorem mkmnts_leads (els : List String) (hn : n < h.next) :
    Leads (h.mkmnts n els).2 els n (h.mkmnts n els).1 := by
  induction els generalizing h n with
  | nil => exact .here
  | cons el els ih =>
    rw [mkmnts_cons hn]
    have hlt : h.next < (h.mkmnt n el).next := Nat.lt_succ_self _
    refine .step (k := h.next) (l := (h.mnt n).um) ?_ ?_ (ih hlt)
    · have hum : ((h.mkmnt n el).mnt n).um = .child h.next :: (h.mnt n).um := by
        rw [mkmnt_dest hn]
      rw [← hum]
      by_cases hels : els = []
      · rw [hels]
        rfl
      · rw [(mkmnts_spec hlt hels).old n (hn.trans hlt) hn.ne]
    · rw [mkmnts_elem els hlt hlt, mkmnt_new hn]

/-! ## The mount point -/

theorem ready_elem : ((h.ready dev n flags).mnt k).elem = (h.mnt k).elem := by
  by_cases hk : k = n
  · unfold Heap.ready
    split_ifs
    · rw [hk, Heap.putum, set_self]
    · rw [hk, initunion_eq, set_self]
    · rfl
  · rw [ready_of_ne hk]

theorem Mounting.elem (hm : Mounting h n c mnt flags pre post ins h₂) (hk : k < h.next) :
    ((h₂.adopt n ins).mnt k).elem = (h.mnt k).elem := by
  rw [adopt_mnt]
  by_cases hkn : k = n
  · rw [hkn, hm.dest]
  · rw [hm.old k hk hkn]

theorem Mounting.um_of_ne (hm : Mounting h n c mnt flags pre post ins h₂) (hk : k < h.next)
    (hkn : k ≠ n) : ((h₂.adopt n ins).mnt k).um = (h.mnt k).um := by
  rw [adopt_mnt, hm.old k hk hkn]

/-- A count is there for a channel. -/
def Weak (m : Mount C) : Prop := m.ismount ≠ 0 → members m.um ≠ []

theorem weak_kept : Kept (Weak : Mount C → Prop) := fun _ _ ht hw hi => by
  rw [ht.members]
  exact hw (ht.ismount ▸ hi)

theorem Good.weak {m : Mount C} (hm : Good m) : Weak m := fun hi hnil =>
  hi (by rw [hm.ismount, hnil]; rfl)

/-- The copies in the list that is written have weak counts, whatever is copied. -/
theorem Open.weak (ho : Open h r n) (hnr : n ≠ r)
    (hm : Mounting h n c mnt flags pre post ins h₂) (ho' : Ordered (h₂.adopt n ins)) :
    ∀ b ∈ (h₂.adopt n ins).children n, ((h₂.adopt n ins).mnt b).ismount ≠ 0 →
      (h₂.adopt n ins).chans b ≠ [] := by
  have hcount := ho.count
  rw [if_neg hnr, Int.add_zero, hm.um, members_append] at hcount
  have hheld : Held Weak h n := fun a b hb hbn => (ho.held a b hb hbn).weak
  have hentries : ∀ b ∈ kids (h.entries c mnt), b ≠ n → Weak (h.mnt b) := by
    cases mnt with
    | none => exact fun _ hb => absurd hb List.not_mem_nil
    | some src => exact hheld src
  have hat : HeldAt Weak h n pre post (h.entries c mnt) := by
    intro l₁ b l₂ _ _ hi hnil
    have hnil : members (pre ++ l₁ ++ post) = [] := hnil
    rw [members_append, members_append, List.append_eq_nil_iff, List.append_eq_nil_iff] at hnil
    rw [hnil.1.1, hnil.2] at hcount
    exact hi hcount
  obtain ⟨hh, -⟩ := hm.held Weak weak_kept hheld hentries hat
  intro b hb hi
  have hbn : b ≠ n := (ho' n b hb).1.ne'
  rw [adopt_children] at hb
  unfold Heap.chans
  rw [adopt_mnt] at hi ⊢
  simp only [if_neg hbn] at hi
  exact hh n b hb hbn hi

/-- What `mntmount` makes of `els` below `q`: `cs` was visible there, `news` comes. -/
structure Result (h h' : Heap C) (r q : ℕ) (els : List String) (flags : Order) (cs news : List C)
    (n : ℕ) : Prop where
  frame : Frame h h' q
  ordered : Ordered h'
  leads : Leads h' els q n
  root : n ≠ r
  count : (h'.mnt n).ismount = (h'.chans n).length
  chans : h'.chans n = if flags = .MAFTER then cs ++ news else news ++ cs
  weak : ∀ k ∈ h'.children n, (h'.mnt k).ismount ≠ 0 → h'.chans k ≠ []

theorem mntmount_result (hcl : Closed h r) (hs : Sound h) (hr : Root h r) (hf : flags ≠ .MREPL)
    (hpt : (h.trail p r).2 = [] → (h.trail p r).1 ≠ r ∧ (h.mnt (h.trail p r).1).ismount = 0)
    (hu : ∀ u, mnt = some u → u < h.next) (hrun : h.mntmount dev r p c mnt flags = some h') :
    ∃ n news, Result h h' r (h.trail p r).1 (h.trail p r).2 flags
        (h.old dev (h.trail p r).1 (h.trail p r).2) news n ∧
      (mnt ≠ some (h.trail p r).1 ∨ (h.trail p r).2 ≠ [] → news = members (h.entries c mnt)) ∧
      (mnt = some (h.trail p r).1 → (h.trail p r).2 = [] → flags ≠ .MAFTER ∧
        news = h.old dev (h.trail p r).1 []) := by
  have he := Edit.mntmount hs hr hrun
  obtain ⟨w, n, h₀, h₁, pre, post, ins, h₂, rfl, hx, he₀, hb₀, hh₁, he₁, hb₁, hm, rfl⟩ :=
    mntmount_spec hs hr hrun
  obtain ⟨hwq, hwels, -⟩ := mntwalk_trail dev h r p
  rw [hwq, hwels] at hx
  obtain ⟨q, hq⟩ : ∃ q, q = (h.trail p r).1 := ⟨_, rfl⟩
  obtain ⟨els, hels⟩ : ∃ els, els = (h.trail p r).2 := ⟨_, rfl⟩
  rw [← hq, ← hels] at hx hpt ⊢
  have hbq : Below h.children r q := hq ▸ trail_below .here
  have hqn := hs.ordered.lt hbq hr.lt
  have hn₁ := he₁.sound.ordered.lt hb₁ he₁.root.lt
  have hn₀ := he₀.sound.ordered.lt hb₀ he₀.root.lt
  have hnext := he₀.next
  have hnext₁ : h₁.next = h₀.next := by
    rw [hh₁]
    unfold Heap.ready
    split_ifs
    · rfl
    · rw [initunion_eq]
      rfl
    · rfl
  have hold := mkmnts_old dev els hs hr hbq
  rw [← hx] at hold
  -- the `Mount` is new, or it has no channels
  have hn : n ≠ r ∧ (h₀.mnt n).ismount = 0 ∧ members (h₀.mnt n).um = [] ∧
      (∀ k, k < h.next → k ≠ q → h₀.mnt k = h.mnt k) ∧ (els = [] → n = q) := by
    by_cases hnil : els = []
    · rw [hnil] at hx
      cases hx
      obtain ⟨hnr, hi⟩ := hpt hnil
      have := (hcl.good hbq hnr).ismount
      rw [hi] at this
      exact ⟨hnr, hi, List.length_eq_zero_iff.mp (Int.ofNat_eq_zero.mp this.symm),
        fun _ _ _ => rfl, fun _ => rfl⟩
    · have hm := mkmnts_spec hqn hnil
      rw [← hx] at hm
      have := hm.next.1
      have := hr.lt
      refine ⟨by omega, hm.ismount, ?_, hm.old, fun h => absurd h hnil⟩
      rw [hm.um]
      rfl
  obtain ⟨hnr, hi, hmem₀, hold₀, hnil⟩ := hn
  have ho₁ : Open h₁ r n := by
    have ho := (hcl.opened hbq).mkmnts els hs hr hbq fun e => by
      rw [e]
      exact hcl.slash.chan
    rw [← hx] at ho
    rw [hh₁]
    exact ho.ready
  have hchans₁ : members (h₁.mnt n).um = h.old dev q els := by
    obtain ⟨cs, hum, hcs⟩ := ready_add dev h₀ n hf
    rw [hh₁, hum, members_append, hmem₀, members_map_chan, hcs hi, hold]
    rfl
  have hum : ∀ k, k < h₀.next → k ≠ n → ((h₂.adopt n ins).mnt k).um = (h₀.mnt k).um := by
    intro k hk hkn
    rw [hm.um_of_ne (by omega) hkn, hh₁, ready_of_ne hkn]
  have helem : ∀ k, k < h₀.next → ((h₂.adopt n ins).mnt k).elem = (h₀.mnt k).elem := by
    intro k hk
    rw [hm.elem (by omega), hh₁, ready_elem]
  have hchans : (h₂.adopt n ins).chans n =
      if flags = .MAFTER then h.old dev q els ++ members ins else members ins ++ h.old dev q els := by
    rw [Heap.chans, adopt_mnt, hm.dest]
    change members (pre ++ ins ++ post) = _
    rw [← hchans₁, hm.um, members_append, members_append, members_append]
    split_ifs with haf
    · rw [hm.after haf]
      simp only [members, List.filterMap_nil, List.append_nil]
    · rw [hm.before haf]
      simp only [members, List.filterMap_nil, List.nil_append]
  refine ⟨n, members ins, ⟨⟨fun k hk hkq => ?_, fun k hk => ?_⟩, he.sound.ordered, ?_, hnr, ?_,
    hchans, ho₁.weak hnr hm he.sound.ordered⟩, fun hne => ?_, fun hmnt hnil' => ?_⟩
  · have hkn : k ≠ n := by
      rintro rfl
      obtain ⟨hkq', -⟩ := mkmnts_old_mount hqn hx hk
      exact hkq hkq'
    rw [hum k (by omega) hkn, hold₀ k hk hkq]
  · rw [helem k (by omega)]
    have := mkmnts_elem els hqn hk
    rwa [← hx] at this
  · have hL := mkmnts_leads els hqn
    rw [← hx] at hL
    exact hL.congr he₀.sound.ordered hn₀ (fun k hk => hum k (by omega) hk.ne) helem
  · have := ho₁.count
    rw [if_neg hnr, Int.add_zero, hchans₁] at this
    rw [hchans, adopt_mnt, if_pos rfl, hm.dest]
    change (h₁.mnt n).ismount + ((members ins).length : ℤ) = _
    rw [this]
    split_ifs
    · rw [List.length_append]
      omega
    · rw [List.length_append]
      omega
  · rw [hm.members]
    cases hmnt : mnt with
    | none => rfl
    | some u =>
      have hun := hu u hmnt
      change members (h₁.mnt u).um = members (h.mnt u).um
      have hne' : u ≠ n := by
        rintro rfl
        obtain ⟨huq, rfl⟩ := mkmnts_old_mount hqn hx hun
        rw [hmnt, huq] at hne
        refine hne.elim (fun h => h rfl) fun hne => ?_
        have hm := mkmnts_spec hqn hne
        rw [← hx] at hm
        have := hm.next.1
        omega
      rw [hh₁, ready_of_ne hne']
      by_cases huq : u = q
      · by_cases hels' : els = []
        · rw [hels'] at hx
          cases hx
          rfl
        · have hm := mkmnts_spec hqn hels'
          rw [← hx] at hm
          rw [huq, hm.dest, members_child]
      · rw [hold₀ u hun huq]
  · have hnq := hnil hnil'
    have hum₁ : (h₁.mnt n).um ≠ [] := by
      obtain ⟨cs, hum, -⟩ := ready_add dev h₀ n hf
      rw [hnil'] at hx
      cases hx
      rw [hh₁, hum]
      exact List.append_ne_nil_of_left_ne_nil (hcl.um hbq) _
    refine ⟨fun haf => hm.apart haf hum₁ (by rw [hmnt, hnq]), ?_⟩
    rw [hm.members, hmnt, ← hnq]
    change members (h₁.mnt n).um = _
    rw [hchans₁, hnil', hnq]

/-! ## What is searched -/

theorem trail_root (ho : Ordered h) (ht : (h.trail p n).1 = n) : (h.trail p n).2 = p := by
  cases p with
  | nil => rfl
  | cons el els =>
    rw [Heap.trail] at ht ⊢
    cases hc : h.child n el with
    | none => rfl
    | some k =>
      simp only [hc] at ht
      have := (ho n k (child_mem hc).1).1
      have := trail_le ho els k
      omega

theorem trail_end (ht : (h.trail p n).2 = el :: els) : h.child (h.trail p n).1 el = none := by
  induction p generalizing n with
  | nil => cases ht
  | cons el' els' ih =>
    rw [Heap.trail] at ht ⊢
    cases hc : h.child n el' with
    | none =>
      simp only [hc] at ht ⊢
      cases ht
      exact hc
    | some k =>
      simp only [hc] at ht
      exact ih ht

theorem At.counted (ha : At h r p q els w) (hq : q < h.next) (hi : (h.mnt q).ismount ≠ 0) :
    w.mp = q ∧ p.drop w.nres = els := by
  obtain ⟨fuel, hf⟩ : ∃ f, h.next = f + 1 := ⟨h.next - 1, by omega⟩
  have hc := ha.climb
  rw [hf, Heap.climb, if_pos hi] at hc
  obtain ⟨-, he⟩ := Option.ite_none_right_eq_some.mp hc.symm
  exact ⟨congrArg Prod.fst (Option.some.inj he), congrArg Prod.snd (Option.some.inj he)⟩

/-- A path that is not a mount point yet. -/
theorem not_mtpt (hs : Sound h) (hr : Root h r)
    (hp : (h.mntwalk dev false false r p).nres ≠ p.length) (hels : (h.trail p r).2 = []) :
    (h.trail p r).1 ≠ r ∧ (h.mnt (h.trail p r).1).ismount = 0 := by
  have ha := mntwalk_at dev p hs hr
  have hi := ha.i
  rw [hels, List.length_nil, Nat.add_zero] at hi
  have hnres := ha.nres
  refine ⟨fun he => hp ?_, not_not.mp fun hi' => hp ?_⟩
  · have hnil := trail_root hs.ordered he
    rw [hels] at hnil
    rw [(ha.root he).2, ← hnil]
    rfl
  · obtain ⟨-, hd⟩ := ha.counted (hs.ordered.lt (trail_below .here) hr.lt) hi'
    rw [hels, List.drop_eq_nil_iff] at hd
    omega

theorem mntwalk1_chan {nc union : Bool} {d : C}
    (hf : h.mntwalk1 dev nc union el els l = .chan d) :
    ∃ c ∈ members l, dev.walk c (el :: els) = .clone d := by
  induction l with
  | nil => cases hf
  | cons x l ih =>
    cases x with
    | child b =>
      rw [Heap.mntwalk1] at hf
      split_ifs at hf
      exact ih hf
    | chan c =>
      have hlater : h.mntwalk1 dev nc union el els l = .chan d →
          ∃ c' ∈ members (.chan c :: l), dev.walk c' (el :: els) = .clone d := by
        intro hf
        obtain ⟨c', hc', hw⟩ := ih hf
        exact ⟨c', List.mem_cons_of_mem c hc', hw⟩
      rw [Heap.mntwalk1] at hf
      split_ifs at hf
      · split at hf
        · exact hlater hf
        · split_ifs at hf
          exact hlater hf
        · rename_i hw
          cases hf
          exact ⟨c, List.mem_cons_self, hw⟩
      · exact hlater hf

theorem walk_same (hh : h.hidden dev els n = false) :
    h.walkloop dev true false els n w = h.walkloop dev true false (h.trail els n).2
      (h.trail els n).1 (h.walkloop dev false false els n w) := by
  induction els generalizing n w with
  | nil => rfl
  | cons el els ih =>
    rw [Heap.hidden] at hh
    rw [Heap.trail, walkloop_false]
    cases hc : h.child n el with
    | none => rfl
    | some k =>
      simp only [hc] at hh ⊢
      split at hh
      · rename_i k' hf
        have hk' : k' = k := by
          have := mntwalk1_child_true hf
          rw [mntwalk1_table, hc] at this
          cases this
          rfl
        rw [hk'] at hf
        rw [walkloop_child hf, ih hh]
      · cases hh

/-- What `mntlookup` finds is visible. -/
theorem lookup_visible (hcl : Closed h r) (hs : Sound h) (hr : Root h r)
    (hh : h.hidden dev p r = false) (hl : (h.mntlookup dev r p).isSome) :
    h.visible dev r p ≠ [] := by
  have ha := mntwalk_at dev p hs hr
  have hsame := walk_same (w := ⟨0, r, 0, none⟩) hh
  obtain ⟨w, hw⟩ : ∃ w, w = h.mntwalk dev false false r p := ⟨_, rfl⟩
  rw [← hw] at ha
  change h.mntwalk dev true false r p =
    h.walkloop dev true false _ _ (h.mntwalk dev false false r p) at hsame
  rw [← hw] at hsame
  have hvis : ∀ c ∈ h.chans w.mp, (Heap.clwalk dev c (p.drop w.nres)).isSome →
      h.visible dev r p ≠ [] := by
    intro c hc hsome
    obtain ⟨d, hd⟩ := Option.isSome_iff_exists.mp hsome
    unfold Heap.visible
    rw [← hw]
    exact List.ne_nil_of_mem (List.mem_filterMap.mpr ⟨c, hc, hd⟩)
  have hfind : h.mntwalk dev true false r p = w → h.visible dev r p ≠ [] := by
    intro he
    unfold Heap.mntlookup at hl
    simp only [he, ha.nc] at hl
    obtain ⟨c, hc, hsome⟩ := List.findSome?_isSome_iff.mp hl
    exact hvis c hc hsome
  cases hels : (h.trail p r).2 with
  | nil =>
    rw [hels] at hsame
    exact hfind hsame
  | cons el els =>
    have hnone := trail_end hels
    rw [hels, Heap.walkloop] at hsame
    cases hf : h.mntwalk1 dev true (decide (1 < (h.mnt (h.trail p r).1).um.length)) el els
        (h.mnt (h.trail p r).1).um with
    | nil =>
      rw [hf] at hsame
      exact hfind hsame
    | child k =>
      have := mntwalk1_child_true hf
      rw [mntwalk1_table, hnone] at this
      cases this
    | chan d =>
      obtain ⟨c, hc, hwalk⟩ := mntwalk1_chan hf
      have hcl' : (Heap.clwalk dev c (h.trail p r).2).isSome := by
        rw [hels, Heap.clwalk, hwalk]
        rfl
      by_cases hi : (h.mnt (h.trail p r).1).ismount = 0
      · have hq : (h.trail p r).1 = r := by
          by_contra hne
          have := (hcl.good (trail_below .here) hne).ismount
          rw [hi] at this
          have := List.length_eq_zero_iff.mp (Int.ofNat_eq_zero.mp this.symm)
          rw [this] at hc
          cases hc
        obtain ⟨hmp, hnres⟩ := ha.root hq
        rw [trail_root hs.ordered hq] at hcl'
        refine hvis c ?_ ?_
        · rw [hmp]
          rw [hq] at hc
          exact hc
        · rw [hnres]
          exact hcl'
      · obtain ⟨hmp, hd⟩ := ha.counted (hs.ordered.lt (trail_below .here) hr.lt) hi
        refine hvis c ?_ ?_
        · rw [hmp]
          exact hc
        · rw [hd]
          exact hcl'

section Result

variable {cs news : List C}

/-- A walk of the path comes to the mount point. -/
theorem Result.walk (xs : List String)
    (hres : Result h h' r (h.trail p r).1 (h.trail p r).2 flags cs news n) (hs : Sound h)
    (hr : Root h r) (hh : h.hidden dev p r = false) (hx : xs = [] ∨ dev.Walks) :
    ∃ w, h'.mntwalk dev true false r (p ++ xs) = h'.walkloop dev true false xs n w ∧
      w.i = p.length ∧ w.nc = none ∧ ((h'.mnt n).ismount ≠ 0 → w.mp = n ∧ w.nres = p.length) ∧
      ((h'.mnt n).ismount = 0 → w.nres < p.length) := by
  obtain ⟨w₁, hrun₁, hi₁, ha₁⟩ := walk_shown (w := ⟨0, r, 0, none⟩) hres.frame hs.ordered hr.lt hh
    hx rfl le_rfl
  obtain ⟨w₂, hrun₂, hi₂, ha₂⟩ := hres.leads.walk xs hres.ordered ha₁.nc ha₁.nres
  have ha := ha₁.trans ha₂ hres.root.symm
  have hi : w₂.i = p.length := by
    rw [hi₂, hi₁]
    exact Nat.zero_add _
  refine ⟨w₂, hrun₁.trans hrun₂, hi, ha.nc, fun h0 => ?_, fun h0 => ?_⟩
  · obtain ⟨hmp, hnres⟩ := ha.marked hres.root.symm h0
    exact ⟨hmp, hnres.trans hi⟩
  · have := ha.bare hres.root.symm h0
    omega

theorem Result.union (hres : Result h h' r (h.trail p r).1 (h.trail p r).2 flags cs news n)
    (hs : Sound h) (hr : Root h r) (hh : h.hidden dev p r = false) (hne : h'.chans n ≠ []) :
    Union dev h' r p (h'.chans n) := by
  obtain ⟨w, hrun, -, hnc, hm, -⟩ := hres.walk [] hs hr hh (.inl rfl)
  have hi : (h'.mnt n).ismount ≠ 0 := by
    rw [hres.count]
    exact Int.ofNat_ne_zero.mpr fun h0 => hne (List.length_eq_zero_iff.mp h0)
  obtain ⟨hmp, hnres⟩ := hm hi
  rw [List.append_nil] at hrun
  have hrun : h'.mntwalk dev true false r p = w := hrun
  exact ⟨by rw [hrun, hnc], by rw [hrun, hnres], by rw [hrun, hmp]⟩

/-- The mount point is a union only if it is not hidden. -/
theorem Result.of_union {cs' : List C}
    (hres : Result h h' r (h.trail p r).1 (h.trail p r).2 flags cs news n) (hs : Sound h)
    (hr : Root h r) (hun : Union dev h' r p cs') :
    h.hidden dev p r = false ∧ h'.chans n = cs' := by
  have hh : h.hidden dev p r = false := by
    rw [← Bool.not_eq_true]
    intro hh
    obtain h1 | h1 := walk_hidden (w := ⟨0, r, 0, none⟩) hres.frame hs.ordered hr.lt hh rfl le_rfl
    · exact h1 hun.nc
    · have := hun.nres
      unfold Heap.mntwalk at this
      simp only at h1
      omega
  obtain ⟨w, hrun, -, -, hm, hb⟩ := hres.walk [] hs hr hh (.inl rfl)
  rw [List.append_nil] at hrun
  have hrun : h'.mntwalk dev true false r p = w := hrun
  have hi : (h'.mnt n).ismount ≠ 0 := by
    intro h0
    have := hb h0
    rw [← hrun, hun.nres] at this
    omega
  refine ⟨hh, ?_⟩
  rw [← hun.chans, hrun, (hm hi).1]

/-- A name that a member has is found. -/
theorem Result.names (hres : Result h h' r (h.trail p r).1 (h.trail p r).2 flags cs news n)
    (hs : Sound h) (hr : Root h r) (hh : h.hidden dev p r = false) (hw : dev.Walks)
    (hc : c ∈ h'.chans n) (hel : (Heap.clwalk dev c [el]).isSome) :
    (h'.mntlookup dev r (p ++ [el])).isSome := by
  obtain ⟨w, hrun, hi, hnc, hm, -⟩ := hres.walk [el] hs hr hh (.inr hw)
  have hi' : (h'.mnt n).ismount ≠ 0 := by
    rw [hres.count]
    exact Int.ofNat_ne_zero.mpr fun h0 => by
      rw [List.length_eq_zero_iff.mp h0] at hc
      cases hc
  obtain ⟨hmp, hnres⟩ := hm hi'
  have hmember : ∀ w, h'.mntwalk dev true false r (p ++ [el]) = w → w.nc = none → w.mp = n →
      w.nres = p.length → (h'.mntlookup dev r (p ++ [el])).isSome := by
    intro w hw hnc hmp hnres
    unfold Heap.mntlookup
    simp only [hw, hnc, hmp, hnres, List.drop_left]
    exact List.findSome?_isSome_iff.mpr ⟨c, hc, hel⟩
  rw [Heap.walkloop] at hrun
  cases hf : h'.mntwalk1 dev true (decide (1 < (h'.mnt n).um.length)) el [] (h'.mnt n).um with
  | nil =>
    rw [hf] at hrun
    exact hmember w hrun hnc hmp hnres
  | chan d =>
    rw [hf] at hrun
    unfold Heap.mntlookup
    simp only [hrun]
    rfl
  | child k =>
    rw [hf] at hrun
    have hk : k ∈ h'.children n := (mntwalk1_child hf).1
    by_cases hki : (h'.mnt k).ismount = 0
    · simp only [Bool.false_eq_true, false_or, if_neg (not_not.mpr hki)] at hrun
      exact hmember _ hrun hnc hmp hnres
    · simp only [Bool.false_eq_true, false_or, if_pos hki] at hrun
      obtain ⟨d, hd⟩ := List.exists_mem_of_ne_nil _ (hres.weak k hk hki)
      obtain ⟨d', hd'⟩ := hw.zero d
      unfold Heap.mntlookup
      simp only [hrun, Heap.walkloop, hi]
      refine List.findSome?_isSome_iff.mpr ⟨d, hd, ?_⟩
      rw [List.drop_eq_nil_of_le (by simp), Heap.clwalk, hd']
      rfl

end Result

/-- The channels that come with `c`. -/
def Heap.news (h : Heap C) (c : C) (mnt : Option ℕ) : List C := members (h.entries c mnt)

/-- The mount makes a union of the directory and of what comes, and what the directory had can be
found there. -/
def Unites (dev : Dev C) (h : Heap C) (r : ℕ) (p : List String) (c : C) (mnt : Option ℕ)
    (flags : Order) : Prop :=
  ∃ h', h.mntmount dev r p c mnt flags = some h' ∧
    Union dev h' r p (if flags = .MAFTER then h.visible dev r p ++ h.news c mnt
      else h.news c mnt ++ h.visible dev r p) ∧
    ∀ d ∈ h.visible dev r p, ∀ el, (Heap.clwalk dev d [el]).isSome →
      (h'.mntlookup dev r (p ++ [el])).isSome

theorem Closed.unites (hcl : Closed h r) (hs : Sound h) (hr : Root h r) (hw : dev.Walks)
    (hf : flags ≠ .MREPL) (hu : ∀ u, mnt = some u → u < h.next)
    (hp : (h.mntwalk dev false false r p).nres ≠ p.length) (hvis : h.visible dev r p ≠ [])
    (hh : h.hidden dev p r = false)
    (hm : (h.mnt (h.mntwalk dev false false r p).mp).ismount ≠ 0)
    (hne : mnt ≠ some (h.trail p r).1 ∨ (h.trail p r).2 ≠ []) :
    Unites dev h r p c mnt flags := by
  obtain ⟨hwq, hwels, -⟩ := mntwalk_trail dev h r p
  have hbq : Below h.children r (h.trail p r).1 := trail_below .here
  have hqn := hs.ordered.lt hbq hr.lt
  obtain ⟨⟨n, h₀⟩, hx⟩ : ∃ x, x = h.mkmnts (h.trail p r).1 (h.trail p r).2 := ⟨_, rfl⟩
  obtain ⟨he₀, hb₀⟩ := Edit.mkmnts hs hr hbq (h.trail p r).2
  rw [← hx] at he₀ hb₀
  obtain ⟨he₁, hb₁⟩ := Edit.ready dev flags he₀.sound he₀.root hb₀
  have hmn : mnt ≠ some n := by
    intro he
    obtain ⟨hnq, -⟩ := mkmnts_old_mount hqn hx (hu n he)
    obtain hne | hne := hne
    · exact hne (he.trans (congrArg some hnq))
    · have hm := mkmnts_spec hqn hne
      rw [← hx] at hm
      have := hm.next.1
      have := hu n he
      omega
  obtain ⟨pre, post, ins, h₂, -, hrun⟩ := addmntel_run c mnt flags
    he₁.sound (he₁.sound.ordered.lt hb₁ he₁.root.lt) fun _ _ => hmn
  have hrun : h.mntmount dev r p c mnt flags = some (h₂.adopt n ins) := by
    rw [← hrun, mntmount_eq n h₀ (by rw [hx, hwq, hwels])]
  obtain ⟨n, news, hres, hnews, -⟩ := mntmount_result hcl hs hr hf (not_mtpt hs hr hp) hu hrun
  have hold := old_visible dev p hs hr
  rw [if_pos hm] at hold
  rw [hold] at hres
  have hchans := hres.chans
  rw [hnews hne] at hchans
  refine ⟨_, hrun, ?_, fun d hd el hel => hres.names hs hr hh hw ?_ hel⟩
  · change Union dev _ r p (if flags = .MAFTER then h.visible dev r p ++ members (h.entries c mnt)
      else members (h.entries c mnt) ++ h.visible dev r p)
    rw [← hchans]
    refine hres.union hs hr hh ?_
    rw [hchans]
    split_ifs
    · exact List.append_ne_nil_of_left_ne_nil hvis _
    · exact List.append_ne_nil_of_right_ne_nil _ hvis
  · rw [hchans]
    split_ifs
    · exact List.mem_append_left _ hd
    · exact List.mem_append_right _ hd

theorem Unites.needs (hun : Unites dev h r p c mnt flags) (hcl : Closed h r) (hs : Sound h)
    (hr : Root h r) (hf : flags ≠ .MREPL) (hu : ∀ u, mnt = some u → u < h.next)
    (hp : (h.mntwalk dev false false r p).nres ≠ p.length)
    (hl : (h.mntlookup dev r p).isSome) :
    h.hidden dev p r = false ∧ (h.mnt (h.mntwalk dev false false r p).mp).ismount ≠ 0 ∧
      ¬(mnt = some (h.trail p r).1 ∧ (h.trail p r).2 = []) := by
  obtain ⟨h', hrun, hun, -⟩ := hun
  obtain ⟨n, news, hres, hnews, hself⟩ := mntmount_result hcl hs hr hf (not_mtpt hs hr hp) hu hrun
  obtain ⟨hh, hchans⟩ := hres.of_union hs hr hun
  have hvis := lookup_visible hcl hs hr hh hl
  rw [hres.chans] at hchans
  have hold := old_visible dev p hs hr
  have hne : ¬(mnt = some (h.trail p r).1 ∧ (h.trail p r).2 = []) := by
    rintro ⟨hmnt, hnil⟩
    obtain ⟨haf, hnews⟩ := hself hmnt hnil
    obtain ⟨hnr, hi⟩ := not_mtpt hs hr hp hnil
    have hq := (hcl.good (trail_below .here) hnr).ismount
    rw [hi] at hq
    have hq := List.length_eq_zero_iff.mp (Int.ofNat_eq_zero.mp hq.symm)
    rw [if_neg haf, if_neg haf, hnews, Heap.news, hmnt, ← hnil, hold] at hchans
    change _ = members (h.mnt (h.trail p r).1).um ++ _ at hchans
    rw [hq, List.nil_append] at hchans
    split_ifs at hchans
    · exact hvis (List.append_left_eq_self.mp hchans)
    · exact hvis hchans.symm
  refine ⟨hh, fun h0 => ?_, hne⟩
  rw [if_neg (not_not.mpr h0)] at hold
  rw [hold, hnews (by tauto), Heap.news] at hchans
  split_ifs at hchans
  · exact hvis (List.append_left_eq_self.mp hchans.symm)
  · rw [List.append_nil] at hchans
    exact hvis (List.append_right_eq_self.mp hchans.symm)

/-- When a mount makes a union of the directory that was visible. -/
theorem mntmount_union {s : Names C} (hw : dev.Walks)
    (hs : ((names dev).restrict (Act.Clear dev)).Reach s) (hr : r ∈ s.roots)
    (hf : flags ≠ .MREPL) (hu : ∀ u, mnt = some u → u < s.heap.next)
    (hp : (s.heap.mntwalk dev false false r p).nres ≠ p.length)
    (hl : (s.heap.mntlookup dev r p).isSome) :
    Unites dev s.heap r p c mnt flags ↔
      s.heap.hidden dev p r = false ∧
      (s.heap.mnt (s.heap.mntwalk dev false false r p).mp).ismount ≠ 0 ∧
      ¬(mnt = some (s.heap.mntwalk dev false true r p).mp ∧
        (s.heap.mntwalk dev false true r p).i = p.length) := by
  have hI := (names_counted dev).reach hs
  have hcl := hI.closed hr
  obtain ⟨hwq, -, hwi⟩ := mntwalk_trail dev s.heap r p
  rw [hwq, hwi]
  refine ⟨fun hun => hun.needs hcl hI.sound (hI.root r hr) hf hu hp hl, fun ⟨hh, hm, hne⟩ => ?_⟩
  exact hcl.unites hI.sound (hI.root r hr) hw hf hu hp
    (lookup_visible hcl hI.sound (hI.root r hr) hh hl) hh hm (by tauto)

theorem plain_walks : plain.Walks := ⟨fun _ _ _ _ h => h.elim, fun c => ⟨c, rfl⟩⟩

/-- `bind -a 5 /a`, where the root is a union. -/
theorem mntmount_union_slash : ∃ s : Names ℕ,
    [.setslash 0, .call 0 (.mntmount [] 1 none .MAFTER)].foldlM (Names.step plain) .start =
      some s ∧
    (Unites plain s.heap 0 ["a"] 5 none .MAFTER ↔
      s.heap.hidden plain ["a"] 0 = false ∧
      (s.heap.mnt (s.heap.mntwalk plain false false 0 ["a"]).mp).ismount ≠ 0 ∧
      ¬(none = some (s.heap.mntwalk plain false true 0 ["a"]).mp ∧
        (s.heap.mntwalk plain false true 0 ["a"]).i = ["a"].length)) := by
  obtain ⟨s, hs, hreach, -⟩ := binds_run
  have hrun : (binds.foldlM (Names.step plain) .start).map (fun s : Names ℕ => (s.roots,
      (s.heap.mntwalk plain false false 0 ["a"]).nres, s.heap.mntlookup plain 0 ["a"])) =
      some ([0], 0, some 1) := by decide
  rw [hs] at hrun
  simp only [Option.map_some, Option.some.injEq, Prod.mk.injEq] at hrun
  obtain ⟨hroots, hnres, hl⟩ := hrun
  refine ⟨s, hs, mntmount_union plain_walks hreach ?_ (by decide) (fun _ h => nomatch h) ?_ ?_⟩
  · rw [hroots]
    exact List.mem_singleton_self 0
  · rw [hnres]
    decide
  · rw [hl]
    rfl

/-- `bind -a 5 /a` after `setslash` leaves the old directory out: the root has no count. -/
theorem mntmount_union_lost : ∃ s : Names ℕ,
    [.setslash 0].foldlM (Names.step plain) .start = some s ∧ (names plain).Reach s ∧
    0 ∈ s.roots ∧ (s.heap.mntwalk plain false false 0 ["a"]).nres ≠ ["a"].length ∧
    s.heap.mntlookup plain 0 ["a"] = some 1 ∧ s.heap.visible plain 0 ["a"] = [1] ∧
    (s.heap.mntmount plain 0 ["a"] 5 none .MAFTER).map
      (fun h => h.chans (h.mntwalk plain true false 0 ["a"]).mp) = some [5] ∧
    ¬ Unites plain s.heap 0 ["a"] 5 none .MAFTER := by
  have hrun : ([Act.setslash 0].foldlM (Names.step plain) .start).map (fun s : Names ℕ => (s.roots,
      (s.heap.mntwalk plain false false 0 ["a"]).nres, s.heap.mntlookup plain 0 ["a"],
      s.heap.visible plain 0 ["a"], (s.heap.mntmount plain 0 ["a"] 5 none .MAFTER).map
        (fun h => h.chans (h.mntwalk plain true false 0 ["a"]).mp))) =
      some ([0], 0, some 1, [1], some [5]) := by decide
  obtain ⟨s, hs, he⟩ := Option.map_eq_some_iff.mp hrun
  simp only [Prod.mk.injEq] at he
  obtain ⟨hroots, hnres, hl, hvis, hm⟩ := he
  refine ⟨s, hs, Lts.Reach.exec (fun _ _ _ h => h) ⟨[], .init rfl⟩ hs, ?_, ?_, hl, hvis, hm, ?_⟩
  · rw [hroots]
    exact List.mem_singleton_self 0
  · rw [hnres]
    decide
  · rintro ⟨h', hrun, hun, -⟩
    rw [hrun, Option.map_some, Option.some.injEq] at hm
    have hchans := hun.chans
    rw [hm, hvis, if_pos rfl] at hchans
    exact absurd (congrArg List.length hchans) (Nat.succ_ne_self 1).symm

end NixMark.Mnt
