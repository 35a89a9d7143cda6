import NixMark.Mnt.Edit

/-!
# The way to a mount point

* `trail`: the `Mount` where the walk of a path ends, and the names that are left.
* `mkmnt`: one step of `mkmnts`; `mkmnts_spec`: the heap after it.
* `mkmnts_old`: the old contents of a path, seen from its new `Mount`.
-/

namespace NixMark.Mnt

open Lib

variable {C : Type} {h h' : Heap C} {n m k r : ℕ} {l : List (Mounted C)} {dev : Dev C}
  {el : String} {els p : List String}

/-- The `Mount` for a name in a `Mount`. -/
def Heap.child (h : Heap C) (n : ℕ) (el : String) : Option ℕ :=
  (h.children n).find? fun k => (h.mnt k).elem = el

def Heap.trail (h : Heap C) : List String → ℕ → ℕ × List String
  | [], n => (n, [])
  | el :: els, n =>
    match h.child n el with
    | none => (n, el :: els)
    | some k => h.trail els k

theorem child_mem (hc : h.child n el = some k) : k ∈ h.children n ∧ (h.mnt k).elem = el :=
  ⟨List.mem_of_find?_eq_some hc,
    of_decide_eq_true (List.find?_some (p := fun k => decide ((h.mnt k).elem = el)) hc)⟩

theorem mntwalk1_list {union : Bool} (l : List (Mounted C)) :
    h.mntwalk1 dev false union el els l =
      match (kids l).find? fun k => (h.mnt k).elem = el with
      | none => .nil
      | some k => .child k := by
  induction l with
  | nil => rfl
  | cons x l ih =>
    cases x with
    | chan c =>
      rw [Heap.mntwalk1, if_neg (by simp), ih]
      rfl
    | child k =>
      rw [Heap.mntwalk1, kids_child, List.find?_cons]
      by_cases hk : (h.mnt k).elem = el
      · rw [if_pos hk, decide_eq_true hk]
      · rw [if_neg hk, decide_eq_false hk, ih]

/-- A walk that wants no channel goes by the names. -/
theorem mntwalk1_table {union : Bool} : h.mntwalk1 dev false union el els (h.mnt n).um =
    match h.child n el with
    | none => .nil
    | some k => .child k := mntwalk1_list _

theorem walkloop_trail (dev : Dev C) (els : List String) (w : Heap.Walked C) (hw : w.mp = n) :
    (h.walkloop dev false true els n w).mp = (h.trail els n).1 ∧
    (h.walkloop dev false true els n w).i + (h.trail els n).2.length = w.i + els.length ∧
    els.drop ((h.walkloop dev false true els n w).i - w.i) = (h.trail els n).2 ∧
    w.i ≤ (h.walkloop dev false true els n w).i := by
  induction els generalizing n w with
  | nil => exact ⟨hw, rfl, by rw [List.drop_nil]; rfl, le_rfl⟩
  | cons el els ih =>
    rw [Heap.walkloop, mntwalk1_table, Heap.trail]
    cases h.child n el with
    | none =>
      refine ⟨hw, rfl, ?_, le_rfl⟩
      rw [Nat.sub_self]
      rfl
    | some k =>
      simp only [true_or, if_true]
      obtain ⟨hm, hi, hd, hle⟩ := ih (n := k) ⟨w.i + 1, k, w.i + 1, none⟩ rfl
      refine ⟨hm, ?_, ?_, by simp only at hle; omega⟩
      · rw [hi, List.length_cons]
        simp only
        omega
      · simp only at hd hle ⊢
        rw [← hd]
        obtain ⟨j, hj⟩ := Nat.exists_eq_add_of_le hle
        have h1 : w.i + 1 + j - w.i = j + 1 := by omega
        rw [hj, h1, Nat.add_sub_cancel_left, List.drop_succ_cons]

/-- The walk of `mntmount` and `mntunmount`. -/
theorem mntwalk_trail (dev : Dev C) (h : Heap C) (r : ℕ) (p : List String) : (h.mntwalk dev false true r p).mp = (h.trail p r).1 ∧
    p.drop (h.mntwalk dev false true r p).i = (h.trail p r).2 ∧
    ((h.mntwalk dev false true r p).i = p.length ↔ (h.trail p r).2 = []) := by
  obtain ⟨hm, hi, hd, -⟩ := walkloop_trail (h := h) dev p ⟨0, r, 0, none⟩ rfl
  refine ⟨hm, hd, ?_⟩
  rw [← List.length_eq_zero_iff]
  unfold Heap.mntwalk
  simp only at hi
  omega

theorem trail_below (hb : Below h.children r n) : Below h.children r (h.trail p n).1 := by
  induction p generalizing n with
  | nil => exact hb
  | cons el els ih =>
    rw [Heap.trail]
    cases hc : h.child n el with
    | none => exact hb
    | some k => exact ih (hb.step (child_mem hc).1)

/-! ## New `Mount`s -/

def Heap.mkmnt (h : Heap C) (n : ℕ) (el : String) : Heap C :=
  ((h.newmnt el).setum n (.child h.next :: (h.mnt n).um)).adopt n [.child h.next]

theorem mkmnts_cons (hn : n < h.next) :
    h.mkmnts n (el :: els) = (h.mkmnt n el).mkmnts h.next els := by
  rw [Heap.mkmnts]
  simp only [newmnt_of_ne hn.ne]
  rfl

@[simp] theorem mkmnt_next : (h.mkmnt n el).next = h.next + 1 := rfl

theorem mkmnt_dest (hn : n < h.next) : (h.mkmnt n el).mnt n =
    { h.mnt n with um := .child h.next :: (h.mnt n).um } := by
  rw [Heap.mkmnt, adopt_mnt, setum_self, newmnt_of_ne hn.ne, if_neg (by
    rw [kids_child]
    exact List.not_mem_cons_of_ne_of_not_mem hn.ne List.not_mem_nil), if_pos rfl]
  exact congrArg (Mount.mk _ _ _) (Int.add_zero _)

theorem mkmnt_new (hn : n < h.next) : (h.mkmnt n el).mnt h.next = ⟨el, [], some n, 0⟩ := by
  rw [Heap.mkmnt, adopt_mnt, setum_of_ne hn.ne', newmnt_self, if_neg hn.ne',
    if_pos (mem_kids.mpr List.mem_cons_self)]

theorem mkmnt_of_ne (hk : k ≠ h.next) (hkn : k ≠ n) : (h.mkmnt n el).mnt k = h.mnt k := by
  rw [Heap.mkmnt, adopt_mnt, setum_of_ne hkn, newmnt_of_ne hk, if_neg hkn, if_neg (by
    rw [kids_child]
    exact List.not_mem_cons_of_ne_of_not_mem hk List.not_mem_nil)]

theorem Edit.mkmnt (el : String) (hs : Sound h) (hr : Root h r) (hb : Below h.children r n) :
    Edit r h (h.mkmnt n el) ∧ Below (h.mkmnt n el).children r h.next := by
  have hn := hs.ordered.lt hb hr.lt
  have he := Edit.mkmnts hs hr hb [el]
  rw [mkmnts_cons hn] at he
  exact he

/-- The heap after `mkmnts`, when there are names. -/
structure Made (h : Heap C) (q : ℕ) (h' : Heap C) (n : ℕ) : Prop where
  next : h.next ≤ n ∧ n < h'.next
  old : ∀ k, k < h.next → k ≠ q → h'.mnt k = h.mnt k
  dest : h'.mnt q = { h.mnt q with um := .child h.next :: (h.mnt q).um }
  um : (h'.mnt n).um = []
  ismount : (h'.mnt n).ismount = 0

theorem mkmnts_spec {q : ℕ} (hq : q < h.next) (hels : els ≠ []) :
    Made h q (h.mkmnts q els).2 (h.mkmnts q els).1 := by
  induction els generalizing h q with
  | nil => exact absurd rfl hels
  | cons el els ih =>
    rw [mkmnts_cons hq]
    by_cases hels' : els = []
    · rw [hels', Heap.mkmnts]
      exact ⟨⟨le_rfl, Nat.lt_succ_self _⟩, fun k hk hkq => mkmnt_of_ne hk.ne hkq, mkmnt_dest hq,
        by rw [mkmnt_new hq], by rw [mkmnt_new hq]⟩
    · obtain ⟨⟨hn, hn'⟩, hold, -, hum, hi⟩ :=
        ih (h := h.mkmnt q el) (q := h.next) (Nat.lt_succ_self _) hels'
      rw [mkmnt_next] at hn
      refine ⟨⟨by omega, hn'⟩, fun k hk hkq => ?_, ?_, hum, hi⟩
      · rw [hold k (hk.trans (Nat.lt_succ_self _)) hk.ne, mkmnt_of_ne hk.ne hkq]
      · rw [hold q (hq.trans (Nat.lt_succ_self _)) hq.ne, mkmnt_dest hq]

theorem Made.children {q c : ℕ} (hm : Made h q h' n) (hk : k < h.next) (hc : c ∈ h'.children k)
    (hlt : c < h.next) : c ∈ h.children k := by
  unfold Heap.children at hc ⊢
  by_cases hkq : k = q
  · rw [hkq, hm.dest] at hc
    rw [hkq]
    obtain rfl | hc := List.mem_cons.mp hc
    · exact absurd hlt (Nat.lt_irrefl _)
    · exact hc
  · rwa [hm.old k hk hkq] at hc

/-- The way from an old `Mount` to the new one goes through `q`. -/
theorem Made.below {q c : ℕ} (hm : Made h q h' n) (hs : Sound h) (ho : Ordered h') (hc : c < h.next)
    (hb : Below h'.children c n) : Below h.children c q := by
  have hway : ∀ b, Below h'.children c b →
      (b < h.next → Below h.children c b) ∧ (h.next ≤ b → Below h.children c q) := by
    intro b hb
    induction hb with
    | here => exact ⟨fun _ => .here, fun hb => absurd hc (by omega)⟩
    | @step a b _ hab ih =>
      by_cases ha : a < h.next
      · refine ⟨fun hb => (ih.1 ha).step (hm.children ha hab hb), fun hb => ?_⟩
        by_cases haq : a = q
        · rw [← haq]
          exact ih.1 ha
        · rw [Heap.children, hm.old a ha haq] at hab
          have := ((hs a).order b hab).2
          omega
      · have := (ho a b hab).1
        exact ⟨fun hb => absurd hb (by omega), fun _ => ih.2 (by omega)⟩
  exact (hway n hb).2 hm.next.1

/-- An old `Mount` is there already. -/
theorem mkmnts_old_mount {q : ℕ} (hq : q < h.next) (hx : (n, h') = h.mkmnts q els)
    (hn : n < h.next) : n = q ∧ h' = h := by
  cases els with
  | nil =>
    cases hx
    exact ⟨rfl, rfl⟩
  | cons el els =>
    have hm := mkmnts_spec hq (List.cons_ne_nil el els)
    rw [← hx] at hm
    exact absurd hm.next.1 (by simp only; omega)

/-! ## The old contents -/

theorem climb_below {fuel : ℕ} {els' : List String} (hs : Sound h) (hr : Root h r)
    (hb : Below h.children r n) (hc : h.climb fuel (some n) els = some (m, els')) :
    Below h.children r m := by
  induction fuel generalizing n els with
  | zero => cases hc
  | succ fuel ih =>
    rw [Heap.climb] at hc
    split_ifs at hc
    · cases hc
      exact hb
    · cases hp : (h.mnt n).parent with
      | none =>
        rw [hp] at hc
        cases fuel <;> cases hc
      | some q =>
        rw [hp] at hc
        exact ih (parent_below hs hr hb hp).1 hc

/-- The parents are older, so the climb comes to an end. -/
theorem climb_fuel {fuel fuel' : ℕ} (hs : Sound h) (hr : Root h r) (hb : Below h.children r n)
    (hf : n < fuel) (hf' : n < fuel') :
    h.climb fuel (some n) els = h.climb fuel' (some n) els := by
  induction fuel generalizing n fuel' els with
  | zero => omega
  | succ fuel ih =>
    obtain ⟨fuel', rfl⟩ : ∃ f, fuel' = f + 1 := ⟨fuel' - 1, by omega⟩
    rw [Heap.climb, Heap.climb]
    split_ifs
    · rfl
    · cases hp : (h.mnt n).parent with
      | none => cases fuel <;> cases fuel' <;> rfl
      | some q =>
        obtain ⟨hq, hn⟩ := parent_below hs hr hb hp
        have := ((hs q).order n hn).1
        exact ih hq (by omega) (by omega)

/-- What a climb looks at. -/
structure Rung (m m' : Mount C) : Prop where
  elem : m'.elem = m.elem
  ismount : m'.ismount = m.ismount
  parent : m'.parent = m.parent

theorem climb_congr {fuel : ℕ} (hs : Sound h) (hr : Root h r) (hb : Below h.children r n)
    (he : ∀ k, Below h.children r k → Rung (h.mnt k) (h'.mnt k)) :
    h'.climb fuel (some n) els = h.climb fuel (some n) els := by
  induction fuel generalizing n els with
  | zero => rfl
  | succ fuel ih =>
    obtain ⟨h1, h2, h3⟩ := he n hb
    rw [Heap.climb, Heap.climb, h1, h2, h3]
    split_ifs
    · rfl
    · cases hp : (h.mnt n).parent with
      | none => cases fuel <;> rfl
      | some q => exact ih (parent_below hs hr hb hp).1

theorem mkmnt_old (hs : Sound h) (hr : Root h r) (hb : Below h.children r n) :
    (h.mkmnt n el).old dev h.next els = h.old dev n (el :: els) := by
  have hlt := hs.ordered.lt hb hr.lt
  have hclimb : (h.mkmnt n el).climb (h.next + 1) (some h.next) els =
      h.climb h.next (some n) (el :: els) := by
    rw [Heap.climb, mkmnt_new hlt, if_neg fun h0 => h0 rfl]
    refine climb_congr hs hr hb fun k hk => ?_
    have hk := (hs.ordered.lt hk hr.lt).ne
    by_cases hkn : k = n
    · rw [hkn, mkmnt_dest hlt]
      exact ⟨rfl, rfl, rfl⟩
    · rw [mkmnt_of_ne hk hkn]
      exact ⟨rfl, rfl, rfl⟩
  unfold Heap.old
  rw [mkmnt_next, hclimb]
  cases hc : h.climb h.next (some n) (el :: els) with
  | none => rfl
  | some x =>
    have hm := (hs.ordered.lt (climb_below hs hr hb hc) hr.lt).ne
    have hchans : (h.mkmnt n el).chans x.1 = h.chans x.1 := by
      unfold Heap.chans
      by_cases hxn : x.1 = n
      · rw [hxn, mkmnt_dest hlt]
        rfl
      · rw [mkmnt_of_ne hm hxn]
    simp only [hchans]

theorem mkmnts_old (dev : Dev C) (els : List String) (hs : Sound h) (hr : Root h r) (hb : Below h.children r n) :
    (h.mkmnts n els).2.old dev (h.mkmnts n els).1 [] = h.old dev n els := by
  induction els generalizing h n with
  | nil => rfl
  | cons el els ih =>
    obtain ⟨he, hb'⟩ := Edit.mkmnt el hs hr hb
    rw [mkmnts_cons (hs.ordered.lt hb hr.lt), ih he.sound he.root hb', mkmnt_old hs hr hb]

end NixMark.Mnt
