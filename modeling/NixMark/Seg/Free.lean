import NixMark.Seg.Pages

/-!
# Freeing the pages of a range (`port/segment.c`, `mfreeseg`)

`syssegfree` calls `mfreeseg` for a range inside a segment. The number of pages that are left to free
is counted down in a word: one by one where there is a `Pte`, and by all the places that are left
where there is none.

* `mfreeseg`: the function, with the pages that it hands to `putpage`.
* `Swept`: the pages from one number up to another are gone from the map, and only these; they are
  in the list.
* `freemap_spec`: the loop sweeps up to the end of the range when the count meets zero there, and
  else the rest of the map.
-/

namespace NixMark.Seg

open Lib

variable {Page : Type}

abbrev Usize := BitVec 64

/-- `s->map[i]->pages[j] = nil` -/
def dropat (map : List (Option (Pte Page))) (i j : Nat) : List (Option (Pte Page)) :=
  map.modify i (Option.map fun pte => { pte with pages := Function.update pte.pages j none })

/-- The page at a place goes to the list. -/
def takeat (map : List (Option (Pte Page))) (i j : Nat) (list : List Page) :
    List (Option (Pte Page)) × List Page :=
  match map[i]?.join.bind fun pte => pte.pages j with
  | some pg => (dropat map i j, pg :: list)
  | none => (map, list)

/-- The inner loop of `mfreeseg`, with `n` places left; it tells whether the count met zero. -/
def freepte (i : Nat) : Nat → Nat → Usize → List (Option (Pte Page)) → List Page →
    Bool × Usize × List (Option (Pte Page)) × List Page
  | 0, _, pages, map, list => (false, pages, map, list)
  | n + 1, j, pages, map, list =>
    let (map, list) := takeat map i j list
    let pages := pages - 1
    if pages = 0 then (true, pages, map, list) else freepte i n (j + 1) pages map list

/-- The loop of `mfreeseg`, with `n` places of the map left. -/
def freemap : Nat → Nat → Nat → Usize → List (Option (Pte Page)) → List Page →
    List (Option (Pte Page)) × List Page
  | 0, _, _, _, map, list => (map, list)
  | n + 1, i, j, pages, map, list =>
    if pages ≤ 0 then (map, list)
    else if map[i]?.join.isNone then
      freemap n (i + 1) 0 (pages - BitVec.ofNat 64 (PTEPERTAB - j)) map list
    else
      let (out, pages, map, list) := freepte i (PTEPERTAB - j) j pages map list
      if out then (map, list) else freemap n (i + 1) 0 pages map list

/-- `mfreeseg`, with the pages that it frees; `none` when it divides by zero. -/
def mfreeseg (s : Paged Page) (start top : Uintptr) : Option (Paged Page × List Page) :=
  let start := ROUNDUP start s.pgsize
  let pages := (top - start) >>> s.pgszlg2
  let soff := start - s.base
  let j := (soff &&& (s.ptemapmem - 1)) >>> s.pgszlg2
  if s.ptemapmem = 0 then none
  else
    let i := (soff / s.ptemapmem).toNat
    let (map, list) := freemap (s.map.length - i) i j.toNat pages s.map []
    some ({ s with map := map }, list)

/-! ## What a sweep does -/

/-- The pages with the numbers from `a` up to `b` are gone, and only these; they are what the list
got. -/
structure Swept (a b : Nat) (map map' : List (Option (Pte Page))) (list list' : List Page) :
    Prop where
  length : map'.length = map.length
  ptes : ∀ i : Nat, map'[i]?.join.isSome = map[i]?.join.isSome
  pages : ∀ k, pageat map' k = if a ≤ k ∧ k < b then none else pageat map k
  list : ∀ pg, pg ∈ list' ↔ pg ∈ list ∨ ∃ k, (a ≤ k ∧ k < b) ∧ pageat map k = some pg

namespace Swept

variable {a b c : Nat} {map map' map'' : List (Option (Pte Page))} {list list' list'' : List Page}

theorem nothing (h : ∀ k, a ≤ k → k < b → pageat map k = none) : Swept a b map map list list where
  length := rfl
  ptes _ := rfl
  pages k := by
    split
    · rename_i hk
      exact h k hk.1 hk.2
    · rfl
  list pg := by
    refine ⟨.inl, fun hpg => hpg.resolve_right ?_⟩
    rintro ⟨k, hk, hp⟩
    rw [h k hk.1 hk.2] at hp
    cases hp

theorem trans (h : Swept a b map map' list list') (h' : Swept b c map' map'' list' list'')
    (hab : a ≤ b) (hbc : b ≤ c) : Swept a c map map'' list list'' where
  length := h'.length.trans h.length
  ptes i := (h'.ptes i).trans (h.ptes i)
  pages k := by
    rw [h'.pages, h.pages]
    split_ifs <;> first | rfl | omega
  list pg := by
    rw [h'.list, h.list, or_assoc]
    refine or_congr_right ⟨?_, ?_⟩
    · rintro (⟨k, hk, hp⟩ | ⟨k, hk, hp⟩)
      · exact ⟨k, by omega, hp⟩
      · rw [h.pages, if_neg (by omega)] at hp
        exact ⟨k, by omega, hp⟩
    · rintro ⟨k, hk, hp⟩
      by_cases hb : k < b
      · exact .inl ⟨k, by omega, hp⟩
      · exact .inr ⟨k, by omega, by rw [h.pages, if_neg (by omega), hp]⟩

/-- The end is no matter where there are no pages. -/
theorem trim (h : Swept a b map map' list list') (hcb : c ≤ b)
    (hno : ∀ k, a ≤ k → c ≤ k → pageat map k = none) : Swept a c map map' list list' where
  length := h.length
  ptes := h.ptes
  pages k := by
    rw [h.pages]
    by_cases hk : a ≤ k ∧ c ≤ k
    · rw [hno k hk.1 hk.2, ite_self, ite_self]
    · exact if_congr (by omega) rfl rfl
  list pg := by
    rw [h.list]
    refine or_congr_right (exists_congr fun k => and_congr_left fun hp => ?_)
    by_cases hk : a ≤ k ∧ c ≤ k
    · rw [hno k hk.1 hk.2] at hp
      cases hp
    · omega

end Swept

/-! ## The loops -/

variable {map : List (Option (Pte Page))} {list : List Page}

variable {i j : Nat}

theorem pageat_place (hj : j < PTEPERTAB) :
    pageat map (i * PTEPERTAB + j) = map[i]?.join.bind fun pte => pte.pages j := by
  have hdiv : (i * PTEPERTAB + j) / PTEPERTAB = i := by
    simp only [PTEPERTAB] at hj ⊢
    omega
  have hmod : (i * PTEPERTAB + j) % PTEPERTAB = j := by
    simp only [PTEPERTAB] at hj ⊢
    omega
  rw [pageat, hdiv, hmod]

theorem pageat_dropat (hj : j < PTEPERTAB) (k : Nat) :
    pageat (dropat map i j) k = if k = i * PTEPERTAB + j then none else pageat map k := by
  have hk := Nat.div_add_mod k PTEPERTAB
  unfold pageat dropat
  by_cases hi : i = k / PTEPERTAB
  · rw [hi, List.getElem?_modify_eq]
    rcases map[k / PTEPERTAB]? with - | - | pte
    · exact (ite_self _).symm
    · exact (ite_self _).symm
    · change Function.update pte.pages j none (k % PTEPERTAB) = _
      by_cases hjk : k % PTEPERTAB = j
      · rw [hjk, Function.update_self, if_pos (by rw [Nat.mul_comm]; omega)]
      · rw [Function.update_of_ne hjk, if_neg (by rw [Nat.mul_comm]; omega)]
        rfl
  · have hne : k ≠ i * PTEPERTAB + j := by
      simp only [PTEPERTAB] at hi hj ⊢
      omega
    rw [List.getElem?_modify_ne _ _ hi, if_neg hne]

theorem dropat_ptes (i j k : Nat) : (dropat map i j)[k]?.join.isSome = map[k]?.join.isSome := by
  unfold dropat
  by_cases hi : i = k
  · rw [hi, List.getElem?_modify_eq]
    rcases map[k]? with - | - | pte <;> rfl
  · rw [List.getElem?_modify_ne _ _ hi]

theorem takeat_spec (hj : j < PTEPERTAB) :
    Swept (i * PTEPERTAB + j) (i * PTEPERTAB + j + 1) map (takeat map i j list).1 list
      (takeat map i j list).2 := by
  have honly : ∀ k, (i * PTEPERTAB + j ≤ k ∧ k < i * PTEPERTAB + j + 1) ↔ k = i * PTEPERTAB + j := by
    omega
  have hp : pageat map (i * PTEPERTAB + j) = map[i]?.join.bind fun pte => pte.pages j :=
    pageat_place hj
  unfold takeat
  cases ht : map[i]?.join.bind fun pte => pte.pages j with
  | none =>
    refine .nothing fun k hk hk' => ?_
    rw [(honly k).mp ⟨hk, hk'⟩, hp, ht]
  | some pg =>
    refine ⟨List.length_modify .., dropat_ptes i j, fun k => ?_, fun pg' => ?_⟩
    · simp only [pageat_dropat hj, honly]
    · simp only [honly, exists_eq_left, hp, ht, List.mem_cons, Option.some.injEq]
      rw [or_comm, eq_comm]

/-- The inner loop sweeps up to where the count meets zero, or to the end of the `Pte`. -/
theorem freepte_spec : ∀ (n j : Nat) (pages : Usize)
    (map : List (Option (Pte Page))) (list : List Page), j + n = PTEPERTAB → pages ≠ 0 →
    let r := freepte i n j pages map list
    (pages.toNat ≤ n → r.1 = true ∧ Swept (i * PTEPERTAB + j) (i * PTEPERTAB + j + pages.toNat)
      map r.2.2.1 list r.2.2.2) ∧
    (n < pages.toNat → r.1 = false ∧ r.2.1.toNat = pages.toNat - n ∧
      Swept (i * PTEPERTAB + j) (i * PTEPERTAB + j + n) map r.2.2.1 list r.2.2.2) := by
  intro n
  induction n with
  | zero =>
    intro j pages map list _ h0
    exact ⟨fun h => absurd h (by bv_omega), fun _ => ⟨rfl, rfl, .nothing fun k h h' => by omega⟩⟩
  | succ n ih =>
    intro j pages map list hj h0
    have hone : Swept (i * PTEPERTAB + j) (i * PTEPERTAB + (j + 1)) map (takeat map i j list).1
        list (takeat map i j list).2 := by
      rw [← Nat.add_assoc]
      exact takeat_spec (by omega)
    have hsub : (pages - 1).toNat = pages.toNat - 1 := by bv_omega
    have hpos : 0 < pages.toNat := by bv_omega
    simp only [freepte]
    by_cases hz : pages - 1 = 0
    · rw [if_pos hz]
      have hlast : pages.toNat = 1 := by bv_omega
      rw [hlast, Nat.add_assoc]
      exact ⟨fun _ => ⟨rfl, hone⟩, fun h => absurd h (by omega)⟩
    · rw [if_neg hz]
      obtain ⟨hin, hout⟩ := ih (j + 1) (pages - 1) (takeat map i j list).1
        (takeat map i j list).2 (by omega) hz
      rw [hsub] at hin hout
      refine ⟨fun h => ?_, fun h => ?_⟩
      · obtain ⟨h₁, h₂⟩ := hin (by omega)
        have hend : i * PTEPERTAB + (j + 1) + (pages.toNat - 1) = i * PTEPERTAB + j + pages.toNat := by
          omega
        rw [hend] at h₂
        exact ⟨h₁, hone.trans h₂ (by omega) (by omega)⟩
      · obtain ⟨h₁, h₂, h₃⟩ := hout (by omega)
        have hend : i * PTEPERTAB + (j + 1) + n = i * PTEPERTAB + j + (n + 1) := by omega
        rw [hend] at h₃
        exact ⟨h₁, by omega, hone.trans h₃ (by omega) (by omega)⟩

/-- The count of `n` pages from the number `a` on meets zero: there is nothing to free, the last
place is the last of its `Pte`, or that `Pte` is there. -/
def Meets0 (map : List (Option (Pte Page))) (a n : Nat) : Prop :=
  n = 0 ∨ (a + n) % PTEPERTAB = 0 ∨ map[(a + n - 1) / PTEPERTAB]?.join.isSome

instance (map : List (Option (Pte Page))) (a n : Nat) : Decidable (Meets0 map a n) :=
  inferInstanceAs (Decidable (_ ∨ _ ∨ _))

/-- Where the loop ends. -/
def freeend (map : List (Option (Pte Page))) (a n : Nat) : Nat :=
  if a + n ≤ map.length * PTEPERTAB ∧ Meets0 map a n then a + n else map.length * PTEPERTAB

theorem freeend_congr {a b : Nat} {map' : List (Option (Pte Page))} {list' : List Page}
    (h : Swept a b map map' list list') (c n : Nat) : freeend map' c n = freeend map c n := by
  unfold freeend
  rw [h.length]
  refine if_congr (and_congr_right' ?_) rfl rfl
  simp only [Meets0, h.ptes]

variable {n : Nat}

theorem le_freeend {a : Nat} (h : a ≤ map.length * PTEPERTAB) : a ≤ freeend map a n := by
  unfold freeend
  split <;> omega

theorem freeend_le (a n : Nat) : freeend map a n ≤ map.length * PTEPERTAB := by
  unfold freeend
  split
  · rename_i h
    exact h.1
  · exact Nat.le.refl

theorem freeend_zero {a : Nat} (h : a ≤ map.length * PTEPERTAB) : freeend map a 0 = a :=
  if_pos ⟨h, .inl rfl⟩

/-- In a `Pte` that is there the count meets zero. -/
theorem freeend_in (hi : map[i]?.join.isSome) (hn : 0 < n) (h : j + n ≤ PTEPERTAB) :
    freeend map (i * PTEPERTAB + j) n = i * PTEPERTAB + j + n := by
  have hlen : i < map.length := by
    by_contra hge
    rw [List.getElem?_eq_none (Nat.le_of_not_lt hge)] at hi
    cases hi
  have hdiv : (i * PTEPERTAB + j + n - 1) / PTEPERTAB = i := by
    simp only [PTEPERTAB] at h ⊢
    omega
  refine if_pos ⟨?_, .inr (.inr (by rw [hdiv, hi]))⟩
  simp only [PTEPERTAB] at h ⊢
  omega

/-- Past the end of a `Pte` the count goes on. -/
theorem freeend_over (hj : j < PTEPERTAB) (h : PTEPERTAB - j ≤ n) :
    freeend map (i * PTEPERTAB + j) n = freeend map ((i + 1) * PTEPERTAB) (n - (PTEPERTAB - j)) := by
  have hsum : (i + 1) * PTEPERTAB + (n - (PTEPERTAB - j)) = i * PTEPERTAB + j + n := by
    simp only [PTEPERTAB] at h hj ⊢
    omega
  unfold freeend
  rw [hsum]
  refine if_congr (and_congr_right' ?_) rfl rfl
  unfold Meets0
  rw [hsum]
  refine ⟨?_, ?_⟩
  · exact fun hm => .inr (hm.resolve_left (by omega))
  · rintro (hz | hm)
    · refine .inr (.inl ?_)
      simp only [PTEPERTAB] at h hj hz ⊢
      omega
    · exact .inr hm

/-- In a `Pte` that is not there the count passes zero. -/
theorem freeend_wrapped {m : Nat} (hi : map[i]?.join = none) (hn : 0 < n) (h : j + n < PTEPERTAB)
    (hm : map.length * PTEPERTAB < m) :
    freeend map (i * PTEPERTAB + j) n = freeend map ((i + 1) * PTEPERTAB) m := by
  have hdiv : (i * PTEPERTAB + j + n - 1) / PTEPERTAB = i := by
    simp only [PTEPERTAB] at h ⊢
    omega
  unfold freeend
  rw [if_neg, if_neg (by omega)]
  rintro ⟨-, hz | hz | hz⟩
  · omega
  · simp only [PTEPERTAB] at h hz
    omega
  · rw [hdiv, hi] at hz
    cases hz

/-- The loop sweeps from where it starts to `freeend`. -/
theorem freemap_spec : ∀ (n i j : Nat) (pages : Usize) (map : List (Option (Pte Page)))
    (list : List Page), map.length = i + n → map.length < 2 ^ 31 → j < PTEPERTAB →
    i * PTEPERTAB + j ≤ map.length * PTEPERTAB →
    let r := freemap n i j pages map list
    Swept (i * PTEPERTAB + j) (freeend map (i * PTEPERTAB + j) pages.toNat) map r.1 list r.2 := by
  intro n
  induction n with
  | zero =>
    intro i j pages map list hn _ _ hle
    have hend : freeend map (i * PTEPERTAB + j) pages.toNat ≤ map.length * PTEPERTAB :=
      freeend_le ..
    rw [hn, Nat.add_zero] at hend
    exact .nothing fun k hk hk' => by omega
  | succ n ih =>
    intro i j pages map list hn hlen hj hle
    have hnext : (i + 1) * PTEPERTAB ≤ map.length * PTEPERTAB :=
      Nat.mul_le_mul_right _ (by omega)
    simp only [freemap]
    by_cases h0 : pages ≤ 0
    · have hz : pages.toNat = 0 := by bv_omega
      rw [if_pos h0, hz, freeend_zero hle]
      exact .nothing fun k hk hk' => absurd hk' (Nat.not_lt.mpr hk)
    rw [if_neg h0]
    have hpos : 0 < pages.toNat := by bv_omega
    by_cases hi : map[i]?.join.isNone
    · rw [if_pos hi]
      have hrest := ih (i + 1) 0 (pages - BitVec.ofNat 64 (PTEPERTAB - j)) map list (by omega) hlen
        (by decide) (by rw [Nat.add_zero]; exact hnext)
      simp only [Nat.add_zero] at hrest
      rw [Option.isNone_iff_eq_none] at hi
      have habsent : Swept (i * PTEPERTAB + j) ((i + 1) * PTEPERTAB) map map list list := by
        refine .nothing fun k hk hk' => ?_
        have hdiv : k / PTEPERTAB = i := by
          simp only [PTEPERTAB] at hk hk' ⊢
          omega
        rw [pageat, hdiv, hi]
        rfl
      have hend : freeend map (i * PTEPERTAB + j) pages.toNat = freeend map ((i + 1) * PTEPERTAB)
          (pages - BitVec.ofNat 64 (PTEPERTAB - j)).toNat := by
        simp only [PTEPERTAB] at hj ⊢
        by_cases hk : 256 - j ≤ pages.toNat
        · have hsub : (pages - BitVec.ofNat 64 (256 - j)).toNat = pages.toNat - (256 - j) := by
            bv_omega
          rw [hsub]
          exact freeend_over hj hk
        · refine freeend_wrapped hi hpos ?_ ?_
          · simp only [PTEPERTAB]
            omega
          · simp only [PTEPERTAB]
            bv_omega
      rw [hend]
      exact habsent.trans hrest (by simp only [PTEPERTAB] at hj ⊢; omega) (le_freeend hnext)
    · rw [if_neg hi]
      have hthere : map[i]?.join.isSome := Option.isSome_iff_ne_none.mpr fun h => hi (by rw [h]; rfl)
      have hspec := freepte_spec (i := i) (PTEPERTAB - j) j pages map list (by omega) (by bv_omega)
      generalize freepte i (PTEPERTAB - j) j pages map list = r at hspec
      obtain ⟨out, pages', map', list'⟩ := r
      simp only at hspec ⊢
      by_cases hk : pages.toNat ≤ PTEPERTAB - j
      · obtain ⟨rfl, hs⟩ := hspec.1 hk
        rw [if_pos rfl, freeend_in hthere hpos (by omega)]
        exact hs
      · obtain ⟨rfl, hp, hs⟩ := hspec.2 (by omega)
        have hfull : i * PTEPERTAB + j + (PTEPERTAB - j) = (i + 1) * PTEPERTAB := by
          simp only [PTEPERTAB] at hj ⊢
          omega
        rw [hfull] at hs
        have hrest := ih (i + 1) 0 pages' map' list' (by rw [hs.length]; omega) (by rw [hs.length]; exact hlen) (by decide)
          (by rw [Nat.add_zero, hs.length]; exact hnext)
        simp only [Nat.add_zero, hp, freeend_congr hs] at hrest
        rw [if_neg Bool.false_ne_true]
        rw [freeend_over hj (by omega)]
        exact hs.trans hrest (by simp only [PTEPERTAB] at hj ⊢; omega) (le_freeend hnext)

/-! ## The range -/

namespace Paged

variable {s : Paged Page} {start to' : Uintptr}

theorem Fits.lt64 (h : s.Fits) : s.pgszlg2 < 64 := by
  have := h.pgszlg2
  simp only [List.mem_cons, List.not_mem_nil, or_false] at this
  omega

/-- A page is of at most a gigabyte, and the segment ends at least that much below the end of the
addresses. -/
theorem Fits.top_lt (h : s.Fits) : s.top.toNat + 2 ^ s.pgszlg2 < 2 ^ 64 := by
  have hu := h.user
  have hs := h.size
  have hl := h.le
  have hP : 2 ^ s.pgszlg2 ≤ 2 ^ 30 := by
    have := h.pgszlg2
    simp only [List.mem_cons, List.not_mem_nil, or_false] at this
    exact Nat.pow_le_pow_right (by decide) (by omega)
  simp only [KSEG2, SEGMAXSIZE] at hu hs
  generalize 2 ^ s.pgszlg2 = P at hP ⊢
  bv_omega

/-- The address that `mfreeseg` starts at. -/
def freestart (s : Segment) (start : Uintptr) : Nat := up (2 ^ s.pgszlg2) start.toNat

theorem Fits.roundup (h : s.Fits) (hst : start ≤ s.top) :
    (ROUNDUP start s.pgsize).toNat = freestart s.toSegment start := by
  have htop := h.top_lt
  have hsize := pgsize_toNat h.lt64
  have hst : start.toNat ≤ s.top.toNat := hst
  rw [ROUNDUP_toNat (by rw [hsize]; exact Nat.two_pow_pos _) (by rw [hsize]; omega), hsize]
  rfl

theorem Fits.freestart_le (h : s.Fits) (hst : start ≤ s.top) :
    freestart s.toSegment start ≤ s.top.toNat := (up_le_iff (Nat.two_pow_pos _) h.top).mpr hst

theorem Fits.pgsize_le (h : s.Fits) (h30 : s.pgszlg2 ≠ 30) : 2 ^ s.pgszlg2 ≤ 2 ^ 21 := by
  have := h.pgszlg2
  simp only [List.mem_cons, List.not_mem_nil, or_false] at this
  exact Nat.pow_le_pow_right (by decide) (by omega)

/-- The count that `mfreeseg` starts with: the pages of the range, or more than there are. -/
theorem Fits.count (h : s.Fits) (h30 : s.pgszlg2 ≠ 30) (hb : s.base ≤ start) (hst : start ≤ to')
    (hto : to' ≤ s.top) :
    (freestart s.toSegment start ≤ to'.toNat →
      ((to' - ROUNDUP start s.pgsize) >>> s.pgszlg2).toNat =
        s.number to'.toNat - s.number (freestart s.toSegment start)) ∧
    (to'.toNat < freestart s.toSegment start →
      s.map.length * PTEPERTAB < ((to' - ROUNDUP start s.pgsize) >>> s.pgszlg2).toNat) := by
  have hround := h.roundup (BitVec.le_trans hst hto)
  have hpos := Nat.two_pow_pos s.pgszlg2
  have hb : s.base.toNat ≤ start.toNat := hb
  have hst : start.toNat ≤ to'.toNat := hst
  rw [BitVec.toNat_ushiftRight, Nat.shiftRight_eq_div_pow]
  constructor
  · intro hle
    have hsub : (to' - ROUNDUP start s.pgsize).toNat =
        to'.toNat - freestart s.toSegment start := by bv_omega
    have hbase : s.base.toNat / 2 ^ s.pgszlg2 ≤ (start.toNat + (2 ^ s.pgszlg2 - 1)) / 2 ^ s.pgszlg2 :=
      Nat.div_le_div_right (by omega)
    rw [hsub, number_eq h.base, number_eq h.base, freestart, up, Nat.mul_comm, Nat.sub_mul_div,
      Nat.mul_div_cancel_left _ hpos]
    omega
  · intro hlt
    have hup := up_lt hpos start.toNat
    have hsub : (to' - ROUNDUP start s.pgsize).toNat + freestart s.toSegment start =
        to'.toNat + 2 ^ 64 := by bv_omega
    have hP := h.pgsize_le h30
    have hmap := h.mapsize
    refine (Nat.le_div_iff_mul_le hpos).mpr ?_
    have hmul : (s.map.length * PTEPERTAB).succ * 2 ^ s.pgszlg2 ≤ 2 ^ 39 * 2 ^ 21 := by
      refine Nat.mul_le_mul ?_ hP
      simp only [PTEPERTAB]
      omega
    unfold freestart at hsub
    omega

/-- The place of the first page. -/
theorem Fits.place (h : s.Fits) (h30 : s.pgszlg2 ≠ 30) (soff : Uintptr) :
    (soff / s.ptemapmem).toNat = soff.toNat / 2 ^ s.pgszlg2 / PTEPERTAB ∧
    ((soff &&& (s.ptemapmem - 1)) >>> s.pgszlg2).toNat =
      soff.toNat / 2 ^ s.pgszlg2 % PTEPERTAB := by
  have hmem := ptemapmem_toNat h.pgszlg2
  have hP := h.pgsize_le h30
  have hpos := Nat.two_pow_pos s.pgszlg2
  rw [if_neg h30] at hmem
  have hmask : (s.ptemapmem - 1).toNat = 2 ^ (8 + s.pgszlg2) - 1 := by
    have hpow : PTEPERTAB * 2 ^ s.pgszlg2 = 2 ^ (8 + s.pgszlg2) := (Nat.pow_add 2 8 s.pgszlg2).symm
    rw [← hpow, ← hmem]
    have hmpos : 0 < s.ptemapmem.toNat := by
      rw [hmem]
      exact Nat.mul_pos (by decide) hpos
    bv_omega
  constructor
  · rw [BitVec.toNat_udiv, hmem, Nat.mul_comm, Nat.div_div_eq_div_mul]
  · rw [BitVec.toNat_ushiftRight, BitVec.toNat_and, hmask, Nat.and_two_pow_sub_one_eq_mod,
      Nat.shiftRight_eq_div_pow, Nat.pow_add, Nat.mul_comm, Nat.mod_mul_right_div_self]
    rfl

/-- `mfreeseg` sweeps from the page of its start to `freeend`. -/
theorem Fits.mfreeseg (h : s.Fits) (to' : Uintptr) (h30 : s.pgszlg2 ≠ 30) (hb : s.base ≤ start) (hst : start ≤ s.top) :
    ∃ map list, mfreeseg s start to' = some ({ s with map := map }, list) ∧
      Swept (s.number (freestart s.toSegment start))
        (freeend s.map (s.number (freestart s.toSegment start))
          ((to' - ROUNDUP start s.pgsize) >>> s.pgszlg2).toNat) s.map map [] list := by
  have hround := h.roundup hst
  have hmem := ptemapmem_toNat h.pgszlg2
  have hpos := Nat.two_pow_pos s.pgszlg2
  rw [if_neg h30] at hmem
  have h0 : s.ptemapmem ≠ 0 := by
    intro h0
    have hzero : 0 < PTEPERTAB * 2 ^ s.pgszlg2 := Nat.mul_pos (by decide) hpos
    rw [← hmem, h0] at hzero
    exact absurd hzero (by decide)
  have hle := le_up hpos start.toNat
  have hb : s.base.toNat ≤ start.toNat := hb
  have hsoff : (ROUNDUP start s.pgsize - s.base).toNat =
      freestart s.toSegment start - s.base.toNat := by
    unfold freestart at hround ⊢
    bv_omega
  obtain ⟨hi, hj⟩ := h.place h30 (ROUNDUP start s.pgsize - s.base)
  rw [hsoff] at hi hj
  have hroom := h.room
  have hnum := number_mono (s := s.toSegment) (h.freestart_le hst)
  unfold Seg.mfreeseg
  simp only [if_neg h0, hi, hj]
  refine ⟨_, _, rfl, ?_⟩
  have hspec := freemap_spec (s.map.length - s.number (freestart s.toSegment start) / PTEPERTAB)
    (s.number (freestart s.toSegment start) / PTEPERTAB)
    (s.number (freestart s.toSegment start) % PTEPERTAB)
    ((to' - ROUNDUP start s.pgsize) >>> s.pgszlg2) s.map []
    (by simp only [PTEPERTAB] at hroom ⊢; omega) h.mapsize (Nat.mod_lt _ (by decide))
    (by rw [Nat.mul_comm, Nat.div_add_mod]; omega)
  rw [Nat.mul_comm, Nat.div_add_mod] at hspec
  exact hspec

/-- The pages that lie in the range, once its ends are rounded to pages, are gone and freed, and every
other page stays. -/
def FreesRange (s : Paged Page) (start to' : Uintptr) : Prop :=
  ∃ s' list, mfreeseg s start to' = some (s', list) ∧ s'.toSegment = s.toSegment ∧
    (∀ k, s.Touches (freestart s.toSegment start) (down (2 ^ s.pgszlg2) to'.toNat) k →
      s'.page k = none) ∧
    (∀ k, ¬ s.Touches (freestart s.toSegment start) (down (2 ^ s.pgszlg2) to'.toNat) k →
      s'.page k = s.page k) ∧
    ∀ pg, pg ∈ list ↔ ∃ k,
      s.Touches (freestart s.toSegment start) (down (2 ^ s.pgszlg2) to'.toNat) k ∧
      s.page k = some pg

/-- The range is not inside one page, and the count of its pages meets zero: there are none, or the
last is the last of its `Pte`, or that `Pte` is there. -/
def Ends (s : Paged Page) (start to' : Uintptr) : Prop :=
  freestart s.toSegment start ≤ to'.toNat ∧
    Meets0 s.map (s.number (freestart s.toSegment start))
      (s.number to'.toNat - s.number (freestart s.toSegment start))

/-- The count ends at the range, or it runs through the rest of the map. -/
theorem Fits.freeend_cases (h : s.Fits) (h30 : s.pgszlg2 ≠ 30) (hb : s.base ≤ start)
    (hst : start ≤ to') (hto : to' ≤ s.top) :
    let a := s.number (freestart s.toSegment start)
    let last := freeend s.map a ((to' - ROUNDUP start s.pgsize) >>> s.pgszlg2).toNat
    (s.Ends start to' ∧ a ≤ s.number to'.toNat ∧ last = s.number to'.toNat) ∨
      (¬ s.Ends start to' ∧ last = s.map.length * PTEPERTAB) := by
  intro a last
  obtain ⟨hin, hout⟩ := h.count h30 hb hst hto
  by_cases hle : freestart s.toSegment start ≤ to'.toNat
  · have hmono : a ≤ s.number to'.toNat := number_mono hle
    have hroom : s.number to'.toNat ≤ s.map.length * PTEPERTAB :=
      Nat.le_trans (number_mono hto) h.room
    have hlast : last = freeend s.map a (s.number to'.toNat - a) := by rw [← hin hle]
    rw [hlast]
    by_cases hm : Meets0 s.map a (s.number to'.toNat - a)
    · refine .inl ⟨⟨hle, hm⟩, hmono, ?_⟩
      rw [freeend, if_pos ⟨by omega, hm⟩]
      omega
    · exact .inr ⟨fun he => hm he.2, if_neg fun hc => hm hc.2⟩
  · have hcount := hout (by omega)
    exact .inr ⟨fun he => hle he.1, if_neg fun hc => by omega⟩

theorem page_outside (s : Paged Page) {k : Nat} (hk : s.map.length * PTEPERTAB ≤ k) :
    s.page k = none := by
  have hnone : s.map[k / PTEPERTAB]? = none :=
    List.getElem?_eq_none ((Nat.le_div_iff_mul_le (by decide)).mpr hk)
  rw [page, pageat, hnone]
  rfl

theorem mfreeseg_none (h30 : s.pgszlg2 = 30) : mfreeseg s start to' = none := by
  have h0 : s.ptemapmem = 0 := by
    rw [Segment.ptemapmem, h30]
    decide
  unfold mfreeseg
  simp only [h0, if_true]

/-- `mfreeseg` frees the pages of the range, and no others, exactly when the count ends at the range
or there is no page behind it; with pages of a gigabyte it divides by zero. -/
theorem mfreeseg_exact (s : Paged Page) (start to' : Uintptr) (h : s.Fits) (hb : s.base ≤ start)
    (hst : start ≤ to') (hto : to' ≤ s.top) :
    s.FreesRange start to' ↔ s.pgszlg2 ≠ 30 ∧ (s.Ends start to' ∨
      ∀ k, s.number (freestart s.toSegment start) ≤ k → s.number to'.toNat ≤ k →
        s.page k = none) := by
  by_cases h30 : s.pgszlg2 = 30
  · refine iff_of_false ?_ fun hc => hc.1 h30
    rintro ⟨s', list, heq, -⟩
    rw [mfreeseg_none h30] at heq
    cases heq
  obtain ⟨map, list, heq, hsw⟩ := h.mfreeseg to' h30 hb (BitVec.le_trans hst hto)
  have hcases := h.freeend_cases h30 hb hst hto
  have hroom := Nat.le_trans (number_mono (s := s.toSegment) hto) h.room
  have htouch (k : Nat) : s.Touches (freestart s.toSegment start)
      (down (2 ^ s.pgszlg2) to'.toNat) k ↔
      s.number (freestart s.toSegment start) ≤ k ∧ k < s.number to'.toNat :=
    touches_iff h.base (dvd_up _ _) (Nat.le_trans hb (le_up (Nat.two_pow_pos _) _))
  simp only at hcases
  unfold FreesRange
  simp only [htouch, heq, Option.some.injEq, Prod.mk.injEq]
  generalize s.number (freestart s.toSegment start) = a at *
  generalize s.number to'.toNat = e at *
  generalize freeend s.map a _ = last at *
  constructor
  · -- a page behind the range that is there would be gone
    rintro ⟨s', list', ⟨rfl, rfl⟩, -, -, hstay, -⟩
    refine ⟨h30, ?_⟩
    rcases hcases with ⟨he, -⟩ | ⟨-, rfl⟩
    · exact .inl he
    · refine .inr fun k hka hke => ?_
      by_cases hk : k < s.map.length * PTEPERTAB
      · rw [← hstay k (by omega)]
        exact (hsw.pages k).trans (if_pos ⟨hka, hk⟩)
      · exact s.page_outside (by omega)
  · rintro ⟨-, hok⟩
    have hsame : Swept a e s.map map [] list := by
      rcases hcases with ⟨-, -, rfl⟩ | ⟨hno, rfl⟩
      · exact hsw
      · exact hsw.trim hroom (hok.resolve_left hno)
    refine ⟨_, _, ⟨rfl, rfl⟩, rfl, fun k hk => ?_, fun k hk => ?_, fun pg => ?_⟩
    · exact (hsame.pages k).trans (if_pos hk)
    · exact (hsame.pages k).trans (if_neg hk)
    · rw [hsame.list]
      exact or_iff_right List.not_mem_nil

/-- Two megabytes with pages of 4K; only the first page of the second `Pte` is there. -/
private def halved : Paged Unit where
  type := SG_DATA
  base := 0x1000000
  top := 0x1200000
  pgszlg2 := 12
  map := [none, some ⟨fun k => if k = 0 then some () else none, 0, 0⟩]
  first := 1
  last := 1

theorem halved_fits : halved.Fits where
  pgszlg2 := by decide
  base := by decide
  top := by decide
  le := by decide
  user := by decide
  size := by decide
  room := by decide
  mapsize := by decide

theorem mfreeseg_exact_halved : halved.FreesRange 0x1000000 0x1101000 :=
  (mfreeseg_exact halved 0x1000000 0x1101000 halved_fits (by decide) (by decide) (by decide)).mpr
    ⟨by decide, .inl ⟨by decide, by decide⟩⟩

/-- The first page of the segment is freed, which is not there, and the page in the next `Pte`
goes. -/
theorem mfreeseg_runs_on : ∃ s : Paged Unit, ∃ start to' : Uintptr, s.Fits ∧ s.base ≤ start ∧
    start ≤ to' ∧ to' ≤ s.top ∧ ¬ s.FreesRange start to' := by
  refine ⟨halved, 0x1000000, 0x1001000, halved_fits, by decide, by decide, by decide, ?_⟩
  rintro ⟨s', list, heq, -, -, hstay, -⟩
  have hgone : (mfreeseg halved 0x1000000 0x1001000).any
      (fun r => (r.1.page 256).isNone) = true := by decide +kernel
  have hs := hstay 256 fun ⟨x, hlo, hhi, _, hx⟩ => by
    have hlo : 0x1000000 ≤ x := hlo
    have hhi : x < 0x1001000 := hhi
    have hx : (x - 0x1000000) / 4096 = 256 := hx
    omega
  rw [heq] at hgone
  simp only [Option.any_some, hs] at hgone
  exact absurd hgone (by decide)

end Paged

end NixMark.Seg
