import NixMark.Seg.Pages

/-!
# Copying a stack (`port/segment.c`, `forkseg`)

A stack segment that is freed keeps its pages, and the next stack is made from it: its pages are
moved to the new base. `forkseg` copies the parent's pages over those it finds.

* `Segalloc`: the lists of free segments; `newseg`, with `segmapsize` and `relocateseg`.
* `ptecpy`, `forkseg`: the branch for stacks. `clearseg`, what is left of a stack that is freed.
* `Stack`: what holds of every stack segment, also of one that is free.
* `forkseg_page`: a page of the child is the parent's, or the one that was there.
-/

namespace NixMark.Seg

open Lib

def UPGSHFT : Nat := 14
def USTKSIZE : Uintptr := 16 * 1024 * 1024
def SG_FREE : BitVec 16 := 5
def SG_CACHE : BitVec 16 := 0x80
def SMAPINCR : Nat := 16
def SEGMAPSIZE : Nat := (SEGMAXSIZE.toNat + (PTEPERTAB * PGSZ.toNat - 1)) / (PTEPERTAB * PGSZ.toNat)

/-- A page of memory: the address that it is mapped at, and its bytes. -/
structure Page where
  va : Uintptr
  data : Nat → UInt8

/-- The lists of free segments: those that were stacks, and the others. -/
structure Segalloc where
  sfree : List (Paged Page)
  free : List (Paged Page)

def ptealloc : Pte Page := ⟨fun _ => none, PTEPERTAB, 0⟩

/-- The map that `segmapsize` leaves. -/
def segmapsize (map : List (Option (Pte Page))) (mapsize : Nat) : List (Option (Pte Page)) :=
  let mapsize := if mapsize < SMAPINCR then SMAPINCR else mapsize
  if mapsize > map.length then
    map ++ List.replicate ((mapsize + (SMAPINCR - 1)) / SMAPINCR * SMAPINCR - map.length) none
  else map

/-- The pages of a `Pte` are moved. -/
def Pte.relocate (pte : Pte Page) (new old : Uintptr) : Pte Page :=
  { pte with
    pages := fun j =>
      if pte.first ≤ j ∧ j ≤ pte.last then
        (pte.pages j).map fun x => { x with va := x.va - old + new }
      else pte.pages j }

def relocateseg (s : Paged Page) (new old : Uintptr) : Paged Page :=
  if new = old then s
  else
    { s with
      map := s.map.mapIdx fun i pte =>
        if s.first ≤ i ∧ i ≤ s.last then pte.map fun pte => pte.relocate new old else pte }

/-- The fields that `newseg` sets in the segment that it found. -/
def renew (seg : Segment) (s : Paged Page) : Paged Page :=
  let size := ((seg.top - seg.base) / seg.pgsize).toNat
  let mapsize :=
    if seg.type &&& SG_CACHE ≠ 0 then SEGMAPSIZE else (size + (PTEPERTAB - 1)) / PTEPERTAB
  { s with toSegment := seg, map := segmapsize s.map mapsize }

/-- A segment that was never used: no map, and `first` and `last` are those of a `nil` map. -/
def Paged.zero : Paged Page := ⟨⟨0, 0, 0, 0⟩, [], 0, 0⟩

/-- A segment from the list of those that were not stacks, or a new one. -/
def Segalloc.other (g : Segalloc) (seg : Segment) : Paged Page × Segalloc :=
  match g.free with
  | s :: l => (renew seg s, { g with free := l })
  | [] => (renew seg Paged.zero, g)

/-- A segment from the list of stacks, when there is one. -/
def Segalloc.stack (g : Segalloc) (seg : Segment) : Paged Page × Segalloc :=
  match g.sfree with
  | ss :: l => (renew seg (relocateseg ss seg.base ss.base), { g with sfree := l })
  | [] => g.other seg

/-- `newseg` without a channel. -/
def newseg (g : Segalloc) (type : BitVec 16) (base top : Uintptr) (pgszlg2 : Nat) :
    Except Stop (Paged Page × Segalloc) :=
  (Proc.newseg type base top pgszlg2).map fun seg =>
    if type &&& SG_TYPE = SG_STACK then g.stack seg else g.other seg

/-- A place of the child's `Pte` once the parent's was copied: `newpage` takes the address of the
page that it is for. -/
def deepcpy : Option Page → Option Page → Option Page
  | none, dst => dst
  | some pg, none => some ⟨pg.va, pg.data⟩
  | some pg, some dst => some { dst with data := pg.data }

/-- `ptecpy`, with a deep copy. -/
def ptecpy (new old : Pte Page) : Pte Page where
  pages j := if old.first ≤ j ∧ j ≤ old.last then deepcpy (old.pages j) (new.pages j) else new.pages j
  first := if new.first > old.first then old.first else new.first
  last := (List.range' old.first (old.last + 1 - old.first)).foldl
    (fun last j => if (old.pages j).isSome ∧ last < j then j else last) new.last

/-- The child's entry `i` once the parent's was copied. -/
def Paged.copypte (s : Paged Page) (i : Nat) (new : Option (Pte Page)) : Option (Pte Page) :=
  if s.first ≤ i ∧ i ≤ s.last then
    s.map[i]?.join.elim new fun old => some (ptecpy (new.getD ptealloc) old)
  else new

/-- The child's segment once the `Pte`s of the parent's were copied. -/
def Paged.copy (n s : Paged Page) : Paged Page :=
  { n with
    map := n.map.mapIdx s.copypte
    first := if n.first > s.first then s.first else n.first
    last := if n.last < s.last then s.last else n.last }

/-- `forkseg` of a stack. -/
def forkseg (g : Segalloc) (s : Paged Page) : Except Stop (Paged Page × Segalloc) :=
  (newseg g s.type s.base s.top s.pgszlg2).map fun r => (r.1.copy s, r.2)

/-- `clearpte` for a stack, of which the last page is cleared; `none` when there is none at its
place. The page is found at its address, in the memory of the process that frees the stack. -/
def clearpte (p : Pte Page) : Option (Pte Page) :=
  if p.first ≤ p.last then
    (p.pages p.last).map fun pg =>
      { p with pages := Function.update p.pages p.last (some { pg with data := fun _ => 0 }) }
  else some p

/-- The entry `i` of a stack that is freed. -/
def Paged.clearat (s : Paged Page) (i : Nat) (pte : Option (Pte Page)) :
    Option (Option (Pte Page)) :=
  if s.first ≤ i ∧ i ≤ s.last then pte.elim (some none) fun p => (clearpte p).map some
  else some pte

/-- The loop of `clearseg`, from the entry `i` on. -/
def Paged.clear (s : Paged Page) : Nat → List (Option (Pte Page)) →
    Option (List (Option (Pte Page)))
  | _, [] => some []
  | i, pte :: map => (s.clearat i pte).bind fun pte => (s.clear (i + 1) map).map (pte :: ·)

/-- `clearseg` for a stack. -/
def clearseg (s : Paged Page) : Option (Paged Page) :=
  (s.clear 0 s.map).map fun map => { s with map := map }

/-- `putseg`: the last reference to a stack is given up. -/
def putseg (g : Segalloc) (s : Paged Page) : Option Segalloc :=
  (clearseg s).map fun s => { g with sfree := { s with type := SG_FREE } :: g.sfree }

/-! ## Stacks -/

/-- A stack has `USTKSIZE` bytes. Its pages are between `first` and `last`, and each is mapped at the
address of its place. -/
structure Stack (s : Paged Page) : Prop where
  pgszlg2 : s.pgszlg2 = UPGSHFT
  aligned : (s.base ||| s.top) &&& ((1 <<< UPGSHFT) - 1) = 0
  top : s.top = s.base + USTKSIZE
  fits : s.base.toNat + USTKSIZE.toNat < 2 ^ 64
  last : s.last < 4
  room : 4 ≤ s.map.length
  ptes : ∀ (i : Nat) (pte : Pte Page), s.map[i]?.join = some pte → ∀ j pg, pte.pages j = some pg →
    (s.first ≤ i ∧ i ≤ s.last) ∧ (pte.first ≤ j ∧ j ≤ pte.last) ∧ j < PTEPERTAB ∧
      pg.va = s.base + BitVec.ofNat 64 ((i * PTEPERTAB + j) * 2 ^ UPGSHFT)

/-- A free segment that was not a stack has no pages. -/
structure Bare (s : Paged Page) : Prop where
  last : s.last < 4
  ptes : ∀ (i : Nat) (pte : Pte Page), s.map[i]?.join = some pte → ∀ j, pte.pages j = none

/-- The free segments. -/
structure Segalloc.Ready (g : Segalloc) : Prop where
  sfree : ∀ r ∈ g.sfree, Stack r
  free : ∀ f ∈ g.free, Bare f

/-! ## Recycled segments -/

variable {s n r : Paged Page} {g : Segalloc} {seg : Segment}

theorem page_some {s : Paged Page} {k : Nat} {pg : Page} :
    s.page k = some pg ↔
      ∃ pte, s.map[k / PTEPERTAB]?.join = some pte ∧ pte.pages (k % PTEPERTAB) = some pg :=
  Option.bind_eq_some_iff

theorem segmapsize_get (map : List (Option (Pte Page))) (m i : Nat) :
    (segmapsize map m)[i]?.join = map[i]?.join := by
  have happ (n : Nat) : (map ++ List.replicate n none)[i]?.join = map[i]?.join := by
    rw [List.getElem?_append]
    split
    · rfl
    · rename_i hi
      rw [List.getElem?_eq_none (Nat.le_of_not_lt hi), List.getElem?_replicate]
      split <;> rfl
  unfold segmapsize
  simp only
  split_ifs
  · exact happ _
  · rfl
  · exact happ _
  · rfl

theorem segmapsize_length (map : List (Option (Pte Page))) (m : Nat) :
    4 ≤ (segmapsize map m).length := by
  have hm : 16 ≤ if m < SMAPINCR then SMAPINCR else m := by
    split
    · exact Nat.le.refl
    · rename_i h
      exact Nat.le_of_not_lt h
  unfold segmapsize
  simp only
  generalize (if m < SMAPINCR then SMAPINCR else m) = m' at hm ⊢
  split
  · simp only [List.length_append, List.length_replicate, SMAPINCR]
    omega
  · omega

theorem renew_page (seg : Segment) (s : Paged Page) (k : Nat) : (renew seg s).page k = s.page k := by
  unfold Paged.page pageat renew
  simp only [segmapsize_get]

theorem relocateseg_get (s : Paged Page) (new old : Uintptr) (i : Nat) :
    (relocateseg s new old).map[i]?.join = if new ≠ old ∧ s.first ≤ i ∧ i ≤ s.last then
      s.map[i]?.join.map fun pte => pte.relocate new old else s.map[i]?.join := by
  unfold relocateseg
  by_cases h : new = old
  · rw [if_pos h, if_neg fun hc => hc.1 h]
  rw [if_neg h, List.getElem?_mapIdx]
  by_cases hi : s.first ≤ i ∧ i ≤ s.last
  · rw [if_pos ⟨h, hi⟩]
    simp only [if_pos hi]
    rcases s.map[i]? with - | - | pte <;> rfl
  · rw [if_neg fun hc => hi hc.2]
    simp only [if_neg hi]
    rcases s.map[i]? with - | - | pte <;> rfl

theorem relocateseg_first (s : Paged Page) (new old : Uintptr) :
    (relocateseg s new old).first = s.first := by
  unfold relocateseg
  split <;> rfl

theorem relocateseg_last (s : Paged Page) (new old : Uintptr) :
    (relocateseg s new old).last = s.last := by
  unfold relocateseg
  split <;> rfl

theorem Pte.relocate_some {pte : Pte Page} {new old : Uintptr} {j : Nat} {pg : Page}
    (hin : ∀ pg, pte.pages j = some pg → pte.first ≤ j ∧ j ≤ pte.last) :
    (pte.relocate new old).pages j = some pg ↔
      ∃ x, pte.pages j = some x ∧ { x with va := x.va - old + new } = pg := by
  unfold relocate
  simp only
  split
  · exact Option.map_eq_some_iff
  · rename_i hout
    refine ⟨fun h => absurd (hin pg h) hout, ?_⟩
    rintro ⟨x, hx, -⟩
    exact absurd (hin x hx) hout

/-- A stack that is moved is a stack with the same bytes. -/
theorem Stack.relocate (h : Stack r) (new : Uintptr) (i : Nat) (pte : Pte Page)
    (hp : (relocateseg r new r.base).map[i]?.join = some pte) :
    ∃ pte', r.map[i]?.join = some pte' ∧ pte.first = pte'.first ∧ pte.last = pte'.last ∧
      ∀ j, pte.pages j = (pte'.pages j).map fun x => { x with va := x.va - r.base + new } := by
  rw [relocateseg_get] at hp
  split at hp
  · rename_i hc
    obtain ⟨pte', hp', rfl⟩ := Option.map_eq_some_iff.mp hp
    refine ⟨pte', hp', rfl, rfl, fun j => Option.ext fun pg => ?_⟩
    rw [Pte.relocate_some fun pg hpg => (h.ptes i pte' hp' j pg hpg).2.1, Option.map_eq_some_iff]
  · rename_i hc
    refine ⟨pte, hp, rfl, rfl, fun j => ?_⟩
    cases hj : pte.pages j with
    | none => rfl
    | some pg =>
      have hnew : new = r.base := by
        by_contra hne
        exact hc ⟨hne, (h.ptes i pte hp j pg hj).1⟩
      rw [hnew, Option.map_some, BitVec.sub_add_cancel]

/-- The shape that `newseg` gives to a stack. -/
structure Shape (seg : Segment) : Prop where
  pgszlg2 : seg.pgszlg2 = UPGSHFT
  aligned : (seg.base ||| seg.top) &&& ((1 <<< UPGSHFT) - 1) = 0
  top : seg.top = seg.base + USTKSIZE
  fits : seg.base.toNat + USTKSIZE.toNat < 2 ^ 64

theorem Stack.shape (h : Stack s) : Shape s.toSegment :=
  ⟨h.pgszlg2, h.aligned, h.top, h.fits⟩

theorem Stack.recycled (h : Stack r) (hs : Shape seg) :
    Stack (renew seg (relocateseg r seg.base r.base)) where
  pgszlg2 := hs.pgszlg2
  aligned := hs.aligned
  top := hs.top
  fits := hs.fits
  last := by
    change (relocateseg r seg.base r.base).last < 4
    rw [relocateseg_last]
    exact h.last
  room := segmapsize_length ..
  ptes i pte hp j pg hj := by
    have hp : (relocateseg r seg.base r.base).map[i]?.join = some pte := by
      rw [← hp, renew, segmapsize_get]
    obtain ⟨pte', hp', hf, hl, hpages⟩ := h.relocate seg.base i pte hp
    rw [hpages] at hj
    obtain ⟨x, hx, rfl⟩ := Option.map_eq_some_iff.mp hj
    obtain ⟨hi, hin, hlt, hva⟩ := h.ptes i pte' hp' j x hx
    refine ⟨?_, by rw [hf, hl]; exact hin, hlt, ?_⟩
    · change (relocateseg r seg.base r.base).first ≤ i ∧ i ≤ (relocateseg r seg.base r.base).last
      rw [relocateseg_first, relocateseg_last]
      exact hi
    · change x.va - r.base + seg.base = seg.base + _
      rw [hva, BitVec.add_comm r.base, BitVec.add_sub_cancel, BitVec.add_comm]

theorem Stack.recycled_data (h : Stack r) (k : Nat) :
    ((renew seg (relocateseg r seg.base r.base)).page k).map Page.data = (r.page k).map Page.data := by
  rw [renew_page]
  unfold Paged.page pageat
  cases hp : (relocateseg r seg.base r.base).map[k / PTEPERTAB]?.join with
  | none =>
    have hnone : r.map[k / PTEPERTAB]?.join = none := by
      rw [relocateseg_get] at hp
      split at hp
      · exact Option.map_eq_none_iff.mp hp
      · exact hp
    rw [hnone]
  | some pte =>
    obtain ⟨pte', hp', -, -, hpages⟩ := h.relocate seg.base _ pte hp
    rw [hp', Option.bind_some, Option.bind_some, hpages, Option.map_map]
    rfl

theorem Bare.renewed (h : Bare r) (hs : Shape seg) : Stack (renew seg r) where
  pgszlg2 := hs.pgszlg2
  aligned := hs.aligned
  top := hs.top
  fits := hs.fits
  last := h.last
  room := segmapsize_length ..
  ptes i pte hp j pg hj := by
    rw [renew, segmapsize_get] at hp
    rw [h.ptes i pte hp j] at hj
    cases hj

theorem Bare.page (h : Bare r) (k : Nat) : r.page k = none := by
  rw [Option.eq_none_iff_forall_ne_some]
  intro pg hpg
  obtain ⟨pte, hp, hj⟩ := page_some.mp hpg
  rw [h.ptes _ pte hp] at hj
  cases hj

theorem zero_bare : Bare Paged.zero where
  last := by decide
  ptes _ _ hp := by cases hp

/-- The segment that `newseg` finds for a stack has the pages of the stack that was freed last. -/
theorem Segalloc.Ready.newseg (hg : g.Ready) (hs : Shape seg) (ht : seg.type &&& SG_TYPE = SG_STACK) :
    ∃ n g', newseg g seg.type seg.base seg.top seg.pgszlg2 = .ok (n, g') ∧ n.toSegment = seg ∧
      Stack n ∧ g'.Ready ∧
      ∀ k, (n.page k).map Page.data = (g.sfree.head?.bind fun r => r.page k).map Page.data := by
  have hok : Proc.newseg seg.type seg.base seg.top seg.pgszlg2 = .ok seg := by
    have hsize : ¬ SEGMAXSIZE < seg.top - seg.base := by
      rw [hs.top, BitVec.add_comm, BitVec.add_sub_cancel]
      decide
    rw [Proc.newseg, hs.pgszlg2, if_neg fun h => h hs.aligned, if_neg hsize, ← hs.pgszlg2]
  unfold Seg.newseg
  rw [hok]
  simp only [Except.map, if_pos ht]
  refine ⟨_, _, rfl, ?_⟩
  cases hf : g.sfree with
  | cons ss l =>
    have hss := hg.sfree ss (by rw [hf]; exact List.mem_cons_self ..)
    refine ⟨rfl, hss.recycled hs, ⟨fun r hr => ?_, hg.free⟩, hss.recycled_data⟩
    exact hg.sfree r (by rw [hf]; exact List.mem_cons_of_mem _ hr)
  | nil =>
    unfold Segalloc.other
    cases hfr : g.free with
    | cons f l =>
      have hbare := hg.free f (by rw [hfr]; exact List.mem_cons_self ..)
      refine ⟨rfl, hbare.renewed hs, ⟨hg.sfree, fun f' hf' => ?_⟩, fun k => ?_⟩
      · exact hg.free f' (by rw [hfr]; exact List.mem_cons_of_mem _ hf')
      · rw [renew_page, hbare.page]
        rfl
    | nil =>
      refine ⟨rfl, zero_bare.renewed hs, hg, fun k => ?_⟩
      rw [renew_page, zero_bare.page]
      rfl

/-! ## The copy -/

theorem foldl_last (old : Pte Page) (l : List Nat) : ∀ last,
    let last' := l.foldl (fun last j => if (old.pages j).isSome ∧ last < j then j else last) last
    last ≤ last' ∧ ∀ j ∈ l, (old.pages j).isSome → j ≤ last' := by
  induction l with
  | nil => exact fun last => ⟨Nat.le.refl, fun j hj => by cases hj⟩
  | cons i l ih =>
    intro last
    rw [List.foldl_cons]
    obtain ⟨h₁, h₂⟩ := ih (if (old.pages i).isSome ∧ last < i then i else last)
    have hstep : last ≤ (if (old.pages i).isSome ∧ last < i then i else last) ∧
        ((old.pages i).isSome → i ≤ if (old.pages i).isSome ∧ last < i then i else last) := by
      by_cases hc : (old.pages i).isSome ∧ last < i
      · rw [if_pos hc]
        exact ⟨Nat.le_of_lt hc.2, fun _ => Nat.le.refl⟩
      · rw [if_neg hc]
        exact ⟨Nat.le.refl, fun hi => Nat.le_of_not_lt fun hlt => hc ⟨hi, hlt⟩⟩
    refine ⟨Nat.le_trans hstep.1 h₁, fun j hj hsome => ?_⟩
    rcases List.mem_cons.mp hj with rfl | hj
    · exact Nat.le_trans (hstep.2 hsome) h₁
    · exact h₂ j hj hsome

theorem ptecpy_last (new old : Pte Page) :
    new.last ≤ (ptecpy new old).last ∧ ∀ j, old.first ≤ j ∧ j ≤ old.last → (old.pages j).isSome →
      j ≤ (ptecpy new old).last := by
  obtain ⟨h₁, h₂⟩ := foldl_last old (List.range' old.first (old.last + 1 - old.first)) new.last
  exact ⟨h₁, fun j hj hsome => h₂ j (List.mem_range'_1.mpr (by omega)) hsome⟩

/-- What is at a place of an entry of the child's map. -/
theorem Stack.copypte (hs : Stack s) (k : Nat) (new : Option (Pte Page)) :
    (s.copypte (k / PTEPERTAB) new).bind (fun pte => pte.pages (k % PTEPERTAB)) =
      deepcpy (s.page k) (new.bind fun pte => pte.pages (k % PTEPERTAB)) := by
  have hnew : (new.getD ptealloc).pages (k % PTEPERTAB) =
      new.bind fun pte => pte.pages (k % PTEPERTAB) := by
    cases new <;> rfl
  unfold Paged.copypte Paged.page pageat
  cases hp : s.map[k / PTEPERTAB]?.join with
  | none => exact congrArg (fun o => Option.bind o _) (ite_self _)
  | some old =>
    rw [Option.elim_some, Option.bind_some]
    cases hj : old.pages (k % PTEPERTAB) with
    | none =>
      rw [deepcpy]
      split
      · rw [Option.bind_some, ptecpy]
        simp only [hj, deepcpy, ite_self, hnew]
      · rfl
    | some pg =>
      obtain ⟨hi, hin, -⟩ := hs.ptes _ old hp _ pg hj
      rw [if_pos hi, Option.bind_some, ptecpy]
      simp only [if_pos hin, hj, hnew]

/-- A page of the copy is the parent's, or the one that was there. -/
theorem copy_page (hs : Stack s) (hn : Stack n) (k : Nat) :
    (n.copy s).page k = deepcpy (s.page k) (n.page k) := by
  rw [Paged.page, pageat, Paged.copy, List.getElem?_mapIdx]
  cases hk : n.map[k / PTEPERTAB]? with
  | some new =>
    have hold : n.page k = new.bind fun pte => pte.pages (k % PTEPERTAB) := by
      rw [Paged.page, pageat, hk, Option.join_some]
    rw [Option.map_some, Option.join_some, hs.copypte, hold]
  | none =>
    have hout : n.page k = none := by rw [Paged.page, pageat, hk]; rfl
    have hnone : s.page k = none := by
      rw [Option.eq_none_iff_forall_ne_some]
      intro pg hpg
      obtain ⟨pte, hp, hj⟩ := page_some.mp hpg
      have hi := (hs.ptes _ pte hp _ pg hj).1
      have hlen := List.getElem?_eq_none_iff.mp hk
      have hlast := hs.last
      have hroom := hn.room
      omega
    rw [hout, hnone]
    rfl

/-- A page at a place of the copy of a `Pte` was there, or it is the copy of one of the parent's. -/
theorem ptecpy_some {new old : Pte Page} {j : Nat} {pg : Page}
    (h : (ptecpy new old).pages j = some pg) :
    (∃ x, new.pages j = some x ∧ pg.va = x.va) ∨
      (∃ x, old.pages j = some x ∧ pg.va = x.va ∧ old.first ≤ j ∧ j ≤ old.last) := by
  rw [ptecpy] at h
  simp only at h
  split at h
  · rename_i hin
    cases ho : old.pages j with
    | none =>
      rw [ho, deepcpy] at h
      exact .inl ⟨pg, h, rfl⟩
    | some x =>
      cases hd : new.pages j with
      | none =>
        rw [ho, hd, deepcpy] at h
        cases h
        exact .inr ⟨x, rfl, rfl, hin⟩
      | some d =>
        rw [ho, hd, deepcpy] at h
        cases h
        exact .inl ⟨d, rfl, rfl⟩
  · exact .inl ⟨pg, h, rfl⟩

theorem copy_first (n s : Paged Page) : (n.copy s).first ≤ n.first ∧ (n.copy s).first ≤ s.first := by
  rw [Paged.copy]
  simp only
  split <;> omega

theorem copy_last (n s : Paged Page) :
    n.last ≤ (n.copy s).last ∧ s.last ≤ (n.copy s).last ∧
      ((n.copy s).last = n.last ∨ (n.copy s).last = s.last) := by
  rw [Paged.copy]
  simp only
  split <;> omega

theorem ptecpy_first (new old : Pte Page) :
    (ptecpy new old).first ≤ new.first ∧ (ptecpy new old).first ≤ old.first := by
  rw [ptecpy]
  simp only
  split <;> omega

/-- The copy is a stack. -/
theorem Stack.copy (hs : Stack s) (hn : Stack n) (hb : n.base = s.base) : Stack (n.copy s) where
  pgszlg2 := hn.pgszlg2
  aligned := hn.aligned
  top := hn.top
  fits := hn.fits
  last := by
    have h₁ := hn.last
    have h₂ := hs.last
    have h₃ := (copy_last n s).2.2
    omega
  room := by
    rw [Paged.copy]
    exact Nat.le_trans hn.room (Nat.le_of_eq List.length_mapIdx.symm)
  ptes i pte hp j pg hj := by
    have hf := copy_first n s
    have hl := copy_last n s
    rw [Paged.copy, List.getElem?_mapIdx] at hp
    obtain ⟨new, hnew, hpte⟩ : ∃ new, n.map[i]? = some new ∧ s.copypte i new = some pte := by
      cases hk : n.map[i]? with
      | none =>
        rw [hk] at hp
        cases hp
      | some new =>
        rw [hk] at hp
        exact ⟨new, rfl, hp⟩
    -- what was there before the copy
    have hthere (p : Pte Page) (hnp : new = some p) (x : Page) (hx : p.pages j = some x) :=
      hn.ptes i p (by rw [hnew, hnp, Option.join_some]) j x hx
    by_cases hcp : (s.first ≤ i ∧ i ≤ s.last) ∧ s.map[i]?.join.isSome
    · obtain ⟨hi, hsome⟩ := hcp
      obtain ⟨old, hold⟩ := Option.isSome_iff_exists.mp hsome
      rw [Paged.copypte, if_pos hi, hold, Option.elim_some, Option.some.injEq] at hpte
      subst hpte
      have hpf := ptecpy_first (new.getD ptealloc) old
      have hpl := ptecpy_last (new.getD ptealloc) old
      rcases ptecpy_some hj with ⟨x, hx, hva⟩ | ⟨x, hx, hva, hin⟩
      · cases new with
        | none => cases hx
        | some p =>
          obtain ⟨h₁, h₂, h₃, h₄⟩ := hthere p rfl x hx
          rw [Option.getD_some] at hpf hpl ⊢
          exact ⟨by omega, by omega, h₃, hva.trans h₄⟩
      · obtain ⟨h₁, h₂, h₃, h₄⟩ := hs.ptes i old hold j x hx
        have hle := hpl.2 j hin (by rw [hx]; rfl)
        refine ⟨by omega, by omega, h₃, ?_⟩
        rw [hva, h₄, ← hb]
        rfl
    · have hsame : s.copypte i new = new := by
        rw [Paged.copypte]
        split
        · rename_i hi
          have hnone : s.map[i]?.join = none := by
            cases ho : s.map[i]?.join with
            | none => rfl
            | some old => exact absurd ⟨hi, by rw [ho]; rfl⟩ hcp
          rw [hnone, Option.elim_none]
        · rfl
      obtain ⟨h₁, h₂, h₃, h₄⟩ := hthere pte (hsame.symm.trans hpte) pg hj
      exact ⟨by omega, h₂, h₃, h₄⟩

/-- A fork of a stack: the child's segment is a stack as well, and its pages are the parent's over
those that the recycled segment had. -/
theorem Stack.forkseg (hs : Stack s) (ht : s.type &&& SG_TYPE = SG_STACK) (hg : g.Ready) :
    ∃ n g', forkseg g s = .ok (n, g') ∧ n.toSegment = s.toSegment ∧ Stack n ∧ g'.Ready ∧
      ∀ k, (n.page k).map Page.data =
        ((s.page k).map Page.data).or ((g.sfree.head?.bind fun r => r.page k).map Page.data) := by
  obtain ⟨n, g', hok, hseg, hn, hg', hdata⟩ := hg.newseg hs.shape ht
  unfold Seg.forkseg
  rw [hok]
  refine ⟨_, _, rfl, hseg, hs.copy hn (by rw [hseg]), hg', fun k => ?_⟩
  rw [copy_page hs hn, ← hdata]
  cases s.page k with
  | none => rfl
  | some pg => cases n.page k <;> rfl

/-! ## A stack that is freed -/

/-! ## What the child sees -/

/-- The byte that a process finds at an address: pages that are not there are zero. -/
def Paged.byte (s : Paged Page) (x : Uintptr) : UInt8 :=
  (s.page (s.number x.toNat)).elim 0 fun pg => pg.data ((x.toNat - s.base.toNat) % 2 ^ s.pgszlg2)

theorem byte_eq (s : Paged Page) (x : Uintptr) :
    s.byte x = ((s.page (s.number x.toNat)).map Page.data).elim 0 fun data =>
      data ((x.toNat - s.base.toNat) % 2 ^ s.pgszlg2) := by
  rw [Paged.byte]
  cases s.page (s.number x.toNat) <;> rfl

/-- The child's stack has the bytes of the parent's, and its pages are pages of its range. -/
structure Copies (s n : Paged Page) : Prop where
  base : n.base = s.base
  top : n.top = s.top
  bytes : ∀ x, s.base ≤ x → x < s.top → n.byte x = s.byte x
  inside : ∀ k pg, n.page k = some pg →
    pg.va.toNat = s.base.toNat + k * 2 ^ s.pgszlg2 ∧
      pg.va.toNat + 2 ^ s.pgszlg2 ≤ s.top.toNat

theorem Stack.inside (h : Stack s) {k : Nat} {pg : Page} (hp : s.page k = some pg) :
    pg.va.toNat = s.base.toNat + k * 2 ^ s.pgszlg2 ∧ pg.va.toNat + 2 ^ s.pgszlg2 ≤ s.top.toNat := by
  obtain ⟨pte, hpte, hj⟩ := page_some.mp hp
  obtain ⟨hi, -, -, hva⟩ := h.ptes _ pte hpte _ pg hj
  have hlast := h.last
  have htop := h.top
  have hfits := h.fits
  rw [Nat.mul_comm (k / PTEPERTAB), Nat.div_add_mod] at hva
  rw [h.pgszlg2]
  simp only [UPGSHFT, USTKSIZE, PTEPERTAB] at *
  bv_omega

/-- The stack that was freed last is zero where the parent has no page. -/
def Segalloc.Clean (g : Segalloc) (s : Paged Page) : Prop :=
  ∀ r ∈ g.sfree.head?, ∀ k pg, r.page k = some pg → s.page k = none →
    ∀ o, o < 2 ^ UPGSHFT → pg.data o = 0

/-- The child's stack is a copy of the parent's exactly when the segment that it is made from is zero
wherever the parent has no page. -/
theorem forkseg_exact (g : Segalloc) (s : Paged Page) (hg : g.Ready) (hs : Stack s)
    (ht : s.type &&& SG_TYPE = SG_STACK) :
    (∃ n g', forkseg g s = .ok (n, g') ∧ Copies s n) ↔ g.Clean s := by
  obtain ⟨n, g', hok, hseg, hn, -, hdata⟩ := hs.forkseg ht hg
  have hnum (x : Nat) : n.number x = s.number x := by rw [Segment.number, hseg, Segment.number]
  constructor
  · rintro ⟨n', g'', hok', hc⟩ r hr k pg hpg hnone o ho
    cases hok.symm.trans hok'
    have hr' : g.sfree.head? = some r := hr
    have hbound := (hg.sfree r (List.mem_of_mem_head? hr)).inside hpg
    have hrs := hg.sfree r (List.mem_of_mem_head? hr)
    -- the byte `o` of the page `k` of the parent
    have hlg := hs.pgszlg2
    have htop := hs.top
    have hfits := hs.fits
    have hrtop := hrs.top
    have hrfits := hrs.fits
    rw [hrs.pgszlg2] at hbound
    simp only [UPGSHFT, USTKSIZE] at *
    have hx : (s.base + BitVec.ofNat 64 (k * 2 ^ 14 + o)).toNat = s.base.toNat + (k * 2 ^ 14 + o) := by
      bv_omega
    have hb := hc.bytes (s.base + BitVec.ofNat 64 (k * 2 ^ 14 + o)) (by bv_omega) (by bv_omega)
    have hk : (k * 2 ^ 14 + o) / 2 ^ 14 = k := by omega
    have hmod : (k * 2 ^ 14 + o) % 2 ^ 14 = o := by omega
    have hd := hdata k
    rw [hnone, hr', Option.bind_some, hpg] at hd
    rw [byte_eq, byte_eq, hnum, hseg, hx, Nat.add_sub_cancel_left, Segment.number,
      Nat.add_sub_cancel_left, hlg, hk, hmod, hd, hnone] at hb
    exact hb
  · intro hclean
    refine ⟨n, g', hok, by rw [hseg], by rw [hseg], fun x hb hx => ?_, fun k pg hp => ?_⟩
    · rw [byte_eq, byte_eq, hnum, hseg, hdata]
      cases hp : s.page (s.number x.toNat) with
      | some pg => rfl
      | none =>
        cases hr : g.sfree.head? with
        | none => rfl
        | some r =>
          rw [Option.bind_some]
          cases hpg : r.page (s.number x.toNat) with
          | none => rfl
          | some pg =>
            refine hclean r hr _ pg hpg hp _ ?_
            rw [hs.pgszlg2]
            exact Nat.mod_lt _ (Nat.two_pow_pos _)
    · have hin := hn.inside hp
      rw [hseg] at hin
      exact hin

/-! ## A stack with what an earlier one left -/

/-- A stack with the pages of the last `Pte` from the place `lo` on, filled with ones. -/
private def upper (lo : Nat) : Paged Page where
  type := SG_STACK
  base := 0x7ffffeffc000
  top := 0x7fffffffc000
  pgszlg2 := UPGSHFT
  map := [none, none, none, some
    { pages := fun j =>
        if lo ≤ j ∧ j < PTEPERTAB then
          some ⟨0x7ffffeffc000 + BitVec.ofNat 64 ((3 * PTEPERTAB + j) * 2 ^ UPGSHFT), fun _ => 1⟩
        else none
      first := lo
      last := 255 }]
  first := 3
  last := 3

theorem upper_pte {lo i : Nat} {pte : Pte Page} (h : (upper lo).map[i]?.join = some pte) :
    i = 3 ∧ pte.first = lo ∧ pte.last = 255 ∧ ∀ j pg, pte.pages j = some pg →
      (lo ≤ j ∧ j < PTEPERTAB) ∧
        pg.va = 0x7ffffeffc000 + BitVec.ofNat 64 ((3 * PTEPERTAB + j) * 2 ^ UPGSHFT) := by
  rcases i with _ | _ | _ | _ | i
  · cases h
  · cases h
  · cases h
  · cases h
    refine ⟨rfl, rfl, rfl, fun j pg hj => ?_⟩
    dsimp only at hj
    split at hj
    · rename_i hin
      cases hj
      exact ⟨hin, rfl⟩
    · cases hj
  · cases h

theorem upper_stack (lo : Nat) : Stack (upper lo) where
  pgszlg2 := rfl
  aligned := by
    change ((0x7ffffeffc000 : Uintptr) ||| 0x7fffffffc000) &&& ((1 <<< UPGSHFT) - 1) = 0
    decide
  top := by
    change (0x7fffffffc000 : Uintptr) = 0x7ffffeffc000 + USTKSIZE
    decide
  fits := by
    change (0x7ffffeffc000 : Uintptr).toNat + USTKSIZE.toNat < 2 ^ 64
    decide
  last := Nat.lt_succ_self 3
  room := Nat.le.refl
  ptes i pte hp j pg hj := by
    obtain ⟨rfl, hf, hl, hpages⟩ := upper_pte hp
    obtain ⟨⟨hlo, hhi⟩, hva⟩ := hpages j pg hj
    refine ⟨⟨Nat.le.refl, Nat.le.refl⟩, ⟨by omega, ?_⟩, hhi, hva⟩
    rw [hl]
    exact Nat.le_of_lt_succ hhi

/-- The recycled segment has one page, and the parent has that page. -/
theorem forkseg_exact_upper : ∃ n g', forkseg ⟨[upper 255], []⟩ (upper 254) = .ok (n, g') ∧
    Copies (upper 254) n := by
  refine (forkseg_exact ⟨[upper 255], []⟩ (upper 254) ?_ (upper_stack 254) (by decide)).mpr ?_
  · refine ⟨fun r hr => ?_, fun f hf => by cases hf⟩
    rw [List.mem_singleton.mp hr]
    exact upper_stack 255
  · rintro r hr k pg hpg hnone
    cases hr
    obtain ⟨pte, hp, hj⟩ := page_some.mp hpg
    obtain ⟨hi, -, -, hpages⟩ := upper_pte hp
    have hin := (hpages _ pg hj).1
    have hk : k = 1023 := by
      simp only [PTEPERTAB] at hi hin
      omega
    subst hk
    have hsome : ((upper 254).page 1023).isSome := by decide +kernel
    rw [hnone] at hsome
    cases hsome

theorem upper_left : ((putseg ⟨[], []⟩ (upper 254)).bind fun g =>
    (forkseg g (upper 255)).toOption.map fun r => r.1.byte 0x7fffffff4000) = some 1 := by
  decide +kernel

/-- A process with two pages of stack exits, and one with a single page forks: the child finds the
second page of the first process. -/
theorem forkseg_leaks : ∃ g old g' s, g.Ready ∧ Stack old ∧ putseg g old = some g' ∧ Stack s ∧
    s.type &&& SG_TYPE = SG_STACK ∧ ¬ ∃ n g'', forkseg g' s = .ok (n, g'') ∧ Copies s n := by
  have hempty : (⟨[], []⟩ : Segalloc).Ready :=
    ⟨fun r hr => absurd hr List.not_mem_nil, fun f hf => absurd hf List.not_mem_nil⟩
  obtain ⟨g', hg', hr⟩ := Option.bind_eq_some_iff.mp upper_left
  refine ⟨_, _, g', upper 255, hempty, upper_stack 254, hg', upper_stack 255, by decide, ?_⟩
  rintro ⟨n, g'', hok, hc⟩
  have hb := hc.bytes 0x7fffffff4000 (by decide) (by decide)
  rw [hok] at hr
  have hn : n.byte 0x7fffffff4000 = 1 := Option.some.inj hr
  rw [hn] at hb
  exact absurd hb (by decide +kernel)

end NixMark.Seg
