import NixMark.Lib.Lts
import NixMark.Mnt.Edit

/-!
# Name spaces

* `names`: the name spaces of a system, and the calls that make and change them.
* `look`: what a walk tells the kernel. `look_alike`: it is the same in trees that are alike.
* `dupmnt_isolated`: a copy of a name space and the name space do not see each other's calls.
-/

namespace NixMark.Mnt

open Lib

variable {C : Type} {h h' h₁ : Heap C} {n m k r r' : ℕ} {l l' : List (Mounted C)} {dev : Dev C}

/-- The heap, and the `mnt` of each `Pgrp`. -/
structure Names (C : Type) where
  heap : Heap C
  roots : List ℕ

/-- A call that changes a name space. -/
inductive Call (C : Type) where
  | mntmount (p : List String) (c : C) (mnt : Option ℕ) (flags : Order)
  | mntunmount (p : List String) (c : Option C)

inductive Act (C : Type) where
  | setslash (slash : C)
  | dupmnt (r : ℕ)
  | call (r : ℕ) (c : Call C)

/-- `to->mnt` -/
def Call.mnt : Call C → Option ℕ
  | .mntmount _ _ mnt _ => mnt
  | .mntunmount .. => none

def Heap.call (dev : Dev C) (h : Heap C) (r : ℕ) : Call C → Option (Heap C)
  | .mntmount p c mnt flags => h.mntmount dev r p c mnt flags
  | .mntunmount p c => (h.mntunmount dev r p c).map Prod.fst

def Heap.calls (dev : Dev C) (h : Heap C) (r : ℕ) (cs : List (Call C)) : Option (Heap C) :=
  cs.foldlM (fun h c => h.call dev r c) h

def Names.step (dev : Dev C) (s : Names C) : Act C → Option (Names C)
  | .setslash slash => some ⟨s.heap.setslash slash, s.heap.next :: s.roots⟩
  | .dupmnt r =>
    if r ∈ s.roots then
      (s.heap.dupmnt s.heap.next r).map fun x => ⟨x.2, x.1 :: s.roots⟩
    else none
  | .call r c =>
    if r ∈ s.roots ∧ c.mnt.all (· < s.heap.next) then
      (s.heap.call dev r c).map fun h => { s with heap := h }
    else none

def Names.start : Names C := ⟨⟨fun _ => ⟨"", [], none, 0⟩, 0⟩, []⟩

def names (dev : Dev C) : Lts (Names C) (Act C) where
  init s := s = .start
  step s a s' := s.step dev a = some s'

/-! ## The trees -/

theorem Edit.call {c : Call C} (hs : Sound h) (hr : Root h r) (hrun : h.call dev r c = some h') :
    Edit r h h' := by
  cases c with
  | mntmount p c mnt flags => exact .mntmount hs hr hrun
  | mntunmount p c =>
    obtain ⟨⟨h'', e⟩, hu, rfl⟩ := Option.map_eq_some_iff.mp hrun
    exact .mntunmount hs hr hu

theorem Edit.calls {cs : List (Call C)} (hs : Sound h) (hr : Root h r)
    (hrun : h.calls dev r cs = some h') : Edit r h h' := by
  induction cs generalizing h with
  | nil =>
    cases hrun
    exact .refl hs hr
  | cons c cs ih =>
    rw [Heap.calls, List.foldlM_cons] at hrun
    obtain ⟨h₁, h₁run, hrun⟩ := Option.bind_eq_some_iff.mp hrun
    have he := Edit.call hs hr h₁run
    exact he.trans (ih he.sound he.root hrun)

theorem Edit.roots (he : Edit r h h') (hs : Sound h) (hr : Root h r) (hr' : Root h r') :
    Root h' r' := by
  by_cases hne : r' = r
  · rw [hne]
    exact he.root
  · refine ⟨hr'.lt.trans_le he.next, ?_⟩
    rw [he.other hs hr hr' hne r' .here, hr'.parent]

theorem dupmnt_copied (hs : Sound h) (hr : Root h r) :
    ∃ h', h.dupmnt h.next r = some (h.next, h') ∧ Copied h r h' :=
  dupmnt_spec h.next h h.next r hs.ordered le_rfl (fun k _ c hc => ((hs k).order c hc).2) hr.lt
    (by omega)

theorem Sound.old (hs : Sound h) (hk : k < h.next) (hnext : h.next ≤ h'.next)
    (hold : ∀ k, k < h.next → h'.mnt k = h.mnt k) : Node h' k :=
  (hs k).congr (hold k hk) hnext fun c hc => hold c ((hs k).order c hc).2

/-- A `Mount` that is not in use is empty. -/
theorem Sound.rest (hs : Sound h) (hk : h.next ≤ k) (he : h'.mnt k = h.mnt k) : Node h' k := by
  have hc : h'.children k = [] := by
    rw [Heap.children, he]
    refine List.eq_nil_iff_forall_not_mem.mpr fun c hc => ?_
    have := (hs k).order c hc
    omega
  refine ⟨fun c h' => ?_, fun c h' => ?_, by rw [hc]; exact List.nodup_nil⟩
  · rw [hc] at h'
    cases h'
  · rw [hc] at h'
    cases h'

theorem Copied.sound (hc : Copied h r h') (hs : Sound h) : Sound h' := fun k => by
  have hnext := hc.next
  obtain hk | hk | hk : k < h.next ∨ (h.next ≤ k ∧ k < h'.next) ∨ h'.next ≤ k := by omega
  · exact hs.old hk hnext.le hc.old
  · exact hc.made k hk.1 hk.2
  · exact hs.rest (hnext.le.trans hk) (hc.rest k hk)

theorem Copied.root (hc : Copied h n h') (hr : Root h r) : Root h' r :=
  ⟨hr.lt.trans hc.next, by rw [hc.old r hr.lt, hr.parent]⟩

theorem Copied.copy (hc : Copied h n h') : Root h' h.next := ⟨hc.next, hc.parent⟩

theorem setslash_mnt (h : Heap C) (slash : C) :
    (h.setslash slash).mnt h.next = ⟨"/", [.chan slash], none, 0⟩ := by
  rw [Heap.setslash, setum_self, newmnt_self]

theorem setslash_of_ne {slash : C} (hk : k ≠ h.next) : (h.setslash slash).mnt k = h.mnt k := by
  rw [Heap.setslash, setum_of_ne hk, newmnt_of_ne hk]

theorem setslash_sound {slash : C} (hs : Sound h) : Sound (h.setslash slash) := fun k => by
  obtain hk | rfl | hk := Nat.lt_trichotomy k h.next
  · exact hs.old hk (Nat.le_succ _) fun k hk => setslash_of_ne hk.ne
  · have hc : (h.setslash slash).children h.next = [] := by
      rw [Heap.children, setslash_mnt]
      rfl
    refine ⟨fun c h' => ?_, fun c h' => ?_, by rw [hc]; exact List.nodup_nil⟩
    · rw [hc] at h'
      cases h'
    · rw [hc] at h'
      cases h'
  · exact hs.rest hk.le (setslash_of_ne hk.ne')

/-- The trees in the heap, and the name spaces. -/
structure Names.Sound (s : Names C) : Prop where
  sound : Mnt.Sound s.heap
  root : ∀ r ∈ s.roots, Root s.heap r

theorem names_sound (dev : Dev C) : (names dev).Inductive Names.Sound where
  init s hs := by
    have hs : s = .start := hs
    subst hs
    refine ⟨fun k => ⟨fun c hc => ?_, fun c hc => ?_, List.nodup_nil⟩, fun r hr => ?_⟩
    · cases hc
    · cases hc
    · cases hr
  step s a s' hI hrun := by
    obtain ⟨hs, hr⟩ := hI
    cases a with
    | setslash slash =>
      cases hrun
      refine ⟨setslash_sound hs, List.forall_mem_cons.mpr ⟨⟨Nat.lt_succ_self _, ?_⟩, fun r hmem => ?_⟩⟩
      · change ((s.heap.setslash slash).mnt s.heap.next).parent = none
        rw [setslash_mnt]
      · have hlt := (hr r hmem).lt
        refine ⟨hlt.trans (Nat.lt_succ_self _), ?_⟩
        change ((s.heap.setslash slash).mnt r).parent = none
        rw [setslash_of_ne hlt.ne, (hr r hmem).parent]
    | dupmnt r =>
      obtain ⟨hmem, he⟩ := Option.ite_none_right_eq_some.mp hrun
      obtain ⟨h', hd, hc⟩ := dupmnt_copied hs (hr r hmem)
      rw [hd] at he
      cases he
      exact ⟨hc.sound hs, List.forall_mem_cons.mpr ⟨hc.copy, fun r' h' => hc.root (hr r' h')⟩⟩
    | call r c =>
      obtain ⟨⟨hmem, -⟩, he⟩ := Option.ite_none_right_eq_some.mp hrun
      obtain ⟨h', hcall, rfl⟩ := Option.map_eq_some_iff.mp he
      have he := Edit.call hs (hr r hmem) hcall
      exact ⟨he.sound, fun r' h' => he.roots hs (hr r hmem) (hr r' h')⟩

/-! ## What a walk tells -/

/-- The results of `mntwalk`: the entries that are found, the names that are resolved, and the
members. -/
structure Look (C : Type) where
  i : ℕ
  nres : ℕ
  nc : Option C
  hasmtpt : Bool
  chans : List C

def Heap.look (dev : Dev C) (h : Heap C) (nc ismount : Bool) (root : ℕ) (p : List String) :
    Look C :=
  let w := h.mntwalk dev nc ismount root p
  ⟨w.i, w.nres, w.nc, h.hasmtpt w.mp, h.chans w.mp⟩

section Alike

variable {R : ℕ → ℕ → Prop}

/-- The same is found, up to `R`. -/
def Same (R : ℕ → ℕ → Prop) : Heap.Found C → Heap.Found C → Prop
  | .nil, .nil => True
  | .child a, .child b => R a b
  | .chan c, .chan c' => c = c'
  | _, _ => False

theorem entries_hasmtpt (hl : List.Forall₂ (Entry R) l l') :
    (l'.any fun m => m.child?.isSome) = l.any fun m => m.child?.isSome := by
  induction hl with
  | nil => rfl
  | @cons x y l l' hxy _ ih =>
    rw [List.any_cons, List.any_cons, ih]
    cases x with
    | chan c =>
      cases y with
      | chan c' => rfl
      | child b => exact hxy.elim
    | child a =>
      cases y with
      | chan c => exact hxy.elim
      | child b => rfl

theorem entries_members (hl : List.Forall₂ (Entry R) l l') : members l' = members l := by
  induction hl with
  | nil => rfl
  | @cons x y l l' hxy _ ih =>
    cases x with
    | chan c =>
      cases y with
      | chan c' =>
        cases hxy
        rw [members_chan, members_chan, ih]
      | child b => exact hxy.elim
    | child a =>
      cases y with
      | chan c => exact hxy.elim
      | child b => rw [members_child, members_child, ih]

theorem mntwalk1_alike (dev : Dev C) (nc union : Bool) (el : String) (els : List String)
    (hR : ∀ a b, R a b → Alike1 R (h.mnt a) (h'.mnt b)) (hl : List.Forall₂ (Entry R) l l') :
    Same R (h.mntwalk1 dev nc union el els l) (h'.mntwalk1 dev nc union el els l') := by
  induction hl with
  | nil => trivial
  | @cons x y l l' hxy hl ih =>
    cases x with
    | chan c =>
      cases y with
      | child b => exact hxy.elim
      | chan c' =>
        cases hxy
        rw [Heap.mntwalk1, Heap.mntwalk1, entries_hasmtpt hl]
        split_ifs
        · cases dev.walk c (el :: els) with
          | nil => exact ih
          | clone c => exact rfl
          | part nqid =>
            simp only
            split_ifs
            · trivial
            · exact ih
        · exact ih
    | child a =>
      cases y with
      | chan c => exact hxy.elim
      | child b =>
        rw [Heap.mntwalk1, Heap.mntwalk1, (hR a b hxy).elem]
        split_ifs
        · exact hxy
        · exact ih

/-- The same result, up to `R`. -/
structure Along (R : ℕ → ℕ → Prop) (w w' : Heap.Walked C) : Prop where
  i : w'.i = w.i
  mp : R w.mp w'.mp
  nres : w'.nres = w.nres
  nc : w'.nc = w.nc

theorem walkloop_alike (dev : Dev C) (nc ismount : Bool)
    (hR : ∀ a b, R a b → Alike1 R (h.mnt a) (h'.mnt b)) (p : List String) (w w' : Heap.Walked C)
    (hnm : R n m) (hw : Along R w w') :
    Along R (h.walkloop dev nc ismount p n w) (h'.walkloop dev nc ismount p m w') := by
  induction p generalizing n m w w' with
  | nil => exact hw
  | cons el els ih =>
    have hnm := hR n m hnm
    have hf := mntwalk1_alike dev nc (decide (1 < (h.mnt n).um.length)) el els hR hnm.um
    rw [Heap.walkloop, Heap.walkloop, ← hnm.um.length_eq]
    generalize h.mntwalk1 dev nc _ el els (h.mnt n).um = f at hf ⊢
    generalize h'.mntwalk1 dev nc _ el els (h'.mnt m).um = f' at hf ⊢
    cases f with
    | nil =>
      cases f' with
      | nil => exact hw
      | child b => exact hf.elim
      | chan c => exact hf.elim
    | chan c =>
      cases f' with
      | nil => exact hf.elim
      | child b => exact hf.elim
      | chan c' =>
        cases hf
        exact ⟨hw.i, hw.mp, by simp only [hw.i], rfl⟩
    | child a =>
      cases f' with
      | nil => exact hf.elim
      | chan c => exact hf.elim
      | child b =>
        have hab : R a b := hf
        refine ih _ _ hab ?_
        rw [(hR a b hab).ismount, hw.i]
        split_ifs
        · exact ⟨rfl, hab, rfl, rfl⟩
        · exact ⟨rfl, hw.mp, hw.nres, hw.nc⟩

theorem look_along {nc ismount : Bool} {p : List String}
    (hR : ∀ a b, R a b → Alike1 R (h.mnt a) (h'.mnt b)) (hr : R r r') :
    h'.look dev nc ismount r' p = h.look dev nc ismount r p := by
  have hw := walkloop_alike dev nc ismount hR p ⟨0, r, 0, none⟩ ⟨0, r', 0, none⟩ hr ⟨rfl, hr, rfl, rfl⟩
  have hm := (hR _ _ hw.mp).um
  change Look.mk .. = Look.mk ..
  rw [Look.mk.injEq]
  exact ⟨hw.i, hw.nres, hw.nc, entries_hasmtpt hm, entries_members hm⟩

end Alike

theorem look_alike {nc ismount : Bool} {p : List String} (ha : Alike h h' r r') :
    h'.look dev nc ismount r' p = h.look dev nc ismount r p := by
  obtain ⟨R, hr, hR⟩ := ha
  exact look_along hR hr

/-- A tree that no call writes to. -/
theorem alike_kept (hk : ∀ k, Below h.children r k → h'.mnt k = h.mnt k) : Alike h h' r r := by
  refine ⟨fun a b => a = b ∧ Below h.children r a, ⟨rfl, .here⟩, ?_⟩
  rintro a b ⟨rfl, ha⟩
  rw [hk a ha]
  refine ⟨rfl, rfl, List.forall₂_same.mpr fun x hx => ?_⟩
  cases x with
  | chan c => exact rfl
  | child b => exact ⟨rfl, ha.step (mem_kids.mpr hx)⟩

/-- The calls of one name space are not seen in another one. -/
theorem calls_other {nc ismount : Bool} {p : List String} {cs : List (Call C)} (hs : Sound h)
    (hr : Root h r) (hr' : Root h r') (hne : r' ≠ r) (hrun : h.calls dev r cs = some h') :
    h'.look dev nc ismount r' p = h.look dev nc ismount r' p :=
  look_alike (alike_kept ((Edit.calls hs hr hrun).other hs hr hr' hne))

theorem dupmnt_isolated {s : Names C} (hs : (names dev).Reach s) (hr : r ∈ s.roots) :
    ∃ h, s.heap.dupmnt s.heap.next r = some (s.heap.next, h) ∧
      (∀ nc ismount p,
        h.look dev nc ismount r p = s.heap.look dev nc ismount r p ∧
        h.look dev nc ismount s.heap.next p = s.heap.look dev nc ismount r p) ∧
      (∀ cs h', h.calls dev s.heap.next cs = some h' → ∀ nc ismount p,
        h'.look dev nc ismount r p = s.heap.look dev nc ismount r p) ∧
      (∀ cs h', h.calls dev r cs = some h' → ∀ nc ismount p,
        h'.look dev nc ismount s.heap.next p = s.heap.look dev nc ismount r p) := by
  obtain ⟨hsound, hroot⟩ := (names_sound dev).reach hs
  have hroot := hroot r hr
  obtain ⟨h, hd, hc⟩ := dupmnt_copied hsound hroot
  have hkept : Alike s.heap h r r :=
    alike_kept fun k hk => hc.old k (hsound.ordered.lt hk hroot.lt)
  refine ⟨h, hd, fun nc ismount p => ⟨look_alike hkept, look_alike hc.alike⟩,
    fun cs h' hrun nc ismount p => ?_, fun cs h' hrun nc ismount p => ?_⟩
  · rw [calls_other (hc.sound hsound) hc.copy (hc.root hroot) hroot.lt.ne hrun]
    exact look_alike hkept
  · rw [calls_other (hc.sound hsound) (hc.root hroot) hc.copy hroot.lt.ne' hrun]
    exact look_alike hc.alike

/-- Each name adds one to a channel. -/
def plain : Dev ℕ := ⟨fun c els => .clone (c + els.length), fun _ => true, (· == ·)⟩

theorem dupmnt_isolated_bound : ∃ s : Names ℕ,
    [.setslash 0, .call 0 (.mntmount ["a"] 5 none .MAFTER)].foldlM (Names.step plain) .start =
      some s ∧
    ∃ h, s.heap.dupmnt s.heap.next 0 = some (s.heap.next, h) ∧
      (∀ nc ismount p,
        h.look plain nc ismount 0 p = s.heap.look plain nc ismount 0 p ∧
        h.look plain nc ismount s.heap.next p = s.heap.look plain nc ismount 0 p) ∧
      (∀ cs h', h.calls plain s.heap.next cs = some h' → ∀ nc ismount p,
        h'.look plain nc ismount 0 p = s.heap.look plain nc ismount 0 p) ∧
      (∀ cs h', h.calls plain 0 cs = some h' → ∀ nc ismount p,
        h'.look plain nc ismount s.heap.next p = s.heap.look plain nc ismount 0 p) := by
  have hrun : ([.setslash 0, .call 0 (.mntmount ["a"] 5 none .MAFTER)].foldlM (Names.step plain)
      .start).map Names.roots = some [0] := by decide
  obtain ⟨s, hs, hroots⟩ := Option.map_eq_some_iff.mp hrun
  refine ⟨s, hs, dupmnt_isolated (Lts.Reach.exec (fun _ _ _ h => h) ⟨[], .init rfl⟩ hs) ?_⟩
  rw [hroots]
  exact List.mem_singleton_self 0

end NixMark.Mnt
