import Mathlib.Data.List.Count

/-!
# Tables of file descriptors (`port/sysfile.c` and `port/pgrp.c`)

* `Fgrp`: a table; `growfd` to `fdclose`, `dupfgrp`: what is done to it under its lock.
* `Fgrp.Ok`: `maxfd` is in the table, and above it nothing is open.
* `Change`: the references that an operation puts into the table and takes out of it.
-/

namespace NixMark.Fd

def DELTAFD : Nat := 20

/-- `fd` are the `nfd` slots. -/
structure Fgrp (C : Type) where
  fd : List (Option C)
  maxfd : Nat
  exceed : Nat
  ref : Nat

namespace Fgrp

variable {C : Type}

def nfd (f : Fgrp C) : Nat := f.fd.length

def slot (f : Fgrp C) (i : Nat) : Option C := f.fd[i]?.join

def put (f : Fgrp C) (i : Nat) (c : Option C) : Fgrp C := { f with fd := f.fd.set i c }

/-- `if(fd > f->maxfd) f->maxfd = fd` -/
def reach (f : Fgrp C) (fd : Nat) : Fgrp C :=
  { f with maxfd := if f.maxfd < fd then fd else f.maxfd }

def unlockfgrp (f : Fgrp C) : Fgrp C := { f with exceed := 0 }

/-- `none` when it returns -1; `mem`: `malloc` finds memory. -/
def growfd (f : Fgrp C) (fd : Nat) (mem : Bool) : Option (Fgrp C) :=
  if fd < f.nfd then some f
  else if f.nfd + DELTAFD ≤ fd then none
  else if 5000 ≤ f.nfd then none
  else if mem = false then none
  else
    let g : Fgrp C := { f with fd := f.fd ++ List.replicate DELTAFD none }
    if f.maxfd < fd then
      some { g with
        exceed := if f.maxfd / 100 < fd / 100 then fd / 100 * 100 else f.exceed
        maxfd := fd }
    else some g

/-- `fdtochan`, `none` when the descriptor is bad -/
def fdtochan (f : Fgrp C) (fd : Int) : Option C :=
  if fd < 0 ∨ (f.nfd : Int) ≤ fd then none else f.slot fd.toNat

/-- The first free slot from `start` on, `nfd` if there is none. -/
def firstfree (f : Fgrp C) (start : Nat) : Nat := start + (f.fd.drop start).findIdx Option.isNone

def findfreefd (f : Fgrp C) (start : Nat) (mem : Bool) : Option (Nat × Fgrp C) :=
  let fd := f.firstfree start
  if f.nfd ≤ fd then (f.growfd fd mem).map fun g => (fd, g) else some (fd, f)

def newfd (f : Fgrp C) (c : C) (mem : Bool) : Fgrp C × Option Nat :=
  match f.findfreefd 0 mem with
  | none => (f.unlockfgrp, none)
  | some (fd, g) => (((g.reach fd).put fd (some c)).unlockfgrp, some fd)

def newfd2 (f : Fgrp C) (c₀ c₁ : C) (mem₀ mem₁ : Bool) : Fgrp C × Option (Nat × Nat) :=
  match f.findfreefd 0 mem₀ with
  | none => (f.unlockfgrp, none)
  | some (fd₀, g) =>
    match g.findfreefd (fd₀ + 1) mem₁ with
    | none => (g.unlockfgrp, none)
    | some (fd₁, h) =>
      ((((h.reach fd₁).put fd₀ (some c₀)).put fd₁ (some c₁)).unlockfgrp, some (fd₀, fd₁))

/-- `sysdup` to a descriptor that it is given: what was there, or an error. -/
def dupto (f : Fgrp C) (oc : C) (nfd : Int) (mem : Bool) : Fgrp C × Option (Option C) :=
  if nfd < 0 then (f.unlockfgrp, none)
  else
    match f.growfd nfd.toNat mem with
    | none => (f.unlockfgrp, none)
    | some g =>
      let g := g.reach nfd.toNat
      ((g.put nfd.toNat (some oc)).unlockfgrp, some (g.slot nfd.toNat))

/-- `for(i = fd; --i >= 0 && f->fd[i] == 0; ) f->maxfd = i` -/
def lower (f : Fgrp C) : Nat → Nat
  | 0 => 0
  | i + 1 => if (f.slot i).isNone then f.lower i else i + 1

/-- The channel that is to be closed; `flag`: whether a channel has the flags that are asked for. -/
def fdclose (f : Fgrp C) (fd : Nat) (flag : C → Bool) : Fgrp C × Option C :=
  match f.slot fd with
  | none => (f, none)
  | some c =>
    if flag c then
      let g := f.put fd none
      (if fd = g.maxfd then { g with maxfd := g.lower fd } else g, some c)
    else (f, none)

/-- `i = nfd%DELTAFD; if(i != 0) nfd += DELTAFD - i` -/
def quantum (nfd : Nat) : Nat :=
  if nfd % DELTAFD ≠ 0 then nfd + (DELTAFD - nfd % DELTAFD) else nfd

/-- `none` when there is no memory. -/
def dupfgrp (f : Fgrp C) (mem : Bool) : Option (Fgrp C) :=
  if mem then
    some
      { fd := f.fd.take (f.maxfd + 1) ++ List.replicate (quantum (f.maxfd + 1) - (f.maxfd + 1)) none
        maxfd := f.maxfd
        exceed := 0
        ref := 1 }
  else none

/-- `dupfgrp(nil)` -/
def empty : Fgrp C := ⟨List.replicate DELTAFD none, 0, 0, 1⟩

/-- `maxfd` is in the table, and what is above it is free. -/
structure Ok (f : Fgrp C) : Prop where
  lt : f.maxfd < f.nfd
  high : ∀ i, f.maxfd < i → f.slot i = none

end Fgrp

open Fgrp

variable {C : Type} [DecidableEq C] {f g h : Fgrp C} {i : Nat} {gain gain' loss loss' : List C}

/-- `f` has become `g`, which holds the references to `gain` besides and no longer those to `loss`. -/
structure Change (f g : Fgrp C) (gain loss : List C) : Prop where
  ok : f.Ok → g.Ok
  ref : g.ref = f.ref
  nfd : f.nfd ≤ g.nfd
  sum : ∀ c, g.fd.count (some c) + loss.count c = f.fd.count (some c) + gain.count c
  keeps : ∀ i c, f.slot i = some c → g.slot i = some c ∨ c ∈ loss

theorem Change.refl (f : Fgrp C) : Change f f [] [] :=
  ⟨id, rfl, Nat.le_refl _, fun _ => rfl, fun _ _ => .inl⟩

theorem Change.trans (h₁ : Change f g gain loss) (h₂ : Change g h gain' loss') :
    Change f h (gain ++ gain') (loss ++ loss') where
  ok := h₂.ok ∘ h₁.ok
  ref := h₂.ref.trans h₁.ref
  nfd := Nat.le_trans h₁.nfd h₂.nfd
  sum c := by
    have s₁ := h₁.sum c
    have s₂ := h₂.sum c
    rw [List.count_append, List.count_append]
    omega
  keeps i c hc := by
    rcases h₁.keeps i c hc with hg | hl
    · rcases h₂.keeps i c hg with hh | hl
      · exact .inl hh
      · exact .inr (List.mem_append_right _ hl)
    · exact .inr (List.mem_append_left _ hl)

omit [DecidableEq C] in
theorem slot_lt {c : C} (h : f.slot i = some c) : i < f.nfd := by
  by_contra hi
  unfold slot at h
  rw [List.getElem?_eq_none (Nat.not_lt.mp hi)] at h
  cases h

omit [DecidableEq C] in
theorem slot_put (hi : i < f.nfd) (c : Option C) (j : Nat) :
    (f.put i c).slot j = if j = i then c else f.slot j := by
  unfold slot put
  rw [List.getElem?_set]
  split
  · rename_i hij
    rw [if_pos hij.symm, hij, if_pos (hij ▸ hi)]
    rfl
  · rename_i hij
    rw [if_neg (Ne.symm hij)]

/-- `f->fd[i] = c` -/
theorem Change.put (hi : i < f.nfd) (hm : i ≤ f.maxfd) (c : Option C) :
    Change f (f.put i c) c.toList (f.slot i).toList where
  ok hok := by
    refine ⟨?_, fun j hj => ?_⟩
    · rw [show (f.put i c).nfd = f.nfd from List.length_set]
      exact hok.lt
    · rw [slot_put hi, if_neg (Nat.ne_of_gt (Nat.lt_of_le_of_lt hm hj))]
      exact hok.high j hj
  ref := rfl
  nfd := Nat.le_of_eq List.length_set.symm
  sum b := by
    have hslot : f.slot i = f.fd[i] := by
      unfold slot
      rw [List.getElem?_eq_getElem hi]
      rfl
    unfold Fgrp.put
    rw [hslot]
    have hcount := List.count_set (a := c) (b := some b) (l := f.fd) hi
    have hpos : (if f.fd[i] == some b then 1 else 0) ≤ f.fd.count (some b) := by
      split
      · rename_i he
        exact List.count_pos_iff.mpr (eq_of_beq he ▸ List.getElem_mem hi)
      · exact Nat.zero_le _
    simp only [hcount]
    have hone : ∀ o : Option C, o.toList.count b = if o == some b then 1 else 0 := by
      intro o
      cases o with
      | none => rfl
      | some x => simp [List.count_singleton]
    rw [hone, hone]
    omega
  keeps j b hj := by
    rw [slot_put hi]
    split
    · rename_i hji
      rw [hji] at hj
      rw [hj]
      exact .inr (List.mem_singleton_self b)
    · exact .inl hj

/-- A larger `maxfd` in the table -/
theorem Change.raise {m : Nat} (hm : f.maxfd ≤ m) (hlt : m < f.nfd) (e : Nat) :
    Change f { f with maxfd := m, exceed := e } [] [] where
  ok hok := ⟨hlt, fun j hj => hok.high j (Nat.lt_of_le_of_lt hm hj)⟩
  ref := rfl
  nfd := Nat.le_refl _
  sum _ := rfl
  keeps _ _ := .inl

theorem Change.reach (hi : i < f.nfd) (hok : f.Ok) : Change f (f.reach i) [] [] := by
  unfold Fgrp.reach
  split
  · exact .raise (Nat.le_of_lt ‹_›) hi f.exceed
  · exact .raise (Nat.le_refl _) hok.lt f.exceed

omit [DecidableEq C] in
theorem le_reach (f : Fgrp C) (i : Nat) : i ≤ (f.reach i).maxfd := by
  unfold Fgrp.reach
  dsimp only
  split
  · exact Nat.le_refl _
  · exact Nat.not_lt.mp ‹_›

theorem Change.unlock (f : Fgrp C) : Change f f.unlockfgrp [] [] :=
  ⟨fun hok => ⟨hok.lt, hok.high⟩, rfl, Nat.le_refl _, fun _ => rfl, fun _ _ => .inl⟩

omit [DecidableEq C] in
theorem slot_append (n i : Nat) : (f.fd ++ List.replicate n none)[i]?.join = f.slot i := by
  unfold slot
  by_cases hi : i < f.fd.length
  · rw [List.getElem?_append_left hi]
  · rw [List.getElem?_append_right (Nat.not_lt.mp hi), List.getElem?_eq_none (Nat.not_lt.mp hi)]
    by_cases hn : i - f.fd.length < n
    · rw [List.getElem?_replicate_of_lt hn]
      rfl
    · rw [List.getElem?_eq_none (by rw [List.length_replicate]; omega)]

/-- `malloc` and `memmove` -/
theorem Change.extend (f : Fgrp C) (n : Nat) :
    Change f { f with fd := f.fd ++ List.replicate n none } [] [] where
  ok hok := by
    refine ⟨?_, fun i hi => (slot_append n i).trans (hok.high i hi)⟩
    have hlt := hok.lt
    change f.maxfd < (f.fd ++ List.replicate n none).length
    rw [List.length_append]
    exact Nat.lt_of_lt_of_le hlt (Nat.le_add_right _ _)
  ref := rfl
  nfd := by
    change f.fd.length ≤ (f.fd ++ List.replicate n none).length
    rw [List.length_append]
    exact Nat.le_add_right _ _
  sum c := by
    rw [List.count_append, List.count_replicate, if_neg (by simp)]
    rfl
  keeps i c hc := .inl ((slot_append n i).trans hc)

variable {fd : Nat} {mem : Bool}

theorem growfd_spec (h : f.growfd fd mem = some g) :
    Change f g [] [] ∧ fd < g.nfd ∧ g.slot = f.slot := by
  unfold growfd at h
  split at h
  · cases h
    exact ⟨.refl f, ‹_›, rfl⟩
  · split at h
    · cases h
    · rename_i hnear
      split at h
      · cases h
      · split at h
        · cases h
        · have hlen : (f.fd ++ List.replicate DELTAFD none).length = f.nfd + DELTAFD := by
            rw [List.length_append, List.length_replicate]
            rfl
          have hext := Change.extend f DELTAFD
          have hfd : fd < (f.fd ++ List.replicate DELTAFD none).length := by omega
          split at h
          · cases h
            exact ⟨hext.trans (.raise (Nat.le_of_lt ‹_›) hfd _), hfd, funext (slot_append DELTAFD)⟩
          · cases h
            exact ⟨hext, hfd, funext (slot_append DELTAFD)⟩

omit [DecidableEq C] in
/-- The slot that the search ends at is free, or just above the table. -/
theorem firstfree_spec {start : Nat} (h : start ≤ f.nfd) :
    start ≤ f.firstfree start ∧ f.firstfree start ≤ f.nfd ∧ f.slot (f.firstfree start) = none := by
  have hle : (f.fd.drop start).findIdx Option.isNone ≤ (f.fd.drop start).length :=
    List.findIdx_le_length
  rw [List.length_drop] at hle
  refine ⟨Nat.le_add_right _ _, ?_, ?_⟩
  · unfold firstfree nfd at *
    omega
  · unfold slot firstfree
    rw [← List.getElem?_drop]
    by_cases hlt : (f.fd.drop start).findIdx Option.isNone < (f.fd.drop start).length
    · rw [List.getElem?_eq_getElem hlt]
      exact Option.isNone_iff_eq_none.mp (List.findIdx_getElem (w := hlt))
    · rw [List.getElem?_eq_none (Nat.not_lt.mp hlt)]
      rfl

theorem findfreefd_spec {start : Nat} (hs : start ≤ f.nfd)
    (h : f.findfreefd start mem = some (fd, g)) :
    Change f g [] [] ∧ start ≤ fd ∧ fd < g.nfd ∧ f.slot fd = none ∧ g.slot = f.slot := by
  obtain ⟨hge, -, hfree⟩ := firstfree_spec hs
  unfold findfreefd at h
  simp only at h
  split at h
  · obtain ⟨g', hg, he⟩ := Option.map_eq_some_iff.mp h
    cases he
    obtain ⟨hc, hlt, hslot⟩ := growfd_spec hg
    exact ⟨hc, hge, hlt, hfree, hslot⟩
  · cases h
    exact ⟨.refl f, hge, Nat.not_le.mp ‹_›, hfree, rfl⟩

/-- A free slot is filled, and nothing else changes. -/
theorem newfd_spec {c : C} {r : Option Nat} (hok : f.Ok) (h : f.newfd c mem = (g, r)) :
    Change f g (if r.isSome then [c] else []) [] ∧
      ∀ fd, r = some fd → f.slot fd = none ∧ g.slot fd = some c := by
  unfold newfd at h
  cases hf : f.findfreefd 0 mem with
  | none =>
    rw [hf] at h
    cases h
    exact ⟨.unlock f, fun _ h => nomatch h⟩
  | some r =>
    obtain ⟨fd, g⟩ := r
    rw [hf] at h
    cases h
    obtain ⟨hc, -, hlt, hfree, hslot⟩ := findfreefd_spec (Nat.zero_le _) hf
    have hput := Change.put (f := g.reach fd) hlt (le_reach g fd) (some c)
    rw [show (g.reach fd).slot fd = none from (congrFun hslot fd).trans hfree] at hput
    refine ⟨((hc.trans (.reach hlt (hc.ok hok))).trans hput).trans (.unlock _), fun fd' he => ?_⟩
    cases he
    exact ⟨hfree, (slot_put (f := g.reach fd) hlt (some c) fd).trans (if_pos rfl)⟩

theorem newfd2_spec {c₀ c₁ : C} {mem₀ mem₁ : Bool} {r : Option (Nat × Nat)} (hok : f.Ok)
    (h : f.newfd2 c₀ c₁ mem₀ mem₁ = (g, r)) :
    Change f g (if r.isSome then [c₀, c₁] else []) [] ∧
      ∀ fd₀ fd₁, r = some (fd₀, fd₁) → f.slot fd₀ = none ∧ f.slot fd₁ = none ∧ fd₀ ≠ fd₁ := by
  unfold newfd2 at h
  cases hf : f.findfreefd 0 mem₀ with
  | none =>
    rw [hf] at h
    cases h
    exact ⟨.unlock f, fun _ _ h => nomatch h⟩
  | some r =>
    rw [hf] at h
    obtain ⟨fd₀, g⟩ := r
    obtain ⟨hc₀, -, hlt₀, hfree₀, hslot₀⟩ := findfreefd_spec (Nat.zero_le _) hf
    cases hf₁ : g.findfreefd (fd₀ + 1) mem₁ with
    | none =>
      simp only [hf₁] at h
      cases h
      exact ⟨hc₀.trans (.unlock g), fun _ _ h => nomatch h⟩
    | some r =>
      obtain ⟨fd₁, k⟩ := r
      simp only [hf₁] at h
      cases h
      obtain ⟨hc₁, hle, hlt₁, hfree₁, hslot₁⟩ := findfreefd_spec hlt₀ hf₁
      have hlt₀' : fd₀ < k.nfd := Nat.lt_of_lt_of_le hlt₀ hc₁.nfd
      have hne : fd₁ ≠ fd₀ := Nat.ne_of_gt hle
      have hok₁ := hc₁.ok (hc₀.ok hok)
      have hput₀ := Change.put (f := k.reach fd₁) hlt₀'
        (Nat.le_trans (Nat.le_of_succ_le hle) (le_reach k fd₁)) (some c₀)
      rw [show (k.reach fd₁).slot fd₀ = none from
        (congrFun (hslot₁.trans hslot₀) fd₀).trans hfree₀] at hput₀
      have hput₁ := Change.put (f := (k.reach fd₁).put fd₀ (some c₀))
        (Nat.lt_of_lt_of_le hlt₁ hput₀.nfd) (le_reach k fd₁) (some c₁)
      rw [slot_put (f := k.reach fd₁) hlt₀', if_neg hne, show (k.reach fd₁).slot fd₁ = none from
        (congrFun hslot₁ fd₁).trans hfree₁] at hput₁
      refine ⟨(((hc₀.trans hc₁).trans (.reach hlt₁ hok₁)).trans (hput₀.trans hput₁)).trans
        (.unlock _), fun a b he => ?_⟩
      cases he
      exact ⟨hfree₀, (congrFun hslot₀ fd₁).symm.trans hfree₁, hne.symm⟩

/-- What was in the slot is handed out. -/
theorem dupto_spec {oc : C} {nfd : Int} {r : Option (Option C)} (hok : f.Ok)
    (h : f.dupto oc nfd mem = (g, r)) :
    Change f g (if r.isSome then [oc] else []) (r.elim [] Option.toList) := by
  unfold dupto at h
  split at h
  · cases h
    exact .unlock f
  · cases hg : f.growfd nfd.toNat mem with
    | none =>
      rw [hg] at h
      cases h
      exact .unlock f
    | some g =>
      rw [hg] at h
      cases h
      obtain ⟨hc, hlt, hslot⟩ := growfd_spec hg
      have hput := Change.put (f := g.reach nfd.toNat) hlt (le_reach g _) (some oc)
      have hall := ((hc.trans (.reach hlt (hc.ok hok))).trans hput).trans (.unlock _)
      simp only [List.append_nil, List.nil_append] at hall
      exact hall

omit [DecidableEq C] in
/-- Between the new `maxfd` and the old one everything is free. -/
theorem lower_spec (f : Fgrp C) (m : Nat) :
    f.lower m ≤ m ∧ ∀ i, f.lower m ≤ i → i < m → f.slot i = none := by
  induction m with
  | zero => exact ⟨Nat.le_refl _, fun i _ hi => absurd hi (Nat.not_lt_zero i)⟩
  | succ m ih =>
    unfold Fgrp.lower
    split
    · rename_i hm
      refine ⟨Nat.le_succ_of_le ih.1, fun i hi him => ?_⟩
      by_cases he : i = m
      · rw [he]
        exact Option.isNone_iff_eq_none.mp hm
      · exact ih.2 i hi (by omega)
    · exact ⟨Nat.le_refl _, fun i hi him => absurd him (Nat.not_lt.mpr hi)⟩

theorem Change.lower {m : Nat} (hm : m ≤ f.maxfd) (h : ∀ i, m < i → i ≤ f.maxfd → f.slot i = none) :
    Change f { f with maxfd := m } [] [] where
  ok hok := by
    refine ⟨Nat.lt_of_le_of_lt hm hok.lt, fun i hi => ?_⟩
    by_cases him : i ≤ f.maxfd
    · exact h i hi him
    · exact hok.high i (Nat.not_le.mp him)
  ref := rfl
  nfd := Nat.le_refl _
  sum _ := rfl
  keeps _ _ := .inl

/-- The channel that is handed out was in the slot and no longer is. -/
theorem fdclose_spec {flag : C → Bool} (hok : f.Ok) :
    Change f (f.fdclose fd flag).1 [] (f.fdclose fd flag).2.toList := by
  unfold fdclose
  cases hs : f.slot fd with
  | none => exact .refl f
  | some c =>
    simp only
    split
    · have hlt := slot_lt hs
      have hm : fd ≤ f.maxfd := by
        by_contra hgt
        rw [hok.high fd (Nat.not_le.mp hgt)] at hs
        cases hs
      have hput := Change.put hlt hm none
      rw [hs] at hput
      split
      · rename_i hmax
        obtain ⟨hle, hnone⟩ := lower_spec (f.put fd none) fd
        refine hput.trans (.lower (hmax ▸ hle) fun i hi him => ?_)
        by_cases he : i = fd
        · rw [slot_put hlt, if_pos he]
        · exact hnone i (Nat.le_of_lt hi) (by omega)
      · exact hput
    · exact .refl f

theorem quantum_le (n : Nat) : n ≤ quantum n := by
  unfold quantum
  split
  · exact Nat.le_add_right _ _
  · exact Nat.le_refl _

/-- The copy has the same channels. -/
theorem dupfgrp_spec (hok : f.Ok) (h : f.dupfgrp mem = some g) :
    g.Ok ∧ g.slot = f.slot ∧ g.ref = 1 ∧ ∀ c, g.fd.count (some c) = f.fd.count (some c) := by
  unfold dupfgrp at h
  split at h
  · cases h
    have hq := quantum_le (f.maxfd + 1)
    have hlt := hok.lt
    have hslot : ∀ i, (f.fd.take (f.maxfd + 1) ++
        List.replicate (quantum (f.maxfd + 1) - (f.maxfd + 1)) none)[i]?.join = f.slot i := by
      intro i
      have happ := slot_append (f := ⟨f.fd.take (f.maxfd + 1), 0, 0, 0⟩)
        (quantum (f.maxfd + 1) - (f.maxfd + 1)) i
      refine happ.trans ?_
      unfold slot
      by_cases hi : i < f.maxfd + 1
      · rw [List.getElem?_take_of_lt hi]
      · rw [List.getElem?_take_eq_none (Nat.not_lt.mp hi)]
        exact (hok.high i (by omega)).symm
    refine ⟨⟨?_, fun i hi => (hslot i).trans (hok.high i hi)⟩, funext hslot, rfl, fun c => ?_⟩
    · unfold nfd at *
      simp only [List.length_append, List.length_take, List.length_replicate]
      omega
    · have hrest : (f.fd.drop (f.maxfd + 1)).count (some c) = 0 := by
        refine List.count_eq_zero.mpr fun hmem => ?_
        obtain ⟨j, hj⟩ := List.getElem?_of_mem hmem
        rw [List.getElem?_drop] at hj
        have hnone := hok.high (f.maxfd + 1 + j) (by omega)
        unfold slot at hnone
        rw [hj] at hnone
        cases hnone
      conv_rhs => rw [← List.take_append_drop (f.maxfd + 1) f.fd, List.count_append, hrest]
      rw [List.count_append, List.count_replicate, if_neg (by simp)]
  · cases h

theorem empty_spec : (empty : Fgrp C).Ok ∧ ∀ c : C, (empty : Fgrp C).fd.count (some c) = 0 := by
  refine ⟨⟨Nat.succ_pos _, fun i _ => ?_⟩, fun c => ?_⟩
  · exact slot_append (f := ⟨[], 0, 0, 0⟩) DELTAFD i
  · unfold empty
    rw [List.count_replicate, if_neg (by simp)]

end NixMark.Fd
