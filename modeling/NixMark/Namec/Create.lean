import NixMark.Namec.Path

/-!
# Creating a file (`nameop(Acreate)` of `port/chan.c`)

The last element is taken off the path while the file is created, and put back by each of the exits.
The one that walks and opens instead increments `nels` before it stores the element, so the store
goes to the slot behind.

* `nameop`: the ways through the call, as far as they depend on the path; `Calls`: what the other
  functions answer.
* `nameop_exact`: the path is as before unless that store misses the array.
* `newpath_naels`: for a path in a new structure that is every sixteenth number of elements.
-/

namespace NixMark.Namec

/-- What the calls give; without a result they are an error. `mntlookup` sets `nres`. -/
structure Calls where
  /-- `mntlookup(p, relok, 1)`: whether there is a mount point -/
  ismtpt : Option (Bool × Nat)
  /-- `mntlookup(p, relok, 0)` for the directory -/
  lookup : Option Nat
  cancreate9pix : Bool
  ncreate : Bool
  walked : Bool
  /-- `createdir`, and `create` of the device -/
  create : Bool
  /-- `mntlookup(p, relok, 0)` for the file -/
  again : Option Nat
  opens : Bool

/-- How the call ends: after an error it has closed the path. -/
inductive Out where
  | closed
  | done (p : Path)

/-- `p->els[p->nels++] = last` -/
def restore (last : Option Str) (p : Path) : Option Path :=
  (p.put p.nels last).map fun p => { p with nels := p.nels + 1 }

/-- `p->els[++p->nels] = last` -/
def restorewalk (last : Option Str) (p : Path) : Option Path :=
  ({ p with nels := p.nels + 1 } : Path).put (p.nels + 1) last

def aopen (c : Calls) (p : Path) : Out := if c.opens then .done p else .closed

/-- The create failed. -/
def walkopen (c : Calls) (last : Option Str) (p : Path) : Option Out :=
  (restorewalk last p).map fun p =>
    c.again.elim .closed fun nres => aopen c { p with nres := nres }

def acreate (c : Calls) (oexcl : Bool) (last : Option Str) (p : Path) : Option Out :=
  if c.cancreate9pix then
    if c.ncreate then (restore last p).map fun p => if c.walked then .done p else .closed
    else some .closed
  else if ¬ c.walked then some .closed
  else if c.create then (restore last p).map .done
  else if oexcl then some .closed
  else walkopen c last { p with nres := 0 }

/-- `nameop(Acreate)` from the path of the name on; `oexcl`: `omode&OEXCL`. -/
def nameop (c : Calls) (oexcl : Bool) (p : Path) : Option Out :=
  if p.nels = 0 then some .closed
  else
    match c.ismtpt with
    | none => some .closed
    | some (true, nres) =>
      if oexcl then some .closed else some (aopen c { p with nres := nres })
    | some (false, _) =>
      let last := p.els.getD (p.nels - 1) none
      match c.lookup with
      | none => some .closed
      | some nres => acreate c oexcl last { p with nels := p.nels - 1, nres := nres }

/-- The create fails, and the file is looked up. -/
def Calls.fallsback (c : Calls) (oexcl : Bool) : Bool :=
  c.ismtpt.any (fun r => !r.1) && c.lookup.isSome && !c.cancreate9pix && c.walked && !c.create &&
    !oexcl

/-! ## The element is put back -/

variable {c : Calls} {oexcl : Bool} {p p' : Path} {l : List Str} {el : Str}

/-- The call stays in the array, and a path that it leaves has the elements `l`. -/
def Intact (l : List Str) (r : Option Out) : Prop :=
  ∃ out, r = some out ∧ ∀ p', out = .done p' → p'.Holds l

theorem intact_closed : Intact l (some .closed) := ⟨_, rfl, nofun⟩

theorem intact_done (h : p.Holds l) : Intact l (some (.done p)) :=
  ⟨_, rfl, fun p' hp' => by cases hp'; exact h⟩

theorem intact_aopen (h : p.Holds l) : Intact l (some (aopen c p)) := by
  unfold aopen
  split
  · exact intact_done h
  · exact intact_closed

/-- The path without its last element, which is in the slot behind. -/
structure Detached (p : Path) (l : List Str) (el : Str) : Prop where
  holds : p.Holds l
  slot : p.els[p.nels]? = some (some el)

theorem Detached.lt (h : Detached p l el) : p.nels < p.naels := by
  obtain ⟨hlt, -⟩ := List.getElem?_eq_some_iff.mp h.slot
  exact hlt

theorem restore_holds (h : Detached p l el) :
    ∃ p', restore (some el) p = some p' ∧ p'.Holds (l ++ [el]) := by
  unfold restore
  rw [put_some h.lt]
  exact ⟨_, rfl, h.holds.set h.lt⟩

/-- The slot behind the element is written, if there is one. -/
theorem restorewalk_holds (h : Detached p l el) (hlt : p.nels + 1 < p.naels) :
    ∃ p', restorewalk (some el) p = some p' ∧ p'.Holds (l ++ [el]) := by
  refine ⟨_, if_pos hlt, ?_, ?_⟩
  · change (p.els.set (p.nels + 1) (some el)).take (p.nels + 1) = _
    rw [List.take_set_of_le (Nat.le_refl _), List.take_add_one, h.holds.take, h.slot,
      List.map_append]
    rfl
  · rw [List.length_append, ← h.holds.nels]
    rfl

theorem restorewalk_none (h : p.naels ≤ p.nels + 1) : restorewalk (some el) p = none :=
  if_neg (Nat.not_lt.mpr h)

/-- The walk after a create that failed needs the slot behind the element. -/
theorem walkopen_iff (h : Detached p l el) :
    Intact (l ++ [el]) (walkopen c (some el) p) ↔ p.nels + 1 < p.naels := by
  unfold walkopen
  by_cases hlt : p.nels + 1 < p.naels
  · refine iff_of_true ?_ hlt
    obtain ⟨p', hp', hholds⟩ := restorewalk_holds h hlt
    rw [hp', Option.map_some]
    cases c.again with
    | none => exact intact_closed
    | some nres => exact intact_aopen (hholds.congr rfl)
  · refine iff_of_false ?_ hlt
    rw [restorewalk_none (Nat.not_lt.mp hlt)]
    rintro ⟨out, hout, -⟩
    cases hout

/-- The exits after the last element was taken off. -/
theorem acreate_iff (h : Detached p l el) :
    Intact (l ++ [el]) (acreate c oexcl (some el) p) ↔
      ¬ (((!c.cancreate9pix && c.walked && !c.create && !oexcl) = true) ∧ p.naels ≤ p.nels + 1) := by
  obtain ⟨p', hp', hholds⟩ := restore_holds h
  unfold acreate
  rw [hp', Option.map_some, Option.map_some]
  cases c.cancreate9pix with
  | true =>
    refine iff_of_true ?_ fun hc => Bool.false_ne_true hc.1
    rw [if_pos rfl]
    cases c.ncreate with
    | false => exact intact_closed
    | true =>
      cases c.walked with
      | false => exact intact_closed
      | true => exact intact_done hholds
  | false =>
    rw [if_neg Bool.false_ne_true]
    cases c.walked with
    | false => exact iff_of_true intact_closed fun hc => Bool.false_ne_true hc.1
    | true =>
      rw [if_neg (not_not.mpr rfl)]
      cases c.create with
      | true => exact iff_of_true (intact_done hholds) fun hc => Bool.false_ne_true hc.1
      | false =>
        rw [if_neg Bool.false_ne_true]
        cases oexcl with
        | true => exact iff_of_true intact_closed fun hc => Bool.false_ne_true hc.1
        | false =>
          rw [if_neg Bool.false_ne_true]
          have hdetached : Detached { p with nres := 0 } l el := ⟨h.holds.congr rfl, h.slot⟩
          refine (walkopen_iff hdetached).trans ?_
          change p.nels + 1 < p.naels ↔ _
          simp

/-- The path ends with its elements, and no store misses the array, unless the create fails, the file
is walked to and the array is full. -/
theorem nameop_exact (c : Calls) (oexcl : Bool) (h : p.Holds l) : Intact l (nameop c oexcl p) ↔
    ¬ (c.fallsback oexcl = true ∧ p.nels ≠ 0 ∧ p.nels = p.naels) := by
  unfold nameop
  by_cases hnels : p.nels = 0
  · rw [if_pos hnels]
    exact iff_of_true intact_closed fun hc => hc.2.1 hnels
  rw [if_neg hnels]
  obtain ⟨l, el, rfl⟩ : ∃ l' el, l = l' ++ [el] := by
    refine (List.eq_nil_or_concat' l).resolve_left ?_
    rintro rfl
    exact hnels h.nels
  have hle := h.nels_le
  have hlen : p.nels = l.length + 1 := by
    rw [h.nels, List.length_append]
    rfl
  have hdetached : ∀ nres, Detached { p with nels := p.nels - 1, nres := nres } l el ∧
      p.els.getD (p.nels - 1) none = some el := by
    intro nres
    have hslot : p.els[l.length]? = some (some el) := by
      have := congrArg (·[l.length]?) h.take
      rw [List.getElem?_take_of_lt (by omega), List.map_append,
        List.getElem?_append_right (Nat.le_of_eq (List.length_map _)), List.length_map,
        Nat.sub_self] at this
      exact this
    have htake : p.els.take l.length = l.map some := by
      have := congrArg (List.take l.length) h.take
      rwa [List.take_take, Nat.min_eq_left (by omega), List.map_append,
        List.take_left' (by rw [List.length_map])] at this
    rw [hlen, Nat.add_sub_cancel]
    refine ⟨⟨⟨htake, rfl⟩, hslot⟩, ?_⟩
    rw [List.getD_eq_getElem?_getD, hslot]
    rfl
  unfold Calls.fallsback
  cases c.ismtpt with
  | none => exact iff_of_true intact_closed fun hc => Bool.false_ne_true hc.1
  | some r =>
    obtain ⟨ismtpt, nres⟩ := r
    cases ismtpt with
    | true =>
      refine iff_of_true ?_ fun hc => Bool.false_ne_true hc.1
      cases oexcl with
      | true => exact intact_closed
      | false => exact intact_aopen (h.congr rfl)
    | false =>
      cases c.lookup with
      | none => exact iff_of_true intact_closed fun hc => Bool.false_ne_true hc.1
      | some nres =>
        obtain ⟨hd, hlast⟩ := hdetached nres
        simp only [hlast]
        refine (acreate_iff hd).trans (not_congr (and_congr ?_ ?_))
        · rfl
        · change p.naels ≤ p.nels - 1 + 1 ↔ _
          omega

/-! ## How full the array is -/

theorem xaddelem_naels {a : Path} (h : p.Holds l) (hr : p.ref = 1)
    (hn : p.naels = 16 * ((p.nels + 15) / 16)) (hadd : xaddelem a p el false = some p') :
    p'.naels = 16 * ((p'.nels + 15) / 16) := by
  have hroom := grow_room h
  have hnels := (grow_holds h).2.1
  rw [xaddelem, if_neg (by omega), Option.bind_some, if_neg (not_not.mpr hr), put_some hroom] at hadd
  cases hadd
  change ((grow p).els.set p.nels (some el)).length = 16 * (((grow p).nels + 1 + 15) / 16)
  rw [List.length_set, hnels]
  unfold grow Path.naels at *
  split at hroom
  · rw [if_pos (by assumption), List.length_append, List.length_replicate]
    omega
  · rw [if_neg (by assumption)]
    omega

theorem addall_naels {a : Path} (h : p.Holds l) (hr : p.ref = 1)
    (hn : p.naels = 16 * ((p.nels + 15) / 16)) {els : List Str}
    (hadd : els.foldlM (fun path el => xaddelem a path el false) p = some p') :
    p'.naels = 16 * ((p'.nels + 15) / 16) := by
  induction els generalizing p l with
  | nil =>
    cases hadd
    exact hn
  | cons el els ih =>
    obtain ⟨q, hq, hadded⟩ := xaddelem_one a h hr el false
    rw [List.foldlM_cons, hq] at hadd
    exact ih hadded.holds hadded.ref (xaddelem_naels h hr hn hq) hadd

/-- In a new structure the array has the next multiple of 16. -/
theorem newpath_naels {name : Str} (h : newpath Path.fresh (some name) = some p) :
    p.naels = 16 * ((p.nels + 15) / 16) := by
  obtain ⟨q, hq, rfl⟩ := Option.map_eq_some_iff.mp h
  have hroot : Path.Holds ⟨[], 0, 0, 0, 0, 1, some name, none⟩ [] := ⟨rfl, rfl⟩
  have hzero : 0 = 16 * ((0 + 15) / 16) := by decide
  have hq' := addall_naels hroot rfl hzero hq
  exact hq'

/-! ## Fifteen elements and sixteen -/

/-- The directory is found, the create fails and the file is opened. -/
private def refused : Calls := ⟨some (false, 0), some 0, false, false, true, false, some 0, true⟩

private def deep (n : Nat) : Str := (List.replicate n ['/', 'a']).flatten

theorem nameop_exact_deep : ∃ p, newpath Path.fresh (some (deep 15)) = some p ∧
    Intact (splitname (deep 15)) (nameop refused false p) := by
  obtain ⟨p, hp, hspans⟩ := newpath_spec .fresh (deep 15)
  refine ⟨p, hp, (nameop_exact refused false hspans.holds).mpr fun hc => ?_⟩
  have hnels : p.nels = 15 := by
    rw [hspans.holds.nels]
    decide
  have := newpath_naels hp
  omega

/-- The element is stored behind the array. -/
theorem nameop_overruns : ∃ p, newpath Path.fresh (some (deep 16)) = some p ∧
    nameop refused false p = none := by
  obtain ⟨p, hp, -⟩ := newpath_spec .fresh (deep 16)
  have hrun : (newpath Path.fresh (some (deep 16))).all fun p => (nameop refused false p).isNone := by
    decide +kernel
  rw [hp] at hrun
  exact ⟨p, hp, Option.isNone_iff_eq_none.mp hrun⟩

end NixMark.Namec
