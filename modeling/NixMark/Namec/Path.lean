import Mathlib.Data.List.Basic

/-!
# Paths (`port/path.c`)

A path is an array of elements, which grows by 16 slots; no elements is the root. `slen` is kept up
as elements are added, and is to bound the length of the path when it is printed.

* `Path.Holds`: the first slots hold the elements.
* `Built`: the paths that are made by `newpath`, `newnpath`, `addelem` and `duppath`; `Built.slen_eq`:
  their `slen`. It starts with 0 in a structure that was just allocated, with 1 in one that was used
  before.

A string is a list of runes, and `strlen` counts its bytes. `none` is a panic, or an access outside
the array.
-/

namespace NixMark.Namec

/-- A string without its final zero. -/
abbrev Str : Type := List Char

/-- The bytes of a string. -/
def strlen : Str → Nat
  | [] => 0
  | c :: s => c.utf8Size + strlen s

/-- The slots from `nels` on, and those of a free structure, hold anything: `none`. -/
structure Path where
  els : List (Option Str)
  slen : Nat
  nels : Nat
  nres : Nat
  nbuf : Nat
  ref : Nat
  buf : Option Str
  name : Option Str
deriving DecidableEq

namespace Path

/-- `naels` -/
def naels (p : Path) : Nat := p.els.length

/-- `p->els[i] = el` -/
def put (p : Path) (i : Nat) (el : Option Str) : Option Path :=
  if i < p.naels then some { p with els := p.els.set i el } else none

/-- Zeroed memory. -/
def fresh : Path := ⟨[], 0, 0, 0, 0, 0, none, none⟩

/-- The elements, as far as there are any. -/
def elems (p : Path) : List Str := (p.els.take p.nels).filterMap id

end Path

/-- What `nfree` leaves of a path, for the next `nalloc`. -/
def paterm (p : Path) : Path :=
  { p with
    els := List.replicate p.naels none
    slen := 1
    nels := 0
    nres := 0
    nbuf := 0
    buf := none
    name := none }

/-- `newpath(nil)`, in the structure `a` that `nalloc` returns -/
def newpath₀ (a : Path) : Path := { a with ref := 1 }

def duppath (a s : Path) : Path :=
  let d := newpath₀ a
  { d with
    els := if 0 < s.naels then s.els.take s.nels ++ List.replicate (s.naels - s.nels) none else d.els
    nels := s.nels
    nres := s.nres
    slen := s.slen }

/-- The array has room for an element more. -/
def grow (p : Path) : Path :=
  if p.nels = p.naels then { p with els := p.els ++ List.replicate 16 none } else p

/-- `a` is the structure for a copy of a path that is shared. -/
def xaddelem (a path : Path) (name : Str) (dupok : Bool) : Option Path :=
  let path? := if 1 < path.ref then if dupok then some (duppath a path) else none else some path
  path?.bind fun path =>
    if path.ref ≠ 1 then none
    else ((grow path).put path.nels (some name)).map fun path =>
      { path with nels := path.nels + 1, slen := path.slen + (strlen name + 1) }

def addelem (a path : Path) (name : Str) (dupok : Bool) : Option Path := xaddelem a path name dupok

/-- The loop of `newpath` over a name; `cur` is the element that it is in. -/
def split (cur : Option Str) : Str → List Str
  | [] => cur.toList
  | c :: s => if c = '/' then cur.getD [] :: split none s else split (some (cur.getD [] ++ [c])) s

/-- The elements of a name. The rune behind a `#` belongs to the device, also if it is a slash. -/
def splitname : Str → List Str
  | '#' :: [] => [['#']]
  | '#' :: c :: s => ('#' :: c :: s.takeWhile (· ≠ '/')) ::
      split none ((s.dropWhile (· ≠ '/')).drop 1)
  | '/' :: s => split none s
  | s => split none s

def newpath (a : Path) (name : Option Str) : Option Path :=
  match name with
  | none => some (newpath₀ a)
  | some name =>
    ((splitname name).foldlM (fun path el => xaddelem a path el false)
        { newpath₀ a with buf := some name }).map fun path => { path with nbuf := path.nels }

def newnpath (a : Path) (n : Str) : Option Path :=
  (newpath a (some n)).map fun path => { path with buf := none, name := some n }

/-! ## The elements -/

variable {p p' a : Path} {l : List Str} {el : Str} {i : Nat}

/-- The elements of the path are `l`. -/
structure Path.Holds (p : Path) (l : List Str) : Prop where
  take : p.els.take p.nels = l.map some
  nels : p.nels = l.length

theorem Path.Holds.elems (h : p.Holds l) : p.elems = l := by
  unfold Path.elems
  rw [h.take, List.filterMap_map]
  exact List.filterMap_some

theorem Path.Holds.nels_le (h : p.Holds l) : p.nels ≤ p.naels := by
  have := congrArg List.length h.take
  rw [List.length_take, List.length_map, ← h.nels] at this
  unfold Path.naels
  omega

/-- Slots behind the elements do not matter. -/
theorem Path.Holds.congr (h : p.Holds l) {els : List (Option Str)}
    (he : els.take p.nels = p.els.take p.nels) {slen nres nbuf ref : Nat} {buf name : Option Str} :
    Path.Holds ⟨els, slen, p.nels, nres, nbuf, ref, buf, name⟩ l :=
  ⟨he.trans h.take, h.nels⟩

theorem put_some {q : Option Str} (h : i < p.naels) :
    p.put i q = some { p with els := p.els.set i q } := if_pos h

/-- An element more. -/
theorem Path.Holds.set (h : p.Holds l) (hlt : p.nels < p.naels) :
    Path.Holds { p with els := p.els.set p.nels (some el), nels := p.nels + 1 } (l ++ [el]) where
  take := by
    change (p.els.set p.nels (some el)).take (p.nels + 1) = _
    rw [List.take_add_one, List.take_set_of_le (Nat.le_refl _), h.take, List.getElem?_set_self hlt,
      List.map_append]
    rfl
  nels := by
    rw [List.length_append, ← h.nels]
    rfl

theorem grow_room (h : p.Holds l) : p.nels < (grow p).naels := by
  have := h.nels_le
  unfold grow Path.naels at *
  split
  · rw [List.length_append, List.length_replicate]
    omega
  · omega

theorem grow_holds (h : p.Holds l) : (grow p).Holds l ∧ (grow p).nels = p.nels ∧
    (grow p).slen = p.slen ∧ (grow p).ref = p.ref := by
  unfold grow
  split
  · refine ⟨h.congr ?_, rfl, rfl, rfl⟩
    rw [List.take_append_of_le_length h.nels_le]
  · exact ⟨h, rfl, rfl, rfl⟩

theorem duppath_holds (a : Path) (h : p.Holds l) : (duppath a p).Holds l := by
  have hle := h.nels_le
  refine ⟨?_, h.nels⟩
  change (if 0 < p.naels then p.els.take p.nels ++ List.replicate (p.naels - p.nels) none
    else (newpath₀ a).els).take p.nels = _
  split
  · rw [List.take_append_of_le_length, List.take_take, Nat.min_self, h.take]
    rw [List.length_take]
    exact Nat.le_min.mpr ⟨Nat.le_refl _, hle⟩
  · have hnil : p.nels = 0 := by omega
    have hl : l = [] := List.eq_nil_of_length_eq_zero (h.nels ▸ hnil)
    rw [hnil, hl]
    rfl

/-- What `xaddelem` does to a path that it may change. -/
structure Added (p : Path) (l : List Str) (el : Str) (p' : Path) : Prop where
  holds : p'.Holds (l ++ [el])
  slen : p'.slen = p.slen + (strlen el + 1)
  ref : p'.ref = 1

theorem xaddelem_one (a : Path) (h : p.Holds l) (hr : p.ref = 1) (el : Str) (dupok : Bool) :
    ∃ p', xaddelem a p el dupok = some p' ∧ Added p l el p' := by
  obtain ⟨hg, hnels, hslen, href⟩ := grow_holds h
  have hroom := grow_room h
  unfold xaddelem
  rw [if_neg (by omega), Option.bind_some, if_neg (not_not.mpr hr), put_some hroom]
  refine ⟨_, rfl, ?_, ?_, ?_⟩
  · have hset := (hg.set (hnels.symm ▸ hroom) : Path.Holds _ (l ++ [el]))
    rw [hnels] at hset
    constructor
    · change ((grow p).els.set p.nels (some el)).take ((grow p).nels + 1) = _
      rw [hnels]
      exact hset.take
    · change (grow p).nels + 1 = _
      rw [hnels]
      exact hset.nels
  · change (grow p).slen + _ = _
    rw [hslen]
  · exact href.trans hr

/-- A path that is shared is not changed: the element goes to a copy. -/
theorem xaddelem_spec (a : Path) (h : p.Holds l) (el : Str) {dupok : Bool}
    (hadd : xaddelem a p el dupok = some p') : Added p l el p' := by
  by_cases hr : 1 < p.ref
  · cases dupok with
    | false =>
      rw [xaddelem, if_pos hr] at hadd
      cases hadd
    | true =>
      have hdup : xaddelem a p el true = xaddelem a (duppath a p) el true := by
        rw [xaddelem, xaddelem, if_pos hr, if_pos rfl,
          if_neg (show ¬ 1 < (duppath a p).ref from Nat.lt_irrefl 1)]
      obtain ⟨q, hq, hadded⟩ := xaddelem_one a (duppath_holds a h) rfl el true
      cases hq.symm.trans (hdup ▸ hadd)
      exact ⟨hadded.holds, hadded.slen, hadded.ref⟩
  · by_cases hr' : p.ref = 1
    · obtain ⟨q, hq, hadded⟩ := xaddelem_one a h hr' el dupok
      cases hq.symm.trans hadd
      exact hadded
    · rw [xaddelem, if_neg hr, Option.bind_some, if_pos hr'] at hadd
      cases hadd

/-! ## What `slen` counts -/

/-- The bytes of the elements, with a slash for each. -/
def span : List Str → Nat
  | [] => 0
  | el :: l => strlen el + 1 + span l

theorem span_concat (l : List Str) (el : Str) : span (l ++ [el]) = span l + (strlen el + 1) := by
  induction l with
  | nil => exact Nat.add_comm _ _
  | cons el' l ih =>
    rw [List.cons_append, span, ih, span]
    omega

/-- The structures that `nalloc` returns; `used`: it was freed before. -/
inductive Allocated : Bool → Path → Prop
  | fresh : Allocated false Path.fresh
  | used (p : Path) : Allocated true (paterm p)

/-- The paths; `used` is about the structure that the first one of them was made in. -/
inductive Built : Bool → Path → Prop
  | newpath {used a name p} : Allocated used a → newpath a name = some p → Built used p
  | newnpath {used a name p} : Allocated used a → newnpath a name = some p → Built used p
  | addelem {used used' a p name dupok p'} : Built used p → Allocated used' a →
      addelem a p name dupok = some p' → Built used p'
  | duppath {used used' a p} : Built used p → Allocated used' a → Built used (duppath a p)
  /-- References are counted, and elements are resolved. -/
  | refers {used p} (ref nres : Nat) : Built used p → Built used { p with ref := ref, nres := nres }

/-- The elements, and the `slen` for a path that started with `n`. -/
structure Path.Spans (p : Path) (n : Nat) (l : List Str) : Prop where
  holds : p.Holds l
  slen : p.slen = n + span l

variable {used : Bool} {n : Nat}

theorem Path.Spans.add {a : Path} (h : p.Spans n l) {dupok : Bool}
    (hadd : xaddelem a p el dupok = some p') : p'.Spans n (l ++ [el]) ∧ p'.ref = 1 := by
  have hadded := xaddelem_spec a h.holds el hadd
  refine ⟨⟨hadded.holds, ?_⟩, hadded.ref⟩
  rw [hadded.slen, h.slen, span_concat, Nat.add_assoc]

/-- The loop over the elements of a name. -/
theorem Path.Spans.addall {a : Path} (h : p.Spans n l) (hr : p.ref = 1) (els : List Str) :
    ∃ p', els.foldlM (fun path el => xaddelem a path el false) p = some p' ∧
      p'.Spans n (l ++ els) := by
  induction els generalizing p l with
  | nil => exact ⟨p, rfl, by rwa [List.append_nil]⟩
  | cons el els ih =>
    obtain ⟨q, hq, -⟩ := xaddelem_one a h.holds hr el false
    obtain ⟨hspans, hq'⟩ := h.add hq
    obtain ⟨p', hp', hspans'⟩ := ih hspans hq'
    refine ⟨p', ?_, ?_⟩
    · rw [List.foldlM_cons, hq]
      exact hp'
    · rwa [List.append_assoc] at hspans'

theorem Allocated.spans (h : Allocated used a) {buf : Option Str} :
    Path.Spans { newpath₀ a with buf := buf } used.toNat [] := by
  cases h with
  | fresh => exact ⟨⟨rfl, rfl⟩, rfl⟩
  | used p => exact ⟨⟨rfl, rfl⟩, rfl⟩

/-- A path for a name has its elements. -/
theorem newpath_spec (h : Allocated used a) (name : Str) :
    ∃ p, newpath a (some name) = some p ∧ p.Spans used.toNat (splitname name) := by
  have hroot : Path.Spans { newpath₀ a with buf := some name } used.toNat [] := h.spans
  obtain ⟨p, hp, hspans⟩ := hroot.addall (a := a) rfl (splitname name)
  refine ⟨{ p with nbuf := p.nels }, ?_, ⟨hspans.holds.take, hspans.holds.nels⟩, hspans.slen⟩
  exact congrArg (Option.map fun path : Path => { path with nbuf := path.nels }) hp

theorem Built.spans (h : Built used p) : ∃ l, p.Spans used.toNat l := by
  induction h with
  | @newpath a name p ha hp =>
    cases name with
    | none =>
      cases hp
      exact ⟨[], ha.spans⟩
    | some name =>
      obtain ⟨q, hq, hspans⟩ := newpath_spec ha name
      cases hq.symm.trans hp
      exact ⟨_, hspans⟩
  | @newnpath a name p ha hp =>
    obtain ⟨q, hq, hspans⟩ := newpath_spec ha name
    rw [Namec.newnpath, hq] at hp
    cases hp
    exact ⟨_, ⟨hspans.holds.take, hspans.holds.nels⟩, hspans.slen⟩
  | addelem _ _ hadd ih =>
    obtain ⟨l, hl⟩ := ih
    exact ⟨_, (hl.add hadd).1⟩
  | @duppath used' a p _ _ ih =>
    obtain ⟨l, hl⟩ := ih
    exact ⟨l, duppath_holds a hl.holds, hl.slen⟩
  | refers _ _ _ ih =>
    obtain ⟨l, hl⟩ := ih
    exact ⟨l, ⟨hl.holds.take, hl.holds.nels⟩, hl.slen⟩

end NixMark.Namec
