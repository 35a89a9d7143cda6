import Mathlib.Algebra.Order.Ring.Nat

/-!
# The mount table (`port/mnt.c`)

A name space is a tree of `Mount`s that is kept by its prefixes: an entry of a `Mount` is a channel,
or the `Mount` of a longer prefix. The `Mount`s of all name spaces lie in one heap.

* `dupum`, `dupmnt`: the copies; `initunion`, `addmntel`, `putum`: the writes to one `Mount`.
* `mntwalk`: what a path leads to; `mntlookup`: the channel that it names.
* `mntmount`, `mntunmount`, `setslash`.

What the devices do is a parameter (`Dev`). A `Mount` that is freed keeps its place in the heap. The
flags of an entry, the reference counts and the locks are left out.
-/

namespace NixMark.Mnt

/-- What `dev->walk` gives for a list of names. -/
inductive Walkqid (C : Type) where
  /-- no `Walkqid`, or an error -/
  | nil
  /-- so many of the names were found -/
  | part (nqid : Nat)
  /-- all were found -/
  | clone (c : C)

/-- The devices, and what is asked of a channel. -/
structure Dev (C : Type) where
  walk : C → List String → Walkqid C
  isdir : C → Bool
  eqchan : C → C → Bool

/-- An entry in a union. -/
inductive Mounted (C : Type) where
  /-- `to` -/
  | chan (c : C)
  | child (n : Nat)
deriving DecidableEq

structure Mount (C : Type) where
  elem : String
  um : List (Mounted C)
  parent : Option Nat
  ismount : Int

/-- The `Mount`s below `next` are in use, or were. -/
structure Heap (C : Type) where
  mnt : Nat → Mount C
  next : Nat

/-- `flags&MORDER` -/
inductive Order where
  | MREPL
  | MBEFORE
  | MAFTER
deriving DecidableEq

inductive Error where
  | Eunmountslash
  | Eunmount
deriving DecidableEq

variable {C : Type}

def Mounted.chan? : Mounted C → Option C
  | .chan c => some c
  | .child _ => none

def Mounted.child? : Mounted C → Option Nat
  | .chan _ => none
  | .child n => some n

namespace Heap

def set (h : Heap C) (n : Nat) (m : Mount C) : Heap C :=
  { h with mnt := Function.update h.mnt n m }

def setum (h : Heap C) (n : Nat) (um : List (Mounted C)) : Heap C :=
  h.set n { h.mnt n with um := um }

def setparent (h : Heap C) (n : Nat) (p : Option Nat) : Heap C :=
  h.set n { h.mnt n with parent := p }

/-- `ismount += k` -/
def addismount (h : Heap C) (n : Nat) (k : Int) : Heap C :=
  h.set n { h.mnt n with ismount := (h.mnt n).ismount + k }

/-- The channels of a `Mount`. -/
def chans (h : Heap C) (n : Nat) : List C := (h.mnt n).um.filterMap Mounted.chan?

/-- The `Mount`s in a `Mount`. -/
def children (h : Heap C) (n : Nat) : List Nat := (h.mnt n).um.filterMap Mounted.child?

/-- The new `Mount` is `h.next`. -/
def newmnt (h : Heap C) (el : String) : Heap C :=
  { mnt := Function.update h.mnt h.next ⟨el, [], none, 0⟩, next := h.next + 1 }

/-! ## Copies -/

/-- Copies the entries to the list of `n`, behind `pre` and before `post`; `dup` is `dupmnt`. The
result has the copies. -/
def dupum (dup : Heap C → Nat → Option (Nat × Heap C)) (n : Nat) (post : List (Mounted C)) :
    Heap C → List (Mounted C) → List (Mounted C) → Option (List (Mounted C) × Heap C)
  | h, _, [] => some ([], h)
  | h, pre, .chan c :: l =>
    (dupum dup n post (h.setum n (pre ++ .chan c :: post)) (pre ++ [.chan c]) l).map fun r =>
      (.chan c :: r.1, r.2)
  | h, pre, .child k :: l =>
    match dup h k with
    | none => none
    | some (k, h) =>
      (dupum dup n post (h.setum n (pre ++ .child k :: post)) (pre ++ [.child k]) l).map fun r =>
        (.child k :: r.1, r.2)

/-- `el->child->parent = n` -/
def setparents (n : Nat) (h : Heap C) : List (Mounted C) → Heap C
  | [] => h
  | .chan _ :: l => setparents n h l
  | .child k :: l => setparents n (h.setparent k (some n)) l

def dupmnt : Nat → Heap C → Nat → Option (Nat × Heap C)
  | 0, _, _ => none
  | fuel + 1, h, m =>
    let nm := h.next
    match dupum (dupmnt fuel) nm [] (h.newmnt (h.mnt m).elem) [] (h.mnt m).um with
    | none => none
    | some (um, h) =>
      let h := h.setparents nm um
      some (nm, h.set nm { h.mnt nm with ismount := (h.mnt m).ismount })

/-- Frees the entries. -/
def putum (h : Heap C) (n : Nat) : Heap C :=
  h.set n { h.mnt n with um := [], ismount := (h.mnt n).ismount - (h.chans n).length }

/-! ## Walking -/

/-- What `mntwalk1` finds. -/
inductive Found (C : Type) where
  | nil
  | child (n : Nat)
  /-- `*ncp` -/
  | chan (c : C)

/-- The loop of `mntwalk1` over the entries, for the names `el :: els`; `nc`: the caller wants a
channel, `union`: there are several entries. -/
def mntwalk1 (dev : Dev C) (h : Heap C) (nc union : Bool) (el : String) (els : List String) :
    List (Mounted C) → Found C
  | [] => .nil
  | .child n :: l => if (h.mnt n).elem = el then .child n else mntwalk1 dev h nc union el els l
  | .chan c :: l =>
    if nc ∧ union ∧ dev.isdir c ∧ l.any fun m => m.child?.isSome then
      match dev.walk c (el :: els) with
      | .nil => mntwalk1 dev h nc union el els l
      | .part nqid => if 0 < nqid then .nil else mntwalk1 dev h nc union el els l
      | .clone c => .chan c
    else mntwalk1 dev h nc union el els l

/-- `i`: so many names have a `Mount`; `nres`: so many lead to `mp`. -/
structure Walked (C : Type) where
  i : Nat
  mp : Nat
  nres : Nat
  nc : Option C

/-- The loop of `mntwalk`, at the `Mount` `n`. -/
def walkloop (dev : Dev C) (h : Heap C) (nc ismount : Bool) :
    List String → Nat → Walked C → Walked C
  | [], _, w => w
  | el :: els, n, w =>
    match mntwalk1 dev h nc (decide (1 < (h.mnt n).um.length)) el els (h.mnt n).um with
    | .nil => w
    | .chan c => { w with nres := w.i + (els.length + 1), nc := some c }
    | .child k =>
      walkloop dev h nc ismount els k <|
        if ismount ∨ (h.mnt k).ismount ≠ 0 then ⟨w.i + 1, k, w.i + 1, none⟩
        else { w with i := w.i + 1 }

def mntwalk (dev : Dev C) (h : Heap C) (nc ismount : Bool) (root : Nat) (p : List String) :
    Walked C :=
  walkloop dev h nc ismount p root ⟨0, root, 0, none⟩

/-- `*hasmtpt` -/
def hasmtpt (h : Heap C) (n : Nat) : Bool := (h.mnt n).um.any fun m => m.child?.isSome

def clwalk (dev : Dev C) (c : C) (els : List String) : Option C :=
  match dev.walk c els with
  | .clone c => some c
  | _ => none

/-- The part of `mntlookup` that asks the mount table. -/
def mntlookup (dev : Dev C) (h : Heap C) (root : Nat) (p : List String) : Option C :=
  let w := h.mntwalk dev true false root p
  match w.nc with
  | some c => some c
  | none => (h.chans w.mp).findSome? fun c => clwalk dev c (p.drop w.nres)

/-! ## Mounting -/

/-- The loop of `initunion` that looks for a `Mount` with channels, and the names from there. -/
def climb (h : Heap C) : Nat → Option Nat → List String → Option (Nat × List String)
  | 0, _, _ => none
  | _ + 1, none, _ => none
  | fuel + 1, some n, els =>
    if (h.mnt n).ismount ≠ 0 then some (n, els)
    else climb h fuel (h.mnt n).parent ((h.mnt n).elem :: els)

/-- Each channel is walked, and left out if that fails. -/
def initunion (dev : Dev C) (h : Heap C) (n : Nat) : Heap C :=
  match h.climb h.next (some n) [] with
  | none => h
  | some (pmnt, els) =>
    let cs := (h.chans pmnt).filterMap fun c => clwalk dev c els
    (h.setum n ((h.mnt n).um ++ cs.map .chan)).addismount n cs.length

/-- The end of `addmntel`, for the entries that are new. -/
def adopt (n : Nat) (h : Heap C) : List (Mounted C) → Heap C
  | [] => h
  | .chan _ :: l => adopt n (h.addismount n 1) l
  | .child k :: l => adopt n (h.setparent k (some n)) l

/-- `mnt`: the channel `m` is a union. A copy of a list behind itself has no end. -/
def addmntel (h : Heap C) (n : Nat) (m : Mounted C) (mnt : Option Nat) (flags : Order) :
    Option (Heap C) :=
  let um := (h.mnt n).um
  let pre := if flags = .MAFTER then um else []
  let post := if flags = .MAFTER then [] else um
  match mnt with
  | none => some ((h.setum n (pre ++ m :: post)).adopt n [m])
  | some src =>
    if src = n ∧ flags = .MAFTER ∧ um ≠ [] then none
    else
      match dupum (fun h => dupmnt h.next h) n post h pre (h.mnt src).um with
      | none => none
      | some (l, h) => some (h.adopt n l)

/-- Entries for the names that have no `Mount`. -/
def mkmnts (h : Heap C) (n : Nat) : List String → Nat × Heap C
  | [] => (n, h)
  | el :: els =>
    let nm := h.next
    let h := h.newmnt el
    mkmnts ((h.setum n (.child nm :: (h.mnt n).um)).adopt n [.child nm]) nm els

/-- `c` is `to`, and `mnt` is `to->mnt`. -/
def mntmount (dev : Dev C) (h : Heap C) (mgrp : Nat) (p : List String) (c : C)
    (mnt : Option Nat) (flags : Order) : Option (Heap C) :=
  let w := h.mntwalk dev false true mgrp p
  let (n, h) := h.mkmnts w.mp (p.drop w.i)
  let h :=
    if flags = .MREPL then h.putum n
    else if (h.mnt n).ismount = 0 then h.initunion dev n
    else h
  h.addmntel n (.chan c) mnt flags

def setslash (h : Heap C) (slash : C) : Heap C :=
  let n := h.next
  (h.newmnt "/").setum n [.chan slash]

/-! ## Unmounting -/

/-- The first entry that passes the test is taken out. -/
def unlink (test : Mounted C → Bool) : List (Mounted C) → Option (List (Mounted C))
  | [] => none
  | m :: l => if test m then some l else (unlink test l).map (m :: ·)

/-- The loop that takes a `Mount` out of its parent, and the parent too if it is empty then. -/
def collect : Nat → Heap C → Nat → Option (Heap C × Option Error)
  | 0, _, _ => none
  | fuel + 1, h, n =>
    match (h.mnt n).parent with
    | none => some (h, some .Eunmountslash)
    | some parent =>
      match unlink (fun m => m.child? = some n) (h.mnt parent).um with
      | none => none
      | some um =>
        let h := (h.setum parent um).setparent n none
        if um ≠ [] ∨ (h.mnt parent).parent = none then some (h, none)
        else collect fuel h parent

/-- `c` is `to`: the member to unmount, or all of them. -/
def mntunmount (dev : Dev C) (h : Heap C) (mgrp : Nat) (p : List String) (c : Option C) :
    Option (Heap C × Option Error) :=
  let w := h.mntwalk dev false true mgrp p
  let n := w.mp
  if w.i ≠ p.length then some (h, some .Eunmountslash)
  else if (h.mnt n).ismount = 0 then some (h, some .Eunmount)
  else
    match c with
    | none => collect h.next h n
    | some c =>
      match unlink (fun m => m.chan?.any fun c' => dev.eqchan c' c) (h.mnt n).um with
      | none => some (h, some .Eunmount)
      | some um =>
        let h := (h.setum n um).addismount n (-1)
        if um ≠ [] then some (h, none) else collect h.next h n

end Heap

end NixMark.Mnt
