import Mathlib.Data.List.Basic
import Mathlib.Algebra.Order.Ring.Nat

/-!
# The tags of the mount driver

The allocation of 9P requests and of their tags in `devmnt.c`. An rpc keeps its tag on the free
list; in a group of rpcs that share a tag one owns it (`owntag`). The links of the pending queue and
the counters are left out. `malloc` is an argument of `mntralloc`.

* `alloctag`, `freetag`: the bit map `tagmask`; `busy`: the tags marked in it.
* `mntralloc`, `mntfree`, `passtag` (the part of `mountrpcrep` that hands a tag on), `linkrpc` (the
  part of `mntreqing` that links an rpc behind another).
-/

namespace NixMark.Mntalloc

/-- The address of a `Mntrpc`. -/
abbrev Rpc := Nat

def TAGSHIFT : Nat := 5
def TAGMASK : Nat := 31
def NMASK : Nat := 2048
def NOTAG : Nat := 65535
/-- The rpcs kept on the free list; 0 for no limit. -/
def NRPCS : Nat := 0

/-- A `Mntrpc`. `poison` says that both types are 69, as `mntfree` leaves them. -/
structure Mntrpc where
  tag : Nat
  owntag : Bool
  tagnext : Option Rpc
  rpclen : Nat
  poison : Bool
deriving DecidableEq, Repr

/-- `mntalloc`. `rpcfree` is the list from `rpcfreehd` to `rpcfreetl`. -/
structure Alloc where
  rpc : Rpc → Mntrpc
  rpcfree : List Rpc
  tagmask : Nat → BitVec 32

/-! ## The bit map -/

/-- The tag is marked. -/
def busy (mask : Nat → BitVec 32) (t : Nat) : Bool :=
  (mask (t >>> TAGSHIFT)).getLsbD (t &&& TAGMASK)

def settag (mask : Nat → BitVec 32) (t : Nat) : Nat → BitVec 32 :=
  Function.update mask (t >>> TAGSHIFT) (mask (t >>> TAGSHIFT) ||| 1#32 <<< (t &&& TAGMASK))

def freetag (mask : Nat → BitVec 32) (t : Nat) : Nat → BitVec 32 :=
  Function.update mask (t >>> TAGSHIFT) (mask (t >>> TAGSHIFT) &&& ~~~(1#32 <<< (t &&& TAGMASK)))

/-- The inner loop of `alloctag`: the first bit that is not set. -/
def freebit (v : BitVec 32) : Option Nat := (List.range (1 <<< TAGSHIFT)).find? fun j => !v.getLsbD j

/-- `alloctag`, which panics when there is no tag left. -/
def alloctag (mask : Nat → BitVec 32) : Option Nat :=
  (List.range NMASK).findSome? fun i =>
    if mask i = ~~~0#32 then none else (freebit (mask i)).map fun j => i <<< TAGSHIFT + j

/-- What `mntreset` leaves: 0 and `NOTAG` are not allocated. -/
def mntreset : Alloc where
  rpc _ := ⟨0, false, none, 0, false⟩
  rpcfree := []
  tagmask i := if i = 0 then 1#32 else if i = NMASK - 1 then 0x80000000#32 else 0#32

/-! ## Allocation -/

/-- `r` with another record. -/
def Alloc.set (s : Alloc) (r : Rpc) (x : Mntrpc) : Alloc := { s with rpc := Function.update s.rpc r x }

/-- The part of `mntralloc` that gets the header and its buffer. `mem` is what `malloc` returns for
a header, and `buf` says whether `mallocz` returns a buffer; without them an error is raised, and a
header from the free list is gone. -/
def getrpc (maxrpc : Nat) (s : Alloc) (msize : Nat) (mem : Option Rpc) (buf : Bool) :
    Alloc × Option Rpc :=
  match s.rpcfree with
  | [] =>
    match mem with
    | none => (s, none)
    | some new =>
      if buf then (s.set new ⟨0, false, none, max msize maxrpc, false⟩, some new) else (s, none)
  | new :: rest =>
    let s := { s with rpcfree := rest }
    if (s.rpc new).rpclen < msize then
      if buf then (s.set new { s.rpc new with rpclen := max msize maxrpc }, some new) else (s, none)
    else (s, some new)

/-- The part of `mntralloc` that gives `new` its tag. -/
def tagrpc (s : Alloc) (new : Rpc) (prev : Option Rpc) (sharetags : Int) : Option Alloc :=
  if sharetags < 0 then some (s.set new { s.rpc new with owntag := false })
  else
    match prev with
    | some p =>
      if sharetags ≠ 0 then
        let mask :=
          if (s.rpc new).owntag ∧ (s.rpc new).tag ≠ (s.rpc p).tag then
            freetag s.tagmask (s.rpc new).tag
          else s.tagmask
        some { s.set new { s.rpc new with tag := (s.rpc p).tag, owntag := false } with tagmask := mask }
      else owntag s new
    | none => owntag s new
where
  /-- The branch in which the rpc has a tag of its own. -/
  owntag (s : Alloc) (new : Rpc) : Option Alloc :=
    if (s.rpc new).owntag then some s
    else
      (alloctag s.tagmask).map fun t =>
        { s.set new { s.rpc new with tag := t, owntag := true } with tagmask := settag s.tagmask t }

/-- `mntralloc`: no state if it panics, and no rpc if it raises an error. -/
def mntralloc (maxrpc : Nat) (s : Alloc) (prev : Option Rpc) (msize : Nat) (sharetags : Int)
    (mem : Option Rpc) (buf : Bool) : Option (Alloc × Option Rpc) :=
  match getrpc maxrpc s msize mem buf with
  | (s, none) => some (s, none)
  | (s, some new) =>
    match tagrpc s new prev sharetags with
    | none => none
    | some s =>
      if (s.rpc new).tagnext ≠ none then none
      else some (s.set new { s.rpc new with poison := false }, some new)

/-! ## Freeing -/

/-- The mark of `mntfree`, which panics when it finds it. -/
def poison (s : Alloc) (r : Rpc) : Option Alloc :=
  if (s.rpc r).poison then none else some (s.set r { s.rpc r with poison := true })

/-- The end of `mntfree`: the rpc goes to the free list, or is freed with its tag. -/
def release (s : Alloc) (r : Rpc) : Alloc :=
  if NRPCS ≠ 0 ∧ s.rpcfree.length ≥ NRPCS then
    { s with tagmask := if (s.rpc r).owntag then freetag s.tagmask (s.rpc r).tag else s.tagmask }
  else { s with rpcfree := s.rpcfree ++ [r] }

/-- `r->tagnext = tn->tagnext; tn->tagnext = nil`. -/
def unlinkrpc (s : Alloc) (r tn : Rpc) : Alloc :=
  let s := s.set r { s.rpc r with tagnext := (s.rpc tn).tagnext }
  s.set tn { s.rpc tn with tagnext := none }

/-- The loop of `mntfree` over the rpcs linked behind `r`. The recursive call is on an rpc that
nothing is linked behind, so it does no loop of its own. -/
def freeloop : Nat → Alloc → Rpc → Option Alloc
  | 0, _, _ => none
  | n + 1, s, r =>
    match (s.rpc r).tagnext with
    | none => some s
    | some tn =>
      match poison (unlinkrpc s r tn) tn with
      | none => none
      | some s => freeloop n (release s tn) r

/-- `mntfree` on a chain of at most `n` rpcs; there is no state if it panics. -/
def mntfree (n : Nat) (s : Alloc) (r : Rpc) : Option Alloc :=
  match poison s r with
  | none => none
  | some s => (freeloop n s r).map fun s => release s r

/-! ## Sharing -/

/-- The part of `mountrpcrep` that passes the tag to the next rpc. -/
def passtag (s : Alloc) (r : Rpc) : Alloc :=
  match (s.rpc r).tagnext with
  | none => s
  | some n =>
    if (s.rpc r).owntag ∧ (s.rpc n).tag = (s.rpc r).tag then
      let s := s.set n { s.rpc n with owntag := true }
      s.set r { s.rpc r with owntag := false }
    else s

/-- `prev->tagnext = r`. -/
def linkrpc (s : Alloc) (prev r : Rpc) : Alloc := s.set prev { s.rpc prev with tagnext := some r }

end NixMark.Mntalloc
