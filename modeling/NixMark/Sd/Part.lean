import Mathlib.Data.List.Basic

/-!
# The partitions of a storage unit (`devsd.c`)

* `SDpart`, `SDunit`: a partition and a unit, as far as the table of partitions and `sdbio` use them.
* `sdaddpart`, `sddelpart`, `sdincvers`, `sdinitpart`: the functions of the source. An error is the
  text of it.
* `Chan`: a channel that was opened on a partition.

`N` are the names of partitions and `U` the users. A slot that was never used has no name.
-/

namespace NixMark.Sd

abbrev ulong := UInt32
abbrev uvlong := UInt64

def SDnpart : Nat := 16
def NPart : Nat := 256

inductive Err where
  | Ebadctl | Enomem | Eio | Eperm | Echange
  deriving DecidableEq

structure SDpart (N U : Type) where
  start : uvlong
  «end» : uvlong
  name : Option N
  user : Option U
  valid : Bool
  vers : ulong

/-- What `malloc` leaves in the table. -/
def SDpart.zero {N U : Type} : SDpart N U := ⟨0, 0, none, none, false, 0⟩

structure SDunit (N U : Type) where
  sectors : uvlong
  secsize : ulong
  /-- `npart` is its length; `nil` is the empty table -/
  part : List (SDpart N U)
  vers : ulong
  /-- `inquiry[1] & SDinq1removable` -/
  removable : Bool
  /-- `inquiry[0]` -/
  inquiry0 : UInt8

variable {N U : Type} [DecidableEq N] [DecidableEq U]

/-- Where the loop of `sdaddpart` ends. -/
inductive Slot where
  | free (partno : Nat)
  | same
  | Ebadctl
  | none
  deriving DecidableEq

/-- The loop of `sdaddpart` from the slot `i` on: it stops at the first slot that is not valid. -/
def search (name : N) (start end' : uvlong) : Nat → List (SDpart N U) → Slot
  | _, [] => .none
  | i, pp :: l =>
    if !pp.valid then .free i
    else if pp.name = some name then
      if pp.start = start ∧ pp.end = end' then .same else .Ebadctl
    else search name start end' (i + 1) l

omit [DecidableEq N] [DecidableEq U] in
/-- The end of `sdaddpart`, with the table that it leaves when the extent is wrong. -/
def SDunit.setpart (unit : SDunit N U) (eve : U) (name : N) (start end' : uvlong)
    (part : List (SDpart N U)) (partno : Nat) : SDunit N U × Option Err :=
  if start > end' ∨ end' > unit.sectors then ({ unit with part := part }, some .Eio)
  else
    ({ unit with part := part.modify partno fun pp =>
        ⟨start, end', some name, some eve, true, pp.vers⟩ }, none)

/-- The error of the call. -/
def SDunit.sdaddpart (unit : SDunit N U) (eve : U) (room : Bool) (name : N) (start end' : uvlong) :
    SDunit N U × Option Err :=
  let fill := unit.setpart eve name start end'
  match unit.part with
  | [] => if room then fill (List.replicate SDnpart .zero) 0 else (unit, some .Enomem)
  | _ :: _ =>
    match search name start end' 0 unit.part with
    | .same => (unit, none)
    | .Ebadctl => (unit, some .Ebadctl)
    | .free partno => fill unit.part partno
    | .none =>
      if unit.part.length ≥ NPart ∨ !room then (unit, some .Enomem)
      else fill (unit.part ++ List.replicate SDnpart .zero) unit.part.length

/-- What a delete finds: `strcmp` with the name of a slot that has none faults. -/
inductive Found where
  | slot (i : Nat)
  | fault
  | Ebadctl
  deriving DecidableEq

def find (name : N) : Nat → List (SDpart N U) → Found
  | _, [] => .Ebadctl
  | i, pp :: l =>
    match pp.name with
    | none => .fault
    | some n => if n = name then .slot i else find name (i + 1) l

/-- `none` where the kernel faults. -/
def SDunit.sddelpart (unit : SDunit N U) (user eve : U) (name : N) :
    Option (SDunit N U × Option Err) :=
  match find name 0 unit.part with
  | .fault => none
  | .Ebadctl => some (unit, some .Ebadctl)
  | .slot i =>
    if (unit.part[i]?.bind (·.user)) ≠ some user ∧ user ≠ eve then some (unit, some .Eperm)
    else
      some ({ unit with part := unit.part.modify i fun pp =>
        { pp with valid := false, vers := pp.vers + 1 } }, none)

omit [DecidableEq N] [DecidableEq U] in
def SDunit.sdincvers (unit : SDunit N U) : SDunit N U :=
  { unit with
    vers := unit.vers + 1
    part := unit.part.map fun pp => { pp with valid := false, vers := pp.vers + 1 } }

/-- What the driver's `online` makes of the size, and the partitions of the boot program: for each,
whether `malloc` has room when the table must grow. -/
structure Online (N : Type) where
  sectors : uvlong
  secsize : ulong
  room : Bool
  conf : List (N × uvlong × uvlong × Bool)

def SDinq0periphtype : UInt8 := 0x1f

/-- `SDperdisk`, `SDperworm`, `SDpercd` and `SDpermo` -/
def disktype (inquiry0 : UInt8) : Bool :=
  inquiry0 &&& 0xc0 = 0 ∧ [0x00, 0x04, 0x05, 0x07].contains (inquiry0 &&& SDinq0periphtype)

/-- The unit and the result; the error is one of the partition `data`. Those of the boot program's
partitions are caught. -/
def SDunit.sdinitpart (unit : SDunit N U) (eve : U) (data : N) (on : Online N) :
    SDunit N U × Option Err × Bool :=
  let unit : SDunit N U :=
    if unit.sectors > 0 then ({ unit with sectors := 0, secsize := 0 } : SDunit N U).sdincvers
    else unit
  if !disktype unit.inquiry0 then (unit, none, false)
  else
    let unit : SDunit N U := { unit with sectors := on.sectors, secsize := on.secsize }
    if unit.sectors = 0 then (unit, none, true)
    else
      match unit.sdincvers.sdaddpart eve on.room data 0 unit.sectors with
      | (unit, some e) => (unit, some e, false)
      | (unit, none) =>
        (on.conf.foldl (fun unit p => (unit.sdaddpart eve p.2.2.2 p.1 p.2.1 p.2.2.1).1) unit,
          none, true)

/-- `c->qid` of a channel on a partition. -/
structure Chan where
  part : Nat
  vers : ulong
  deriving DecidableEq

end NixMark.Sd
