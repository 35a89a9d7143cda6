import NixMark.Sd.Part
import NixMark.Lib.Lts
import Mathlib.Algebra.Group.Nat.Defs
import Mathlib.Algebra.Ring.Int.Defs

/-!
# Reads and writes of a partition (`sdbio` of `devsd.c`)

Values of the C types are integers here and every assignment to a narrower type wraps: `vlong`,
`long`. `ulong` and `uvlong` of a comparison are remainders. `bio` is the driver's: it transfers a
prefix of the sectors asked for, or fails and transfers nothing.

* `SDunit.blocks`, `SDunit.refuses`: the bounds check. `clip`: the length that the buffer allows.
* `SDunit.attempt`: the body of `sdbio`, which starts over when the media changed. `SDunit.sdbio`.
* `storage`: the unit and its open channels, with the calls of all processes.
-/

namespace NixMark.Sd

open Lib

def vlong (x : Int) : Int := x.bmod (2 ^ 64)
def long (x : Int) : Int := x.bmod (2 ^ 32)

def SDmaxio : Int := 2048 * 1024

variable {N U : Type}

/-- `bno`, and `nb` as the largest transfer and the end of the partition leave it. -/
def SDunit.blocks (unit : SDunit N U) (pp : SDpart N U) (len off : Int) : Int × Int :=
  let secsize : Int := unit.secsize.toNat
  let bno := vlong (off.tdiv secsize + pp.start.toNat)
  let nb := long ((vlong (off + len + secsize - 1)).tdiv secsize + pp.start.toNat - bno)
  let max := SDmaxio / secsize
  let nb := if nb > max then max else nb
  (bno, if (bno + nb) % 2 ^ 64 > pp.end.toNat then long (pp.end.toNat - bno) else nb)

def SDunit.refuses (unit : SDunit N U) (pp : SDpart N U) (len off : Int) : Bool :=
  (unit.blocks pp len off).1 % 2 ^ 64 ≥ pp.end.toNat ∨ (unit.blocks pp len off).2 = 0

/-- A request to the driver; `bno` is a `uvlong` there. -/
structure Req where
  write : Bool
  nb : Int
  bno : Int

/-- The driver's answer to one request: the sectors that it transfers, when there are as many, and
whether it notes that the media is gone. -/
structure Answer where
  sectors : Option Nat
  gone : Bool

def Answer.count (ans : Answer) (nb : Int) : Nat := min (ans.sectors.getD 0) nb.toNat

/-- The result `l` of `bio`. -/
def Answer.l (ans : Answer) (nb secsize : Int) : Int :=
  match ans.sectors with
  | none => -1
  | some _ => long (ans.count nb * secsize)

/-- What the rest of the kernel does: `malloc` for the buffer and the driver, by the number of the
attempt; `bio` has two answers in each, for the request that fills the buffer and for the one that
writes it. -/
structure Env (N U : Type) where
  room : Nat → Bool
  bio : Nat → Answer × Answer
  online : Online N
  data : N
  eve : U

inductive Res where
  /-- an access outside the buffer or the table -/
  | fault
  /-- a division by zero -/
  | trap
  | err (e : Err)
  | ok (r : Int)
  deriving DecidableEq

/-- The state of a call: the disk and the caller's memory from `a` on, by the byte. -/
structure Io (N U : Type) where
  unit : SDunit N U
  len : Int
  reqs : List Req
  disk : Nat → UInt8
  mem : Nat → UInt8

def Io.bio (io : Io N U) (ans : Answer) (req : Req) : Io N U :=
  { io with
    reqs := io.reqs ++ [req]
    unit := if ans.gone then { io.unit with sectors := 0 } else io.unit }

/-- `memmove` reaches `n` bytes of the buffer from `offset` on. -/
def reaches (offset n cap : Int) : Bool := n = 0 ∨ 0 ≤ offset ∧ offset + n ≤ cap

/-- `offset`, and `len` as the buffer allows. -/
def clip (secsize nb len off : Int) : Int × Int :=
  let offset := long (off.tmod secsize)
  (offset, if (offset + len) % 2 ^ 32 > nb * secsize % 2 ^ 32 then long (nb * secsize - offset)
    else len)

/-- `len` after a transfer of `l` bytes. -/
def transferred (l offset len : Int) : Int :=
  if l < offset then 0 else if len > l - offset then l - offset else len

/-- The buffer after a read of `t` sectors. -/
def fill (disk : Nat → UInt8) (bno secsize : Int) (t : Nat) (j : Nat) : UInt8 :=
  if j < t * secsize.toNat then disk ((bno % 2 ^ 64).toNat * secsize.toNat + j) else 0

/-- The disk after a write of `t` sectors. -/
def drain (disk : Nat → UInt8) (bno secsize : Int) (t : Nat) (b : Nat → UInt8) (x : Nat) : UInt8 :=
  let base := (bno % 2 ^ 64).toNat * secsize.toNat
  if base ≤ x ∧ x < base + t * secsize.toNat then b (x - base) else disk x

/-- The buffer after `memmove(b+offset, a, n)`. -/
def place (b a : Nat → UInt8) (offset n : Int) (j : Nat) : UInt8 :=
  if offset ≤ j ∧ (j : Int) < offset + n then a (j - offset.toNat) else b j

/-- The read of `sdbio` once the buffer is there. -/
def Io.read (io : Io N U) (ans : Answer) (bno nb offset : Int) : Io N U × Res :=
  let secsize : Int := io.unit.secsize.toNat
  let l := ans.l nb secsize
  let b := fill io.disk bno secsize (ans.count nb)
  let io := io.bio ans ⟨false, nb, bno % 2 ^ 64⟩
  if l < 0 then (io, .err .Eio)
  else
    let len := transferred l offset io.len
    let io := { io with len := len }
    if reaches offset (len % 2 ^ 32) (nb * secsize % 2 ^ 32) then
      ({ io with mem := fun j =>
          if (j : Int) < len % 2 ^ 32 then b (offset.toNat + j) else io.mem j }, .ok len)
    else (io, .fault)

/-- The write of `sdbio` from the `memmove` on; the buffer has `cap` bytes. -/
def Io.put (io : Io N U) (ans : Answer) (bno nb offset cap : Int) (b : Nat → UInt8) :
    Io N U × Res :=
  let secsize : Int := io.unit.secsize.toNat
  if reaches offset (io.len % 2 ^ 32) cap then
    let b := place b io.mem offset (io.len % 2 ^ 32)
    let l := ans.l nb secsize
    let io := { io with disk := drain io.disk bno secsize (ans.count nb) b }
    let io := io.bio ans ⟨true, nb, bno % 2 ^ 64⟩
    if l < 0 then (io, .err .Eio)
    else
      let len := transferred l offset io.len
      ({ io with len := len }, .ok len)
  else (io, .fault)

/-- The write of `sdbio` once the buffer is there: what it does not cover is read before. -/
def Io.write (io : Io N U) (ans : Answer × Answer) (bno nb offset : Int) : Io N U × Res :=
  let secsize : Int := io.unit.secsize.toNat
  let cap := nb * secsize % 2 ^ 32
  if offset ≠ 0 ∨ io.len % 2 ^ 32 % secsize ≠ 0 then
    let l := ans.1.l nb secsize
    let b := fill io.disk bno secsize (ans.1.count nb)
    let io := io.bio ans.1 ⟨false, nb, bno % 2 ^ 64⟩
    if l < 0 then (io, .err .Eio)
    else if l % 2 ^ 32 < cap then
      let nb := long (l % 2 ^ 32 / secsize)
      let l := long (nb * secsize - offset)
      { io with len := if io.len > l then l else io.len }.put ans.2 bno nb offset cap b
    else io.put ans.2 bno nb offset cap b
  else io.put ans.2 bno nb offset cap fun _ => 0

/-- The body of `sdbio`. The last component tells whether its own error handler is there. -/
def Io.attempt (io : Io N U) (c : Chan) (write : Bool) (off : Int) (room : Bool)
    (ans : Answer × Answer) : Io N U × Res × Bool :=
  match io.unit.part[c.part]? with
  | none => (io, .fault, true)
  | some pp =>
    if io.unit.vers + pp.vers ≠ c.vers then (io, .err .Echange, true)
    else if io.unit.secsize = 0 then (io, .trap, true)
    else
      if io.unit.refuses pp io.len off then (io, if write then .err .Eio else .ok 0, true)
      else if !room then (io, .err .Enomem, io.unit.removable)
      else
        let (bno, nb) := io.unit.blocks pp io.len off
        let (offset, len) := clip io.unit.secsize.toNat nb io.len off
        let io := { io with len := len }
        let (io, res) := if write then io.write ans bno nb offset else io.read ans.1 bno nb offset
        (io, res, io.unit.removable)

variable [DecidableEq N] [DecidableEq U]

def SDunit.sdbio (unit : SDunit N U) (c : Chan) (write : Bool) (mem : Nat → UInt8) (len : Int32)
    (off : Int64) (env : Env N U) (disk : Nat → UInt8) : Io N U × Res :=
  let (io, res, caught) := (⟨unit, len.toInt, [], disk, mem⟩ : Io N U).attempt c write off.toInt
    (env.room 0) (env.bio 0)
  if res = .err .Eio ∧ caught ∧ io.unit.sectors = 0 then
    -- notification of media change; go around again
    match io.unit.sdinitpart env.eve env.data env.online with
    | (unit, some e, _) => ({ io with unit := unit }, .err e)
    | (unit, none, _) =>
      let (io, res, _) := { io with unit := unit }.attempt c write off.toInt (env.room 1)
        (env.bio 1)
      (io, res)
  else (io, res)

/-! ## The unit and its channels -/

structure Sys (N U : Type) where
  unit : SDunit N U
  chans : List Chan

inductive Act (N U : Type) where
  /-- the control message `part`, through a channel that was opened at the version `vers` -/
  | part (vers : ulong) (eve : U) (data : N) (on : Online N) (room : Bool) (name : N)
    (start end' : uvlong)
  /-- the control message `delpart` -/
  | delpart (vers : ulong) (user eve : U) (name : N)
  /-- `sdinitpart`, as a read of the control file or a walk calls it -/
  | initpart (eve : U) (data : N) (on : Online N)
  /-- the driver sets the size of the media -/
  | online (sectors : uvlong) (secsize : ulong)
  /-- an open of the file of a valid partition -/
  | open (part : Nat)
  | sdbio (c : Chan) (write : Bool) (mem : Nat → UInt8) (len : Int32) (off : Int64) (env : Env N U)
    (disk : Nat → UInt8)

/-- `none` where the step is not possible or the kernel faults. -/
def Sys.exec (s : Sys N U) : Act N U → Option (Sys N U)
  | .part vers eve data on room name start end' =>
    if s.unit.vers ≠ vers then some s
    else if s.unit.sectors = 0 then
      match s.unit.sdinitpart eve data on with
      | (unit, none, true) => some { s with unit := (unit.sdaddpart eve room name start end').1 }
      | (unit, _, _) => some { s with unit := unit }
    else some { s with unit := (s.unit.sdaddpart eve room name start end').1 }
  | .delpart vers user eve name =>
    if s.unit.vers ≠ vers ∨ s.unit.part = [] then some s
    else (s.unit.sddelpart user eve name).map fun r => { s with unit := r.1 }
  | .initpart eve data on => some { s with unit := (s.unit.sdinitpart eve data on).1 }
  | .online sectors secsize =>
    some { s with unit := { s.unit with sectors := sectors, secsize := secsize } }
  | .open part =>
    (s.unit.part[part]?).bind fun pp =>
      if pp.valid then some { s with chans := ⟨part, s.unit.vers + pp.vers⟩ :: s.chans } else none
  | .sdbio c write mem len off env disk =>
    if c ∈ s.chans then some { s with unit := (s.unit.sdbio c write mem len off env disk).1.unit }
    else none

/-- A unit that was just found has no partitions. -/
def storage (N U : Type) [DecidableEq N] [DecidableEq U] : Lts (Sys N U) (Act N U) where
  init s := s.unit.part = [] ∧ s.chans = []
  step s a s' := s.exec a = some s'

end NixMark.Sd
