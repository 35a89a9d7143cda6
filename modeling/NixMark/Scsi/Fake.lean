import Mathlib.Data.List.Basic
import NixMark.Lib.Words

/-!
# SCSI emulation (`port/devsd.c`)

`r->data` is an address, and what the functions store there is a list of bytes with their addresses.
An `int` and a `long` have 32 bits.

* `SDreq`, `SDunit`: the fields of a request and of a unit; `Fake`: both, and the stores.
* `sdsetsense`, `sdmodesense`, `sdfakescsi`, `sdrio`: the functions of the source.
-/

namespace NixMark.Scsi

open Lib

structure SDunit where
  inquiry : Nat → UInt8
  sense : Nat → UInt8
  sectors : UInt64

def SDnostatus : Int := -1
def SDok : Int := 0
def SDcheck : Int := 0x02
def SDmaxio : Int := 2048 * 1024

/-- `sizeof unit->inquiry` -/
def sizeofinquiry : Nat := 255
/-- `sizeof unit->sense` -/
def sizeofsense : Nat := 18

structure SDreq where
  write : Bool
  cmd : Nat → UInt8
  data : Option Nat
  dlen : Int
  nosense : Bool
  validsense : Bool
  status : Int
  rlen : Int
  sense : Nat → UInt8

/-- The request, its unit, and what was stored into memory from `r->data` on. -/
structure Fake where
  r : SDreq
  unit : SDunit
  stores : List (UInt8 × Nat)

namespace Fake

/-- The bytes are stored from an address on. -/
def put (x : Fake) (p : Nat) (l : List UInt8) : Fake := { x with stores := x.stores ++ l.zipIdx p }

def setrlen (x : Fake) (rlen : Int) : Fake := { x with r := { x.r with rlen := rlen } }

end Fake

/-- The first bytes of an array. -/
def bytes (a : Nat → UInt8) (len : Nat) : List UInt8 := (List.range len).map a

/-- The value in the low `n` bytes of a number, the highest byte first. -/
def bigendian (len : UInt64) : Nat → List UInt8
  | 0 => []
  | n + 1 => (len >>> UInt64.ofNat (8 * n)).toUInt8 :: bigendian len n

def sdsetsense (x : Fake) (status : Int) (key asc ascq : UInt8) : Int × Fake :=
  let sense := Function.update (Function.update (Function.update x.unit.sense 2 key) 12 asc) 13 ascq
  let r := { x.r with status := status }
  if status = SDcheck ∧ !r.nosense then
    let cleared := Function.update (Function.update (Function.update sense 2 0) 12 0) 13 0
    (SDok, { x with
      r := { r with
        sense := fun i => if i < sizeofsense then sense i else r.sense i
        validsense := true }
      unit := { x.unit with sense := cleared } })
  else (status, { x with r := r, unit := { x.unit with sense := sense } })

/-- `(cmd[7]<<8)|cmd[8]` -/
def alloclen (cmd : Nat → UInt8) : Int := (cmd 7).toNat * 256 + (cmd 8).toNat

/-- `cmd[2] & 0x3F` -/
def page (cmd : Nat → UInt8) : UInt8 := cmd 2 &&& 0x3F

def sdmodesense (x : Fake) (cmd info : Nat → UInt8) (ilen : Int) : Int × Fake :=
  if page cmd ≠ 0 ∧ page cmd ≠ 0x3F then sdsetsense x SDcheck 0x05 0x24 0
  else
    let len := alloclen cmd
    if len = 0 then (SDok, x)
    else if len < long (8 + ilen) then sdsetsense x SDcheck 0x05 0x1A 0
    else
      match x.r.data with
      | none => sdsetsense x SDcheck 0x05 0x20 1
      | some data =>
        if x.r.dlen < len then sdsetsense x SDcheck 0x05 0x20 1
        else
          let x := x.put data (bytes (fun _ => 0) 8)
          let x := x.put data [UInt8.ofInt (ilen / 256), UInt8.ofInt ilen]
          let x := if ilen ≠ 0 then x.put (data + 8) (bytes info ilen.toNat) else x
          let x := x.setrlen (long (8 + ilen))
          sdsetsense x SDok 0 0 0

/-- `read(6)` and `write(6)` become `read(10)` and `write(10)`. -/
def rewrite (cmd : Nat → UInt8) : Nat → UInt8 :=
  if cmd 0 = 0x08 ∨ cmd 0 = 0x0A then
    let cmd := Function.update cmd 9 0
    let cmd := Function.update cmd 8 (cmd 4)
    let cmd := Function.update cmd 7 0
    let cmd := Function.update cmd 6 0
    let cmd := Function.update cmd 5 (cmd 3)
    let cmd := Function.update cmd 4 (cmd 2)
    let cmd := Function.update cmd 3 (cmd 1 &&& 0x0F)
    let cmd := Function.update cmd 2 0
    let cmd := Function.update cmd 1 (cmd 1 &&& 0xE0)
    Function.update cmd 0 (cmd 0 ||| 0x20)
  else cmd

/-- Request sense and inquiry: the first bytes of an array of the unit, as many as `cmd[4]` allows. -/
def copyback (x : Fake) (a : Nat → UInt8) (size : Nat) : Int × Fake :=
  let len := if (x.r.cmd 4).toNat < size then (x.r.cmd 4).toNat else size
  let x :=
    match x.r.data with
    | none => x
    | some data => if x.r.dlen ≥ len then (x.put data (bytes a len)).setrlen len else x
  sdsetsense x SDok 0 0 0

/-- Read capacity: the last sector in so many bytes, and the size of a sector. -/
def capacity (x : Fake) (n : Nat) : Int × Fake :=
  if x.r.cmd 1 &&& 0x01 ≠ 0 ∨ x.r.cmd 2 ≠ 0 ∨ x.r.cmd 3 ≠ 0 then sdsetsense x SDcheck 0x05 0x24 0
  else
    match x.r.data with
    | none => sdsetsense x SDcheck 0x05 0x20 1
    | some data =>
      if x.r.dlen < 8 then sdsetsense x SDcheck 0x05 0x20 1
      else
        let x := x.put data (bigendian (x.unit.sectors - 1) n)
        let x := x.put (data + n) (bigendian 512 4)
        sdsetsense (x.setrlen (n + 4)) SDok 0 0 0

def sdfakescsi (r : SDreq) (unit : SDunit) (info : Nat → UInt8) (ilen : Int) : Int × Fake :=
  let r := { r with rlen := 0, cmd := rewrite r.cmd }
  let x : Fake := ⟨r, unit, []⟩
  if r.cmd 1 >>> 5 ≠ 0 ∧ r.cmd 0 ≠ 0x12 then sdsetsense x SDcheck 0x05 0x25 0
  -- test unit ready
  else if r.cmd 0 = 0x00 then sdsetsense x SDok 0 0 0
  -- request sense
  else if r.cmd 0 = 0x03 then copyback x unit.sense sizeofsense
  -- inquiry
  else if r.cmd 0 = 0x12 then copyback x unit.inquiry sizeofinquiry
  -- start/stop unit
  else if r.cmd 0 = 0x1B then sdsetsense x SDok 0 0 0
  -- read capacity
  else if r.cmd 0 = 0x25 then capacity x 4
  -- long read capacity
  else if r.cmd 0 = 0x9E then capacity x 8
  -- mode sense
  else if r.cmd 0 = 0x5A then sdmodesense x r.cmd info ilen
  -- read and write
  else if r.cmd 0 = 0x28 ∨ r.cmd 0 = 0x2A ∨ r.cmd 0 = 0x88 ∨ r.cmd 0 = 0x8a then (SDnostatus, x)
  else sdsetsense x SDcheck 0x05 0x20 0

/-- A driver whose `rio` is `sdfakescsi`, but for the commands that are not emulated. -/
def rio (io : Fake → Int × Fake) (unit : SDunit) (info : Nat → UInt8) (ilen : Int) (r : SDreq) :
    Int × Fake :=
  let (i, x) := sdfakescsi r unit info ilen
  if i ≠ SDnostatus then (i, { x with r := { x.r with status := i } }) else io x

/-- The bytes that `sdrio` copies to its caller, from the memory that `malloc` gives; none when it
ends with an error. -/
def sdrio (rio : SDreq → Int × Fake) (malloc : Option Nat) (r : SDreq) (n : Int) : Option Int :=
  if n ≥ SDmaxio ∨ n < 0 then none
  else if n ≠ 0 ∧ malloc = none then none
  else
    let data := if n ≠ 0 then malloc else none
    let (i, x) := rio { r with data := data, dlen := n }
    if i ≠ SDok then none
    else if !x.r.write ∧ x.r.rlen > 0 then some x.r.rlen
    else some 0

end NixMark.Scsi
