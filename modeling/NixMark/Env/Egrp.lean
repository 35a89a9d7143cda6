import Mathlib.Data.List.Nodup
import NixMark.Lib.Words

/-!
# Environment groups

The variables of `devenv.c`. A value is a block of memory of `len` bytes, or none. A `Fault` is an
access to memory that is not the value's.

* `Evalue`, `Egrp`: the variables of a group; `envlookup`.
* `load`, `store`: `memmove` from and to a value.
* `envopen`, `envcreate`, `envremove`, `envread`, `envwrite`, `envcpy`: the functions of the source,
  on the group of the channel.
-/

namespace NixMark.Env

open Lib

def Maxenvsize : Int := 16300

/-- A name as the bytes of its string. -/
abbrev Name := List UInt8

/-- `Evalue` with `qid.path` and `qid.vers`. -/
structure Evalue where
  name : Name
  /-- the memory at `value`, if it is not null -/
  value : Option (List UInt8)
  len : Nat
  path : Nat
  vers : Nat
deriving DecidableEq, Repr

structure Egrp where
  /-- the first `nent` of `ent` -/
  ent : List Evalue
  path : Nat
  vers : Nat
deriving DecidableEq, Repr

/-- What `smalloc` gives for a group. -/
def Egrp.zero : Egrp := ⟨[], 0, 0⟩

inductive Err where
  | Eperm
  | Ebadarg
  | Eexist
  | Enonexist
  | Etoobig
deriving DecidableEq, Repr

/-- An access to memory that is not there. -/
inductive Fault where
  | null
  | bounds
deriving DecidableEq, Repr

/-! ## Memory -/

/-- The `n` bytes at `value+offset`. -/
def load (value : Option (List UInt8)) (offset n : Int) : Except Fault (List UInt8) :=
  match value with
  | none => .error .null
  | some v =>
    if 0 ≤ offset ∧ offset + n ≤ v.length then .ok ((v.drop offset.toNat).take n.toNat)
    else .error .bounds

/-- The value with the bytes `a` at `value+offset`. -/
def store (value : Option (List UInt8)) (offset : Int) (a : List UInt8) :
    Except Fault (Option (List UInt8)) :=
  match value with
  | none => .error .null
  | some v =>
    if 0 ≤ offset ∧ offset + a.length ≤ v.length then
      .ok (some (v.take offset.toNat ++ a ++ v.drop (offset.toNat + a.length)))
    else .error .bounds

/-- `++*x` of a `ulong`. -/
def incr (x : Nat) : Nat := (x + 1) % 4294967296

/-! ## Opening -/

def OREAD : BitVec 32 := 0
def OEXEC : BitVec 32 := 3
def OTRUNC : BitVec 32 := 16
def OCEXEC : BitVec 32 := 32
def ORCLOSE : BitVec 32 := 64
def OBEHIND : BitVec 32 := 0x2000

/-- `openmode` of `sysfile.c` -/
def openmode (omode : BitVec 32) : Except Err (BitVec 32) :=
  let omode := omode &&& ~~~ (OTRUNC ||| OCEXEC ||| ORCLOSE ||| OBEHIND)
  if OEXEC.slt omode then .error .Ebadarg
  else if omode = OEXEC then .ok OREAD
  else .ok omode

/-- The variable of a group with the path or the name. -/
def envlookup (eg : Egrp) (name : Option Name) (qidpath : Nat) : Option Evalue :=
  eg.ent.find? fun e => e.path = qidpath ∨ some e.name = name

/-- `*e = e'` where `e` is the first variable with its path. -/
def Egrp.setent (eg : Egrp) (e e' : Evalue) : Egrp :=
  { eg with ent := eg.ent.set (eg.ent.findIdx (·.path = e.path)) e' }

/-- The truncation of `envopen`. -/
def envtrunc (eg : Egrp) (e : Evalue) (trunc : Bool) : Egrp :=
  if trunc ∧ e.value.isSome then
    eg.setent e { e with vers := incr e.vers, value := none, len := 0 }
  else eg

/-- `envopen`: the mode that the channel is opened in. -/
def envopen (eg : Egrp) (dir writeable : Bool) (path : Nat) (omode : BitVec 32) :
    Egrp × Except Err (BitVec 32) :=
  if dir then
    if omode ≠ OREAD then (eg, .error .Eperm)
    else (eg, openmode omode)
  else if omode ≠ OREAD ∧ !writeable then (eg, .error .Eperm)
  else
    match envlookup eg none path with
    | none => (eg, .error .Enonexist)
    | some e => (envtrunc eg e (omode &&& OTRUNC != 0), openmode omode)

/-- `envcreate`: the path of the new variable and the mode. -/
def envcreate (eg : Egrp) (dir : Bool) (name : Name) (omode : BitVec 32) :
    Egrp × Except Err (Nat × BitVec 32) :=
  if !dir then (eg, .error .Eperm)
  else
    match openmode omode with
    | .error err => (eg, .error err)
    | .ok omode =>
      if (envlookup eg (some name) 4294967295).isSome then (eg, .error .Eexist)
      else
        let path := incr eg.path
        (⟨eg.ent ++ [⟨name, none, 0, path, 0⟩], path, incr eg.vers⟩, .ok (path, omode))

/-- `ent[i] = ent[--nent]` -/
def compact (ent : List Evalue) (i : Nat) : List Evalue :=
  match ent.getLast? with
  | none => ent
  | some last => (ent.set i last).dropLast

/-- `envremove` -/
def envremove (eg : Egrp) (dir : Bool) (path : Nat) : Egrp × Except Err Unit :=
  if dir then (eg, .error .Eperm)
  else
    match eg.ent.findIdx? (·.path = path) with
    | none => (eg, .error .Enonexist)
    | some i => ({ eg with ent := compact eg.ent i, vers := incr eg.vers }, .ok ())

/-! ## Reading and writing -/

/-- How many bytes `envread` copies: the arithmetic is that of a `long`. -/
def readn (len n offset : Int) : Int :=
  if offset > len then 0
  else if long (offset + n) > len then long (len - offset)
  else n

/-- `envread` of a variable: a value without bytes to copy is not touched. -/
def envread (eg : Egrp) (path : Nat) (n off : Int) : Except Fault (Except Err (List UInt8)) :=
  match envlookup eg none path with
  | none => .ok (.error .Enonexist)
  | some e =>
    let offset := long off
    let n := readn e.len n offset
    if n ≤ 0 then .ok (.ok [])
    else (load e.value offset n).map .ok

/-- The value grows to `len` bytes. -/
def grow (e : Evalue) (len : Int) : Except Fault Evalue :=
  if len > e.len then
    let s := List.replicate len.toNat 0
    match e.value with
    | none => .ok { e with value := some s, len := len.toNat }
    | some _ =>
      (load e.value 0 e.len).bind fun b =>
        (store (some s) 0 b).map fun s => { e with value := s, len := len.toNat }
  else .ok e

/-- `envwrite`: the number of bytes written. -/
def envwrite (eg : Egrp) (path : Nat) (a : List UInt8) (off : Int) :
    Except Fault (Egrp × Except Err Nat) :=
  let n : Int := a.length
  if n ≤ 0 then .ok (eg, .ok 0)
  else
    let offset := long off
    if offset > Maxenvsize ∨ n > long (Maxenvsize - offset) then .ok (eg, .error .Etoobig)
    else
      match envlookup eg none path with
      | none => .ok (eg, .error .Enonexist)
      | some e =>
        (grow e (long (offset + n))).bind fun e' =>
          (store e'.value offset a).map fun v =>
            ({ eg.setent e { e' with value := v, vers := incr e.vers } with
              vers := incr eg.vers }, .ok a.length)

/-- The loop of `envcpy`: the variables with the paths behind `path`. -/
def copies : Nat → List Evalue → Except Fault (List Evalue)
  | _, [] => .ok []
  | path, e :: l =>
    match e.value with
    | none => (copies (incr path) l).map fun l => ⟨e.name, none, 0, incr path, 0⟩ :: l
    | some _ =>
      (load e.value 0 e.len).bind fun v =>
        (copies (incr path) l).map fun l => ⟨e.name, some v, e.len, incr path, 0⟩ :: l

/-- `envcpy`: the group `new` afterwards; it has no variables. -/
def envcpy (new fr : Egrp) : Except Fault Egrp :=
  (copies new.path fr.ent).map fun l =>
    { new with ent := l, path := (new.path + l.length) % 4294967296 }

end NixMark.Env
