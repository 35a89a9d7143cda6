import Mathlib.Data.Bool.Basic
import NixMark.Lib.Lts

/-!
# The files of a network interface (`port/netif.c`)

`A` are the addresses of the interface, `U` the names of users. A message is given as it is parsed.

* `Netfile`, `Netaddr`, `Netif`: a conversation, a multicast address, the interface.
* `openfile`, `netown`, `netifopen`, `netmulti`, `netifwrite`, `netifclose`: the functions of the
  source.
* `netif`: all sequences of opens, messages and closes.
-/

namespace NixMark.Nif

open Lib

/-- `maddr` is the bit map, of `8 * sizeof maddr` bits. -/
structure Netfile (U : Type) where
  inuse : Int
  mode : Nat
  owner : Option U
  type : Int
  prom : Int
  scan : Int
  bridge : Int
  headersonly : Int
  maddr : Nat → Bool
  nmaddr : Int

/-- The bits of `maddr`. -/
def NBITS : Nat := 64

structure Netaddr (A : Type) where
  addr : A
  ref : Int

/-- `multicast`: the device has the routine; `receives`: what it was told last of an address. -/
structure Netif (U A : Type) where
  nfile : Nat
  f : Nat → Option (Netfile U)
  maddr : List (Netaddr A)
  nmaddr : Int
  prom : Int
  scan : Int
  all : Int
  multicast : Bool
  receives : A → Bool

inductive Error where
  | Enodev
  | Eperm
  | Einuse
  | exhausted
  /-- "bad address" -/
  | badaddr
  /-- "interface does not support multicast" -/
  | nomulti
deriving DecidableEq

/-- A control message, parsed. -/
inductive Ctl (A : Type) where
  | connect (type : Int)
  | promiscuous
  | scanbs (type : Int)
  | bridge
  | headersonly
  /-- `none`: `parseaddr` fails -/
  | addmulti (addr : Option A)
  | remmulti (addr : Option A)
  | other

variable {U A : Type} [DecidableEq U] [DecidableEq A]

/-- What `malloc` gives. -/
def Netfile.zero : Netfile U := ⟨0, 0, none, 0, 0, 0, 0, 0, fun _ => false, 0⟩

def access : Nat → Nat
  | 0 => 0o400
  | 1 => 0o200
  | 2 => 0o600
  | _ => 0o100

/-- `false` when it returns -1 -/
def netown (eve : U) (p : Netfile U) (o : U) (omode : Nat) : Netfile U × Bool :=
  match p.owner with
  | some owner =>
    let mode := if o = owner then p.mode else if o = eve then p.mode <<< 3 else p.mode <<< 6
    let t := access (omode % 4)
    (p, t &&& mode == t)
  | none => ({ p with owner := some o, mode := 0o660 }, true)

namespace Netif

/-- A change of a file. -/
def mod (nif : Netif U A) (id : Nat) (g : Netfile U → Netfile U) : Netif U A :=
  { nif with f := Function.update nif.f id ((nif.f id).map g) }

def setfile (nif : Netif U A) (id : Nat) (f : Netfile U) : Netif U A :=
  { nif with f := Function.update nif.f id (some f) }

/-- The first slot that is empty or not in use. -/
def freefile (nif : Netif U A) : Option Nat :=
  (List.range nif.nfile).find? fun i => (nif.f i).all fun f => f.inuse == 0

/-- `openfile(nif, -1)`; `mem`: `malloc` finds memory -/
def clonefile (nif : Netif U A) (eve user : U) (mem : Bool) : Netif U A × Except Error Nat :=
  match nif.freefile with
  | none => (nif, .error .Enodev)
  | some id =>
    if nif.f id = none ∧ mem = false then (nif, .error .exhausted)
    else
      let f := (nif.f id).getD .zero
      (nif.setfile id (netown eve { f with inuse := 1 } user 0).1, .ok id)

/-- `openfile` of a file that is named -/
def openfile (nif : Netif U A) (id : Nat) : Netif U A × Except Error Nat :=
  match nif.f id with
  | none => (nif, .error .Enodev)
  | some f => (nif.setfile id { f with inuse := f.inuse + 1 }, .ok id)

/-- `netifopen` of `clone`, or of the data or control file of `id` -/
def netifopen (nif : Netif U A) (eve user : U) (id : Option Nat) (omode : Nat) (mem : Bool) :
    Netif U A × Except Error Nat :=
  match id.elim (nif.clonefile eve user mem) nif.openfile with
  | (nif, .error e) => (nif, .error e)
  | (nif, .ok id) =>
    match nif.f id with
    | none => (nif, .error .Enodev)
    | some f =>
      let (f, own) := netown eve f user (omode % 8)
      (nif.setfile id f, if own then .ok id else .error .Eperm)

/-- make sure this type isn't already in use on this device -/
def typeinuse (nif : Netif U A) (type : Int) : Bool :=
  decide (0 < type) && (List.range nif.nfile).any fun i => (nif.f i).any fun f => f.type == type

/-- The place of an address in the list. -/
def index (nif : Netif U A) (addr : A) : Nat := nif.maddr.findIdx fun ap => ap.addr == addr

def tell (nif : Netif U A) (addr : A) (on : Bool) : Netif U A :=
  { nif with receives := Function.update nif.receives addr on }

/-- `f->maddr[i/8] |= 1<<(i%8)` -/
def setbit (nif : Netif U A) (id i : Nat) : Netif U A :=
  if i < NBITS then
    nif.mod id fun f =>
      { f with
        nmaddr := if f.maddr i then f.nmaddr else f.nmaddr + 1
        maddr := Function.update f.maddr i true }
  else nif

/-- `f->maddr[i/8] &= ~(1<<(i%8))` -/
def clearbit (nif : Netif U A) (id i : Nat) : Netif U A :=
  if i < NBITS then
    nif.mod id fun f =>
      { f with
        nmaddr := if f.maddr i then f.nmaddr - 1 else f.nmaddr
        maddr := Function.update f.maddr i false }
  else nif

/-- keep track of multicast addresses -/
def netmulti (nif : Netif U A) (id : Nat) (addr : A) (add : Bool) : Netif U A × Option Error :=
  if nif.multicast = false then (nif, some .nomulti)
  else
    let i := nif.index addr
    match add, nif.maddr[i]? with
    | true, none =>
      let nif : Netif U A := { nif with maddr := nif.maddr ++ [⟨addr, 1⟩], nmaddr := nif.nmaddr + 1 }
      ((nif.tell addr true).setbit id i, none)
    | true, some ap =>
      let nif : Netif U A := { nif with maddr := nif.maddr.set i { ap with ref := ap.ref + 1 } }
      let nif := if ap.ref + 1 = 1 then { nif.tell addr true with nmaddr := nif.nmaddr + 1 } else nif
      (nif.setbit id i, none)
    | false, none => (nif, none)
    | false, some ap =>
      if ap.ref = 0 then (nif, none)
      else
        let nif : Netif U A := { nif with maddr := nif.maddr.set i { ap with ref := ap.ref - 1 } }
        let nif :=
          if ap.ref - 1 = 0 then { nif.tell addr false with nmaddr := nif.nmaddr - 1 } else nif
        (nif.clearbit id i, none)

def netifwrite (nif : Netif U A) (id : Nat) : Ctl A → Netif U A × Option Error
  | .connect type =>
    if nif.typeinuse type then (nif, some .Einuse)
    else
      let nif := nif.mod id fun f => { f with type := type }
      (if type < 0 then { nif with all := nif.all + 1 } else nif, none)
  | .promiscuous =>
    match nif.f id with
    | none => (nif, none)
    | some f =>
      (if f.prom = 0 then { nif.mod id fun f => { f with prom := 1 } with prom := nif.prom + 1 }
      else nif, none)
  | .scanbs type =>
    match nif.f id with
    | none => (nif, none)
    | some f =>
      let type := if type < 5 then 5 else type
      (if f.scan = 0 then { nif.mod id fun f => { f with scan := type } with scan := nif.scan + 1 }
      else nif, none)
  | .bridge => (nif.mod id fun f => { f with bridge := 1 }, none)
  | .headersonly => (nif.mod id fun f => { f with headersonly := 1 }, none)
  | .addmulti none => (nif, some .badaddr)
  | .addmulti (some addr) => nif.netmulti id addr true
  | .remmulti none => (nif, some .badaddr)
  | .remmulti (some addr) => nif.netmulti id addr false
  | .other => (nif, none)

/-- The loop of `netifclose` over the addresses, in which `t` stays 0. -/
def dropmulti (nif : Netif U A) (id : Nat) (l : List (Netaddr A)) : Netif U A :=
  l.foldl (fun nif ap =>
    if (nif.f id).any fun f => f.maddr 0 then (nif.netmulti id ap.addr false).1 else nif) nif

def closeprom (nif : Netif U A) (id : Nat) (f : Netfile U) : Netif U A :=
  if f.prom ≠ 0 then { nif.mod id fun f => { f with prom := 0 } with prom := nif.prom - 1 } else nif

def closescan (nif : Netif U A) (id : Nat) (f : Netfile U) : Netif U A :=
  if f.scan ≠ 0 then
    { nif.mod id fun f => { f with prom := 0, scan := 0 } with scan := nif.scan - 1 }
  else nif

def closemulti (nif : Netif U A) (id : Nat) (f : Netfile U) : Netif U A :=
  if f.nmaddr ≠ 0 then (nif.dropmulti id nif.maddr).mod id fun f => { f with nmaddr := 0 } else nif

def closetype (nif : Netif U A) (f : Netfile U) : Netif U A :=
  if f.type < 0 then { nif with all := nif.all - 1 } else nif

/-- What the last close of a file does. -/
def lastclose (nif : Netif U A) (id : Nat) (f : Netfile U) : Netif U A :=
  ((((nif.closeprom id f).closescan id f).closemulti id f).closetype f).mod id fun f =>
    { f with owner := none, type := 0, bridge := 0, headersonly := 0 }

def netifclose (nif : Netif U A) (id : Nat) : Netif U A :=
  match nif.f id with
  | none => nif
  | some f =>
    let f := { f with inuse := f.inuse - 1 }
    let nif := nif.setfile id f
    if f.inuse = 0 then nif.lastclose id f else nif

end Netif

/-- The interface, with what is opened of it: `chans` are the channels that are open on the data and
the control file of each conversation, `held` the addresses that it has added and not removed. -/
structure Sys (U A : Type) where
  nif : Netif U A
  chans : Nat → Nat
  held : Nat → A → Bool

inductive Event (U A : Type) where
  | open (user : U) (id : Option Nat) (omode : Nat) (mem : Bool)
  | ctl (id : Nat) (msg : Ctl A)
  | close (id : Nat)

namespace Sys

def opens (s : Sys U A) (id : Nat) : Sys U A :=
  { s with chans := Function.update s.chans id (s.chans id + 1) }

/-- The conversation holds the address, or not. -/
def hold (s : Sys U A) (id : Nat) (addr : A) (on : Bool) : Sys U A :=
  { s with held := Function.update s.held id (Function.update (s.held id) addr on) }

def act (s : Sys U A) (eve : U) : Event U A → Option (Sys U A)
  | .open user id omode mem =>
    match s.nif.netifopen eve user id omode mem with
    | (nif, .ok id) => some ({ s with nif := nif }.opens id)
    | (nif, .error _) => some { s with nif := nif }
  | .ctl id msg =>
    if s.chans id = 0 then none
    else
      match s.nif.netifwrite id msg with
      | (nif, some _) => some { s with nif := nif }
      | (nif, none) =>
        match msg with
        | .addmulti (some addr) => some ({ s with nif := nif }.hold id addr true)
        | .remmulti (some addr) => some ({ s with nif := nif }.hold id addr false)
        | _ => some { s with nif := nif }
  | .close id =>
    if s.chans id = 0 then none
    else
      some
        { nif := s.nif.netifclose id
          chans := Function.update s.chans id (s.chans id - 1)
          held := if s.chans id = 1 then Function.update s.held id fun _ => false else s.held }

end Sys

/-- All sequences of operations on an interface as `netifinit` leaves it. -/
def netif (U A : Type) [DecidableEq U] [DecidableEq A] (eve : U) : Lts (Sys U A) (Event U A) where
  init s := (∀ i, s.nif.f i = none) ∧ s.nif.maddr = [] ∧ s.nif.nmaddr = 0 ∧ s.nif.prom = 0 ∧
    s.nif.scan = 0 ∧ s.nif.all = 0 ∧ (∀ a, s.nif.receives a = false) ∧ (∀ i, s.chans i = 0) ∧
    ∀ i a, s.held i a = false
  step s e s' := s.act eve e = some s'

end NixMark.Nif
