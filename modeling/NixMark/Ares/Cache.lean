import NixMark.Ip.Addr
import NixMark.Lib.Queues

/-!
# The cache of address resolution (`ip/arp.c`)

The functions that run with the cache locked. An entry is given by its index in `cache`; its links
on the hash chain and on the retransmission list are kept apart from the rest of it. A list of blocks
that is linked through `list` is a list here.

* `Arpent`, `Arp`: an entry and the cache. `World`: what the functions read elsewhere.
* `newarp6`, `cleanarpent`, `arpget`, `arpresolve`, `arpenter`: the functions of the source.
* `flush`, `del`: the commands of `arpwrite`, once parsed; `add` is `arpenter`.
* `rxmitfirst`, `rxmitagain`, `takedrops`: the parts of `rxmitsols`.
-/

namespace NixMark.Ares

open Lib Ip

def NHASH : Nat := 64
def NCACHE : Nat := 256

/-- milliseconds -/
def ReTransTimer : UInt32 := 1000

def MAX_MULTICAST_SOLICIT : UInt8 := 3

/-! ## Addresses -/

def byte (ip : IPaddr) (i : Nat) : UInt8 := ip.toList.getD i 0

def v4prefix : List UInt8 := [0, 0, 0, 0, 0, 0, 0, 0, 0, 0, 0xff, 0xff]

def isv4 (ip : IPaddr) : Bool := ip.toList.take 12 == v4prefix

def v4tov6 (a b c d : UInt8) : IPaddr :=
  Vector.ofFn fun i => [0, 0, 0, 0, 0, 0, 0, 0, 0, 0, 0xff, 0xff, a, b, c, d].getD i 0

def ipismulticast (ip : IPaddr) : Bool :=
  if isv4 ip then 0xe0 ≤ byte ip 12 && byte ip 12 < 0xf0 else byte ip 0 == 0xff

def haship (ip : IPaddr) : Nat := (byte ip 15).toNat % NHASH

/-- An address with the version that a call gives. -/
inductive Dest where
  | V4 (a b c d : UInt8)
  | V6 (ip : IPaddr)

def Dest.ip : Dest → IPaddr
  | .V4 a b c d => v4tov6 a b c d
  | .V6 ip => ip

def Dest.isV6 : Dest → Bool
  | .V4 .. => false
  | .V6 _ => true

/-! ## Entries -/

inductive State where
  | UNUSED
  | AOK
  | AWAIT
deriving DecidableEq

/-- `hold` has the packets from `hold` to `last`. -/
structure Arpent (I M B : Type) where
  ip : IPaddr
  mac : List UInt8
  type : Option M
  hold : List B
  ctime : UInt32
  utime : UInt32
  state : State
  rtime : UInt32
  rxtsrem : UInt8
  ifc : Option I
  ifcid : UInt8

/-- `link` is `a->hash`. -/
structure Arp (I M B : Type) where
  cache : Nat → Arpent I M B
  link : Nat → Option Nat
  nextrxt : Nat → Option Nat
  hash : Nat → Option Nat
  rxmt : Option Nat
  dropf : List B
  dropl : Option B

/-- The time, and what the interfaces and media are. -/
structure World (I M : Type) where
  now : UInt32
  medium : I → Option M
  ifcid : I → UInt8
  canrlock : I → Bool
  maclen : M → Nat

variable {I M B : Type} [DecidableEq M] [DecidableEq B]

namespace Arp

/-- A change of an entry. -/
def mod (t : Arp I M B) (a : Nat) (f : Arpent I M B → Arpent I M B) : Arp I M B :=
  { t with cache := Function.update t.cache a (f (t.cache a)) }

/-- find oldest entry -/
def oldest (t : Arp I M B) : Nat :=
  (List.range NCACHE).foldl
    (fun a f => if (t.cache f).utime < (t.cache a).utime then f else a) 0

/-- take out of current chain -/
def unhash (t : Arp I M B) (a : Nat) : Arp I M B :=
  let k := haship (t.cache a).ip
  match walk t.link (fun f => f == a) NCACHE none (t.hash k) with
  | (l, some _) =>
    { t with link := relink t.link l (t.link a), hash := rehead t.hash k l (t.link a) }
  | (_, none) => t

/-- insert into new chain -/
def inhash (t : Arp I M B) (a k : Nat) : Arp I M B :=
  { t with link := Function.update t.link a (t.hash k), hash := Function.update t.hash k (some a) }

/-- take out of re-transmit chain -/
def unrxt (t : Arp I M B) (a : Nat) : Arp I M B :=
  match walk t.nextrxt (fun f => f == a) NCACHE none t.rxmt with
  | (l, some _) =>
    { t with
      nextrxt := relink t.nextrxt l (t.nextrxt a)
      rxmt := rehead (fun _ => t.rxmt) () l (t.nextrxt a) () }
  | (_, none) => t

/-- put to the end of re-transmit chain, where it is not -/
def addrxt (t : Arp I M B) (a : Nat) : Arp I M B :=
  let l := (walk t.nextrxt (fun _ => false) NCACHE none t.rxmt).1
  { t with
    nextrxt := relink t.nextrxt l (some a)
    rxmt := rehead (fun _ => t.rxmt) () l (some a) () }

def endrxt (t : Arp I M B) (a : Nat) : Arp I M B :=
  { t with nextrxt := Function.update t.nextrxt a none }

/-- `dropl->list = xp`, or `dropf = xp` when there is no `dropl` -/
def hang (t : Arp I M B) (xp : List B) : Arp I M B :=
  match t.dropl with
  | none => { t with dropf := xp }
  | some d =>
    if d ∈ t.dropf then { t with dropf := t.dropf.takeWhile (· ≠ d) ++ d :: xp } else t

/-- dump waiting packets: the blocks that are freed -/
def dump (t : Arp I M B) (a : Nat) : Arp I M B × List B :=
  let xp := (t.cache a).hold
  let ip := (t.cache a).ip
  let t := t.mod a fun x => { x with hold := [] }
  if isv4 ip then (t, xp)
  else if xp = [] then (t, [])
  else ({ t.hang xp with dropl := xp.getLast? }, [])

/-- create a new arp entry for an ip address -/
def newarp6 (t : Arp I M B) (w : World I M) (ip : IPaddr) (ifc : I) (addrxt : Bool) :
    Arp I M B × Nat × List B :=
  let a := t.oldest
  let (t, freed) := t.dump a
  let t := (t.unhash a).inhash a (haship ip)
  let t := t.mod a fun x =>
    { x with
      ip := ip
      utime := w.now
      ctime := 0
      type := w.medium ifc
      rtime := w.now + ReTransTimer
      rxtsrem := MAX_MULTICAST_SOLICIT
      ifc := some ifc
      ifcid := w.ifcid ifc }
  let t := if !ipismulticast ip && addrxt then (t.unrxt a).addrxt a else t
  (t.endrxt a, a, freed)

def cleanarpent (t : Arp I M B) (a : Nat) : Arp I M B :=
  let t := t.mod a fun x => { x with utime := 0, ctime := 0, type := none, state := .UNUSED }
  let t := ((t.unhash a).unrxt a).endrxt a
  let t := { t with link := Function.update t.link a none }
  t.mod a fun x => { x with hold := [], ifc := none }

/-- The entry of an address on its hash chain. -/
def find (t : Arp I M B) (ip : IPaddr) (test : Arpent I M B → Bool) : Option Nat :=
  (walk t.link (fun f => (t.cache f).ip == ip && test (t.cache f)) NCACHE none
    (t.hash (haship ip))).2

/-- What `arpget` returns: an entry, with the cache locked, or the media address. -/
inductive Got where
  | wait (a : Nat)
  | mac (m : List UInt8)

def arpget (t : Arp I M B) (w : World I M) (bp : Option B) (dest : Dest) (ifc : I) :
    Arp I M B × Got × List B :=
  let type := w.medium ifc
  let (t, a, freed) :=
    match t.find dest.ip fun x => decide (type = x.type) with
    | some a => (t, a, [])
    | none =>
      let (t, a, freed) := t.newarp6 w dest.ip ifc dest.isV6
      (t.mod a fun x => { x with state := .AWAIT }, a, freed)
  let t := t.mod a fun x => { x with utime := w.now }
  if (t.cache a).state = .AWAIT then
    (t.mod a fun x => { x with hold := x.hold ++ bp.toList }, .wait a, freed)
  else
    let mac := (t.cache a).mac.take ((t.cache a).type.elim 0 w.maclen)
    let t := if 15 * 60 * 1000 < w.now - (t.cache a).ctime then t.cleanarpent a else t
    (t, .mac mac, freed)

/-- `memmove(a->mac, mac, n)` -/
def setmac (old mac : List UInt8) (n : Nat) : List UInt8 := mac.take n ++ old.drop n

/-- The blocks that wait are returned. -/
def arpresolve (t : Arp I M B) (w : World I M) (a : Nat) (type : M) (mac : List UInt8) :
    Arp I M B × List B :=
  let bp := (t.cache a).hold
  let t := if isv4 (t.cache a).ip then t else t.unrxt a
  (t.mod a fun x =>
    { x with
      mac := setmac x.mac mac (w.maclen type)
      type := some type
      state := .AOK
      utime := w.now
      hold := [] }, bp)

/-- The blocks to be sent are returned, and those that are freed. -/
def arpenter (t : Arp I M B) (w : World I M) (dest : Dest) (route : Option I) (mac : List UInt8)
    (n : Nat) (refresh : Bool) : Arp I M B × List B × List B :=
  if n ≠ 6 then (t, [], [])
  else
    match route with
    | none => (t, [], [])
    | some ifc =>
      let type := w.medium ifc
      let len := type.elim 0 w.maclen
      match t.find dest.ip fun x => decide (x.type = type ∧ x.state ≠ .UNUSED) with
      | some a =>
        let bp := (t.cache a).hold
        let t := t.mod a fun x => { x with state := .AOK, mac := setmac x.mac mac len }
        let t := if dest.isV6 then t.unrxt a else t
        (t.mod a fun x =>
          { x with
            ifc := some ifc
            ifcid := w.ifcid ifc
            hold := []
            utime := w.now
            ctime := w.now }, bp, [])
      | none =>
        if refresh then (t, [], [])
        else
          let (t, a, freed) := t.newarp6 w dest.ip ifc false
          (t.mod a fun x =>
            { x with
              state := .AOK
              type := type
              ctime := w.now
              mac := setmac x.mac mac len }, [], freed)

/-- The blocks that are freed are returned. -/
def flush (t : Arp I M B) : Arp I M B × List B :=
  ({ t with
      cache := fun a =>
        { t.cache a with
          ip := IPnoaddr
          mac := (t.cache a).mac.map fun _ => 0
          state := .UNUSED
          utime := 0
          hold := [] }
      link := fun _ => none
      hash := fun _ => none
      rxmt := none
      dropf := []
      dropl := none },
    (List.range NCACHE).flatMap fun a => (t.cache a).hold)

def del (t : Arp I M B) (ip : IPaddr) : Arp I M B :=
  let k := haship ip
  match walk t.link (fun f => (t.cache f).ip == ip) NCACHE none (t.hash k) with
  | (l, some a) =>
    let t := { t with link := relink t.link l (t.link a), hash := rehead t.hash k l (t.link a) }
    let t := (t.unrxt a).endrxt a
    let t := { t with link := Function.update t.link a none }
    t.mod a fun x =>
      { x with hold := [], ifc := none, ip := IPnoaddr, mac := x.mac.map fun _ => 0 }
  | (_, none) => t

/-- Where the first part of `rxmitsols` ends. -/
inductive First (I : Type) where
  /-- `goto dodrops` -/
  | drops (ifc : Option I)
  /-- a solicitation is to be sent for the entry, with the interface locked -/
  | send (a : Nat) (ifc : I)
  /-- the assertion fails -/
  | fault

/-- The loop of `rxmitsols`, from the entry `a`. `taken` are the interfaces that stay locked. -/
def rxmitloop (w : World I M) : Nat → Arp I M B → Option Nat → Option I → List I →
    Arp I M B × First I × List I
  | 0, t, _, ifc, taken => (t, .drops ifc, taken)
  | _ + 1, t, none, ifc, taken => (t, .drops ifc, taken)
  | fuel + 1, t, some a, _, taken =>
    match (t.cache a).ifc with
    | none => (t, .fault, taken)
    | some ifc =>
      let locked := (t.cache a).rxtsrem ≠ 0 ∧ w.canrlock ifc
      if locked ∧ (t.cache a).ifcid = w.ifcid ifc then (t, .send a ifc, taken)
      else
        let taken := if locked then ifc :: taken else taken
        let xp := (t.cache a).hold
        let t := t.mod a fun x => { x with hold := [] }
        let t := if xp = [] then t else t.hang xp
        let t := t.cleanarpent a
        rxmitloop w fuel t (t.nextrxt a) (some ifc) taken

/-- `rxmitsols` until the cache is unlocked or the drops are taken. -/
def rxmitfirst (t : Arp I M B) (w : World I M) : Arp I M B × First I × List I :=
  match t.rxmt with
  | none => (t, .drops none, [])
  | some a =>
    if (3 * ReTransTimer / 4).toInt32 < ((t.cache a).rtime - w.now).toInt32 then
      (t, .drops none, [])
    else rxmitloop w (NCACHE + 1) t (some a) none []

/-- put to the end of re-transmit chain -/
def rxmitagain (t : Arp I M B) (w : World I M) (a : Nat) : Arp I M B :=
  (((t.unrxt a).addrxt a).mod a fun x =>
    { x with rxtsrem := x.rxtsrem - 1, rtime := w.now + ReTransTimer }).endrxt a

def takedrops (t : Arp I M B) : Arp I M B × List B :=
  ({ t with dropf := [], dropl := none }, t.dropf)

end Arp

end NixMark.Ares
