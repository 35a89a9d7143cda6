import NixMark.Ares.Cache
import NixMark.Lib.Lts

/-!
# The callers of the cache and `rxmitproc`

Any number of processes call `arpget`, `arpresolve`, `arpenter` and `arpwrite`; one runs `rxmitsols`.
What is done between `qlock(arp)` and `qunlock(arp)` in one function is one step; `arpget` may return
with the cache locked. A call that `bwrite`, `icmpns` or `icmphostunr` makes into the cache is a call
of another process here.

* `Sys`: the cache, the locks, and for each block how often it was given to `arpget` to be queued,
  sent and freed.
* `Act`: the calls; `Sys.act`, `Sys.rxact`: what they do.
-/

namespace NixMark.Ares

open Lib Ip

/-- The next statement of a caller. -/
inductive Pc (I B : Type) where
  | idle
  /-- `arpget` has returned the entry, with the cache locked -/
  | got (a : Nat)
  /-- the loop of `arpenter` that writes what has waited -/
  | write (ifc : I) (bps : List B)
  /-- in `bwrite`, with the interface locked -/
  | bwrite (ifc : I) (bp : B) (bps : List B)

/-- The next statement of `rxmitproc`. -/
inductive Rx (I B : Type) where
  | idle
  /-- `icmpns`, with the interface locked -/
  | send (a : Nat) (ifc : I)
  /-- `icmphostunr` of each block -/
  | drops (ifc : Option I) (xp : List B)
  /-- an error has ended the process -/
  | hangup
  /-- it is stopped by an assertion or a nil pointer -/
  | fault

def Pc.blocks {I B : Type} : Pc I B → List B
  | .write _ bps => bps
  | .bwrite _ bp bps => bp :: bps
  | _ => []

def Rx.blocks {I B : Type} : Rx I B → List B
  | .drops _ xp => xp
  | _ => []

structure Sys (P I M B : Type) where
  arp : Arp I M B
  lock : Int
  readers : I → Int
  pc : P → Pc I B
  rx : Rx I B
  given : B → Nat
  sent : B → Nat
  freed : B → Nat

/-- A call, or the next statement. -/
inductive Act (I M B : Type) where
  | arpget (bp : Option B) (dest : Dest) (ifc : I)
  | arprelease
  | arpresolve (type : M) (mac : List UInt8)
  | arpenter (dest : Dest) (route : Option I) (mac : List UInt8) (n : Nat) (refresh : Bool)
  | flush
  | del (ip : IPaddr)
  /-- the next statement; with an error or not -/
  | go (err : Bool)

variable {P I M B : Type} [DecidableEq P] [DecidableEq I] [DecidableEq M] [DecidableEq B]

namespace Sys

/-- `qlock(arp)` -/
def qlock (s : Sys P I M B) : Option (Sys P I M B) :=
  if s.lock = 0 then some { s with lock := 1 } else none

def qunlock (s : Sys P I M B) : Sys P I M B := { s with lock := s.lock - 1 }

def rlock (s : Sys P I M B) (ifc : I) : Sys P I M B :=
  { s with readers := Function.update s.readers ifc (s.readers ifc + 1) }

def runlock (s : Sys P I M B) (ifc : I) : Sys P I M B :=
  { s with readers := Function.update s.readers ifc (s.readers ifc - 1) }

def goto (s : Sys P I M B) (p : P) (k : Pc I B) : Sys P I M B :=
  { s with pc := Function.update s.pc p k }

def setarp (s : Sys P I M B) (t : Arp I M B) : Sys P I M B := { s with arp := t }

def give (s : Sys P I M B) (l : List B) : Sys P I M B :=
  { s with given := fun b => s.given b + l.count b }

def send (s : Sys P I M B) (l : List B) : Sys P I M B :=
  { s with sent := fun b => s.sent b + l.count b }

def free (s : Sys P I M B) (l : List B) : Sys P I M B :=
  { s with freed := fun b => s.freed b + l.count b }

/-- A call of `p`, or its next statement. -/
def act (s : Sys P I M B) (w : World I M) (p : P) : Act I M B → Option (Sys P I M B)
  | .arpget bp dest ifc =>
    match s.pc p with
    | .idle =>
      s.qlock.map fun s =>
        match s.arp.arpget w bp dest ifc with
        | (t, .wait a, freed) => (((s.setarp t).free freed).give bp.toList).goto p (.got a)
        | (t, .mac _, freed) => ((s.setarp t).free freed).qunlock
    | _ => none
  | .arprelease =>
    match s.pc p with
    | .got _ => some (s.qunlock.goto p .idle)
    | _ => none
  | .arpresolve type mac =>
    match s.pc p with
    | .got a =>
      let (t, bp) := s.arp.arpresolve w a type mac
      some ((((s.setarp t).send bp).qunlock).goto p .idle)
    | _ => none
  | .arpenter dest route mac n refresh =>
    match s.pc p with
    | .idle =>
      s.qlock.map fun s =>
        let (t, bp, freed) := s.arp.arpenter w dest route mac n refresh
        let s := ((s.setarp t).free freed).qunlock
        match route with
        | some ifc => s.goto p (.write ifc bp)
        | none => s
    | _ => none
  | .flush =>
    match s.pc p with
    | .idle =>
      s.qlock.map fun s =>
        let (t, freed) := s.arp.flush
        ((s.setarp t).free freed).qunlock
    | _ => none
  | .del ip =>
    match s.pc p with
    | .idle => s.qlock.map fun s => (s.setarp (s.arp.del ip)).qunlock
    | _ => none
  | .go err =>
    match s.pc p with
    | .write _ [] => some (s.goto p .idle)
    | .write ifc (bp :: bps) => some ((s.rlock ifc).goto p (.bwrite ifc bp bps))
    | .bwrite ifc bp bps =>
      if w.medium ifc = none then some (((s.free [bp]).runlock ifc).goto p (.write ifc bps))
      else
        -- the error handler unlocks the interface
        some (((s.send [bp]).runlock ifc).goto p (if err then .idle else .write ifc bps))
    | _ => none

/-- `dodrops` -/
def dodrops (s : Sys P I M B) (ifc : Option I) : Sys P I M B :=
  let (t, xp) := s.arp.takedrops
  { (s.setarp t).qunlock with rx := .drops ifc xp }

/-- The next statement of `rxmitproc`. -/
def rxact (s : Sys P I M B) (w : World I M) (err : Bool) : Option (Sys P I M B) :=
  match s.rx with
  | .idle =>
    s.qlock.map fun s =>
      let (t, first, taken) := s.arp.rxmitfirst w
      let s := taken.foldl rlock (s.setarp t)
      match first with
      | .drops ifc => s.dodrops ifc
      | .send a ifc => { (s.rlock ifc).qunlock with rx := .send a ifc }
      | .fault => { s with rx := .fault }
  | .send a ifc =>
    if err then some { s with rx := .hangup }
    else
      (s.runlock ifc).qlock.map fun s => (s.setarp (s.arp.rxmitagain w a)).dodrops (some ifc)
  | .drops _ [] => some { s with rx := .idle }
  | .drops none (_ :: _) => some { s with rx := .fault }
  | .drops (some ifc) (bp :: xp) => some { s.free [bp] with rx := .drops (some ifc) xp }
  | .hangup | .fault => none

/-- The block is nowhere in the cache or on its way. -/
def Away (s : Sys P I M B) (b : B) : Prop :=
  (∀ a, b ∉ (s.arp.cache a).hold) ∧ b ∉ s.arp.dropf ∧ (∀ p, b ∉ (s.pc p).blocks) ∧ b ∉ s.rx.blocks

end Sys

/-- Who steps: a process with a call, or `rxmitproc`. -/
inductive Event (P I M B : Type) where
  | call (p : P) (w : World I M) (act : Act I M B)
  | rxmit (w : World I M) (err : Bool)

/-- What a cache is after `smalloc`. -/
def Arp.Zero (t : Arp I M B) : Prop :=
  (∀ a, (t.cache a).ip = IPnoaddr ∧ (t.cache a).hold = [] ∧ (t.cache a).state = .UNUSED ∧
    (t.cache a).utime = 0 ∧ (t.cache a).type = none ∧ (t.cache a).ifc = none) ∧
  (∀ a, t.link a = none) ∧ (∀ a, t.nextrxt a = none) ∧ (∀ k, t.hash k = none) ∧
    t.rxmt = none ∧ t.dropf = [] ∧ t.dropl = none

/-- All interleavings, from an empty cache. A process that calls `arpget` has the block. -/
def resolution (P I M B : Type) [DecidableEq P] [DecidableEq I] [DecidableEq M] [DecidableEq B] :
    Lts (Sys P I M B) (Event P I M B) where
  init s := s.arp.Zero ∧ s.lock = 0 ∧ (∀ i, s.readers i = 0) ∧ (∀ p, s.pc p = .idle) ∧
    s.rx = .idle ∧ (∀ b, s.given b = 0) ∧ (∀ b, s.sent b = 0) ∧ ∀ b, s.freed b = 0
  step s e s' :=
    match e with
    | .call p w act => s.act w p act = some s' ∧
      ∀ bp dest ifc, act = .arpget (some bp) dest ifc → s.Away bp
    | .rxmit w err => s.rxact w err = some s'

end NixMark.Ares
