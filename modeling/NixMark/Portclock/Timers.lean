import Mathlib.Algebra.Order.Ring.Nat
import Mathlib.Data.Fintype.Card
import NixMark.Lib.Lts
import NixMark.Lib.Queues

/-!
# Timers (`port/portclock.c`)

Each processor has a list of timers that is sorted by `twhen`; `timerset` says when its next
interrupt comes. A call of `timeradd` or `timerdel` holds the lock of its timer. A section under the
lock of a list is one step; `timerintr` is outside the lock while a callback runs.

* `tadd`, `tdel`: the writes to the lists.
* `timeradd`, `timerdel`, `timerintr`, one section at a time.
* `Act.run`: a processor that has the lock of a timer takes no interrupt; a callback may call what
  it likes.

The callback of a timer without one (`hzclock`) does nothing here. A step has no result where an
assertion fails or the code panics.
-/

namespace NixMark.Portclock

open Lib

inductive Tmode where
  | Trelative
  | Tperiodic
  | other
deriving DecidableEq

def vlong (x : Int) : Int := x.bmod (2 ^ 64)

/-- A call that has the lock of its timer; `tt` is what it read there. -/
inductive Call (M T : Type) where
  /-- `timeradd`, about to delete -/
  | modify (t : T) (tt : Option M)
  /-- `timeradd`, about to add -/
  | add (t : T)
  /-- `timerdel` -/
  | delete (t : T) (tt : Option M)

/-- `intr`: the processor is in `timerintr`, that read the clock, and in a callback of it.
`deleted`: a `timerdel` returned, and no `timeradd` came after it. -/
structure Sys (M T : Type) where
  head : M → Option T
  tnext : T → Option T
  tt : T → Option M
  twhen : T → Int
  tmode : T → Tmode
  tns : T → Int
  lock : T → Option M
  call : M → Option (Call M T)
  intr : M → Option (Int × T)
  timerset : M → Option Int
  deleted : T → Bool

/-- What a section reads from the clock. -/
structure Clock where
  fastticks : Int
  ns2fastticks : Int → Int

variable {M T : Type} [DecidableEq M] [DecidableEq T]

namespace Sys

/-- The loops over a list. -/
def find [Fintype T] (s : Sys M T) (q : M) (test : T → Bool) : Option T × Option T :=
  walk s.tnext test (Fintype.card T) none (s.head q)

/-! ## The lists -/

/-- The new `twhen` of a timer that comes to the list `q`. -/
def settime [Fintype T] (c : Clock) (s : Sys M T) (q : M) (nt : T) : Option Int :=
  match s.tmode nt with
  | .other => none
  | .Trelative =>
    some (vlong (c.fastticks + c.ns2fastticks (if s.tns nt ≤ 0 then 1 else s.tns nt)))
  | .Tperiodic =>
    if s.tns nt < 100000 then none
    else
      let base :=
        if s.twhen nt = 0 then
          match (s.find q fun t => s.tmode t = .Tperiodic ∧ s.tns t = s.tns nt).2 with
          | some t => s.twhen t
          | none => vlong c.fastticks
        else s.twhen nt
      let when := vlong (c.ns2fastticks (s.tns nt))
      some (vlong (base + if when = 0 then 1 else when))

def retime (s : Sys M T) (nt : T) (w : Int) : Sys M T :=
  { s with
    tns := if s.tmode nt = .Trelative ∧ s.tns nt ≤ 0 then Function.update s.tns nt 1 else s.tns
    twhen := Function.update s.twhen nt w }

/-- The timer is put in behind `pos.1`, before `pos.2`. -/
def link (s : Sys M T) (q : M) (nt : T) (pos : Option T × Option T) : Sys M T :=
  { s with
    tnext := relink (Function.update s.tnext nt pos.2) pos.1 (some nt)
    head := rehead s.head q pos.1 (some nt)
    tt := Function.update s.tt nt (some q) }

/-- The timer is taken out behind `prev`. -/
def unlink (s : Sys M T) (q : M) (dt : T) (prev : Option T) : Sys M T :=
  { s with
    tnext := relink s.tnext prev (s.tnext dt)
    head := rehead s.head q prev (s.tnext dt)
    tt := Function.update s.tt dt none }

/-- The result is the new `twhen` if the timer is the first one, and 0 otherwise. -/
def tadd [Fintype T] (c : Clock) (s : Sys M T) (q : M) (nt : T) : Option (Sys M T × Int) :=
  if s.tt nt ≠ none then none
  else
    match s.settime c q nt with
    | none => none
    | some w =>
      let s := s.retime nt w
      let pos := s.find q fun t => w < s.twhen t
      some (s.link q nt pos, if pos.1 = none then w else 0)

def tdel [Fintype T] (s : Sys M T) (dt : T) : Sys M T × Int :=
  match s.tt dt with
  | none => (s, 0)
  | some q =>
    let pos := s.find q fun t => t = dt
    let s := if pos.2 = some dt then s.unlink q dt pos.1 else s
    (s,
      match pos.1, s.head q with
      | none, some t => s.twhen t
      | _, _ => 0)

/-! ## The calls -/

def settimer (s : Sys M T) (m : M) (w : Int) : Sys M T :=
  { s with timerset := Function.update s.timerset m (some w) }

def goto (s : Sys M T) (m : M) (k : Option (Call M T)) : Sys M T :=
  { s with call := Function.update s.call m k }

/-- The call takes the lock of the timer. -/
def ilock (s : Sys M T) (m : M) (t : T) : Sys M T :=
  { s with lock := Function.update s.lock t (some m) }

/-- The call gives the lock back, and returns. -/
def iunlock (s : Sys M T) (m : M) (t : T) : Sys M T :=
  { s with lock := Function.update s.lock t none, call := Function.update s.call m none }

def setdeleted (s : Sys M T) (t : T) (b : Bool) : Sys M T :=
  { s with deleted := Function.update s.deleted t b }

def timeradd (s : Sys M T) (m : M) (nt : T) : Sys M T :=
  ((s.ilock m nt).setdeleted nt false).goto m (some (.modify nt (s.tt nt)))

def timerdel (s : Sys M T) (m : M) (dt : T) : Sys M T :=
  (s.ilock m dt).goto m (some (.delete dt (s.tt dt)))

/-- The section of `timeradd` under the lock of the list that the timer was on. -/
def modify [Fintype T] (s : Sys M T) (m : M) (nt : T) (tt : Option M) : Sys M T :=
  (if tt = none then s else (s.tdel nt).1).goto m (some (.add nt))

/-- The section of `timeradd` under the lock of the processor's list. -/
def add [Fintype T] (c : Clock) (s : Sys M T) (m : M) (nt : T) : Option (Sys M T) :=
  match s.tadd c m nt with
  | none => none
  | some (s, when) => some ((if when = 0 then s else s.settimer m when).iunlock m nt)

/-- The section of `timerdel`. -/
def delete [Fintype T] (s : Sys M T) (m : M) (dt : T) (tt : Option M) : Option (Sys M T) :=
  match tt with
  | none => some ((s.iunlock m dt).setdeleted dt true)
  | some q =>
    let r := s.tdel dt
    if r.2 ≠ 0 ∧ q = m then
      match r.1.head q with
      | none => none
      | some t => some (((r.1.settimer m (r.1.twhen t)).iunlock m dt).setdeleted dt true)
    else some ((r.1.iunlock m dt).setdeleted dt true)

/-! ## The interrupt -/

def setintr (s : Sys M T) (m : M) (k : Option (Int × T)) : Sys M T :=
  { s with intr := Function.update s.intr m k }

/-- The first timer leaves the list. -/
def pop (s : Sys M T) (m : M) (t : T) : Sys M T :=
  { s with
    head := Function.update s.head m (s.tnext t)
    tt := Function.update s.tt t none }

/-- The loop of `timerintr`, up to the next callback or the end. -/
def timerintr (s : Sys M T) (m : M) (now : Int) : Option (Sys M T) :=
  match s.head m with
  | none => some (s.setintr m none)
  | some t =>
    if now < s.twhen t then some ((s.settimer m (s.twhen t)).setintr m none)
    else if s.tt t ≠ some m then none
    else some ((s.pop m t).setintr m (some (now, t)))

/-- The callback of `t` returned. -/
def resume [Fintype T] (c : Clock) (s : Sys M T) (m : M) (now : Int) (t : T) : Option (Sys M T) :=
  if s.tmode t = .Tperiodic then
    match s.tadd c m t with
    | none => none
    | some (s, _) => s.timerintr m now
  else s.timerintr m now

end Sys

inductive Act (M T : Type) where
  /-- The fields of a timer that its user sets. -/
  | set (t : T) (tmode : Tmode) (tns : Int)
  | timeradd (m : M) (t : T)
  | timerdel (m : M) (t : T)
  /-- The next section of a call. -/
  | go (m : M) (c : Clock)
  /-- An interrupt, with `fastticks(nil)`. -/
  | timerintr (m : M) (now : Int)
  /-- The return from a callback. -/
  | resume (m : M) (c : Clock)

def Act.run [Fintype T] (s : Sys M T) : Act M T → Option (Sys M T)
  | .set t mode ns =>
    some { s with tmode := Function.update s.tmode t mode, tns := Function.update s.tns t ns }
  | .timeradd m t =>
    if s.call m = none ∧ s.lock t = none then some (s.timeradd m t) else none
  | .timerdel m t =>
    if s.call m = none ∧ s.lock t = none then some (s.timerdel m t) else none
  | .go m c =>
    match s.call m with
    | none => none
    | some (.modify t tt) => some (s.modify m t tt)
    | some (.add t) => s.add c m t
    | some (.delete t tt) => s.delete m t tt
  | .timerintr m now =>
    if s.call m = none ∧ s.intr m = none then s.timerintr m now else none
  | .resume m c =>
    match s.call m, s.intr m with
    | none, some (now, t) => s.resume c m now t
    | _, _ => none

def kernel (M T : Type) [DecidableEq M] [DecidableEq T] [Fintype T] : Lts (Sys M T) (Act M T) where
  init s := (∀ m, s.head m = none ∧ s.call m = none ∧ s.intr m = none) ∧
    ∀ t, s.tt t = none ∧ s.lock t = none ∧ s.deleted t = false
  step s a s' := a.run s = some s'

end NixMark.Portclock
