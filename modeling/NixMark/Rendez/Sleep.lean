import NixMark.Lib.Lts
import NixMark.Runq.Queue

/-!
# Sleep and wakeup (`sleep`, `wakeup` and `postnote` of `port/proc.c`)

Any number of processes. A process sleeps on a `Rendez` until its condition holds; `wakeup` looks
for it through `r->p`, and `postnote` for the `Rendez` through `p->r`. A step is one statement; the
locks of the `Rendez` and `p->rlock` are spin locks. An interrupt is a process that never sleeps.

* `Sys.go`: the next statement of a process.
* `Sys.call`: the calls. `set` changes the condition of a `Rendez`; a process that makes it true
  owes a `wakeup` (`Duty`).

Of `ready` this model has the state that it sets. The text of a note and the links of the processes
that wait in `rendezvous` are left out.
-/

namespace NixMark.Rendez

open Runq (State)

/-- The statements of `sleep`. -/
inductive Sleep where
  /-- `lock(r)` -/
  | lockr
  /-- `lock(&up->rlock)` -/
  | lockp
  /-- `r->p = up` -/
  | setp
  /-- `(*f)(arg)` -/
  | test
  /-- `up->notepending` -/
  | note
  /-- `r->p = nil`: never mind -/
  | nevermind
  | neverp
  | neverr
  /-- `up->state = Wakeme` -/
  | commit
  /-- `up->r = r` -/
  | setr
  | unlockp
  | unlockr
  /-- `gotolabel(&m->sched)` -/
  | asleep
  /-- `if(up->notepending)` -/
  | awake
deriving DecidableEq

/-- The statements of `wakeup`, with `p`. -/
inductive Wakeup (P : Type) where
  /-- `lock(r)` -/
  | lock
  /-- `p = r->p` -/
  | read
  /-- `lock(&p->rlock)` -/
  | lockp (p : P)
  /-- `if(p->state != Wakeme || p->r != r)` -/
  | check (p : P)
  /-- `r->p = nil` -/
  | clrp (p : P)
  /-- `p->r = nil` -/
  | clrr (p : P)
  | ready (p : P)
  | unlockp (p : P)
  | unlock
deriving DecidableEq

/-- The statements of `postnote`, with `r`. -/
inductive Postnote (R : Type) where
  /-- `p->notepending = 1` -/
  | set
  /-- `lock(&p->rlock)` -/
  | lockp
  /-- `r = p->r` -/
  | read
  /-- `if(canlock(r))` -/
  | canlock (r : R)
  /-- `if(p->state != Wakeme || r->p != p)` -/
  | check (r : R)
  /-- `p->r = nil` -/
  | clrr (r : R)
  /-- `r->p = nil` -/
  | clrp (r : R)
  | ready (r : R)
  /-- `unlock(r)` -/
  | unlock (r : R)
  /-- `unlock(&p->rlock)` before the next try -/
  | again
  /-- `unlock(&p->rlock)` at the end of the loop -/
  | unlockp
  /-- `if(p->state == Rendezvous)`, with `p->rgrp` locked -/
  | rendezvous
deriving DecidableEq

inductive Pc (P R : Type) where
  | idle
  | panic
  /-- Waiting in `rendezvous`. -/
  | rendezvous
  | sleep (r : R) (k : Sleep)
  | wakeup (r : R) (k : Wakeup P)
  | postnote (p : P) (k : Postnote R)
deriving DecidableEq

/-- Whether a process made a condition true since it was last false, and the `wakeup` after it. -/
inductive Duty where
  | none
  | owed
  | done
deriving DecidableEq

/-- `nsleep` and `nready` count the sleeps and the calls of `ready` that end them. -/
structure Sys (P R : Type) where
  lock : R → Option P
  rlock : P → Option P
  rp : R → Option P
  pr : P → Option R
  state : P → State
  notepending : P → Bool
  cond : R → Bool
  pc : P → Pc P R
  nsleep : P → Nat
  nready : P → Nat
  duty : P → R → Duty

variable {P R : Type} [DecidableEq P] [DecidableEq R]

namespace Sys

def goto (s : Sys P R) (t : P) (k : Pc P R) : Sys P R :=
  { s with pc := Function.update s.pc t k }

def setlock (s : Sys P R) (r : R) (t : Option P) : Sys P R :=
  { s with lock := Function.update s.lock r t }

def setrlock (s : Sys P R) (p : P) (t : Option P) : Sys P R :=
  { s with rlock := Function.update s.rlock p t }

def setp (s : Sys P R) (r : R) (p : Option P) : Sys P R := { s with rp := Function.update s.rp r p }

def setr (s : Sys P R) (p : P) (r : Option R) : Sys P R := { s with pr := Function.update s.pr p r }

def setstate (s : Sys P R) (p : P) (st : State) : Sys P R :=
  { s with state := Function.update s.state p st }

def setnote (s : Sys P R) (p : P) (b : Bool) : Sys P R :=
  { s with notepending := Function.update s.notepending p b }

/-- A process goes to sleep. -/
def commit (s : Sys P R) (t : P) : Sys P R :=
  { s.setstate t .Wakeme with nsleep := Function.update s.nsleep t (s.nsleep t + 1) }

/-- `ready(p)`, which ends a sleep -/
def ready (s : Sys P R) (p : P) : Sys P R :=
  { s.setstate p .Ready with nready := Function.update s.nready p (s.nready p + 1) }

/-- The process did the `wakeup` that it owed. -/
def done (s : Sys P R) (t : P) (r : R) : Sys P R :=
  { s with duty := fun q r' => if q = t ∧ r' = r ∧ s.duty q r' = .owed then .done else s.duty q r' }

/-- The condition gets true, unless it was. -/
def owe (s : Sys P R) (t : P) (r : R) : Sys P R :=
  { s with
    cond := Function.update s.cond r true
    duty := fun q r' => if q = t ∧ r' = r ∧ s.duty q r' = .none then .owed else s.duty q r' }

def unset (s : Sys P R) (r : R) : Sys P R :=
  { s with
    cond := Function.update s.cond r false
    duty := fun q r' => if r' = r then .none else s.duty q r' }

/-- `lock(l)`: nothing is done until the lock is free. -/
def sleep (s : Sys P R) (t : P) (r : R) : Sleep → Option (Sys P R)
  | .lockr =>
    if s.lock r = none then some ((s.setlock r (some t)).goto t (.sleep r .lockp)) else none
  | .lockp =>
    if s.rlock t = none then some ((s.setrlock t (some t)).goto t (.sleep r .setp)) else none
  | .setp => some ((s.setp r (some t)).goto t (.sleep r .test))
  | .test => some (s.goto t (.sleep r (if s.cond r then .nevermind else .note)))
  | .note => some (s.goto t (.sleep r (if s.notepending t then .nevermind else .commit)))
  | .nevermind => some ((s.setp r none).goto t (.sleep r .neverp))
  | .neverp => some ((s.setrlock t none).goto t (.sleep r .neverr))
  | .neverr => some ((s.setlock r none).goto t (.sleep r .awake))
  | .commit => some ((s.commit t).goto t (.sleep r .setr))
  | .setr => some ((s.setr t (some r)).goto t (.sleep r .unlockp))
  | .unlockp => some ((s.setrlock t none).goto t (.sleep r .unlockr))
  | .unlockr => some ((s.setlock r none).goto t (.sleep r .asleep))
  | .asleep => if s.state t = .Running then some (s.goto t (.sleep r .awake)) else none
  | .awake => some ((s.setnote t false).goto t .idle)

def wakeup (s : Sys P R) (t : P) (r : R) : Wakeup P → Option (Sys P R)
  | .lock => if s.lock r = none then some ((s.setlock r (some t)).goto t (.wakeup r .read)) else none
  | .read =>
    match s.rp r with
    | none => some (s.goto t (.wakeup r .unlock))
    | some p => some (s.goto t (.wakeup r (.lockp p)))
  | .lockp p =>
    if s.rlock p = none then some ((s.setrlock p (some t)).goto t (.wakeup r (.check p))) else none
  | .check p =>
    some (s.goto t (if s.state p ≠ .Wakeme ∨ s.pr p ≠ some r then .panic else .wakeup r (.clrp p)))
  | .clrp p => some ((s.setp r none).goto t (.wakeup r (.clrr p)))
  | .clrr p => some ((s.setr p none).goto t (.wakeup r (.ready p)))
  | .ready p => some ((s.ready p).goto t (.wakeup r (.unlockp p)))
  | .unlockp p => some ((s.setrlock p none).goto t (.wakeup r .unlock))
  | .unlock => some (((s.setlock r none).done t r).goto t .idle)

def postnote (s : Sys P R) (t : P) (p : P) : Postnote R → Option (Sys P R)
  | .set => some ((s.setnote p true).goto t (.postnote p .lockp))
  | .lockp =>
    if s.rlock p = none then some ((s.setrlock p (some t)).goto t (.postnote p .read)) else none
  | .read =>
    match s.pr p with
    | none => some (s.goto t (.postnote p .unlockp))
    | some r => some (s.goto t (.postnote p (.canlock r)))
  | .canlock r =>
    if s.lock r = none then some ((s.setlock r (some t)).goto t (.postnote p (.check r)))
    else some (s.goto t (.postnote p .again))
  | .check r =>
    some (s.goto t (if s.state p ≠ .Wakeme ∨ s.rp r ≠ some p then .panic else .postnote p (.clrr r)))
  | .clrr r => some ((s.setr p none).goto t (.postnote p (.clrp r)))
  | .clrp r => some ((s.setp r none).goto t (.postnote p (.ready r)))
  | .ready r => some ((s.ready p).goto t (.postnote p (.unlock r)))
  | .unlock r => some ((s.setlock r none).goto t (.postnote p .unlockp))
  | .again => some ((s.setrlock p none).goto t (.postnote p .lockp))
  | .unlockp => some ((s.setrlock p none).goto t (.postnote p .rendezvous))
  | .rendezvous =>
    let s := if s.state p = .Rendezvous then s.setstate p .Ready else s
    some (s.goto t .idle)

/-- The next statement of the process, unless it is on a run queue. -/
def go (s : Sys P R) (t : P) : Option (Sys P R) :=
  if s.state t = .Ready then none
  else
    match s.pc t with
    | .idle | .panic => none
    | .rendezvous => if s.state t = .Running then some (s.goto t .idle) else none
    | .sleep r k => s.sleep t r k
    | .wakeup r k => s.wakeup t r k
    | .postnote p k => s.postnote t p k

end Sys

inductive Call (P R : Type) where
  | sleep (r : R)
  | wakeup (r : R)
  | postnote (p : P)
  | set (r : R) (b : Bool)
  | rendezvous

/-- `meet`: another process comes to the rendezvous. -/
inductive Act (P R : Type) where
  | call (t : P) (c : Call P R)
  | go (t : P)
  | dispatch (t : P)
  | preempt (t : P)
  | meet (p : P)

def Sys.call (s : Sys P R) (t : P) : Call P R → Sys P R
  | .sleep r => s.goto t (.sleep r .lockr)
  | .wakeup r => s.goto t (.wakeup r .lock)
  | .postnote p => s.goto t (.postnote p .set)
  | .set r b => if b then s.owe t r else s.unset r
  | .rendezvous => (s.setstate t .Rendezvous).goto t .rendezvous

def Act.run (s : Sys P R) : Act P R → Option (Sys P R)
  | .call t c => if s.pc t = .idle ∧ s.state t = .Running then some (s.call t c) else none
  | .go t => s.go t
  | .dispatch t => if s.state t = .Ready then some (s.setstate t .Running) else none
  | .preempt t => if s.state t = .Running then some (s.setstate t .Ready) else none
  | .meet p => if s.state p = .Rendezvous then some (s.setstate p .Ready) else none

/-- The process is in a call of `sleep` on `r`. -/
def Pc.sleeps (r : R) : Pc P R → Prop
  | .sleep r' _ => r' = r
  | _ => False

/-- One process sleeps on a `Rendez`. -/
def Act.Legal (s : Sys P R) : Act P R → Prop
  | .call _ (.sleep r) => ∀ q, ¬ (s.pc q).sleeps r
  | _ => True

open Lib in
def kernel (P R : Type) [DecidableEq P] [DecidableEq R] : Lts (Sys P R) (Act P R) where
  init s := (∀ r, s.lock r = none ∧ s.rp r = none ∧ ∀ p, s.duty p r = .none) ∧
    ∀ p, s.rlock p = none ∧ s.pr p = none ∧ s.state p = .Running ∧ s.pc p = .idle ∧
      s.nsleep p = 0 ∧ s.nready p = 0
  step s a s' := a.Legal s ∧ a.run s = some s'

end NixMark.Rendez
