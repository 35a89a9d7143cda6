import NixMark.Lib.Fifo
import NixMark.Runq.Queue

/-!
# Readers and writers (`RWlock` of `port/qlock.c`)

Any number of processes. A section under `q->use` is one step; the call of `ready` that some make
after it is another one. Who unlocks hands the lock on: it counts the readers and sets the writer
for the processes that it takes from the queue.

* `rlock`, `canrlock`, `runlock`, `wlock`, `wunlock`: with the processes that join the queue or
  leave it.
* `Act.run`: a process calls only while it runs, and unlocks only what it holds.

The fields that are kept for debugging (`wpc`, `wproc`) and the statistics are left out.
-/

namespace NixMark.Rwlock

open Lib
open Runq (State)

/-- Where a process is; `rwait` and `wwait`: in `sched`. -/
inductive Pc (P : Type) where
  | out
  | rwait
  | wwait
  /-- `ready(p)`, after `unlock(&q->use)` -/
  | readies (p : P)
  | panic
deriving DecidableEq

/-- `reads` and `writes`: how often a process was given the lock to read, and whether to write,
less what it unlocked. -/
structure Sys (P : Type) where
  head : Option P
  tail : Option P
  qnext : P → Option P
  readers : Int
  writer : Int
  state : P → State
  pc : P → Pc P
  reads : P → Nat
  writes : P → Bool

variable {P : Type} [DecidableEq P]

namespace Sys

def goto (s : Sys P) (p : P) (k : Pc P) : Sys P := { s with pc := Function.update s.pc p k }

def setstate (s : Sys P) (p : P) (st : State) : Sys P :=
  { s with state := Function.update s.state p st }

/-- `q->readers++` for `p` -/
def giveread (s : Sys P) (p : P) : Sys P :=
  { s with readers := s.readers + 1, reads := Function.update s.reads p (s.reads p + 1) }

/-- `--(q->readers)` for `p` -/
def takeread (s : Sys P) (p : P) : Sys P :=
  { s with readers := s.readers - 1, reads := Function.update s.reads p (s.reads p - 1) }

/-- `p` no longer writes. -/
def takewrite (s : Sys P) (p : P) : Sys P := { s with writes := Function.update s.writes p false }

def setwriter (s : Sys P) (n : Int) : Sys P := { s with writer := n }

/-- `up` goes to the end of the queue, and waits in `sched`. -/
def wait (s : Sys P) (up : P) (st : State) (k : Pc P) : Sys P :=
  let s : Sys P :=
    match s.tail with
    | none => { s with head := some up }
    | some p => { s with qnext := Function.update s.qnext p (some up) }
  let s : Sys P := { s with tail := some up, qnext := Function.update s.qnext up none }
  (s.setstate up st).goto up k

def rlock (s : Sys P) (up : P) : Sys P × Option (FifoEvent P) :=
  if s.writer = 0 ∧ s.head = none then (s.giveread up, none)
  else (s.wait up .QueueingR .rwait, some (.push [up]))

def canrlock (s : Sys P) (up : P) : Sys P × Option (FifoEvent P) :=
  if s.writer = 0 ∧ s.head = none then (s.giveread up, none) else (s, none)

/-- The writer `p` leaves the queue; `up` is about to call `ready(p)`. -/
def givewrite (s : Sys P) (up p : P) : Sys P :=
  let s : Sys P := { s with head := s.qnext p, tail := if s.qnext p = none then none else s.tail }
  ({ s with writes := Function.update s.writes p true } : Sys P).goto up (.readies p)

def runlock (s : Sys P) (up : P) : Sys P × Option (FifoEvent P) :=
  let s := s.takeread up
  match s.head with
  | none => (s, none)
  | some p =>
    if 0 < s.readers then (s, none)
    else if s.state p ≠ .QueueingW then (s.goto up .panic, none)
    else ((s.setwriter 1).givewrite up p, some (.pop [p]))

def wlock (s : Sys P) (up : P) : Sys P × Option (FifoEvent P) :=
  if s.readers = 0 ∧ s.writer = 0 then
    ({ s with writer := 1, writes := Function.update s.writes up true }, none)
  else (s.wait up .QueueingW .wwait, some (.push [up]))

/-- The loop that wakes the waiting readers, with those that it woke. -/
def wakereaders : Nat → Sys P → Option (List P × Sys P)
  | 0, _ => none
  | n + 1, s =>
    match s.head with
    | none => some ([], s)
    | some p =>
      if s.state p = .QueueingR then
        let s : Sys P := { s with head := s.qnext p }
        (wakereaders n ((s.giveread p).setstate p .Ready)).map fun r => (p :: r.1, r.2)
      else some ([], s)

/-- The end of `wunlock`, after the loop. -/
def woken (s : Sys P) : Sys P :=
  { s with tail := if s.head = none then none else s.tail, writer := 0 }

/-- `none`: the loop does not end. -/
def wunlock [Fintype P] (s : Sys P) (up : P) : Option (Sys P × Option (FifoEvent P)) :=
  let s := s.takewrite up
  match s.head with
  | none => some (s.setwriter 0, none)
  | some p =>
    if s.state p = .QueueingW then some (s.givewrite up p, some (.pop [p]))
    else if s.state p ≠ .QueueingR then some (s.goto up .panic, none)
    else
      (wakereaders (Fintype.card P + 1) s).map fun r => (r.2.woken, some (.pop r.1))

end Sys

inductive Act (P : Type) where
  | rlock (p : P)
  | canrlock (p : P)
  | runlock (p : P)
  | wlock (p : P)
  | wunlock (p : P)
  /-- The call of `ready` after an unlock. -/
  | ready (p : P)
  /-- The return from `sched`. -/
  | resume (p : P)
  | dispatch (p : P)
  | preempt (p : P)

/-- The process runs, outside the calls. -/
def Sys.Out (s : Sys P) (p : P) : Prop := s.pc p = .out ∧ s.state p = .Running

instance (s : Sys P) (p : P) : Decidable (s.Out p) := inferInstanceAs (Decidable (_ ∧ _))

def Act.run [Fintype P] (s : Sys P) : Act P → Option (Sys P × Option (FifoEvent P))
  | .rlock p => if s.Out p then some (s.rlock p) else none
  | .canrlock p => if s.Out p then some (s.canrlock p) else none
  | .runlock p => if s.Out p ∧ 0 < s.reads p then some (s.runlock p) else none
  | .wlock p => if s.Out p then some (s.wlock p) else none
  | .wunlock p => if s.Out p ∧ s.writes p = true then s.wunlock p else none
  | .ready p =>
    match s.pc p with
    | .readies q =>
      if s.state p = .Running then some ((s.setstate q .Ready).goto p .out, none) else none
    | _ => none
  | .resume p =>
    if s.state p = .Running ∧ (s.pc p = .rwait ∨ s.pc p = .wwait) then some (s.goto p .out, none)
    else none
  | .dispatch p => if s.state p = .Ready then some (s.setstate p .Running, none) else none
  | .preempt p => if s.state p = .Running then some (s.setstate p .Ready, none) else none

/-- A label has the processes that joined the queue or left it. -/
def kernel (P : Type) [DecidableEq P] [Fintype P] : Lts (Sys P) (Act P × Option (FifoEvent P)) where
  init s := s.head = none ∧ s.tail = none ∧ s.readers = 0 ∧ s.writer = 0 ∧
    ∀ p, s.state p = .Running ∧ s.pc p = .out ∧ s.reads p = 0 ∧ s.writes p = false
  step s e s' := e.1.run s = some (s', e.2)

end NixMark.Rwlock
