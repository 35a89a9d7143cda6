import Mathlib.Data.BitVec
import Mathlib.Algebra.BigOperators.Group.Finset.Piecewise
import NixMark.Lib.Queues
import NixMark.Lib.Words

/-!
# The run queues (`port/proc.c`, `edfready` of `port/edf.c`)

Each scheduler has a queue for every priority. A process is linked by its `rnext`; the scheduler
counts its processes once for each queue and once in `nrdy`, and `runvec` has a bit for each queue.

* `linkproc`, `unlinkproc`: the writes to the queues.
* `ready`, `rebalance`, `rqrunproc`, `runproc`, `sched`, `execsched`: as the code calls them.

What a call reads from the clocks it reads once. The accounting of `edfrun` and `edfrecord` is left
out.
-/

namespace NixMark.Runq

open Lib

def Scaling : Nat := 2
def Schedgain : Nat := 30
def HZ : Nat := 100
def Schedsz : Nat := 2
def Nbalance : Nat := 3
def Npriq : Nat := 20
def Nrq : Nat := 22

/-- A queue of a scheduler. -/
abbrev Pri : Type := Fin Nrq

def PriExtra : Pri := ⟨19, by decide⟩
def PriEdf : Pri := ⟨21, by decide⟩

inductive State where
  | Dead
  | Moribund
  | Ready
  | Scheding
  | Running
  | Queueing
  | QueueingR
  | QueueingW
  | Wakeme
  | Broken
  | Stopped
  | Rendezvous
  | Waitrelease
deriving DecidableEq

/-- The times are in µs, signed words of 32 bits; `armed`: the timer waits for the release. -/
structure Edf where
  d : Int
  t : Int
  r : Int
  D : Int
  T : Int
  C : Int
  S : Int
  admitted : Bool
  sporadic : Bool
  yield : Bool
  yieldonblock : Bool
  extratime : Bool
  armed : Bool

variable {nproc : Nat}

/-- A process of a table of `nproc`; processors and schedulers are numbers. -/
structure Proc (nproc : Nat) where
  rnext : Option (Fin nproc)
  state : State
  priority : Pri
  basepri : Pri
  fixedpri : Bool
  cpu : Nat
  lastupdate : Nat
  edf : Option Edf
  mach : Option Nat
  mp : Option Nat
  wired : Option Nat
  sch : Nat

structure Schedq (nproc : Nat) where
  head : Option (Fin nproc)
  tail : Option (Fin nproc)
  n : Int

structure Sched (nproc : Nat) where
  nrdy : Int
  runq : Pri → Schedq nproc
  runvec : BitVec 32
  mp : Option Nat
  balancetime : Nat
  nruns : Nat

structure Sys (nproc : Nat) where
  procs : Fin nproc → Proc nproc
  scheds : Nat → Sched nproc
  up : Nat → Option (Fin nproc)
  last : Nat

/-- `m->sch` -/
def msch (m : Nat) : Nat := m / Schedsz

/-- What is read from the clocks: `m->ticks`, `sys->ticks`, `load` and `nonline`, `µs()`. -/
structure Clock where
  ticks : Nat
  systicks : Nat
  load : Nat
  nonline : Nat
  now : Int

namespace Sys

def setproc (s : Sys nproc) (p : Fin nproc) (f : Proc nproc → Proc nproc) : Sys nproc :=
  { s with procs := Function.update s.procs p (f (s.procs p)) }

def setsched (s : Sys nproc) (k : Nat) (f : Sched nproc → Sched nproc) : Sys nproc :=
  { s with scheds := Function.update s.scheds k (f (s.scheds k)) }

/-- `l->rnext = r`, if there is such an `l` -/
def setrnext (s : Sys nproc) (l r : Option (Fin nproc)) : Sys nproc :=
  match l with
  | some l => s.setproc l fun q => { q with rnext := r }
  | none => s

def rnext (s : Sys nproc) (p : Fin nproc) : Option (Fin nproc) := (s.procs p).rnext

def queue (s : Sys nproc) (k : Nat) (i : Pri) : Schedq nproc := (s.scheds k).runq i

end Sys

/-! ## Priorities -/

def updatecpu (c : Clock) (isup : Bool) (p : Proc nproc) : Proc nproc :=
  if p.edf.isSome then p
  else
    let t := c.systicks * Scaling + Scaling / 2
    let n := t - p.lastupdate
    let D := Schedgain * HZ * Scaling
    let p : Proc nproc := { p with lastupdate := t }
    if n = 0 then p
    else if isup then { p with cpu := 1000 - (1000 - p.cpu) * (D - n) / D }
    else { p with cpu := p.cpu * (D - n) / D }

def reprioritize (c : Clock) (p : Proc nproc) : Pri :=
  if p.edf.isSome then p.priority
  else if c.load = 0 then p.basepri
  else
    let fairshare := c.nonline * 1000 * 1000 / c.load
    let n := if p.cpu = 0 then 1 else p.cpu
    let ratio := (fairshare + n / 2) / n
    if h : p.basepri < ratio then p.basepri
    else ⟨ratio, (Nat.le_of_not_lt h).trans_lt p.basepri.isLt⟩

def procpriority (pri : Int) (fixed : Bool) (p : Proc nproc) : Proc nproc :=
  let pri : Pri := ⟨min pri.toNat (Npriq - 1), (Nat.min_le_right _ _).trans_lt (by decide)⟩
  { p with basepri := pri, priority := pri, fixedpri := fixed }

/-! ## The queues -/

/-- `1 << pri` -/
def bit (pri : Pri) : BitVec 32 := 1#32 <<< pri.val

/-- The queue `pri` becomes `rq`, with a process more. -/
def Sched.link (pri : Pri) (rq : Schedq nproc) (sch : Sched nproc) : Sched nproc :=
  { sch with
    nrdy := sch.nrdy + 1
    runq := Function.update sch.runq pri rq
    runvec := sch.runvec ||| bit pri }

def Sched.setq (i : Pri) (rq : Schedq nproc) (sch : Sched nproc) : Sched nproc :=
  { sch with runq := Function.update sch.runq i rq }

/-- A process less, from a queue that begins with `head` now. -/
def Sched.unlink (head : Option (Fin nproc)) (mask : BitVec 32) (sch : Sched nproc) : Sched nproc :=
  { sch with
    runvec := if head = none then sch.runvec &&& ~~~mask else sch.runvec
    nrdy := sch.nrdy - 1 }

/-- `none` is the panic. -/
def linkproc (s : Sys nproc) (p : Fin nproc) (pri : Pri) : Option (Sys nproc) :=
  if (s.procs p).rnext ≠ none then none
  else
    let k := (s.procs p).sch
    let rq := s.queue k pri
    let s := s.setproc p fun q => { q with priority := pri }
    let s := s.setrnext rq.tail (some p)
    some (s.setsched k
      (Sched.link pri ⟨if rq.tail = none then some p else rq.head, some p, rq.n + 1⟩))

/-- `rq` is the queue `i` of the scheduler `j`, and `sch` the scheduler of the process. If they
differ, `rq - sch->runq` is the difference of pointers into two arrays; `stray` says what
`1 << (rq - sch->runq)` is then. -/
def unlinkproc (stray : Nat → Pri → Nat → BitVec 32) (s : Sys nproc) (j : Nat) (i : Pri)
    (l : Option (Fin nproc)) (p : Fin nproc) : Sys nproc :=
  let k := (s.procs p).sch
  let rq := s.queue j i
  let next := (s.procs p).rnext
  let head := if l = none then next else rq.head
  let s := s.setrnext l next
  let s := s.setproc p fun q => { q with rnext := none }
  let s := s.setsched j (Sched.setq i ⟨head, if next = none then l else rq.tail, rq.n - 1⟩)
  s.setsched k (Sched.unlink head (if k = j then bit i else stray j i k))

/-! ## Real time -/

/-- The next release of a process that stays true to its period. -/
def Edf.nextrelease (now : Int) (e : Edf) : Edf :=
  let n := long (now - e.t)
  if n ≤ 0 then e
  else if n < e.T then { e with t := long (e.t + e.T) }
  else { e with t := long (now + e.T - n.tmod e.T) }

def release (now : Int) (e : Edf) : Edf :=
  let e := { e with yield := false }
  if long (e.d - now) < 0 then
    let e := { e with r := now }
    let e := if e.sporadic then { e with t := long (e.r + e.T) } else e.nextrelease now
    { e with d := long (e.r + e.D), S := e.C }
  else e

/-- `p->edf->d` -/
def deadline (p : Proc nproc) : Int := (p.edf.map Edf.d).getD 0

/-- The process is put into its queue in the order of the deadlines. -/
def edfinsert (e : Edf) (s : Sys nproc) (p : Fin nproc) : Sys nproc :=
  let k := (s.procs p).sch
  let rq := s.queue k PriEdf
  let r := walk s.rnext (fun q => e.d < deadline (s.procs q)) nproc none rq.head
  let s := s.setproc p fun q => { q with rnext := r.2 }
  let s := s.setrnext r.1 (some p)
  let s := s.setsched k (Sched.link PriEdf
    ⟨if r.1 = none then some p else rq.head, if r.2 = none then some p else rq.tail, rq.n + 1⟩)
  s.setproc p fun q => { q with edf := some e, priority := PriEdf, state := .Ready }

/-- The result says whether the process was dealt with. -/
def edfready (c : Clock) (s : Sys nproc) (p : Fin nproc) : Sys nproc × Bool :=
  match (s.procs p).edf with
  | none => (s, false)
  | some e =>
    if ¬ e.admitted then (s, false)
    else if long (e.d - c.now) ≤ 0 then
      let e := if e.sporadic then e else e.nextrelease c.now
      if long (c.now - e.t) < 0 then
        let e := { e with armed := true }
        if (s.procs p).state = .Running ∧ ¬ (e.yield ∨ e.yieldonblock) ∧ e.extratime then
          (s.setproc p fun q => { q with edf := some e, basepri := PriExtra, fixedpri := true },
            false)
        else (s.setproc p fun q => { q with edf := some e, state := .Waitrelease }, true)
      else (edfinsert (release c.now e) s p, true)
    else (edfinsert e s p, true)

/-! ## The scheduler -/

/-- Called on the processor `m`. -/
def ready (c : Clock) (m : Nat) (s : Sys nproc) (p : Fin nproc) : Option (Sys nproc) :=
  let r := edfready c s p
  if r.2 then some r.1
  else
    let s := r.1
    let s := s.setproc p (updatecpu c (s.up m = some p))
    let pri := reprioritize c (s.procs p)
    let s := s.setproc p fun q => { q with priority := pri, state := .Ready }
    linkproc s p pri

/-- The loop of `rebalance` over the queue `i` up to a process that has to move, with the one before
it and its new priority. No queue is longer than the table, which bounds the rounds. -/
def rescan (c : Clock) (m : Nat) (i : Pri) : Nat → Sys nproc → Option (Fin nproc) →
    Option (Fin nproc) → Sys nproc × Option (Option (Fin nproc) × Fin nproc × Pri)
  | 0, s, _, _ => (s, none)
  | _ + 1, s, _, none => (s, none)
  | fuel + 1, s, l, some p =>
    let s := s.setproc p (updatecpu c (s.up m = some p))
    let npri := reprioritize c (s.procs p)
    if npri ≠ i then (s, some (l, p, npri))
    else rescan c m i fuel s (some p) (s.procs p).rnext

variable (stray : Nat → Pri → Nat → BitVec 32)

/-- The rounds of `again` for a queue: each one takes a process out of it. -/
def again (c : Clock) (m : Nat) (i : Pri) : Nat → Sys nproc → Option (Sys nproc)
  | 0, s => some s
  | fuel + 1, s =>
    match rescan c m i nproc s none (s.queue (msch m) i).head with
    | (s, none) => some s
    | (s, some (l, p, npri)) =>
      (linkproc (unlinkproc stray s (msch m) i l p) p npri).bind (again c m i fuel)

def rebalance (c : Clock) (m : Nat) (s : Sys nproc) : Option (Sys nproc) :=
  ((List.finRange Nrq).take Npriq).foldlM (fun s i => again stray c m i nproc s) s

/-- The process that the loop of `rqrunproc` stops at. -/
def takes (m : Nat) (affinity : Bool) (p : Proc nproc) : Bool :=
  p.mach = none && match p.wired with
    | some w => p.sch ≠ msch w || w = m
    | none => p.mp = none || !affinity || p.mp = some m

/-- `p->sch = p->wired->sch`; the code makes the assignment only when they differ. -/
def rewire (p : Proc nproc) : Proc nproc :=
  match p.wired with
  | some w => { p with sch := msch w }
  | none => p

def rqrunproc (s : Sys nproc) (m : Nat) (i : Pri) (affinity : Bool) :
    Option (Sys nproc × Fin nproc) :=
  match walk s.rnext (fun p => takes m affinity (s.procs p)) nproc none (s.queue (msch m) i).head with
  | (_, none) => none
  | (l, some p) => some (unlinkproc stray (s.setproc p rewire) (msch m) i l p, p)

/-- The loop of `runproc` over the queues. -/
def runqs (s : Sys nproc) (m : Nat) : List Pri → Option (Sys nproc × Fin nproc)
  | [] => none
  | i :: l =>
    match if (s.scheds (msch m)).nruns % Nbalance ≠ 0 then rqrunproc stray s m i true else none with
    | some r => some r
    | none =>
      match rqrunproc stray s m i false with
      | some r => some r
      | none => runqs s m l

/-- `runproc` up to its loop over the queues. -/
def balance (c : Clock) (m : Nat) (s : Sys nproc) : Option (Sys nproc) :=
  let s := s.setsched (msch m) fun sch => { sch with nruns := sch.nruns + 1 }
  let sch := s.scheds (msch m)
  if sch.mp = some m ∧ HZ ≤ c.ticks - sch.balancetime then
    (rebalance stray c m s).map fun s =>
      s.setsched (msch m) fun sch => { sch with balancetime := c.ticks }
  else some s

/-- One round of the loop of `runproc`; without a process it waits and tries again. -/
def runproc (c : Clock) (m : Nat) (s : Sys nproc) : Option (Sys nproc × Option (Fin nproc)) :=
  (balance stray c m s).map fun s =>
    match runqs stray s m (List.finRange Nrq).reverse with
    | none => (s, none)
    | some (s, p) => (s.setproc p fun q => { q with state := .Scheding, mp := some m }, some p)

/-- The processor runs the process that `runproc` gives. -/
def sched (c : Clock) (m : Nat) (s : Sys nproc) : Option (Sys nproc) :=
  (runproc stray c m s).map fun
    | (s, none) => s
    | (s, some p) =>
      let s := s.setproc p (updatecpu c (s.up m = some p))
      let s := s.setproc p fun q =>
        { q with priority := reprioritize c q, state := .Running, mach := some m }
      { s with up := Function.update s.up m (some p) }

/-- The end of `schedinit`: the processor leaves its process. -/
def leave (m : Nat) (s : Sys nproc) : Sys nproc :=
  match s.up m with
  | none => s
  | some p =>
    let s := s.setproc p fun q => { q with mach := none }
    { s with up := Function.update s.up m none }

/-- The next scheduler from `last + i` on that has a processor. -/
def nextsched (s : Sys nproc) (nsched : Nat) : Option Nat :=
  ((List.range nsched).map fun i => (s.last + 1 + i) % nsched).find? fun k =>
    (s.scheds k).mp ≠ none

def execsched (nsched m : Nat) (s : Sys nproc) : Sys nproc :=
  match s.up m with
  | none => s
  | some p =>
    if (s.procs p).wired ≠ none then s
    else
      match nextsched s nsched with
      | none => { s with last := s.last + 1 }
      | some k =>
        let s := s.setproc p fun q => { q with sch := k }
        { s with last := k }

/-- The processor `w` was chosen. -/
def procwired (w : Option Nat) (p : Proc nproc) : Proc nproc := { p with wired := w, mp := w }

end NixMark.Runq
