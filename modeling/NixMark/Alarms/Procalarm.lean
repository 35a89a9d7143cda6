import Mathlib.Data.List.Nodup
import NixMark.Lib.Lts

/-!
# Alarms of processes (`port/alarm.c`)

A `ulong` has 32 bits, and so has the clock `sys->ticks`; `Sys.time` is the number of ticks that
there have been. `alarms` is the list that the links `palarm` make. `procalarm` reads the clock before
it waits for the lock of the list and does the rest in one step; the kernel process holds the lock
during a pass, step by step.

* `Alarm`: a call of `procalarm` that sets an alarm. Nothing in the code depends on it.
* `Sys.step`: the steps of `procalarm`, `pexit` and `alarmkproc`.
-/

namespace NixMark.Alarms

open Lib

def HZ : Nat := 100

/-- The value of a number in a `ulong`. -/
def ulong (n : Nat) : Nat := n % 4294967296

def ms2tk (ms : Nat) : Nat :=
  if ms ≥ 1000000000 / HZ then ms / 1000 * HZ else (ms * HZ + 500) / 1000

/-- The `id`th alarm that the process `proc` set, and the tick at which its time has elapsed. -/
structure Alarm (P : Type) where
  proc : P
  id : Nat
  due : Nat

/-- An alarm that was posted, at a tick. -/
structure Post (P : Type) where
  alarm : Alarm P
  tick : Nat

/-- The kernel process: asleep, with `now` read and waiting for the lock, in its loop, or about to
post a note. -/
inductive Kproc (P : Type) where
  | asleep
  | awake (now : Nat)
  | pass (now : Nat)
  | posting (now : Nat) (a : Alarm P)

/-- `setting`: a process is in `procalarm` with this `when`. `live`: the alarm of a process that was
neither posted nor cancelled, nor replaced. -/
structure Sys (P : Type) where
  time : Nat
  alarms : List P
  alarm : P → Nat
  setting : P → Option (Nat × Alarm P)
  kproc : Kproc P
  nset : P → Nat
  live : P → Option (Alarm P)
  posts : List (Post P)

inductive Act (P : Type) where
  | tick
  /-- `procalarm` of a time that is not 0 reads the clock -/
  | set (up : P) (time : Nat)
  /-- the rest of it, under the lock -/
  | insert (up : P)
  /-- `procalarm(0)`, or `pexit` -/
  | clear (up : P)
  /-- `now = sys->ticks` -/
  | read
  /-- `qlock(&alarms)` in `alarmkproc` -/
  | lock
  /-- a round of its loop up to `canqlock`, that fails if `busy` -/
  | round (busy : Bool)
  /-- `postnote`, and the rest of the round -/
  | post

variable {P : Type} [DecidableEq P]

/-- `procalarm` puts the process before the first that has a later alarm. -/
def place (alarm : P → Nat) (up : P) (time : Nat) : List P → List P
  | [] => [up]
  | f :: l => if alarm f > time then up :: f :: l else f :: place alarm up time l

namespace Sys

/-- No pass is going on. -/
def unlocked (s : Sys P) : Bool :=
  match s.kproc with
  | .asleep | .awake _ => true
  | .pass _ | .posting _ _ => false

def set (s : Sys P) (up : P) (time : Nat) : Option (Sys P) :=
  if time = 0 ∨ (s.setting up).isSome then none
  else
    some { s with
      setting := Function.update s.setting up
        (some (ulong (ms2tk time + ulong s.time), ⟨up, s.nset up, s.time + ms2tk time⟩))
      nset := Function.update s.nset up (s.nset up + 1) }

def insert (s : Sys P) (up : P) : Option (Sys P) :=
  if s.unlocked then
    (s.setting up).map fun (time, a) =>
      { s with
        alarms := place s.alarm up time (s.alarms.erase up)
        alarm := Function.update s.alarm up time
        setting := Function.update s.setting up none
        live := Function.update s.live up (some a) }
  else none

def clear (s : Sys P) (up : P) : Option (Sys P) :=
  if (s.setting up).isSome then none
  else
    some { s with
      alarm := Function.update s.alarm up 0
      live := Function.update s.live up none }

/-- A round of the loop; `none` for the alarm that is posted does not happen. -/
def round (s : Sys P) (busy : Bool) (now : Nat) : Option (Sys P) :=
  match s.alarms with
  | [] => some { s with kproc := .asleep }
  | rp :: alarms =>
    if s.alarm rp ≤ ulong now then
      if s.alarm rp ≠ 0 then
        if busy then some { s with kproc := .asleep }
        else (s.live rp).map fun a => { s with kproc := .posting now a }
      else some { s with alarms := alarms }
    else some { s with kproc := .asleep }

def post (s : Sys P) (now : Nat) (a : Alarm P) : Sys P :=
  { s with
    alarms := s.alarms.tail
    alarm := Function.update s.alarm a.proc 0
    kproc := .pass now
    live := Function.update s.live a.proc none
    posts := s.posts ++ [⟨a, s.time⟩] }

def step (s : Sys P) : Act P → Option (Sys P)
  | .tick => some { s with time := s.time + 1 }
  | .set up time => s.set up time
  | .insert up => s.insert up
  | .clear up => s.clear up
  | .read =>
    match s.kproc with
    | .asleep => some { s with kproc := .awake s.time }
    | _ => none
  | .lock =>
    match s.kproc with
    | .awake now => some { s with kproc := .pass now }
    | _ => none
  | .round busy =>
    match s.kproc with
    | .pass now => s.round busy now
    | _ => none
  | .post =>
    match s.kproc with
    | .posting now a => some (s.post now a)
    | _ => none

def init : Sys P where
  time := 0
  alarms := []
  alarm _ := 0
  setting _ := none
  kproc := .asleep
  nset _ := 0
  live _ := none
  posts := []

end Sys

/-- The processes, the clock and the kernel process, in any order. -/
def procs : Lts (Sys P) (Act P) where
  init s := s = Sys.init
  step s e s' := s.step e = some s'

end NixMark.Alarms
