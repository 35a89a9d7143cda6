import NixMark.Lib.Lts

/-!
# Wait records (`sysrfork` of `port/sysproc.c`, `newproc`, `pexit` and `pwait` of `port/proc.c`)

Any number of `Proc`s, which are used again after an exit. A section under `exl` is one step, and so
is `sleep` up to the point where it is committed; `newproc` clears the fields of a `Proc` in one step
and gives it its pid in the next.

* `Proc`: the fields that tell about parents and children, with what the process does next.
* `Sys.go`: the next statement; `Sys.act`: calls, notes and the debugger besides.
-/

namespace NixMark.Wait

open Lib

inductive Pc (P : Type) where
  /-- the `Proc` is not in use -/
  | free
  /-- `newproc` has cleared it -/
  | fresh
  /-- it has a pid, and does not run yet -/
  | made
  | user
  /-- `p->pid = incref(&pidalloc)` in `newproc` -/
  | newpid (child : P) (nowait : Bool)
  /-- `p->parent = up` and what follows in `sysrfork` -/
  | born (child : P) (nowait : Bool)
  /-- `pwait`: the test under `exl` -/
  | pwait
  /-- `sleep(&up->waitr, haswaitq, up)` -/
  | sleep
  | asleep
  /-- `wq = up->waitq` -/
  | take
  | got (pid : Nat)
  /-- `pexit`: the section under `exl` of the parent -/
  | exit (freemem : Bool)
  /-- `if(!freemem) addbroken(up)` -/
  | left (freemem : Bool)
  | broken
  /-- `up->pid = 0`, with or without `addbroken` before -/
  | unpid (broke : Bool)
  /-- `for(f = up->waitq; f; f = next)` -/
  | freeing
  | moribund

/-- `p->state == Broken` -/
def Pc.isbroken {P : Type} : Pc P → Bool
  | .broken => true
  | _ => false

/-- `waitq` has the pids of the records; `forkedby` and `nowait` record how the process was made. -/
structure Proc (P : Type) where
  pid : Nat
  parent : Option P
  parentpid : Nat
  nchild : Int
  nwait : Int
  waitq : List Nat
  pc : Pc P
  forkedby : Nat
  nowait : Bool

/-- `p->parent = up` and `p->parentpid = up->pid` -/
def Proc.born {P : Type} (x : Proc P) (up : P) (pid : Nat) (nowait : Bool) : Proc P :=
  { x with
    parent := some up
    parentpid := if nowait then 0 else pid
    forkedby := pid
    nowait := nowait
    pc := .user }

/-- `origin` records the pid of the process that made a process, and whether with `RFNOWAIT`;
`linked`, `returned` and `freed` count what has happened to the record of a process. -/
structure Sys (P : Type) where
  proc : P → Proc P
  pidalloc : Nat
  origin : Nat → Nat × Bool
  linked : Nat → Nat
  returned : Nat → Nat
  freed : Nat → Nat

inductive Act (P : Type) where
  | rfork (child : P) (nowait : Bool)
  | pwait
  | exit (freemem : Bool)
  | go
  /-- an error in `sysrfork` after `newproc` -/
  | error
  /-- a note ends the sleep -/
  | note
  /-- the debugger lets a broken process go on -/
  | unbreak

variable {P : Type} [DecidableEq P]

namespace Sys

/-- The record of a `Proc` is changed. -/
def mod (s : Sys P) (p : P) (f : Proc P → Proc P) : Sys P :=
  { s with proc := Function.update s.proc p (f (s.proc p)) }

def goto (s : Sys P) (p : P) (k : Pc P) : Sys P := s.mod p fun x => { x with pc := k }

/-- `wakeup(&p->waitr)` -/
def wakeup (s : Sys P) (p : P) : Sys P :=
  match (s.proc p).pc with
  | .asleep => s.goto p .take
  | _ => s

/-- The record of a process of the pid is linked to `p`. -/
def link (s : Sys P) (p : P) (pid : Nat) : Sys P :=
  let t := s.mod p fun x => { x with waitq := pid :: x.waitq, nwait := x.nwait + 1 }
  { t with linked := Function.update t.linked pid (t.linked pid + 1) }

/-- The section of `pexit` under `exl` of the parent. -/
def leave (s : Sys P) (p parent : P) : Sys P :=
  if (s.proc parent).pid = (s.proc p).parentpid ∧ (s.proc parent).pc.isbroken = false then
    let t := s.mod parent fun x => { x with nchild := x.nchild - 1 }
    if (s.proc parent).nwait < 128 then (t.link parent (s.proc p).pid).wakeup parent else t
  else s

/-- `p->pid = incref(&pidalloc)` -/
def newpid (s : Sys P) (child : P) : Sys P :=
  let t := s.mod child fun x => { x with pid := s.pidalloc + 1, pc := .made }
  { t with pidalloc := s.pidalloc + 1 }

/-- `sysrfork` after `newproc`: the child runs. -/
def birth (s : Sys P) (p child : P) (nowait : Bool) : Sys P :=
  let t := s.mod child fun x => x.born p (s.proc p).pid nowait
  let t := t.mod p fun x => { x with nchild := if nowait then x.nchild else x.nchild + 1 }
  { t with origin := Function.update t.origin (s.proc child).pid ((s.proc p).pid, nowait) }

/-- The next statement of `p`. -/
def go (s : Sys P) (p : P) : Option (Sys P) :=
  match (s.proc p).pc with
  | .free | .fresh | .made | .user | .asleep | .broken => none
  | .newpid child nowait => some ((s.newpid child).goto p (.born child nowait))
  | .born child nowait => some ((s.birth p child nowait).goto p .user)
  | .pwait =>
    some (s.goto p (if (s.proc p).nchild = 0 ∧ (s.proc p).waitq = [] then .user else .sleep))
  | .sleep => some (s.goto p (if (s.proc p).waitq = [] then .asleep else .take))
  | .take =>
    match (s.proc p).waitq with
    | [] => none
    | pid :: l => some (s.mod p fun x => { x with waitq := l, nwait := x.nwait - 1, pc := .got pid })
  | .got pid =>
    let t := s.goto p .user
    some { t with returned := Function.update s.returned pid (s.returned pid + 1) }
  | .exit freemem =>
    match (s.proc p).parent with
    | none => none
    | some parent => some ((s.leave p parent).goto p (.left freemem))
  | .left freemem => some (s.goto p (if freemem then .unpid false else .broken))
  | .unpid _ => some (s.mod p fun x => { x with pid := 0, pc := .freeing })
  | .freeing =>
    let t := s.goto p .moribund
    some { t with freed := fun pid => s.freed pid + (s.proc p).waitq.count pid }
  | .moribund => some (s.goto p .free)

def act (s : Sys P) (p : P) : Act P → Option (Sys P)
  | .rfork child nowait =>
    match (s.proc p).pc, (s.proc child).pc with
    | .user, .free =>
      some ((s.mod child fun x =>
        { x with nchild := 0, nwait := 0, waitq := [], parent := none, pc := .fresh }).goto p
          (.newpid child nowait))
    | _, _ => none
  | .pwait =>
    match (s.proc p).pc with
    | .user => some (s.goto p .pwait)
    | _ => none
  | .exit freemem =>
    match (s.proc p).pc with
    | .user => some (s.goto p (.exit freemem))
    | _ => none
  | .go => s.go p
  | .error =>
    match (s.proc p).pc with
    | .born _ _ => some (s.goto p .user)
    | _ => none
  | .note =>
    match (s.proc p).pc with
    | .sleep | .asleep => some (s.goto p .user)
    | _ => none
  | .unbreak =>
    match (s.proc p).pc with
    | .broken => some (s.goto p (.unpid true))
    | _ => none

end Sys

/-- All interleavings, from one process without a parent. -/
def kernel (P : Type) [DecidableEq P] : Lts (Sys P) (P × Act P) where
  init s := s.pidalloc = 1 ∧ (∃ p, s.proc = Function.update
      (fun _ => ⟨0, none, 0, 0, 0, [], .free, 0, true⟩) p ⟨1, none, 0, 0, 0, [], .user, 0, true⟩) ∧
    s.origin 1 = (0, true) ∧ (∀ n, s.linked n = 0) ∧ (∀ n, s.returned n = 0) ∧ ∀ n, s.freed n = 0
  step s e s' := s.act e.1 e.2 = some s'

end NixMark.Wait
