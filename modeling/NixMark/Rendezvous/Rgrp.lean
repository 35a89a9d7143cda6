import NixMark.Lib.Lts

/-!
# Rendezvous (`sysrendezvous` of `port/sysproc.c` and `postnote` of `port/proc.c`)

Any number of processes and groups. The search of a chain with what it leads to is one step, and so
is the test of the state with the unlinking in `postnote`; `ready` and the unlocking after it are
steps of their own, for `postnote` reads the group of the process again between them.

* `Pc`: the statements of `sysrendezvous` and of `postnote` from its test of the state on.
* `Sys.go`: the next statement of a process; `Sys.act`: calls besides.
-/

namespace NixMark.Rendezvous

open Lib

abbrev Word := BitVec 64

/-- `~0` -/
def ones : Word := BitVec.allOnes 64

/-- The chain of a tag, `REND(p, s)`. -/
def REND (tag : Word) : Nat := (tag &&& 31#64).toNat

inductive Pc (P G : Type) where
  | user
  /-- `up->rendval = ~0; lock(up->rgrp)` -/
  | enter (tag val : Word)
  | scan (g : G) (tag val : Word)
  /-- `ready(p)`; the call returns `val` -/
  | ready (g : G) (p : P) (val : Word)
  /-- `unlock(up->rgrp)` with a partner found -/
  | unlock (g : G) (val : Word)
  /-- `unlock(up->rgrp)` before `sched()`; `readied` is for the case that somebody has -/
  | linked (g : G) (readied : Bool)
  | asleep
  /-- `ar0->v = up->rendval` -/
  | woken
  /-- `if(p->state != Rendezvous)` of `postnote` -/
  | post (p : P)
  /-- the argument of `lock(p->rgrp)` -/
  | pread (p : P)
  | plock (p : P) (g : G)
  | pcheck (p : P) (g : G)
  | pready (p : P) (g : G)
  /-- `unlock(p->rgrp)` -/
  | punlock (p : P) (g : G)

/-- `p->state == Rendezvous` -/
def Pc.waits {P G : Type} : Pc P G → Bool
  | .linked _ readied => !readied
  | .asleep => true
  | _ => false

/-- How a call ends, with the number of the partner's call. -/
inductive Fate (P : Type) where
  | mate (c : P × Nat)
  | interrupted
deriving DecidableEq

/-- From `now` on the fields record calls: the number of the last call of a process, and for each
call its arguments, its end, how often its process was readied in it, and what it has returned. -/
structure Sys (P G : Type) where
  rgrp : P → Option G
  chain : G → Nat → List P
  lock : G → Option P
  /-- `p->debug`, which the callers of `postnote` hold -/
  debug : P → Option P
  rendtag : P → Word
  rendval : P → Word
  pc : P → Pc P G
  now : P → Nat
  arg : P × Nat → Word × Word
  fate : P × Nat → Option (Fate P)
  readied : P × Nat → Nat
  ret : P × Nat → Option Word

inductive Act (P G : Type) where
  | rendezvous (tag val : Word)
  /-- `rfork(RFREND)` -/
  | rfrend (g : G)
  /-- `rfork(RFPROC)`, with a new group when there is `RFREND` -/
  | rfork (child : P) (g : Option G)
  | exit
  | postnote (p : P)
  | go

variable {P G : Type} [DecidableEq P] [DecidableEq G]

namespace Sys

def goto (s : Sys P G) (p : P) (k : Pc P G) : Sys P G := { s with pc := Function.update s.pc p k }

def setlock (s : Sys P G) (g : G) (l : Option P) : Sys P G :=
  { s with lock := Function.update s.lock g l }

def setchain (s : Sys P G) (g : G) (b : Nat) (l : List P) : Sys P G :=
  { s with chain := Function.update s.chain g (Function.update (s.chain g) b l) }

def setdebug (s : Sys P G) (p : P) (l : Option P) : Sys P G :=
  { s with debug := Function.update s.debug p l }

def setrgrp (s : Sys P G) (p : P) (g : Option G) : Sys P G :=
  { s with rgrp := Function.update s.rgrp p g }

def settag (s : Sys P G) (p : P) (tag : Word) : Sys P G :=
  { s with rendtag := Function.update s.rendtag p tag }

def setval (s : Sys P G) (p : P) (val : Word) : Sys P G :=
  { s with rendval := Function.update s.rendval p val }

/-- `newrgrp` -/
def newrgrp (s : Sys P G) (g : G) : Sys P G :=
  { s with
    chain := Function.update s.chain g fun _ => []
    lock := Function.update s.lock g none }

/-- The call of `p` returns. -/
def leave (s : Sys P G) (p : P) (val : Word) : Sys P G :=
  { s with ret := Function.update s.ret (p, s.now p) (some val) }

/-- A call begins. -/
def begin (s : Sys P G) (p : P) (tag val : Word) : Sys P G :=
  { s with
    now := Function.update s.now p (s.now p + 1)
    arg := Function.update s.arg (p, s.now p + 1) (tag, val) }

def setfate (s : Sys P G) (p : P) (f : Fate P) : Sys P G :=
  { s with fate := Function.update s.fate (p, s.now p) (some f) }

/-- `ready(p)` -/
def ready (s : Sys P G) (p : P) : Sys P G :=
  { s with
    readied := Function.update s.readied (p, s.now p) (s.readied (p, s.now p) + 1)
    pc := Function.update s.pc p
      (match s.pc p with
      | .asleep => .woken
      | .linked g _ => .linked g true
      | k => k) }

/-- The next statement of `p`, unless it waits for a lock or in `sched`. -/
def go (s : Sys P G) (p : P) : Option (Sys P G) :=
  match s.pc p with
  | .user | .asleep => none
  | .enter tag val =>
    match s.rgrp p with
    | none => none
    | some g =>
      if s.lock g = none then
        some (((s.setval p ones).setlock g (some p)).goto p (.scan g tag val))
      else none
  | .scan g tag val =>
    match (s.chain g (REND tag)).find? fun q => s.rendtag q == tag with
    | some q =>
      some (((s.setchain g (REND tag) ((s.chain g (REND tag)).erase q)).setval q val).goto p
        (.ready g q (s.rendval q)))
    | none =>
      some ((((s.settag p tag).setval p val).setchain g (REND tag)
        (s.chain g (REND tag) ++ [p])).goto p (.linked g false))
  | .ready g q val =>
    some ((((s.ready q).setfate q (.mate (p, s.now p))).setfate p (.mate (q, s.now q))).goto p
      (.unlock g val))
  | .unlock g val => some (((s.setlock g none).leave p val).goto p .user)
  | .linked g readied => some ((s.setlock g none).goto p (if readied then .woken else .asleep))
  | .woken => some ((s.leave p (s.rendval p)).goto p .user)
  | .post q =>
    if (s.pc q).waits then some (s.goto p (.pread q)) else some ((s.setdebug q none).goto p .user)
  | .pread q => (s.rgrp q).map fun g => s.goto p (.plock q g)
  | .plock q g =>
    if s.lock g = none then some ((s.setlock g (some p)).goto p (.pcheck q g)) else none
  | .pcheck q g =>
    if (s.pc q).waits then
      (s.rgrp q).map fun g' =>
        ((s.setval q ones).setchain g' (REND (s.rendtag q))
          ((s.chain g' (REND (s.rendtag q))).erase q)).goto p (.pready q g)
    else some (s.goto p (.punlock q g))
  | .pready q g => some (((s.ready q).setfate q .interrupted).goto p (.punlock q g))
  | .punlock q _ => (s.rgrp q).map fun g' => ((s.setlock g' none).setdebug q none).goto p .user

def act (s : Sys P G) (p : P) : Act P G → Option (Sys P G)
  | .go => s.go p
  | call =>
    match s.pc p, s.rgrp p with
    | .user, some g =>
      match call with
      | .rendezvous tag val => some ((s.begin p tag val).goto p (.enter tag val))
      | .rfrend g' => some ((s.newrgrp g').setrgrp p (some g'))
      | .rfork child g' =>
        match s.pc child, s.rgrp child, g' with
        | .user, none, none => some (s.setrgrp child (some g))
        | .user, none, some g' => some ((s.newrgrp g').setrgrp child (some g'))
        | _, _, _ => none
      | .exit => if s.debug p = none then some (s.setrgrp p none) else none
      | .postnote q =>
        if s.debug q = none then some ((s.setdebug q (some p)).goto p (.post q)) else none
      | .go => none
    | _, _ => none

end Sys

/-- A new group is one that no process is in. -/
def Act.Fits (s : Sys P G) : Act P G → Prop
  | .rfrend g | .rfork _ (some g) => ∀ p, s.rgrp p ≠ some g
  | _ => True

/-- All interleavings, from processes in user mode. -/
def kernel (P G : Type) [DecidableEq P] [DecidableEq G] : Lts (Sys P G) (P × Act P G) where
  init s := (∀ p, s.pc p = .user) ∧ (∀ g b, s.chain g b = []) ∧ (∀ g, s.lock g = none) ∧
    (∀ p, s.debug p = none) ∧ (∀ c, s.fate c = none) ∧ (∀ c, s.readied c = 0) ∧ ∀ c, s.ret c = none
  step s e s' := e.2.Fits s ∧ s.act e.1 e.2 = some s'

end NixMark.Rendezvous
