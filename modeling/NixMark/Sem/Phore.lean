import NixMark.Lib.Lts
import NixMark.Lib.Words

/-!
# Semaphores (`semacquire`, `tsemacquire` and `semrelease` of `port/sysproc.c`)

Any number of processes and the semaphores of one segment. The value of a semaphore is read and
changed by compare-and-swap; the list of the waiting `Sema`s is under the spin lock of `s->sema`, a
section under it that touches nothing else is one step, and so is `sleep` up to the point where it
is committed.

* `Pc`: the statements of the system calls.
* `Sys.go`: the next statement of a process; `Sys.act`: calls, notes and timers besides.
-/

namespace NixMark.Sem

open Lib

/-- `syssemacquire` and `systsemacquire` with what is left of the time. -/
inductive Kind where
  | sem (block : Bool)
  | tsem (ms : Int)
deriving DecidableEq

structure Call (A : Type) where
  addr : A
  kind : Kind

/-- What a call returns: 1, 0, or an error. -/
inductive Res where
  | one
  | zero
  | error
deriving DecidableEq

/-- The call goes on when the first try fails. -/
def Kind.blocks : Kind → Bool
  | .sem block => block
  | .tsem ms => ms != 0

/-- The end of `semacquire` and `tsemacquire`. -/
def Kind.result (acquired : Bool) : Kind → Res
  | .sem _ => if acquired then .one else .error
  | .tsem ms => if ms ≤ 0 then .zero else if acquired then .one else .error

/-- Who called `semwakeup`. -/
inductive Caller (A : Type) where
  | acquire (c : Call A) (acquired : Bool)
  | release (addr : A)

def Caller.addr {A : Type} : Caller A → A
  | .acquire c _ => c.addr
  | .release a => a

/-- Statements: `rest` is what a `semwakeup` has not looked at, `n` how many it has yet to wake. -/
inductive Pc (P A : Type) where
  | idle
  /-- `if(*addr < 0)` -/
  | enter (c : Call A)
  /-- `while((value = *addr) > 0)` of the first `canacquire` -/
  | try0 (c : Call A)
  /-- `if(CASW(addr, value, value-1))` -/
  | cas0 (c : Call A) (value : Int)
  /-- `semqueue` -/
  | queue (c : Call A)
  /-- `phore.waiting = 1` -/
  | top (c : Call A)
  /-- `canacquire` -/
  | retry (c : Call A)
  | cas (c : Call A) (value : Int)
  /-- `sleep` or `tsleep` -/
  | sleep (c : Call A)
  | asleep (c : Call A)
  /-- it was woken -/
  | woke (c : Call A)
  /-- `semdequeue` -/
  | dequeue (c : Call A) (acquired : Bool)
  /-- `if(!phore.waiting)` -/
  | pass (c : Call A) (acquired : Bool)
  /-- `semwakeup`: `lock(&s->sema)` -/
  | wlock (k : Caller A) (n : Nat)
  | scan (k : Caller A) (rest : List P) (n : Nat)
  /-- `wakeup(p)` -/
  | wake (k : Caller A) (p : P) (rest : List P) (n : Nat)
  /-- `if(delta < 0 || *addr < 0)` -/
  | rel (addr : A) (delta : Int)
  /-- `value = *addr` -/
  | relread (addr : A) (delta : Int)
  /-- `CASW(addr, value, value+delta)` -/
  | relcas (addr : A) (delta value : Int)
  | ret (addr : A) (r : Res)

/-- `released` and `ones` count the units that were released and the calls that returned 1, `took`
the units that the call of a process has taken so far. -/
structure Sys (P A : Type) where
  value : A → Int
  /-- the list from `s->sema.next` on -/
  list : List P
  lock : Option P
  addr : P → Option A
  waiting : P → Bool
  pc : P → Pc P A
  released : A → Nat
  ones : A → Nat
  took : P → Nat

variable {P A : Type} [DecidableEq P] [DecidableEq A]

namespace Sys

def goto (s : Sys P A) (p : P) (k : Pc P A) : Sys P A := { s with pc := Function.update s.pc p k }

def setwaiting (s : Sys P A) (p : P) (w : Bool) : Sys P A :=
  { s with waiting := Function.update s.waiting p w }

def setlock (s : Sys P A) (l : Option P) : Sys P A := { s with lock := l }

/-- `semqueue` -/
def enqueue (s : Sys P A) (p : P) (a : A) : Sys P A :=
  { s with
    list := s.list ++ [p]
    addr := Function.update s.addr p (some a)
    waiting := Function.update s.waiting p false }

/-- `semdequeue` -/
def unqueue (s : Sys P A) (p : P) : Sys P A := { s with list := s.list.erase p }

/-- `p` swaps the value for one less. -/
def take (s : Sys P A) (p : P) (a : A) : Sys P A :=
  { s with
    value := Function.update s.value a (long (s.value a - 1))
    took := Function.update s.took p (s.took p + 1) }

def release (s : Sys P A) (a : A) (delta : Int) : Sys P A :=
  { s with
    value := Function.update s.value a (long (s.value a + delta))
    released := Function.update s.released a (s.released a + delta.toNat) }

/-- A call on `a` returns. -/
def count (s : Sys P A) (a : A) (r : Res) : Sys P A :=
  { s with ones := Function.update s.ones a (s.ones a + if r = .one then 1 else 0) }

/-- The end of `semwakeup`. -/
def unlock (s : Sys P A) (p : P) (k : Caller A) : Sys P A :=
  (s.setlock none).goto p
    (match k with
    | .acquire c acquired => .ret c.addr (c.kind.result acquired)
    | .release _ => .idle)

/-- `wakeup(q)` on the `Sema` of `q` -/
def wakeup (s : Sys P A) (q : P) : Sys P A :=
  match s.pc q with
  | .asleep c => s.goto q (.woke c)
  | _ => s

/-- The next statement of `p`, unless it waits for a lock or in `sched`. -/
def go (s : Sys P A) (p : P) : Option (Sys P A) :=
  match s.pc p with
  | .idle | .asleep _ => none
  | .enter c => some (s.goto p (if s.value c.addr < 0 then .ret c.addr .error else .try0 c))
  | .try0 c =>
    some (s.goto p
      (if 0 < s.value c.addr then .cas0 c (s.value c.addr)
      else if c.kind.blocks then .queue c
      else .ret c.addr .zero))
  | .cas0 c v =>
    if s.value c.addr = v then some ((s.take p c.addr).goto p (.ret c.addr .one))
    else some (s.goto p (.try0 c))
  | .queue c =>
    if s.lock = none then some ((s.enqueue p c.addr).goto p (.top c)) else none
  | .top c => some ((s.setwaiting p true).goto p (.retry c))
  | .retry c =>
    some (s.goto p (if 0 < s.value c.addr then .cas c (s.value c.addr) else .sleep c))
  | .cas c v =>
    if s.value c.addr = v then some ((s.take p c.addr).goto p (.dequeue c true))
    else some (s.goto p (.retry c))
  | .sleep c => some (s.goto p (if s.waiting p then .asleep c else .woke c))
  | .woke c =>
    match c.kind with
    | .sem _ => some (s.goto p (.top c))
    | .tsem _ => none
  | .dequeue c acquired =>
    if s.lock = none then some ((s.unqueue p).goto p (.pass c acquired)) else none
  | .pass c acquired =>
    some (s.goto p
      (if s.waiting p then .ret c.addr (c.kind.result acquired) else .wlock (.acquire c acquired) 1))
  | .wlock k n =>
    if s.lock = none then some ((s.setlock (some p)).goto p (.scan k s.list n)) else none
  | .scan k [] _ => some (s.unlock p k)
  | .scan k (_ :: _) 0 => some (s.unlock p k)
  | .scan k (q :: rest) (n + 1) =>
    if s.addr q = some k.addr ∧ s.waiting q then
      some ((s.setwaiting q false).goto p (.wake k q rest n))
    else some (s.goto p (.scan k rest (n + 1)))
  | .wake k q rest n => some ((s.wakeup q).goto p (.scan k rest n))
  | .rel a delta => some (s.goto p (if delta < 0 ∨ s.value a < 0 then .idle else .relread a delta))
  | .relread a delta => some (s.goto p (.relcas a delta (s.value a)))
  | .relcas a delta v =>
    if s.value a = v then some ((s.release a delta).goto p (.wlock (.release a) delta.toNat))
    else some (s.goto p (.relread a delta))
  | .ret a r => some ((s.count a r).goto p .idle)

end Sys

inductive Act (A : Type) where
  | semacquire (addr : A) (block : Bool)
  | tsemacquire (addr : A) (ms : Int)
  | semrelease (addr : A) (delta : Int)
  | go
  /-- a note rouses the process from `sleep`, which raises an error -/
  | note
  /-- the timer of `tsleep` rouses it -/
  | timer
  /-- `ms -= TK2MS(m->ticks-t)` and `if(ms <= 0)` -/
  | ticks (d : Int)

namespace Sys

def begin (s : Sys P A) (p : P) : Sys P A := { s with took := Function.update s.took p 0 }

/-- The process begins a call. -/
def start (s : Sys P A) (p : P) (k : Pc P A) : Option (Sys P A) :=
  match s.pc p with
  | .idle => some ((s.begin p).goto p k)
  | _ => none

def act (s : Sys P A) (p : P) : Act A → Option (Sys P A)
  | .semacquire a block => s.start p (.enter ⟨a, .sem block⟩)
  | .tsemacquire a ms => s.start p (.enter ⟨a, .tsem ms⟩)
  | .semrelease a delta => s.start p (.rel a delta)
  | .go => s.go p
  | .note =>
    match s.pc p with
    | .sleep c | .asleep c | .woke c => some (s.goto p (.dequeue c false))
    | _ => none
  | .timer =>
    match s.pc p with
    | .sleep ⟨a, .tsem ms⟩ | .asleep ⟨a, .tsem ms⟩ => some (s.goto p (.woke ⟨a, .tsem ms⟩))
    | _ => none
  | .ticks d =>
    match s.pc p with
    | .woke ⟨a, .tsem ms⟩ =>
      let ms := long (ms - d)
      some (s.goto p (if ms ≤ 0 then .dequeue ⟨a, .tsem ms⟩ false else .top ⟨a, .tsem ms⟩))
    | _ => none

end Sys

/-- All interleavings, from the values `start`. -/
def sem (start : A → Int) : Lts (Sys P A) (P × Act A) where
  init s := s.value = start ∧ (∀ a, long (start a) = start a) ∧ s.list = [] ∧ s.lock = none ∧
    (∀ p, s.pc p = .idle) ∧ (∀ a, s.released a = 0) ∧ (∀ a, s.ones a = 0)
  step s e s' := s.act e.1 e.2 = some s'

end NixMark.Sem
