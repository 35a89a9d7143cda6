import NixMark.Lib.Lts
import NixMark.Qio.Queue

/-!
# Processes on a queue

The processes that use one queue, as a transition system. A step is one section under `ilock`, one
look at the queue outside it, or one action of `sleep`, `wakeup`, `qlock` and `qunlock`; the steps
of the processes interleave.

* `Pc`: where a process is in its call; `Sys`: the queue, the processes, the locks `rlock` and
  `wlock` and the rendezvous `rr` and `wr`.
* `Op`, `Act`: the calls and the choices of the environment (the address that `malloc` returns, a
  note that interrupts a sleep); `Out`: the bytes that a step queues or delivers.
* `next`: the step of a process; `Owned`: the blocks given to the queue belong to the caller.
* `lts`: the runs of a queue that was just opened.
-/

namespace NixMark.Qio

open Lib

abbrev Pid := Nat

/-- The readers (`rlock`, `rr`) and the writers (`wlock`, `wr`) of a queue. -/
inductive Side where
  | r
  | w
deriving DecidableEq, Repr

/-- Where a process is; `k` is where it goes on. -/
inductive Pc where
  | idle
  | wakeup (x : Side) (k : Pc)
  /-- in `sleep`, before it tests its condition -/
  | sleep (x : Side) (k : Pc)
  | asleep (x : Side) (k : Pc)
  | qunlock (x : Side) (k : Pc)
  /-- in the flow control loop of `qbwrite`, at its test -/
  | flow (k : Pc)
  /-- in the flow control loop of `qbwrite`, about to set `Qflow` -/
  | setflow (k : Pc)
  /-- in the loop of `qwrite`, with the bytes `p` left -/
  | qwrite (p : List UInt8)
  | qiwrite (p : List UInt8) (dowakeup : Bool)
  /-- in `qread` with `rlock` held, about to lock the queue -/
  | qread (len : Nat)
  | qbread (len : Nat)
  /-- in the copy of `qread` -/
  | copy (len : Nat) (first : List Block) (n : Nat)
deriving DecidableEq, Repr

/-- The queue and its processes. -/
structure Sys where
  q : Queue
  pc : Pid → Pc
  lock : Side → Option Pid
  rendez : Side → Option Pid

/-- The calls of an idle process. -/
inductive Op where
  | qpass (b : List Block)
  | qpassnolim (b : List Block)
  | qproduce (p : List UInt8)
  | qbwrite (b : Block)
  | qwrite (p : List UInt8)
  | qiwrite (p : List UInt8)
  | qaddlist (b : List Block)
  | qget
  | qdiscard (len : Nat)
  | qconsume (len : Nat)
  | qread (len : Nat)
  | qbread (len : Nat)
  | qremove
  | qputback (b : Block)
  | pullupqueue (n : Nat)
  | qflush
  | qclose
  | qhangup (msg : String)
  | qreopen

/-- A call, the next step of a call, or a note. `m` is what `malloc` returns where the step
allocates a block; for an interrupt allocation `none` is its failure. -/
inductive Act where
  | call (op : Op) (m : Option Nat)
  | go (m : Option Nat)
  | note

/-- The bytes that a step queues, or delivers to a reader that asked for at most `asked`. -/
inductive Out where
  | silent
  | accept (p : List UInt8)
  | deliver (asked : Option Nat) (p : List UInt8) (ret : Int)
deriving DecidableEq, Repr

namespace Sys

/-- Process `p` goes to `k`. -/
def goto (s : Sys) (p : Pid) (k : Pc) : Sys := { s with pc := Function.update s.pc p k }

def setq (s : Sys) (q : Queue) : Sys := { s with q := q }

def setlock (s : Sys) (x : Side) (p : Option Pid) : Sys :=
  { s with lock := Function.update s.lock x p }

def setrendez (s : Sys) (x : Side) (p : Option Pid) : Sys :=
  { s with rendez := Function.update s.rendez x p }

/-- The process after a section: `wakeup` when the section asks for it, then `k`. -/
def after (x : Side) (dowakeup : Bool) (k : Pc) : Pc := if dowakeup then .wakeup x k else k

/-- The step that ends the section of a writer. -/
def wrote (s : Sys) (p : Pid) (w : Wrote) (bytes : List UInt8) (k : Pc) : Sys × Out :=
  ((s.setq w.q).goto p (after .r w.dowakeup k), if w.queued then .accept bytes else .silent)

/-- The step that ends the section of a reader. -/
def took (s : Sys) (p : Pid) (t : Took) (asked : Option Nat) (k : Pc) : Sys × Out :=
  ((s.setq t.q).goto p (after .w t.dowakeup k), .deliver asked t.out t.ret)

/-- `qbwrite` up to its flow control loop, with `wlock` free. On a closed queue it raises an error,
which ends the caller too. -/
def qbwriteStep (s : Sys) (p : Pid) (b : Block) (k : Pc) : Sys × Out :=
  let w := qbwrite s.q b
  (s.setlock .w (some p)).wrote p w b.data
    (if w.queued then .flow k else .qunlock .w (if s.q.Qclosed then .idle else k))

/-- The first section of `qread`. -/
def qreadStep (s : Sys) (p : Pid) (len : Nat) : Sys × Out :=
  let g := qreadGrab s.q len
  match g.wait with
  | .data => ((s.setq g.q).goto p (.copy len g.first g.n), .silent)
  | .closed => ((s.setq g.q).goto p (.qunlock .r .idle), .deliver (some len) [] 0)
  | .error => ((s.setq g.q).goto p (.qunlock .r .idle), .silent)
  | .sleep => ((s.setq g.q).goto p (.sleep .r (.qread len)), .silent)

/-- The section of `qbread`. -/
def qbreadStep (s : Sys) (p : Pid) (m len : Nat) : Sys × Out :=
  match qwait s.q with
  | (q, .data) => s.took p (qbread q m len) (some len) (.qunlock .r .idle)
  | (q, .closed) => ((s.setq q).goto p (.qunlock .r .idle), .deliver (some len) [] 0)
  | (q, .error) => ((s.setq q).goto p (.qunlock .r .idle), .silent)
  | (q, .sleep) => ((s.setq q).goto p (.sleep .r (.qbread len)), .silent)

/-- The bytes of one round of `qwrite` and `qiwrite`. -/
def chunk (p : List UInt8) : List UInt8 := p.take Maxatomic

/-- Whether the loops of `qwrite` and `qiwrite` end after a round. -/
def lastchunk (s : Sys) (p : List UInt8) : Bool := p.length ≤ Maxatomic || s.q.Qmsg

/-- One round of `qwrite`. -/
def qwriteStep (s : Sys) (p : Pid) (m : Nat) (d : List UInt8) : Option (Sys × Out) :=
  let k := if s.lastchunk d then .idle else .qwrite (d.drop Maxatomic)
  if s.q.bypass then some (s.goto p k, .silent)
  else if s.lock .w = none then
    some (s.qbwriteStep p ((allocb m (chunk d).length).put (chunk d)) k)
  else none

/-- One round of `qiwrite`; `dowakeup` stays set from an earlier round. -/
def qiwriteStep (s : Sys) (p : Pid) (m : Option Nat) (d : List UInt8) (dowakeup : Bool) :
    Sys × Out :=
  match iallocb m (chunk d).length with
  | none => (s.goto p .idle, .silent)
  | some b =>
    let w := qiwrite s.q (b.put (chunk d))
    if w.queued then
      let dowakeup := dowakeup || w.dowakeup
      s.wrote p { w with dowakeup := dowakeup } (chunk d)
        (if s.lastchunk d then .idle else .qiwrite (d.drop Maxatomic) dowakeup)
    else (s.goto p .idle, .silent)

/-- The condition that `sleep` tests. -/
def ready (s : Sys) : Side → Bool
  | .r => notempty s.q
  | .w => qnotfull s.q

/-- Where a process goes on that is woken. -/
def woken : Pc → Pc
  | .asleep _ k => k
  | k => k

/-- `wakeup(&q->rr)` or `wakeup(&q->wr)`. -/
def wake (s : Sys) (x : Side) : Sys :=
  match s.rendez x with
  | none => s
  | some p => (s.setrendez x none).goto p (woken (s.pc p))

/-- An idle process calls `op`. -/
def call (s : Sys) (p : Pid) (m : Option Nat) : Op → Option (Sys × Out)
  | .qpass b => some (s.wrote p (Qio.qpass s.q b) (bytes b) .idle)
  | .qpassnolim b => some (s.wrote p (Qio.qpassnolim s.q b) (bytes b) .idle)
  | .qproduce d => some (s.wrote p (Qio.qproduce s.q m d) d .idle)
  | .qbwrite b =>
    if s.q.bypass then some (s, .silent)
    else if s.lock .w = none then some (s.qbwriteStep p b .idle)
    else none
  | .qwrite d => some (s.goto p (.qwrite d), .silent)
  | .qiwrite d => some (s.goto p (.qiwrite d false), .silent)
  | .qaddlist b => some (s.setq (Qio.qaddlist s.q b), .accept (bytes b))
  | .qget => some (s.took p (Qio.qget s.q) none .idle)
  | .qdiscard len => some (s.took p (Qio.qdiscard s.q len) (some len) .idle)
  | .qconsume len => some (s.took p (Qio.qconsume s.q len) (some len) .idle)
  | .qread len =>
    if s.lock .r = none then some ((s.setlock .r (some p)).qreadStep p len) else none
  | .qbread len =>
    match m with
    | some m => if s.lock .r = none then some ((s.setlock .r (some p)).qbreadStep p m len) else none
    | none => none
  | .qremove =>
    let r := Qio.qremove s.q
    some (s.setq r.1, .deliver none (bytes r.2.toList) 0)
  | .qputback b => some (s.setq (Qio.qputback s.q b), .silent)
  | .pullupqueue n =>
    match m with
    | some m => (Qio.pullupqueue s.q m n).map fun q => (s.setq q, .silent)
    | none => none
  | .qflush => some ((s.setq (Qio.qflush s.q)).goto p (.wakeup .w .idle), .silent)
  | .qclose => some ((s.setq (Qio.qclose s.q)).goto p (.wakeup .r (.wakeup .w .idle)), .silent)
  | .qhangup msg =>
    some ((s.setq (Qio.qhangup s.q msg)).goto p (.wakeup .r (.wakeup .w .idle)), .silent)
  | .qreopen => some (s.setq (Qio.qreopen s.q), .silent)

/-- A process that is in a call goes on. -/
def go (s : Sys) (p : Pid) (m : Option Nat) : Option (Sys × Out) :=
  match s.pc p with
  | .idle => none
  | .wakeup x k => some ((s.goto p k).wake x, .silent)
  | .sleep x k =>
    if s.ready x then some (s.goto p k, .silent)
    else some ((s.setrendez x (some p)).goto p (.asleep x k), .silent)
  | .asleep _ _ => none
  | .qunlock x k => some ((s.setlock x none).goto p k, .silent)
  | .flow k =>
    some (s.goto p (if s.q.noblock || qnotfull s.q then .qunlock .w k else .setflow k), .silent)
  | .setflow k => some ((s.setq { s.q with Qflow := true }).goto p (.sleep .w (.flow k)), .silent)
  | .qwrite d => m.bind fun m => s.qwriteStep p m d
  | .qiwrite d dowakeup => some (s.qiwriteStep p m d dowakeup)
  | .qread len => some (s.qreadStep p len)
  | .qbread len => m.map fun m => s.qbreadStep p m len
  | .copy len first n => some (s.took p (qreadDone s.q len first n) (some len) (.qunlock .r .idle))

/-- A note ends the sleep of a process, which releases its lock and fails. -/
def note (s : Sys) (p : Pid) : Option (Sys × Out) :=
  match s.pc p with
  | .sleep x _ => some (s.goto p (.qunlock x .idle), .silent)
  | .asleep x _ => some ((s.setrendez x none).goto p (.qunlock x .idle), .silent)
  | _ => none

/-- The step of process `p`. -/
def next (s : Sys) (p : Pid) : Act → Option (Sys × Out)
  | .call op m => if s.pc p = .idle then s.call p m op else none
  | .go m => s.go p m
  | .note => s.note p

end Sys

/-! ## Ownership -/

/-- The blocks that a process took off the queue and still holds. -/
def Pc.held : Pc → List Block
  | .copy _ first _ => first
  | _ => []

/-- The block at `a` is linked in the queue or held by a process. -/
def Sys.InUse (s : Sys) (a : Addr) : Prop :=
  a ∈ addrs s.q.bfirst ∨ ∃ p, a ∈ addrs (s.pc p).held

/-- The data of the first block of a chain. -/
def firstlen : List Block → Nat
  | [] => 0
  | b :: _ => BLEN b

/-- The addresses of the blocks that a step brings to the queue. -/
def Sys.incoming (s : Sys) (p : Pid) : Act → List Addr
  | .call op m =>
    match op, m with
    | .qpass b, _ | .qpassnolim b, _ | .qaddlist b, _ => addrs b
    | .qbwrite b, _ | .qputback b, _ => [b.addr]
    | .qproduce d, some m => [(allocb m d.length).addr]
    | .qbread len, some m => [(allocb m (firstlen s.q.bfirst - len)).addr]
    | .pullupqueue n, some m => [(allocb m n).addr]
    | _, _ => []
  | .go (some m) =>
    match s.pc p with
    | .qwrite d | .qiwrite d _ => [(allocb m (Sys.chunk d).length).addr]
    | .qbread len => [(allocb m (firstlen s.q.bfirst - len)).addr]
    | _ => []
  | .go none | .note => []

/-- The call is given a chain. -/
def Op.NonNil : Op → Prop
  | .qpass b | .qpassnolim b | .qaddlist b => b ≠ []
  | _ => True

def Act.NonNil : Act → Prop
  | .call op _ => op.NonNil
  | _ => True

/-- The blocks that come to the queue belong to the caller: they are distinct, and none of them is
in use. -/
structure Sys.Owned (s : Sys) (p : Pid) (a : Act) : Prop where
  nonNil : a.NonNil
  nodup : (s.incoming p a).Nodup
  fresh : ∀ x ∈ s.incoming p a, ¬ s.InUse x

/-- A step: who takes it, its choices, and what it shows. -/
structure Label where
  pid : Pid
  act : Act
  out : Out

/-- The processes of a queue `q` that was just opened. -/
def Sys.start (q : Queue) : Sys :=
  { q := q, pc := fun _ => .idle, lock := fun _ => none, rendez := fun _ => none }

/-- The queue as `qopen` or `qbypass` make it. -/
inductive Opened : Queue → Prop
  | qopen (limit : Int) (msg coalesce : Bool) : Opened (qopen limit msg coalesce)
  | qbypass : Opened qbypass

/-- The runs of the processes on a queue that was just opened. -/
def lts : Lts Sys Label where
  init s := ∃ q, Opened q ∧ s = Sys.start q
  step s l s' := s.Owned l.pid l.act ∧ s.next l.pid l.act = some (s', l.out)

end NixMark.Qio
