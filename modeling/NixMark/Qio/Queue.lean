import NixMark.Qio.Block

/-!
# Queues

The operations of `qio.c` on one queue. Each definition is one section of the source between
`ilock` and `iunlock` (or a function called with the queue locked); the calls of `wakeup` that
follow a section are returned as flags. The `kick` routine is code of the drivers and is left out.
The counts `len` and `dlen` are integers: less than 2^31 bytes are queued.

* `Queue`, `qopen`, `qbypass`.
* Writers: `qpass`, `qpassnolim`, `qproduce`, `qbwrite`, `qiwrite`, `qaddlist`, `qputback`.
* Readers: `qget`, `qdiscard`, `qconsume`, `qremove`, `qbread`, `qread` (before and after its
  unlocked copy), `pullupqueue`.
* State changes: `qflush`, `qclose`, `qhangup`, `qreopen`.
-/

namespace NixMark.Qio

/-- A `Queue`. `bfirst` is the chain of the blocks linked from `bfirst`. -/
structure Queue where
  bfirst : List Block
  blast : Option Addr
  len : Int
  dlen : Int
  limit : Int
  inilim : Int
  Qstarve : Bool
  Qmsg : Bool
  Qclosed : Bool
  Qflow : Bool
  Qcoalesce : Bool
  noblock : Bool
  eof : Nat
  /-- a `bypass` routine is set -/
  bypass : Bool
  err : String
deriving DecidableEq, Repr

/-- `qopen(limit, msg, ..)`, where `msg` has the bits `Qmsg` and `Qcoalesce`. -/
def qopen (limit : Int) (msg coalesce : Bool) : Queue :=
  { bfirst := [], blast := none, len := 0, dlen := 0, limit := limit, inilim := limit
    Qstarve := true, Qmsg := msg, Qclosed := false, Qflow := false, Qcoalesce := coalesce
    noblock := false, eof := 0, bypass := false, err := "" }

def qbypass : Queue :=
  { bfirst := [], blast := none, len := 0, dlen := 0, limit := 0, inilim := 0
    Qstarve := false, Qmsg := false, Qclosed := false, Qflow := false, Qcoalesce := false
    noblock := false, eof := 0, bypass := true, err := "" }

def Ehungup : String := "i/o on hungup channel"

def Maxatomic : Nat := 64 * 1024

/-! ## Adding blocks -/

/-- The chain after `blast->next = b`: the write is seen only if `blast` is linked. -/
def setnext (blast : Option Addr) (b : List Block) : List Block → List Block
  | [] => []
  | c :: cs => if blast = some c.addr then c :: b else c :: setnext blast b cs

/-- `if(q->bfirst) q->blast->next = b; else q->bfirst = b;` with `blast` set to the last block. -/
def Queue.link (q : Queue) (b : List Block) : Queue :=
  { q with
    bfirst := if q.bfirst = [] then b else setnext q.blast b q.bfirst
    blast := b.getLast?.map (·.addr) }

/-- Link the chain `b` and count it. -/
def qaddlist (q : Queue) (b : List Block) : Queue :=
  let q := q.link b
  { q with len := q.len + blockalloclen b, dlen := q.dlen + blocklen b }

/-- What the section of a writer leaves: the queue, the value returned, whether the blocks were
queued, and whether `q->rr` is to be woken. -/
structure Wrote where
  q : Queue
  ret : Int
  queued : Bool
  dowakeup : Bool

/-- `if(q->state & Qstarve){ q->state &= ~Qstarve; dowakeup = 1; }`. -/
def Queue.fed (q : Queue) (ret : Int) : Wrote :=
  { q := { q with Qstarve := false }, ret := ret, queued := true, dowakeup := q.Qstarve }

/-- The section leaves the queue as it is. -/
def Queue.refused (q : Queue) (ret : Int) : Wrote :=
  { q := q, ret := ret, queued := false, dowakeup := false }

/-- The value `BALLOC(b)` of the first block. -/
def firstalloc : List Block → Int
  | [] => 0
  | b :: _ => BALLOC b

def qpassnolim (q : Queue) (b : List Block) : Wrote :=
  if q.Qclosed then q.refused (firstalloc b)
  else
    let q := qaddlist q b
    let q := if q.len ≥ q.limit.tdiv 2 then { q with Qflow := true } else q
    q.fed (blockalloclen b)

def qpass (q : Queue) (b : List Block) : Wrote :=
  if q.len ≥ q.limit then q.refused (-1)
  else qpassnolim q b

/-- `qproduce`, where `malloc` returned `m` (`none`: `iallocb` gave no block). -/
def qproduce (q : Queue) (m : Option Nat) (p : List UInt8) : Wrote :=
  if q.len ≥ q.limit then Queue.refused { q with Qflow := true } (-1)
  else
    match iallocb m p.length with
    | none => q.refused 0
    | some b =>
      let w := (qaddlist q [b.put p]).fed p.length
      if w.q.len ≥ w.q.limit then { w with q := { w.q with Qflow := true } } else w

/-- The first section of `qbwrite`: the queue is open or the call fails; a full queue that does
not block drops the block. -/
def qbwrite (q : Queue) (b : Block) : Wrote :=
  if q.Qclosed then q.refused (-1)
  else if q.len ≥ q.limit ∧ q.noblock then q.refused (BLEN b)
  else (qaddlist q [b]).fed (BLEN b)

/-- The section of `qiwrite` for one block. -/
def qiwrite (q : Queue) (b : Block) : Wrote :=
  if q.dlen ≥ 32 * 1024 then q.refused 0
  else (qaddlist q [b]).fed (BLEN b)

/-- `qnotfull`. -/
def qnotfull (q : Queue) : Bool := q.len < q.limit || q.Qclosed

/-- `notempty`. -/
def notempty (q : Queue) : Bool := q.Qclosed || q.bfirst ≠ []

/-! ## Taking blocks -/

def qremove (q : Queue) : Queue × Option Block :=
  match q.bfirst with
  | [] => (q, none)
  | b :: next =>
    ({ q with bfirst := next, dlen := q.dlen - BLEN b, len := q.len - BALLOC b }, some b)

def qputback (q : Queue) (b : Block) : Queue :=
  { q with
    bfirst := b :: q.bfirst
    blast := if q.bfirst = [] then some b.addr else q.blast
    len := q.len + BALLOC b
    dlen := q.dlen + BLEN b }

/-- If the writer is flow controlled, restart: the flag says that `q->wr` is to be woken. The
readers that do not call `qwakeup_iunlock` repeat its test. -/
def qwakeup_iunlock (q : Queue) : Queue × Bool :=
  if q.Qflow ∧ q.len < q.limit.tdiv 2 then ({ q with Qflow := false }, true) else (q, false)

/-- What the section of a reader leaves: the queue, the block or the bytes taken out, the value
returned, and whether `q->wr` is to be woken. -/
structure Took where
  q : Queue
  out : List UInt8
  ret : Int
  dowakeup : Bool

def Queue.took (q : Queue) (out : List UInt8) (ret : Int) : Took :=
  let r := qwakeup_iunlock q
  { q := r.1, out := out, ret := ret, dowakeup := r.2 }

def qget (q : Queue) : Took :=
  match qremove q with
  | (q, none) => { q := { q with Qstarve := true }, out := [], ret := 0, dowakeup := false }
  | (q, some b) => q.took b.data (BLEN b)

/-- The loop of `qdiscard`, with `len` bytes left to discard. -/
def qdiscardLoop : List Block → Queue → Nat → Queue × List UInt8
  | [], q, _ => (q, [])
  | b :: next, q, len =>
    if len = 0 then (q, [])
    else if BLEN b ≤ len then
      let r := qdiscardLoop next (qremove q).1 (len - BLEN b)
      (r.1, b.data ++ r.2)
    else ({ q with bfirst := b.skip len :: next, dlen := q.dlen - len }, b.data.take len)

def qdiscard (q : Queue) (len : Nat) : Took :=
  let r := qdiscardLoop q.bfirst q len
  r.1.took r.2 r.2.length

/-- The loop of `qconsume` over the empty blocks at the front. Only `len` is adjusted. -/
def skipempty : List Block → Queue → Queue
  | [], q => q
  | b :: next, q =>
    if BLEN b > 0 then q else skipempty next { q with bfirst := next, len := q.len - BALLOC b }

/-- The part of `qconsume` that copies out of the block `b`, which has data. -/
def consumeblock (q : Queue) (b : Block) (next : List Block) (len : Nat) : Took :=
  let n := BLEN b
  let len := if n < len then n else len
  let q := { q with bfirst := b.skip len :: next, dlen := q.dlen - len }
  -- discard the block if we're done with it
  let q := if q.Qmsg || len = n then (qremove q).1 else q
  q.took (b.data.take len) len

def qconsume (q : Queue) (len : Nat) : Took :=
  let q := skipempty q.bfirst q
  match q.bfirst with
  | [] => { q := { q with Qstarve := true }, out := [], ret := -1, dowakeup := false }
  | b :: next => consumeblock q b next len

/-- What `qwait` finds. -/
inductive Wait where
  | data
  | closed
  | error
  | sleep
deriving DecidableEq, Repr

/-- One round of the loop of `qwait`. -/
def qwait (q : Queue) : Queue × Wait :=
  if q.bfirst ≠ [] then (q, .data)
  else if q.Qclosed then
    let q := { q with eof := q.eof + 1 }
    if q.eof > 3 then (q, .error)
    else if q.err ≠ "" ∧ q.err ≠ Ehungup then (q, .error)
    else (q, .closed)
  else ({ q with Qstarve := true }, .sleep)

/-- `qbread` once there is a block, where an `allocb` gets the address `m`. -/
def qbread (q : Queue) (m len : Nat) : Took :=
  match qremove q with
  | (q, none) => q.took [] 0
  | (q, some b) =>
    if BLEN b > len then
      let q := if q.Qmsg then q
        else qputback q ((allocb m (BLEN b - len)).put (b.data.drop len))
      q.took (b.cut len).data (BLEN (b.cut len))
    else q.took b.data (BLEN b)

/-- The loop of `qread` that drops empty blocks from the front when coalescing. -/
def dropempty : List Block → Queue → Queue
  | [], q => q
  | b :: next, q => if BLEN b > 0 then q else dropempty next (qremove q).1

/-- The loop of `qread` that takes the first block and the following ones that fit in the read,
with `n` bytes taken so far. -/
def gather (len : Nat) : List Block → Queue → Nat → Queue × List Block × Nat
  | [], q, n => (q, [], n)
  | b :: next, q, n =>
    let q := (qremove q).1
    let n := n + BLEN b
    match next with
    | [] => (q, [b], n)
    | c :: _ =>
      if n + BLEN c > len then (q, [b], n)
      else
        let r := gather len next q n
        (r.1, b :: r.2.1, r.2.2)

/-- What the first section of `qread` leaves: what `qwait` found, and the blocks taken with their
bytes. -/
structure Grabbed where
  q : Queue
  wait : Wait
  first : List Block
  n : Nat

/-- The first section of `qread`, up to its unlocked copy. -/
def qreadGrab (q : Queue) (len : Nat) : Grabbed :=
  let q := if q.Qcoalesce then dropempty q.bfirst q else q
  match qwait q with
  | (q, .data) =>
    if q.Qcoalesce then
      let r := gather len q.bfirst q 0
      { q := r.1, wait := .data, first := r.2.1, n := r.2.2 }
    else
      match qremove q with
      | (q, none) => { q := q, wait := .data, first := [], n := 0 }
      | (q, some b) => { q := q, wait := .data, first := [b], n := BLEN b }
  | (q, w) => { q := q, wait := w, first := [], n := 0 }

/-- The last section of `qread`: the copy of the blocks `first` with `n` bytes into `len` bytes of
memory, and the partial block that is left. -/
def qreadDone (q : Queue) (len : Nat) (first : List Block) (n : Nat) : Took :=
  match bl2mem first len with
  | (out, []) => q.took out n
  | (out, b :: _) =>
    let q := if q.Qmsg then q else qputback q b
    q.took out (n - BLEN b : Int)

/-- `pullupqueue`; on an empty queue the source follows a null pointer. -/
def pullupqueue (q : Queue) (m n : Nat) : Option Queue :=
  match q.bfirst with
  | [] => none
  | b :: next =>
    if BLEN b ≥ n then some q
    else
      let bs := pullupblock m b next n
      some { q with bfirst := bs, blast := bs.getLast?.map (·.addr) }

/-! ## State changes -/

def qclose (q : Queue) : Queue :=
  { q with
    Qclosed := true, Qflow := false, Qstarve := false, err := Ehungup
    bfirst := [], len := 0, dlen := 0, noblock := false }

/-- `qhangup`, where `msg` is the message cut to `ERRMAX-1` bytes. -/
def qhangup (q : Queue) (msg : String) : Queue :=
  { q with Qclosed := true, err := if msg = "" then Ehungup else msg }

def qreopen (q : Queue) : Queue :=
  { q with Qclosed := false, Qstarve := true, eof := 0, limit := q.inilim }

def qflush (q : Queue) : Queue := { q with bfirst := [], len := 0, dlen := 0 }

end NixMark.Qio
