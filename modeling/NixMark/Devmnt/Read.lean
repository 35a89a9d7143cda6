import NixMark.Qio.Acct

/-!
# Reading 9P replies

`mntrpcread` of `devmnt.c`: a reply is put together in the input queue `mnt->q` of the mount from
the blocks that `bread` of the served channel returns. `convM2S` is a function of the C library
and a parameter of the model. A `Fault` stands for what the C program does where it follows a null
pointer or leaves the memory of its blocks.

* `Bread`, `avail`: what the calls of `bread` give, and the bytes that come before one fails.
* `Malloc`, `ConvM2S`: the memory that `allocb` gets, and the decoder.
* `doread`, `hang`, `mntrpcread`: the functions of the source.
-/

namespace NixMark.Devmnt

open Qio

/-! ## The world around -/

/-- What a call of `bread` gives: a chain of blocks (`[]` is the null pointer), or an error raised
in it. -/
inductive Bread where
  | blocks (b : List Block)
  | error
deriving DecidableEq, Repr

/-- The bytes that are read until `bread` fails. -/
def avail : List Bread → List UInt8
  | [] => []
  | .error :: _ => []
  | .blocks b :: src => if blocklen b = 0 then [] else bytes b ++ avail src

/-- The addresses of the blocks still to come. -/
def srcaddrs : List Bread → List Addr
  | [] => []
  | .error :: src => srcaddrs src
  | .blocks b :: src => addrs b ++ srcaddrs src

/-- What `malloc` returns to `allocb(n)` while the blocks at the addresses `used` are there. -/
structure Malloc where
  base : List Addr → Nat → Nat
  fresh : ∀ used n, (allocb (base used n) n).addr ∉ used

/-- `convM2S` on memory that begins with the given bytes, told that there are `n` of them: the
message found, and how many bytes are looked at. -/
structure ConvM2S (R : Type) where
  conv : List UInt8 → Nat → Option R
  seen : List UInt8 → Nat → Nat

def BIT8SZ : Nat := 1
def BIT16SZ : Nat := 2
def BIT32SZ : Nat := 4
def Rread : UInt8 := 117

/-- What `convM2S` documents: it looks at the bytes that it is told about only, of an `Rread` at the
header only, and a message that is shorter than its header is none. -/
structure ConvM2S.Documented {R : Type} (cv : ConvM2S R) : Prop where
  seen_le : ∀ p n, cv.seen p n ≤ n
  conv_take : ∀ p n, cv.conv (p.take n) n = cv.conv p n
  short : ∀ p n, n < BIT32SZ + BIT8SZ + BIT16SZ → cv.conv p n = none
  Rread_seen : ∀ p n, p[BIT32SZ]? = some Rread → cv.seen p n ≤ BIT32SZ + BIT8SZ + BIT16SZ + BIT32SZ
  Rread_take : ∀ p n, p[BIT32SZ]? = some Rread →
    cv.conv (p.take (BIT32SZ + BIT8SZ + BIT16SZ + BIT32SZ)) n = cv.conv p n
  Rread_short : ∀ p n, p[BIT32SZ]? = some Rread → n < BIT32SZ + BIT8SZ + BIT16SZ + BIT32SZ →
    cv.conv p n = none

/-! ## Machine integers -/

/-- The value of an `int`. -/
def int32 (x : Int) : Int := (x + 2147483648) % 4294967296 - 2147483648

/-- An `int` as a `uint`. -/
def uint32 (x : Int) : Nat := (x % 4294967296).toNat

/-- The byte at `p[i]`. -/
def byteat (p : List UInt8) (i : Nat) : Int := ((p.getD i 0).toNat : Int)

/-- The macro `GBIT32`, an `int`. -/
def GBIT32 (p : List UInt8) : Int :=
  int32 (byteat p 0 + byteat p 1 * 256 + byteat p 2 * 65536 + byteat p 3 * 16777216)

/-! ## The functions of the source -/

/-- Why `doread` does not get the bytes: `bread` returned nothing, raised an error, or did not
return. -/
inductive Stop where
  | eof
  | error
  | blocked
deriving DecidableEq, Repr

/-- Where the C program fails: it follows a null `q->bfirst` or `nb`, the decoder reads beyond the
bytes pulled up, `allocb` gets a negative size, or `memmove` copies from before the data. -/
inductive Fault where
  | bfirst
  | nb
  | decode
  | allocb
  | memmove
deriving DecidableEq, Repr

structure Doread where
  stop : Option Stop
  q : Queue
  src : List Bread

def doread (len : Int) : Queue → List Bread → Doread
  | q, [] => if q.dlen < len then ⟨some .blocked, q, []⟩ else ⟨none, q, []⟩
  | q, .error :: src =>
    if q.dlen < len then ⟨some .error, q, src⟩ else ⟨none, q, .error :: src⟩
  | q, .blocks b :: src =>
    if q.dlen < len then
      if blocklen b = 0 then ⟨some .eof, q, src⟩ else doread len (qaddlist q b) src
    else ⟨none, q, .blocks b :: src⟩

/-- The blocks that there are. -/
def inuse (q : Queue) (src : List Bread) : List Addr := addrs q.bfirst ++ srcaddrs src

/-- `nb = pullupqueue(mnt->q, n)`, where `nb` is used afterwards. -/
def pullup (M : Malloc) (q : Queue) (src : List Bread) (n : Int) : Except Fault (Block × Queue) :=
  match pullupqueue q (M.base (inuse q src) n.toNat) n.toNat with
  | none => .error .bfirst
  | some q =>
    match q.bfirst with
    | [] => .error .nb
    | nb :: _ => .ok (nb, q)

/-- The block that holds the bytes of `b` from `len` on, for the queue. -/
def unused (M : Malloc) (used : List Addr) (b : Block) (len : Nat) : Block :=
  (allocb (M.base used (BLEN b - len)) (BLEN b - len)).put (b.data.drop len)

/-- The loop that hangs the blocks of the queue off the reply. -/
def hang (M : Malloc) (used : List Addr) : List Block → Queue → Int → Int →
    Except Fault (List Block × Queue)
  | [], _, _, _ => .error .bfirst
  | b :: next, q, hlen, len =>
    let q := (qremove q).1
    let b := if hlen > 0 then b.skip hlen.toNat else b
    let len := if hlen > 0 then int32 (len - hlen) else len
    let i : Int := BLEN b
    if i ≤ len then
      if len - i > 0 then (hang M used next q 0 (len - i)).map fun r => (b :: r.1, r.2)
      else .ok ([b], q)
    -- split block and put unused bit back
    else if int32 (i - len) < 0 then .error .allocb
    else if len < 0 then .error .memmove
    else .ok ([b.cut len.toNat], qputback q (unused M used b len.toNat))

/-- What a call of `mntrpcread` does: it returns 0, with the reply and `r->b`; it returns -1; an
error is raised in it; `bread` does not return; or it fails. -/
inductive Ret (R : Type) where
  | ok (reply : R) (b : List Block)
  | bad
  | error
  | blocked
  | fault (f : Fault)
deriving DecidableEq, Repr

def Stop.ret {R : Type} : Stop → Ret R
  | .eof => .bad
  | .error => .error
  | .blocked => .blocked

/-- The value of a call, with the queue that it leaves and the calls of `bread` not yet made. -/
structure Call (R : Type) where
  ret : Ret R
  q : Queue
  src : List Bread

variable {R : Type}

/-- The header is everything except data. -/
def hlenof (t : UInt8) (len : Int) : Int :=
  if t = Rread then (BIT32SZ + BIT8SZ + BIT16SZ + BIT32SZ : Nat) else len

/-- The part of `mntrpcread` from the call of `convM2S`, where `nb` is the header. -/
def decode (M : Malloc) (cv : ConvM2S R) (nb : Block) (q : Queue) (src : List Bread)
    (hlen len : Int) : Call R :=
  if cv.seen nb.data (uint32 len) > BLEN nb then ⟨.fault .decode, q, src⟩
  else
    match cv.conv nb.data (uint32 len) with
    | none => ⟨.bad, (qdiscard q len.toNat).q, src⟩  -- bad message, dump it
    | some reply =>
      match hang M (inuse q src) q.bfirst q hlen len with
      | .error f => ⟨.fault f, q, src⟩
      | .ok (b, q) => ⟨.ok reply b, q, src⟩

/-- The part of `mntrpcread` that reads in the rest of the message, where `nb` holds its length,
type and tag. -/
def readrest (M : Malloc) (cv : ConvM2S R) (msize : Int) (nb : Block) (q : Queue)
    (src : List Bread) : Call R :=
  let len := GBIT32 nb.data
  if len > msize then ⟨.bad, (qdiscard q q.dlen.toNat).q, src⟩
  else
    let d := doread len q src
    match d.stop with
    | some s => ⟨s.ret, d.q, d.src⟩
    | none =>
      let hlen := hlenof (nb.data.getD BIT32SZ 0) len
      match pullup M d.q d.src hlen with
      | .error f => ⟨.fault f, d.q, d.src⟩
      | .ok (nb, q) => decode M cv nb q d.src hlen len

def mntrpcread (M : Malloc) (cv : ConvM2S R) (msize : Int) (q : Queue) (src : List Bread) : Call R :=
  let d := doread (BIT32SZ + BIT8SZ + BIT16SZ : Nat) q src
  match d.stop with
  | some s => ⟨s.ret, d.q, d.src⟩
  | none =>
    match pullup M d.q d.src (BIT32SZ + BIT8SZ + BIT16SZ : Nat) with
    | .error f => ⟨.fault f, d.q, d.src⟩
    | .ok (nb, q) => readrest M cv msize nb q d.src

end NixMark.Devmnt
