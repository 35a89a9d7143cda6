import Mathlib.Data.List.Basic
import Mathlib.Algebra.Order.Ring.Nat

/-!
# Blocks

The buffers of the I/O queues (`allocb.c`, and the block chains of `qio.c`). A block is a header at
the end of one allocation, with the bytes `[base, lim)` in front of it. A chain is the list of the
blocks linked by `next`; the null pointer is the empty chain. Freed blocks leave the model.

* `BLEN`, `BALLOC`, `blocklen`, `blockalloclen`: the data and the storage of a block and a chain.
* `allocb`, `pullupblock`, `bl2mem`: the functions of the source that the queues use.
* `bytes`: the data of a chain; what the functions do to it and to the storage.
-/

namespace NixMark.Qio

/-- The address of a block header. -/
abbrev Addr := Nat

/-- A `Block`. The data is `[rp, wp)`; `head` is `rp - base` and `tail` is `lim - wp`. -/
structure Block where
  addr : Addr
  head : Nat
  data : List UInt8
  tail : Nat
  /-- the `BINTR` flag -/
  intr : Bool
deriving DecidableEq, Repr

def BLEN (b : Block) : Nat := b.data.length

def BALLOC (b : Block) : Nat := b.head + b.data.length + b.tail

def roundup (x y : Nat) : Nat := (x + (y - 1)) / y * y

def Hdrspc : Nat := 64
def BLOCKALIGN : Nat := 8
def BLOCKROUND : Nat := 1024
def BLOCKMINROUND : Nat := 128

/-- `memmove(b->wp, p, n); b->wp += n`. -/
def Block.put (b : Block) (p : List UInt8) : Block :=
  { b with data := b.data ++ p, tail := b.tail - p.length }

/-- `b->rp += n`. -/
def Block.skip (b : Block) (n : Nat) : Block :=
  { b with head := b.head + n, data := b.data.drop n }

/-- `b->wp = b->rp + n`, where `n` is at most the data. -/
def Block.cut (b : Block) (n : Nat) : Block :=
  { b with data := b.data.take n, tail := b.tail + (b.data.length - n) }

/-- The block of `_allocb`, where `malloc` (for the small size the cache `balloc`, whose elements
have the same layout) returned `p`. -/
def allocb (p size : Nat) : Block :=
  let size := if size > BLOCKROUND then roundup size BLOCKROUND else roundup size BLOCKMINROUND
  let b := p + BLOCKALIGN + roundup (size + Hdrspc) BLOCKALIGN
  let lim := b / BLOCKALIGN * BLOCKALIGN
  let rp := lim - roundup size BLOCKALIGN
  { addr := b, head := rp - p, data := [], tail := lim - rp, intr := false }

/-- `iallocb` gives no block when the interrupt allocations are over their limit. -/
def iallocb (p : Option Nat) (size : Nat) : Option Block :=
  p.map fun p => { allocb p size with intr := true }

/-! ## Chains -/

/-- The data of a chain. -/
def bytes : List Block → List UInt8
  | [] => []
  | b :: bs => b.data ++ bytes bs

def blocklen : List Block → Nat
  | [] => 0
  | b :: bs => BLEN b + blocklen bs

def blockalloclen : List Block → Nat
  | [] => 0
  | b :: bs => BALLOC b + blockalloclen bs

/-- The addresses of a chain. -/
def addrs (bs : List Block) : List Addr := bs.map (·.addr)

/-- The loop of `pullupblock` that moves `n` more bytes into the first block. -/
def pullupLoop (bp : Block) (n : Nat) : List Block → List Block
  | [] => []  -- not enough data: the first block is freed too
  | nbp :: rest =>
    let i := BLEN nbp
    if i > n then bp.put (nbp.data.take n) :: nbp.skip n :: rest
    else if n - i = 0 then bp.put nbp.data :: rest
    else pullupLoop (bp.put nbp.data) (n - i) rest

/-- `pullupblock` on the chain `bp :: next`, where an `allocb` gets the address `p`. -/
def pullupblock (p : Nat) (bp : Block) (next : List Block) (n : Nat) : List Block :=
  if BLEN bp ≥ n then bp :: next
  else if BLEN bp + bp.tail < n then pullupLoop (allocb p n) n (bp :: next)
  else pullupLoop bp (n - BLEN bp) next

/-- `bl2mem`: the bytes copied, and the chain from the first block that is not used up. -/
def bl2mem : List Block → Nat → List UInt8 × List Block
  | [], _ => ([], [])
  | b :: next, n =>
    let i := BLEN b
    if i > n then (b.data.take n, b.skip n :: next)
    else
      let r := bl2mem next (n - i)
      (b.data ++ r.1, r.2)

/-! ## Small lemmas -/

@[simp] theorem blocklen_nil : blocklen [] = 0 := rfl
@[simp] theorem blocklen_cons (b : Block) (bs : List Block) :
    blocklen (b :: bs) = BLEN b + blocklen bs := rfl
@[simp] theorem blockalloclen_nil : blockalloclen [] = 0 := rfl
@[simp] theorem blockalloclen_cons (b : Block) (bs : List Block) :
    blockalloclen (b :: bs) = BALLOC b + blockalloclen bs := rfl
@[simp] theorem bytes_nil : bytes [] = [] := rfl
@[simp] theorem bytes_cons (b : Block) (bs : List Block) : bytes (b :: bs) = b.data ++ bytes bs :=
  rfl
@[simp] theorem addrs_nil : addrs [] = [] := rfl
@[simp] theorem addrs_cons (b : Block) (bs : List Block) : addrs (b :: bs) = b.addr :: addrs bs :=
  rfl
@[simp] theorem addrs_append (bs cs : List Block) : addrs (bs ++ cs) = addrs bs ++ addrs cs :=
  List.map_append

@[simp] theorem Block.put_addr (b : Block) (p : List UInt8) : (b.put p).addr = b.addr := rfl
@[simp] theorem Block.put_data (b : Block) (p : List UInt8) : (b.put p).data = b.data ++ p := rfl
@[simp] theorem Block.put_tail (b : Block) (p : List UInt8) :
    (b.put p).tail = b.tail - p.length := rfl
@[simp] theorem Block.skip_addr (b : Block) (n : Nat) : (b.skip n).addr = b.addr := rfl
@[simp] theorem Block.skip_data (b : Block) (n : Nat) : (b.skip n).data = b.data.drop n := rfl
@[simp] theorem Block.cut_addr (b : Block) (n : Nat) : (b.cut n).addr = b.addr := rfl
@[simp] theorem Block.cut_data (b : Block) (n : Nat) : (b.cut n).data = b.data.take n := rfl

theorem blocklen_eq (bs : List Block) : blocklen bs = (bytes bs).length := by
  induction bs with
  | nil => rfl
  | cons b bs ih => simp [ih, BLEN]

theorem bytes_append (bs cs : List Block) : bytes (bs ++ cs) = bytes bs ++ bytes cs := by
  induction bs with
  | nil => rfl
  | cons b bs ih => simp [ih]

theorem blocklen_append (bs cs : List Block) : blocklen (bs ++ cs) = blocklen bs + blocklen cs := by
  simp [blocklen_eq, bytes_append]

theorem blockalloclen_append (bs cs : List Block) :
    blockalloclen (bs ++ cs) = blockalloclen bs + blockalloclen cs := by
  induction bs with
  | nil => simp
  | cons b bs ih => simp [ih]; omega

/-- Moving `rp` keeps the storage. -/
theorem BALLOC_skip {b : Block} {n : Nat} (h : n ≤ BLEN b) : BALLOC (b.skip n) = BALLOC b := by
  unfold BLEN at h
  simp [BALLOC, Block.skip]
  omega

/-- Appending data that fits keeps the storage. -/
theorem BALLOC_put {b : Block} {p : List UInt8} (h : p.length ≤ b.tail) :
    BALLOC (b.put p) = BALLOC b := by
  simp [BALLOC, Block.put]
  omega

theorem BLEN_eq (b : Block) : BLEN b = b.data.length := rfl

theorem BLEN_skip (b : Block) (n : Nat) : BLEN (b.skip n) = BLEN b - n := by
  simp [BLEN]

theorem le_roundup (x : Nat) {y : Nat} (h : 0 < y) : x ≤ roundup x y := by
  unfold roundup
  have h1 : (x + (y - 1)) % y < y := Nat.mod_lt _ h
  have h2 := Nat.div_add_mod (x + (y - 1)) y
  rw [Nat.mul_comm] at h2
  omega

/-- The room of a new block: the panic of `_allocb` is not reached. -/
theorem allocb_room (p size : Nat) : size ≤ (allocb p size).tail := by
  have hsize : size ≤ if size > BLOCKROUND then roundup size BLOCKROUND
      else roundup size BLOCKMINROUND := by
    split
    · exact le_roundup size (by decide)
    · exact le_roundup size (by decide)
  unfold allocb
  generalize (if size > BLOCKROUND then roundup size BLOCKROUND
    else roundup size BLOCKMINROUND) = s at hsize
  simp only [BLOCKALIGN, Hdrspc, roundup]
  omega

end NixMark.Qio
