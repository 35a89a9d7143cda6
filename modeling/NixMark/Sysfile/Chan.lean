import Mathlib.Data.BitVec

/-!
# Reads, writes and seeks of a channel (`port/sysfile.c`)

A count is not negative. `validaddr` and `fdtochan` are one answer of a call, and so is what
`mountfix` makes of the entries that were read.

* `unionread`: the members of a union from `c->uri` on.
* `Chan.read`, `Chan.write`, `Chan.sseek`: a call by the one process that uses the channel.
* `Chan.fill`: where the bytes of a read come from.
-/

namespace NixMark.Sysfile

/-- A `vlong`. -/
abbrev Vlong := BitVec 64

/-- An offset that stands for the channel's own: `~0LL`. -/
def own : Vlong := ~~~0

/-- `Mounted`: `there` is `m->to != nil`, `opens` that `cclone` and `open` succeed; `read` is what the
clone's device answers to an offset and a count, if it raises no error. -/
structure Member where
  there : Bool
  opens : Bool
  read : Nat → Nat → Option (List UInt8)

/-- `c->umc`: the member that it is a clone of, and its offset, which `open` sets to 0. -/
structure Clone where
  src : Member
  offset : Nat

/-- `dir` is `c->qid.type & QTDIR`, `pipe` is `c->dev->dc == '|'`, `rock` the entries in
`c->dirrock`. -/
structure Chan where
  dir : Bool
  pipe : Bool
  offset : Vlong
  devoffset : Vlong
  mnt : Bool
  hasmtpt : Bool
  uri : Nat
  umc : Option Clone
  rock : List (List UInt8)

/-- What `mountfix` returns, and the entries that it saves by `mountrock` meanwhile. -/
structure Fixed where
  data : Option (List UInt8)
  rock : List (List UInt8)

/-- What a call finds: whether the memory and the descriptor are good, the members of the union, the
device's answers by offset, and `mountfix`. -/
structure Env where
  valid : Bool
  um : List Member
  dev : Vlong → Option (List UInt8)
  fix : List UInt8 → Fixed

/-! ## Unions -/

/-- `c->umc` once it is open. -/
def Member.clone (m : Member) : Option Clone → Option Clone
  | none => if m.opens then some { src := m, offset := 0 } else none
  | umc => umc

/-- The answer to a read of `n` bytes, and the clone after it. -/
def Clone.read (umc : Clone) (n : Nat) : Option (Clone × List UInt8) :=
  (umc.src.read umc.offset n).map fun data =>
    ({ umc with offset := umc.offset + data.length }, data)

/-- A member is opened if need be, and read. -/
def Member.attempt (m : Member) (umc : Option Clone) (n : Nat) : Option (Clone × List UInt8) :=
  if m.there then (m.clone umc).bind fun umc => umc.read n else none

namespace Chan

/-- The loop of `unionread` from the member `c->uri` on. -/
def unionloop (c : Chan) (n : Nat) : List Member → Chan × List UInt8
  | [] => (c, [])
  | m :: um =>
    match m.attempt c.umc n with
    | some (umc, x :: data) => ({ c with umc := some umc }, x :: data)
    | _ => unionloop { c with uri := c.uri + 1, umc := none } n um

/-- Nothing else of the channel changes. -/
theorem unionloop_frame (c : Chan) (n : Nat) (um : List Member) :
    ∃ uri umc, (c.unionloop n um).1 = { c with uri := uri, umc := umc } := by
  fun_induction unionloop c n um with
  | case1 c => exact ⟨c.uri, c.umc, rfl⟩
  | case2 c m um umc x data ha => exact ⟨c.uri, some umc, rfl⟩
  | case3 c m um hn ih => exact ih

def unionread (c : Chan) (um : List Member) (n : Nat) : Chan × List UInt8 :=
  c.unionloop n (um.drop c.uri)

def unionrewind (c : Chan) : Chan := { c with uri := 0, umc := none }

def mountrewind (c : Chan) : Chan := { c with rock := [] }

end Chan

/-! ## Reads -/

/-- `mountrockread`: the entries that fit, and the rest of the rock. -/
def mountrockread : List (List UInt8) → Nat → List UInt8 × List (List UInt8)
  | [], _ => ([], [])
  | d :: rock, n =>
    if d.length ≤ n then
      let (data, rock) := mountrockread rock (n - d.length)
      (d ++ data, rock)
    else ([], d :: rock)

/-- Where the bytes of a read come from. -/
inductive Source where
  | rock (data : List UInt8)
  | union (data : List UInt8)
  | dev (data : List UInt8)

/-- `nn` is the length of these. -/
def Source.data : Source → List UInt8
  | .rock data | .union data | .dev data => data

/-- `!ispread` once the offset is known, `off` being the argument of `pread` and `pwrite`. -/
def maintains (off : Option Vlong) : Bool :=
  match off with
  | none => true
  | some off => off = own

namespace Chan

/-- The offset of a read or write. -/
def seekto (c : Chan) (off : Option Vlong) : Vlong :=
  match off with
  | none => c.offset
  | some off => if off = own then c.offset else off

/-- A directory read at the offset 0 starts over. -/
def rewind (c : Chan) (off : Option Vlong) : Chan :=
  if c.seekto off = 0 then
    (if maintains off then { c with offset := 0, devoffset := 0 } else c).mountrewind.unionrewind
  else c

/-- Where the bytes of a directory read come from. -/
def filldir (c : Chan) (e : Env) (n : Nat) (off : Vlong) : Chan × Option Source :=
  match mountrockread c.rock n with
  | (x :: data, rock) => ({ c with rock := rock }, some (.rock (x :: data)))
  | ([], _) =>
    if c.mnt then
      let (c, data) := c.unionread e.um n
      (c, some (.union data))
    else if off ≠ c.offset then (c, none)
    else (c, (e.dev c.devoffset).map .dev)

/-- Where the bytes of a read come from. -/
def fill (c : Chan) (e : Env) (n : Nat) (off : Option Vlong) : Chan × Option Source :=
  if c.dir then (c.rewind off).filldir e n (c.seekto off)
  else (c, (e.dev (c.seekto off)).map .dev)

/-- `c->devoffset += nn; c->offset += nnn` -/
def advance (c : Chan) (nn nnn : Nat) : Chan :=
  { c with devoffset := c.devoffset + nn, offset := c.offset + nnn }

/-- The rest of a read that got these bytes. -/
def deliver (c : Chan) (e : Env) (off : Option Vlong) (data : List UInt8) : Chan × Option Nat :=
  if c.dir then
    if c.hasmtpt then
      let c := { c with rock := c.rock ++ (e.fix data).rock }
      match (e.fix data).data with
      | none => (c, none)
      | some fixed => (c.advance data.length fixed.length, some fixed.length)
    else (c.advance data.length data.length, some data.length)
  else if maintains off then (c.advance data.length data.length, some data.length)
  else (c, some data.length)

/-- `read` and `pread`: the channel after the call, and the count if no error is raised. -/
def read (c : Chan) (e : Env) (n : Nat) (off : Option Vlong) : Chan × Option Nat :=
  if e.valid then
    match c.fill e n off with
    | (c, none) => (c, none)
    | (c, some src) => c.deliver e off src.data
  else (c, none)

end Chan

/-! ## Writes and seeks -/

/-- A call of `write` or `pwrite`. The device accepts what it accepts of the bytes from their start, or
raises an error. -/
structure Write where
  valid : Bool
  n : Nat
  off : Option Vlong
  dev : Vlong → Option Nat
  accepts : ∀ pos r, dev pos = some r → r ≤ n

namespace Chan

/-- `if(!ispwrite) c->offset -= n`; the flag is not cleared for the offset `~0`. -/
def giveback (c : Chan) (off : Option Vlong) (n : Nat) : Chan :=
  if off = none then { c with offset := c.offset - n } else c

/-- `off = c->offset; c->offset += n` -/
def reserve (c : Chan) (off : Option Vlong) (n : Nat) : Chan :=
  if maintains off then { c with offset := c.offset + n } else c

/-- `write` and `pwrite` -/
def write (c : Chan) (w : Write) : Chan × Option Nat :=
  if w.valid then
    if c.dir then (c.giveback w.off 0, none)
    else
      match w.dev (c.seekto w.off) with
      | none => ((c.reserve w.off w.n).giveback w.off w.n, none)
      | some r =>
        (if r < w.n then (c.reserve w.off w.n).giveback w.off (w.n - r)
          else c.reserve w.off w.n, some r)
  else (c, none)

/-- The end of `sseek`. -/
def seekend (c : Chan) (offset : Vlong) : Chan × Option Vlong :=
  ({ c with offset := offset, uri := 0 }, some offset)

/-- `sseek`; `length` is that of the file as `stat` tells it. -/
def sseek (c : Chan) (valid : Bool) (offset : Vlong) (whence : Nat) (length : Option Vlong) :
    Chan × Option Vlong :=
  if !valid || c.pipe then (c, none)
  else
    match whence with
    | 0 => if c.dir ∧ offset ≠ 0 then (c, none) else c.seekend offset
    | 1 => if c.dir then (c, none) else c.seekend (offset + c.offset)
    | 2 => if c.dir then (c, none) else length.elim (c, none) fun n => c.seekend (offset + n)
    | _ => (c, none)

end Chan

inductive Call where
  | read (e : Env) (n : Nat) (off : Option Vlong)
  | write (w : Write)
  | seek (valid : Bool) (offset : Vlong) (whence : Nat) (length : Option Vlong)

end NixMark.Sysfile
