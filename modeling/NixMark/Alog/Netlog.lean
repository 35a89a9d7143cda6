import NixMark.Lib.Lts

/-!
# The network log (`ip/netlog.c`)

Memory is flat, a pointer is an address and nil is 0. A section under the lock is one step. `netlog`
tests `opens` and formats its text in a step before that; the copy of `netlogread` is a step for each
byte. What other parts of the kernel write goes elsewhere than into the buffer in use.

* `Netlog`: the fields of the log, and what `netlog` does with them.
* `Sys.step`: the steps, of any number of processes.
* `logs`: the system.
-/

namespace NixMark.Alog

open Lib

def Nlog : Nat := 16384

/-- The fields of `Netlog`. -/
structure Netlog where
  opens : Nat
  buf : Nat
  endp : Nat
  rptr : Nat
  len : Nat

/-- The reader that holds the `QLock`: in its first `memmove` with so many bytes to go in this one
and the next, or in the second one. -/
inductive Reader where
  | idle
  | first (rptr i d : Nat) (p : List UInt8)
  | second (src d : Nat) (p : List UInt8)

/-- `pending` is the text that a process has formatted. The fields from `stray` on are not in the
code: whether `netlog` stored outside of the buffer in use; what was logged since the most recent
first open, how much of it was overtaken, and what reads have returned since. -/
structure Sys (P : Type) where
  mem : Nat → UInt8
  alog : Netlog
  pending : P → Option (List UInt8)
  reader : Reader
  stray : Bool
  logged : List UInt8
  lost : Nat
  returned : List UInt8

inductive Act (P : Type) where
  /-- `malloc` would return `p` -/
  | netlogopen (p : Nat)
  | netlogclose
  /-- `netlog` up to the lock, with the text that it formats -/
  | test (up : P) (buf : List UInt8)
  /-- the rest of it -/
  | store (up : P)
  /-- the section of `netlogread`, asked for `n` bytes -/
  | take (n : Nat)
  /-- a byte of its `memmove`, the end of it, or the return -/
  | move
  /-- another part of the kernel writes a byte -/
  | write (p : Nat) (b : UInt8)

namespace Netlog

/-- The address is in the buffer in use. -/
def has (f : Netlog) (p : Nat) : Bool := f.buf ≠ 0 ∧ f.buf ≤ p ∧ p < f.buf + Nlog

/-- `netlog` makes place for `n` bytes. -/
def overtake (f : Netlog) (n : Nat) : Netlog :=
  if f.len + n > Nlog then
    let i := f.len + n - Nlog
    let rptr := f.rptr + i
    { f with
      len := f.len - i
      rptr := if rptr ≥ f.endp then f.buf + (rptr - f.endp) else rptr }
  else f

/-- The loop of `netlog`: the addresses and the bytes that it stores there. -/
def stores (f : Netlog) : Nat → List UInt8 → List (Nat × UInt8)
  | _, [] => []
  | t, c :: fp =>
    let t := if t ≥ f.endp then f.buf + (t - f.endp) else t
    (t, c) :: f.stores (t + 1) fp

end Netlog

/-- Bytes are stored, one after the other. -/
def fill (mem : Nat → UInt8) (l : List (Nat × UInt8)) : Nat → UInt8 :=
  l.foldl (fun mem w => Function.update mem w.1 w.2) mem

namespace Reader

/-- The bytes that it has not copied yet. -/
def left : Reader → Nat
  | .idle => 0
  | .first _ i d _ => i + d
  | .second _ d _ => d

/-- The bytes that it has copied. -/
def got : Reader → List UInt8
  | .idle => []
  | .first _ _ _ p | .second _ _ p => p

end Reader

variable {P : Type}

namespace Sys

def init : Sys P where
  mem _ := 0
  alog := ⟨0, 0, 0, 0, 0⟩
  pending _ := none
  reader := .idle
  stray := false
  logged := []
  lost := 0
  returned := []

def netlogopen (s : Sys P) (p : Nat) : Sys P :=
  let f := s.alog
  if f.opens = 0 then
    if f.buf = 0 then
      -- `error(Enomem)`
      if p = 0 then s
      else
        { s with
          mem := fun a => if p ≤ a ∧ a < p + Nlog then 0 else s.mem a
          alog := { f with opens := 1, buf := p, rptr := p, endp := p + Nlog }
          logged := []
          lost := 0
          returned := [] }
    else
      { s with
        alog := { f with opens := 1, rptr := f.buf, endp := f.buf + Nlog }
        logged := []
        lost := 0
        returned := [] }
  else { s with alog := { f with opens := f.opens + 1 } }

/-- Of an open log only. -/
def netlogclose (s : Sys P) : Option (Sys P) :=
  let f := s.alog
  if f.opens = 0 then none
  else if f.opens = 1 then some { s with alog := { f with opens := 0, buf := 0 } }
  else some { s with alog := { f with opens := f.opens - 1 } }

def take (s : Sys P) (n : Nat) : Option (Sys P) :=
  let f := s.alog
  match s.reader with
  | .idle =>
    -- it sleeps
    if f.len = 0 then none
    else
      let n := if n > f.len then f.len else n
      let rptr := f.rptr + n
      if rptr ≥ f.endp then
        let d := rptr - f.endp
        some { s with
          alog := { f with rptr := f.buf + d, len := f.len - n }
          reader := .first f.rptr (n - d) d [] }
      else
        some { s with
          alog := { f with rptr := rptr, len := f.len - n }
          reader := .first f.rptr n 0 [] }
  | _ => none

def move (s : Sys P) : Option (Sys P) :=
  match s.reader with
  | .idle => none
  | .first rptr (i + 1) d p => some { s with reader := .first (rptr + 1) i d (p ++ [s.mem rptr]) }
  | .first _ 0 d p => some { s with reader := .second s.alog.buf d p }
  | .second src (d + 1) p => some { s with reader := .second (src + 1) d (p ++ [s.mem src]) }
  | .second _ 0 p => some { s with reader := .idle, returned := s.returned ++ p }

def write (s : Sys P) (p : Nat) (b : UInt8) : Option (Sys P) :=
  if s.alog.has p then none else some { s with mem := Function.update s.mem p b }

variable [DecidableEq P]

/-- The text ends with a zero in the 256 bytes of `buf`. -/
def test (s : Sys P) (up : P) (buf : List UInt8) : Option (Sys P) :=
  if (s.pending up).isSome ∨ buf.length ≥ 256 then none
  else if s.alog.opens = 0 then some s
  else some { s with pending := Function.update s.pending up (some buf) }

def store (s : Sys P) (up : P) : Option (Sys P) :=
  (s.pending up).map fun buf =>
    let f := s.alog.overtake buf.length
    let l := f.stores (f.rptr + f.len) buf
    { s with
      mem := fill s.mem l
      alog := { f with len := f.len + buf.length }
      pending := Function.update s.pending up none
      stray := s.stray || l.any fun w => !f.has w.1
      logged := s.logged ++ buf
      lost := s.lost + (s.alog.len + buf.length - Nlog) }

def step (s : Sys P) : Act P → Option (Sys P)
  | .netlogopen p => some (s.netlogopen p)
  | .netlogclose => s.netlogclose
  | .test up buf => s.test up buf
  | .store up => s.store up
  | .take n => s.take n
  | .move => s.move
  | .write p b => s.write p b

end Sys

/-- The steps in any order. -/
def logs [DecidableEq P] : Lts (Sys P) (Act P) where
  init s := s = Sys.init
  step s e s' := s.step e = some s'

end NixMark.Alog
