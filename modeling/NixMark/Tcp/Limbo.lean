import NixMark.Lib.Queues
import NixMark.Ip.Addr
import Mathlib.Algebra.Order.Ring.Nat

/-!
# Calls in limbo

The table of the TCP calls whose SYN ACK has not been acknowledged (`tcp.c`). All the functions run
with the protocol locked. A loop of the source that looks for a call holds the address `l` of the
pointer to it: here the entry whose `next` it is, or none for the head of the bucket. The entries
are in a store of addresses. What is sent and logged, and the conversation that `tcpincoming` makes,
are left out.

* `Limbo`, `Tcppriv`: an entry and the table.
* `limbo`, `limborst`, `limborexmit`, `tcpincoming`: the functions of the source.
-/

namespace NixMark.Tcp

open Lib Ip

/-- The address of a `Limbo`. -/
abbrev Addr := Nat

def Maxlimbo : Int := 1000
def NLHT : Nat := 256
def SYNACK_RXTIMER : UInt32 := 250

/-- A `Limbo`, without its link. -/
structure Limbo where
  laddr : IPaddr
  raddr : IPaddr
  lport : UInt16
  rport : UInt16
  irs : UInt32
  iss : UInt32
  mss : UInt16
  rcvscale : UInt16
  sndscale : UInt16
  lastsend : UInt32
  version : UInt8
  rexmits : UInt8
deriving DecidableEq

/-- The part of a segment that the functions read. -/
structure Seg where
  source : UInt16
  dest : UInt16
  seq : UInt32
  ack : UInt32
  SYN : Bool
  ACK : Bool
  mss : UInt16
  ws : UInt16
deriving DecidableEq

/-- The part of `Tcppriv` that the functions use, and the entries. -/
structure Tcppriv where
  nlimbo : Int
  lht : Fin NLHT → Option Addr
  next : Addr → Option Addr
  lp : Addr → Limbo

/-- What `malloc` returns: memory that is cleared. -/
def cleared : Limbo :=
  ⟨IPnoaddr, IPnoaddr, 0, 0, 0, 0, 0, 0, 0, 0, 0, 0⟩

/-- A new protocol. -/
def newpriv : Tcppriv := ⟨0, fun _ => none, fun _ => none, fun _ => cleared⟩

def hashipa (a : IPaddr) (p : UInt16) : Fin NLHT :=
  ⟨((a.toList.getD 14 0).toNat + (a.toList.getD 15 0).toNat + p.toNat) % NLHT,
    Nat.mod_lt _ (by decide)⟩

/-- What identifies a call. -/
structure Key where
  laddr : IPaddr
  raddr : IPaddr
  lport : UInt16
  rport : UInt16
  version : UInt8
deriving DecidableEq

def Limbo.key (x : Limbo) : Key := ⟨x.laddr, x.raddr, x.lport, x.rport, x.version⟩

/-- The key of a segment. -/
def Seg.key (seg : Seg) (source dest : IPaddr) (version : UInt8) : Key :=
  ⟨dest, source, seg.dest, seg.source, version⟩

def Key.hash (k : Key) : Fin NLHT := hashipa k.raddr k.rport

/-! ## Pointers -/

/-- `*l`, in the bucket `h`. -/
def Tcppriv.deref (s : Tcppriv) (h : Fin NLHT) : Option Addr → Option Addr
  | none => s.lht h
  | some a => s.next a

/-- `*l = p`. -/
def Tcppriv.assign (s : Tcppriv) (h : Fin NLHT) (l p : Option Addr) : Tcppriv :=
  { s with lht := rehead s.lht h l p, next := relink s.next l p }

def Tcppriv.set (s : Tcppriv) (a : Addr) (x : Limbo) : Tcppriv :=
  { s with lp := Function.update s.lp a x }

/-- The loop that looks for the call: `l` and `*l` where it ends, after `n` rounds at most. -/
def Tcppriv.find (s : Tcppriv) (n : Nat) (k : Key) : Option Addr × Option Addr :=
  walk s.next (fun a => (s.lp a).key = k) n none (s.lht k.hash)

/-- `nlimbo--; *l = lp->next; free(lp)`. -/
def Tcppriv.drop (s : Tcppriv) (h : Fin NLHT) (l : Option Addr) (a : Addr) : Tcppriv :=
  { s.assign h l (s.next a) with nlimbo := s.nlimbo - 1 }

/-- `tpriv->lht[h] = lp->next; lp->next = nil; *l = lp`. -/
def Tcppriv.recycle (s : Tcppriv) (h : Fin NLHT) (l : Option Addr) (a : Addr) : Tcppriv :=
  let s := { s with lht := Function.update s.lht h (s.next a) }
  let s := { s with next := Function.update s.next a none }
  s.assign h l (some a)

/-! ## The functions of the source -/

/-- What `sndsynack` does: whether it sends, the scale that `tcpmtu` gives, and the time. -/
structure Sent where
  ok : Bool
  scale : UInt16
  now : UInt32
deriving DecidableEq, Repr

def sndsynack (x : Limbo) (r : Sent) : Limbo :=
  let x := { x with sndscale := if x.rcvscale ≠ 0 then r.scale else 0 }
  if r.ok then { x with lastsend := r.now } else x

/-- The end of `limbo`: the SYN ACK is sent, or the call is dropped. -/
def answer (s : Tcppriv) (h : Fin NLHT) (l : Option Addr) (a : Addr) (r : Sent) : Tcppriv :=
  let s := s.set a (sndsynack (s.lp a) r)
  if r.ok then s else s.drop h l a

/-- The fields of a new call. -/
def Limbo.fill (x : Limbo) (seg : Seg) (source dest : IPaddr) (version : UInt8) (iss : UInt32) :
    Limbo :=
  { x with
    version := version, laddr := dest, raddr := source, lport := seg.dest, rport := seg.source
    mss := seg.mss, rcvscale := seg.ws, irs := seg.seq, iss := iss }

/-- `limbo`, where `malloc` returns `mem` and `nrand` gives `iss`. -/
def limbo (n : Nat) (s : Tcppriv) (source dest : IPaddr) (seg : Seg) (version : UInt8)
    (mem : Option Addr) (iss : UInt32) (r : Sent) : Tcppriv :=
  let k := seg.key source dest version
  let h := k.hash
  match s.find n k with
  | (l, some a) =>
    -- each new SYN restarts the retransmits
    answer (s.set a { s.lp a with irs := seg.seq }) h l a r
  | (l, none) =>
    match s.lht h with
    | some a =>
      if s.nlimbo ≥ Maxlimbo then
        let s := s.recycle h l a
        answer (s.set a ((s.lp a).fill seg source dest version iss)) h l a r
      else alloc s h l
    | none => alloc s h l
where
  /-- The branch that allocates an entry. -/
  alloc (s : Tcppriv) (h : Fin NLHT) (l : Option Addr) : Tcppriv :=
    match mem with
    | none => s
    | some a =>
      let s := { s with nlimbo := s.nlimbo + 1, next := Function.update s.next a none }
      let s := s.assign h l (some a)
      answer (s.set a (cleared.fill seg source dest version iss)) h l a r

/-- `limborst`. -/
def limborst (n : Nat) (s : Tcppriv) (seg : Seg) (src dst : IPaddr) (version : UInt8) : Tcppriv :=
  let k := seg.key src dst version
  match s.find n k with
  | (l, some a) =>
    -- RST can only follow the SYN
    if seg.seq = (s.lp a).irs + 1 then s.drop k.hash l a else s
  | (_, none) => s

/-- `tcpincoming`, up to the call of `Fsnewcall`: the entry that it takes out of limbo. -/
def tcpincoming (n : Nat) (s : Tcppriv) (seg : Seg) (src dst : IPaddr) (version : UInt8) :
    Tcppriv × Option Addr :=
  -- unless it's just an ack, it can't be someone coming out of limbo
  if seg.SYN ∨ ¬seg.ACK then (s, none)
  else
    let k := seg.key src dst version
    match s.find n k with
    | (l, some a) =>
      if seg.seq ≠ (s.lp a).irs + 1 ∨ seg.ack ≠ (s.lp a).iss + 1 then (s, none)
      else (s.drop k.hash l a, some a)
    | (_, none) => (s, none)

/-- The inner loop of `limborexmit` over the bucket `h`, where `seen` calls have been looked at and
`out` is what becomes of each one's SYN ACK. An entry that is not due keeps the pointer where it
is. -/
def rexmitloop (now : UInt32) (out : Nat → Sent) (h : Fin NLHT) (s : Tcppriv) (l : Option Addr)
    (seen : Nat) : Tcppriv × Nat :=
  match s.deref h l with
  | none => (s, seen)
  | some a =>
    if hseen : seen < s.nlimbo then
      if now - (s.lp a).lastsend < ((s.lp a).rexmits.toUInt32 + 1) * SYNACK_RXTIMER then
        rexmitloop now out h s l (seen + 1)
      else
        let s' := s.set a { s.lp a with rexmits := (s.lp a).rexmits + 1 }
        -- time it out after 1 second
        if (s'.lp a).rexmits > 5 then rexmitloop now out h (s'.drop h l a) l (seen + 1)
        -- if we're being attacked, don't bother resending SYN ACK's
        else if s'.nlimbo > 100 then rexmitloop now out h s' l (seen + 1)
        else
          let s'' := s'.set a (sndsynack (s'.lp a) (out seen))
          if (out seen).ok then rexmitloop now out h s'' (some a) (seen + 1)
          else rexmitloop now out h (s''.drop h l a) l (seen + 1)
    else (s, seen)
termination_by (s.nlimbo - seen).toNat
decreasing_by
  · omega
  · simp only [Tcppriv.drop, Tcppriv.assign, Tcppriv.set]
    omega
  · simp only [Tcppriv.set]
    omega
  · simp only [Tcppriv.set]
    omega
  · simp only [Tcppriv.drop, Tcppriv.assign, Tcppriv.set]
    omega

/-- `limborexmit`, where `canlock` says whether it gets the lock. -/
def limborexmit (canlock : Bool) (now : UInt32) (out : Nat → Sent) (s : Tcppriv) : Tcppriv :=
  if canlock then
    ((List.finRange NLHT).foldl (fun (r : Tcppriv × Nat) h =>
      if (r.2 : Int) < r.1.nlimbo then rexmitloop now out h r.1 none r.2 else r) (s, 0)).1
  else s

end NixMark.Tcp
