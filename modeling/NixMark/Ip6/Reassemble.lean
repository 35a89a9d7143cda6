import NixMark.Ip.Reassemble

/-!
# Headers and reassembly of IPv6 packets (`ip/ipv6.c`)

The fragment header stands behind the unfragmentable part of a packet, whose length `uflen` is found
by a walk over its headers. A fragment is queued with its header; it is put into its place among the
others as a fragment of IPv4 is.

* `unfraglen`: the walk over the headers; `Fault.read` is a byte that is read behind the data.
* `ip6reassemble`: the queues after a fragment, and the packet if there is one.

A block that `pullupblock` or `padblock` gives up is still read through `fraghdr` and `ih`; its memory
is not handed out before that, so that these reads find the bytes of the copy.
-/

namespace NixMark.Ip6

open Ip Block

def IP_VER6 : Nat := 0x60
def IP6HDR : Nat := 40
def IP6FHDR : Nat := 8

/-- Header types. -/
def HBH : Nat := 0
def RH : Nat := 43
def FH : Nat := 44
def ICMPv6 : Nat := 58

/-- A header byte that is read at or beyond `wp`, and a pointer that is set beyond the next one. -/
inductive Fault where
  | read
  | rp
  | wp
deriving DecidableEq

def setrp (b : Block) (rp : Nat) : Except Fault Block :=
  if rp ≤ b.wp then .ok { b with rp := rp } else .error .rp

def setwp (b : Block) (wp : Nat) : Except Fault Block :=
  if wp ≤ b.lim then .ok { b with wp := wp } else .error .wp

/-! ## The headers -/

def ploadlen (b : Block) : Nat := b.nhgets 4
def proto (b : Block) : Nat := b.byte 6
def hoplimit (b : Block) : Nat := b.byte 7

/-- An address, as a number. -/
def ipaddr (b : Block) (o : Nat) : Nat :=
  ((b.nhgetl o * 2 ^ 32 + b.nhgetl (o + 4)) * 2 ^ 32 + b.nhgetl (o + 8)) * 2 ^ 32 + b.nhgetl (o + 12)

def src (b : Block) : Nat := ipaddr b 8
def dst (b : Block) : Nat := ipaddr b 24

/-- The fields of the fragment header behind `uflen` bytes. -/
def nexthdr (uflen : Nat) (b : Block) : Nat := b.byte uflen
def offsetRM (uflen : Nat) (b : Block) : Nat := b.nhgets (uflen + 2)
def fragid (uflen : Nat) (b : Block) : Nat := b.nhgetl (uflen + 4)

/-- `nhgets(fraghdr->offsetRM) & ~7` -/
def offset (uflen : Nat) (b : Block) : Nat := offsetRM uflen b / 8 * 8

/-- `fraghdr->offsetRM[1] & 1` -/
def more (uflen : Nat) (b : Block) : Bool := b.byte (uflen + 3) % 2 = 1

def fragkey (uflen : Nat) (b : Block) : Key := ⟨src b, dst b, fragid uflen b⟩

/-- The loop of `unfraglen` over a packet of `len` bytes: `ufl` is where the next header begins and
`q` where the byte is that tells its type. A header has more than one byte, so that `len` bounds the
rounds. -/
def walk (get : Nat → Nat) (len : Nat) : Nat → Nat → Nat → Nat → Except Fault (Nat × Nat × Nat)
  | 0, _, _, _ => .error .read
  | fuel + 1, nexthdr, q, ufl =>
    if nexthdr = HBH ∨ nexthdr = RH then
      if ufl + 1 < len then walk get len fuel (get ufl) ufl (ufl + (get (ufl + 1) + 1) * 8)
      else .error .read
    else if nexthdr = FH ∧ len ≤ ufl then .error .read
    else .ok (nexthdr, q, ufl)

/-- The walk from the IPv6 header on. -/
def headers (get : Nat → Nat) (len : Nat) : Except Fault (Nat × Nat × Nat) :=
  walk get len (len + 1) (get 6) 6 IP6HDR

/-- What `unfraglen` writes: the type of the header behind the fragment header, or `FH`. -/
def setnexthdr (b : Block) (setfh : Bool) (nexthdr q ufl : Nat) : Block :=
  let b := if nexthdr = FH then b.setbyte q (b.byte ufl) else b
  if setfh then b.setbyte q FH else b

/-- `unfraglen`: the block, `*nexthdr` and the length of the unfragmentable part. The IPv6 header is
in the block. -/
def unfraglen (b : Block) (setfh : Bool) : Except Fault (Block × Nat × Nat) :=
  (headers b.byte b.BLEN).map fun r => (setnexthdr b setfh r.1 r.2.1 r.2.2, r.1, r.2.2)

/-! ## Reassembly -/

/-- A reassembly queue; its fields are those of a `Fragment4`. -/
abbrev Fragment6 := Fragment4

/-- The queues in use. -/
structure IP where
  flisthead6 : List Fragment6

/-- `ipfragallo6`, copied from `ipfragallo4` in the source too -/
def ipfragallo6 (l : List Fragment6) (f : Fragment6) : List Fragment6 := ipfragallo4 l f

/-- `memmove(b->rp + n, b->rp, uflen)` -/
def moveup (uflen : Nat) (b : Block) (n : Nat) : Block :=
  { b with
    mem := fun a => if b.rp + n ≤ a ∧ a < b.rp + n + uflen then b.mem (a - n) else b.mem a }

/-- Trims `ovlap` bytes at the front. The headers of the unfragmentable part are moved up, not the
fragment header. -/
def front (uflen : Nat) (b : Block) (ovlap : Nat) : Except Fault Block :=
  if b.BLEN < uflen then .error .read
  else
    setrp { moveup uflen b ovlap with
      flen := b.flen - ovlap
      foff := (b.foff + ovlap) % 65536 } (b.rp + ovlap)

/-- The loop over the fragments behind the new one, which ends at `fend`. -/
def uncover (uflen fend : Nat) : List Block → Except Fault (List Block)
  | [] => .ok []
  | b :: l =>
    if fend ≤ b.foff then .ok (b :: l)
    else if fend - b.foff < b.flen then (front uflen b (fend - b.foff)).map (· :: l)
    else uncover uflen fend l

/-- The fragment is put into its place; `none` when the one before it covers it. -/
def insert (uflen : Nat) (q : List Block) (bp : Block) : Except Fault (Option (List Block)) :=
  let before := q.takeWhile fun b => b.foff < bp.foff
  let after := q.dropWhile fun b => b.foff < bp.foff
  match before.getLast? with
  | none => (uncover uflen (bp.foff + bp.flen) after).map fun l => some (bp :: l)
  | some prev =>
    let ovlap := prev.foff + prev.flen - bp.foff
    if 0 < ovlap ∧ bp.flen ≤ ovlap then .ok none
    else
      (uncover uflen (bp.foff + bp.flen) after).map fun l =>
        some (before.dropLast ++ prev.cutat bp.foff :: bp :: l)

/-- The loop that looks for a complete packet. -/
def complete (uflen pktposn : Nat) : List Block → Except Fault Bool
  | [] => .ok false
  | b :: l =>
    if b.foff ≠ pktposn then .ok false
    else if b.BLEN < uflen + 4 then .error .read
    else if more uflen b then complete uflen (pktposn + b.flen) l
    else .ok true

/-- The data of a fragment behind the first one. -/
def strip (uflen : Nat) (b : Block) : Except Fault Block :=
  (setrp b (b.rp + (uflen + IP6FHDR))).bind fun b => setwp b (b.rp + b.flen)

def strips (uflen : Nat) : List Block → Except Fault (List Block)
  | [] => .ok []
  | b :: l => (strip uflen b).bind fun b => (strips uflen l).map (b :: ·)

/-- The first fragment loses its fragment header; its length is that of its header. -/
def behead (uflen : Nat) (b : Block) : Except Fault Block :=
  if b.BLEN < uflen then .error .read
  else
    (setrp (moveup uflen b IP6FHDR) (b.rp + IP6FHDR)).bind fun b =>
      setwp b (b.rp + (IP6HDR - IP6FHDR) + ploadlen b)

/-- The fragments become one packet; the length is stored in 16 bits. -/
def glue (uflen : Nat) : List Block → Except Fault (List Block)
  | [] => .ok []
  | b :: l =>
    (behead uflen b).bind fun b =>
      (strips uflen l).map fun rest =>
        b.hnputs 4 (ploadlen b + (65536 - IP6FHDR) + (l.map (·.flen)).sum) :: rest

/-- The fragment with its `Ipfrag`; its length is that of the header. -/
def tag (uflen offset : Nat) (bp : Block) : Block :=
  { reserve bp with
    foff := offset
    flen := ((ploadlen bp + IP6HDR - uflen - IP6FHDR : Int) % 65536).toNat }

/-- The queues when the packet `bp` with the fragment header `offsetRM` has been brought together. -/
def requeue (now : Nat) (ip : IP) (uflen offsetRM : Nat) (key : Key) (bp : Block)
    (next : List Block) : Except Fault (IP × Option (List Block)) :=
  let found := search now key ip.flisthead6
  if offsetRM = 0 then
    .ok (⟨found.1 ++ (found.2.map (·.2)).getD []⟩, some (bp :: next))
  else
    match found.2 with
    | none =>
      .ok (⟨ipfragallo6 found.1 ⟨key, tag uflen (offsetRM / 8 * 8) bp :: next, now + 30000⟩⟩, none)
    | some (f, after) =>
      (insert uflen f.blist (tag uflen (offsetRM / 8 * 8) bp)).bind fun r =>
        match r with
        | none => .ok (⟨found.1 ++ f :: after⟩, none)
        | some blist =>
          (complete uflen 0 blist).bind fun done =>
            if done then (glue uflen blist).map fun pkt => (⟨found.1 ++ after⟩, some pkt)
            else .ok (⟨found.1 ++ { f with blist := blist } :: after⟩, none)

/-- `ip6reassemble` at the time `now` -/
def ip6reassemble (now : Nat) (ip : IP) (uflen : Nat) (bp : Block) (next : List Block) :
    Except Fault (IP × Option (List Block)) :=
  if bp.BLEN < uflen + IP6FHDR then .error .read
  else
    requeue now ip uflen (offsetRM uflen bp) (fragkey uflen bp) (gather bp next).1 (gather bp next).2

/-- The part of `procxtns` up to the second walk: a fragment is passed to `ip6reassemble` when
`doreasm` says so. -/
def reasm (now : Nat) (doreasm : Bool) (ip : IP) (bp : Block) (next : List Block) :
    Except Fault (IP × Option (List Block)) :=
  (unfraglen bp false).bind fun r =>
    if r.2.1 = FH ∧ doreasm then ip6reassemble now ip r.2.2 r.1 next
    else .ok (ip, some (r.1 :: next))

end NixMark.Ip6
