import NixMark.Ip.Block

/-!
# Reassembly of IPv4 packets (`ip4reassemble` of `ip/ip.c`)

A queue holds the fragments of one datagram in the order of their offsets. A fragment that arrives
is put into its place; the fragment before it is trimmed at its end and those behind it at their
front, so that no two overlap.

* `ip4reassemble`: the queues after a fragment, and the packet if there is one.
* `insert_eq`: the queue after the fragment, as one list.
-/

namespace NixMark.Ip

open Block

/-- The datagram that a fragment belongs to. -/
structure Key where
  src : Nat
  dst : Nat
  id : Nat
deriving DecidableEq

/-- A reassembly queue. -/
structure Fragment4 where
  key : Key
  blist : List Block
  age : Nat

/-- The queues in use. The others that `initfrag` made are on the list `fragfree4`, so that one is
empty when all of them are in use. -/
structure IP where
  flisthead4 : List Fragment4

/-- `initfrag(ip, 100)` -/
def nfrag : Nat := 100

def Block.key (b : Block) : Key := ⟨b.src, b.dst, b.id⟩

/-- The search for the queue of a datagram: the queues before it that have not timed out, and the
queue with those behind it. -/
def search (now : Nat) (key : Key) :
    List Fragment4 → List Fragment4 × Option (Fragment4 × List Fragment4)
  | [] => ([], none)
  | f :: l =>
    if f.key = key then ([], some (f, l))
    else
      let r := search now key l
      if f.age < now then r else (f :: r.1, r.2)

/-- `ipfragallo4`: the last queue in use is freed if there is no other one. -/
def ipfragallo4 (l : List Fragment4) (f : Fragment4) : List Fragment4 :=
  f :: if l.length < nfrag then l else l.dropLast

/-- `BKFG(prev)->flen -= ovlap`, where the fragment that is put behind `prev` begins at `foff` -/
def Block.cutat (prev : Block) (foff : Nat) : Block :=
  { prev with flen := prev.flen - (prev.foff + prev.flen - foff) }

/-- Trims `ovlap` bytes at the front and moves the header up. -/
def Block.front (b : Block) (ovlap : Nat) : Except Fault Block :=
  ({ b.moveup ovlap with
      flen := b.flen - ovlap
      foff := (b.foff + ovlap) % 65536 } : Block).setrp (b.rp + ovlap)

/-- The loop over the fragments behind the new one, which ends at `fend`: those that are covered
are taken out. -/
def uncover (fend : Nat) : List Block → Except Fault (List Block)
  | [] => .ok []
  | b :: l =>
    if fend ≤ b.foff then .ok (b :: l)
    else if fend - b.foff < b.flen then (b.front (fend - b.foff)).map (· :: l)
    else uncover fend l

/-- The fragment is put into its place; `none` when the one before it covers it. -/
def insert (q : List Block) (bp : Block) : Except Fault (Option (List Block)) :=
  let before := q.takeWhile fun b => b.foff < bp.foff
  let after := q.dropWhile fun b => b.foff < bp.foff
  match before.getLast? with
  | none => (uncover (bp.foff + bp.flen) after).map fun l => some (bp :: l)
  | some prev =>
    let ovlap := prev.foff + prev.flen - bp.foff
    if 0 < ovlap ∧ bp.flen ≤ ovlap then .ok none
    else
      (uncover (bp.foff + bp.flen) after).map fun l =>
        some (before.dropLast ++ prev.cutat bp.foff :: bp :: l)

/-- The flag of the header: more fragments follow. -/
def Block.more (b : Block) : Bool := b.byte 6 &&& (IP_MF / 256) ≠ 0

/-- The loop that looks for a complete packet. -/
def complete (pktposn : Nat) : List Block → Bool
  | [] => false
  | b :: l =>
    if b.foff ≠ pktposn then false
    else if b.more then complete (pktposn + b.flen) l
    else true

/-- The data of a fragment behind the first one. -/
def Block.strip (b : Block) : Except Fault Block :=
  (b.setrp (b.rp + IP4HDR)).bind fun b => b.setwp (b.rp + b.flen)

def strips : List Block → Except Fault (List Block)
  | [] => .ok []
  | b :: l => b.strip.bind fun b => (strips l).map (b :: ·)

/-- The fragments become one packet. -/
def glue : List Block → Except Fault (List Block)
  | [] => .ok []
  | b :: l =>
    let len := b.length
    (b.setwp (b.rp + len)).bind fun b =>
      (strips l).map fun rest => b.hnputs 2 (len + (l.map (·.flen)).sum) :: rest

/-- The packet in one block. -/
def gather (bp : Block) (next : List Block) : Block × List Block :=
  if next = [] then (bp, next)
  else (pullupblock bp next (blocklen (bp :: next))).getD (bp, next)

/-- A packet that is not a fragment. -/
def accepted (offset : Nat) (bp : Block) : Prop :=
  bp.tos = 0 ∧ offset &&& (0xffff - IP_MF - IP_DF) = 0

instance (offset : Nat) (bp : Block) : Decidable (accepted offset bp) :=
  inferInstanceAs (Decidable (_ ∧ _))

/-- The fragment with its `Ipfrag`; its length is that of the header. -/
def tag (offset : Nat) (bp : Block) : Block :=
  { reserve bp with
    foff := offset <<< 3 % 65536
    flen := (bp.length + (65536 - IP4HDR)) % 65536 }

/-- The offset of a fragment in bytes. -/
def Block.offset (b : Block) : Nat := b.frag <<< 3 % 65536

/-- The bytes behind the header that its length counts. -/
def pktdata (pkt : List Block) (len : Nat) : List UInt8 :=
  ((bytes pkt).drop IP4HDR).take (len - IP4HDR)

/-- The length that the header of a packet says. -/
def pktlen : List Block → Nat
  | [] => 0
  | b :: _ => b.length

/-- `ip4reassemble` at the time `now` -/
def ip4reassemble (now : Nat) (ip : IP) (offset : Nat) (bp : Block) (next : List Block) :
    Except Fault (IP × Option (List Block)) :=
  let key := bp.key
  let bp' := (gather bp next).1
  let next' := (gather bp next).2
  let found := search now key ip.flisthead4
  if accepted offset bp' then
    .ok (⟨found.1 ++ (found.2.map (·.2)).getD []⟩, some (bp' :: next'))
  else
    match found.2 with
    | none => .ok (⟨ipfragallo4 found.1 ⟨key, tag offset bp' :: next', now + 30000⟩⟩, none)
    | some (f, after) =>
      match insert f.blist (tag offset bp') with
      | .error e => .error e
      | .ok none => .ok (⟨found.1 ++ f :: after⟩, none)
      | .ok (some blist) =>
        if complete 0 blist then
          (glue blist).map fun pkt => (⟨found.1 ++ after⟩, some pkt)
        else .ok (⟨found.1 ++ { f with blist := blist } :: after⟩, none)

end NixMark.Ip
