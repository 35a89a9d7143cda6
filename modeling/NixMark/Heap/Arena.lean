import NixMark.Heap.Units

/-!
# The heap

A quick fit allocator with a tail and a list of fragments for each segment. Addresses count units
of `Unitsz` bytes; a block is known by the address `p` of its header, and the user gets `p+1`. What
the user's bytes hold plays no part (`memset` and `memmove` write there only, as the user does), and
neither do the statistics and the tags of the callers.

* `tailalloc`, `qfreeinternal`, `qmalloc`, `qmallocalign`, `morecore`, `malloc`, `mallocalign`,
  `free`, `realloc`, `mallocinit`.
* `Stop`: the panics. A loop over a list has fuel, which `loops` reports to be used up.
-/

namespace NixMark.Heap

/-- Why the kernel stops. -/
inductive Stop
  /-- `quick`: a block of a quick list is too small. -/
  | quick
  /-- `qfreeinternal: base`. -/
  | base
  /-- `free: corrupt allocation arena`, also of `realloc`. -/
  | corrupt
  /-- `free: double free` and `realloc: already free`. -/
  | doubleFree
  /-- `free: user overflow`, also of `realloc`. -/
  | overflow
  /-- `free: not from malloc`. -/
  | notmalloc
  /-- `Enomem`. -/
  | nomem
  /-- The panics of `qmallocalign` and `mallocalign` about their arguments. -/
  | align
  /-- `setmalloctag: nil`. -/
  | tagnil
  /-- A nil pointer is followed. -/
  | fault
  | loops
  deriving DecidableEq

/-- The headers by address (`next`, `size`), the last byte of each unit, the segments in the order
of their links with their fields by `MSeg*`, and the heads of the quick lists. -/
structure Arena where
  next : Nat → Option Nat
  size : Nat → Nat
  last : Nat → Nat
  segs : List Nat
  base : Nat → Nat
  end_ : Nat → Nat
  rover : Nat → Option Nat
  tailptr : Nat → Nat
  maxsz : Nat → Nat
  quick : Nat → Option Nat

/-- `~0`: the largest fragment is not known. -/
def noMax : Nat := 2 ^ 32 - 1

/-- `a-1`, which is the largest number for 0. -/
def pred (a : Nat) : Nat := usize (a + 2 ^ 64 - 1)

def ALIGNED (h a : Nat) : Bool := (h * Unitsz) &&& pred a = 0

/-- `x & ~(a-1)` is `x` without the bits of `a-1`. -/
def ALIGNHDR (h a : Nat) : Nat :=
  let x := usize (h * Unitsz + pred a)
  (x - (x &&& pred a)) / Unitsz

/-- The difference of two pointers to units, as a `uint`. -/
def ptrdiff (p q : Nat) : Nat := uint (p + 2 ^ 59 - q)

namespace Arena

def settag (h : Arena) (p n tag : Nat) : Arena :=
  { h with last := Function.update h.last (p + n - 1) tag }

/-- `p->s.next = nil`, and the end tag. -/
def handout (h : Arena) (p : Nat) : Arena :=
  { h with next := Function.update h.next p none }.settag p (h.size p) ATAG

def tailalloc (h : Arena) (m n : Nat) : Arena × Nat :=
  let p := h.tailptr m
  ({ h with tailptr := Function.update h.tailptr m (p + n), size := Function.update h.size p n,
            next := Function.update h.next p none }, p)

/-- `if(maxsz != ~0 && size > maxsz) maxsz = size`. -/
def raisemax (h : Arena) (m size : Nat) : Arena :=
  if h.maxsz m ≠ noMax ∧ h.maxsz m < size then
    { h with maxsz := Function.update h.maxsz m size }
  else h

/-- `if(size == maxsz) maxsz = ~0`. -/
def dropmax (h : Arena) (m size : Nat) : Arena :=
  if size = h.maxsz m then { h with maxsz := Function.update h.maxsz m noMax } else h

/-! ## `free` -/

variable (IOHDRSZ : Nat)

/-- The second half of `qfreeinternal`: where the block goes. The search for the fragment before it
looks at `rover` only, since `prev` stays. -/
def giveback (h : Arena) (m p nunits : Nat) : Arena :=
  if p + nunits = h.tailptr m then
    { h with tailptr := Function.update h.tailptr m p }
  else if nunits ≤ NQUICK IOHDRSZ then
    { h with next := Function.update h.next p (h.quick nunits),
             quick := Function.update h.quick nunits (some p) }
  else
    match h.rover m with
    | none =>
      { h with rover := Function.update h.rover m (some p),
               next := Function.update h.next p (some p) }
    | some prev =>
      if prev + h.size prev = p then
        let size := uint (h.size prev + h.size p)
        { h with size := Function.update h.size prev size }.raisemax m size
      else
        { h with next := Function.update (Function.update h.next p (h.next prev)) prev
                  (some p) }.raisemax m (h.size p)

/-- `m` is the global `mseg`. -/
def qfreeinternal (h : Arena) (m p : Nat) (checktag : Bool) : Except Stop Arena :=
  let nunits := h.size p
  if p < h.base m ∨ h.end_ m ≤ p then .error .base
  else if nunits = 0 ∨ h.next p ≠ none then .error .corrupt
  else if checktag ∧ h.last (p + nunits - 1) = FTAG then .error .doubleFree
  else if checktag ∧ h.last (p + nunits - 1) ≠ ATAG then .error .overflow
  else .ok ((h.settag p nunits FTAG).giveback IOHDRSZ m p nunits)

def free (h : Arena) : Option Nat → Except Stop Arena
  | none => .ok h
  | some ap =>
    match h.segs.find? fun m => h.base m ≤ ap ∧ ap < h.end_ m with
    | none => .error .notmalloc
    | some m => h.qfreeinternal IOHDRSZ m (ap - 1) true

/-! ## `morecore` -/

/-- `sizeof(MSeg)`, which is a part of a new segment. -/
def sizeofMSeg : Nat := 88

/-- The segment `s` has the `len` bytes from the byte `cp`. -/
def mallocinitseg (h : Arena) (s cp len : Nat) : Arena :=
  let base := (cp + (Unitsz - 1)) / Unitsz
  { h with
    base := Function.update h.base s base
    end_ := Function.update h.end_ s (base + (cp + len - base * Unitsz) / Unitsz)
    rover := Function.update h.rover s none
    tailptr := Function.update h.tailptr s base
    maxsz := Function.update h.maxsz s noMax }

/-- `page` is the address that `newpg` returns. The new segment is linked after `mseg0`. -/
def morecore (h : Arena) (nunits : Nat) (page : Option Nat) : Arena × Bool :=
  if mallocpgsz / Unitsz < nunits then (h, false)
  else
    match page with
    | none => (h, false)
    | some a =>
      let h := h.mallocinitseg a (a * Unitsz + sizeofMSeg) (mallocpgsz - sizeofMSeg)
      ({ h with segs := h.segs.take 1 ++ a :: h.segs.drop 1 }, true)

/-- The search from the label `Again`, with `morecore` up to `mc` times in between. -/
def again (search : Arena → Except Stop (Arena × Option Nat)) (more : Nat)
    (newpg : Nat → Option Nat) : Nat → Arena → Except Stop (Arena × Nat)
  | 0, h => do
    match ← search h with
    | (h, some p) => .ok (h, p)
    | (_, none) => .error .nomem
  | mc + 1, h => do
    match ← search h with
    | (h, some p) => .ok (h, p)
    | (h, none) =>
      match h.morecore more (newpg mc) with
      | (h, true) => again search more newpg mc h
      | (_, false) => .error .nomem

/-- The next two loops go around a list of fragments, from the one after `rover`: a fragment that
fits, with the one before it, or the largest size. -/
def roverloop (h : Arena) (fits : Nat → Bool) (rover : Nat) :
    Nat → Nat → Nat → Except Stop (Nat ⊕ Nat × Nat)
  | 0, _, _ => .error .loops
  | fuel + 1, prev, msize =>
    match h.next prev with
    | none => .error .fault
    | some p =>
      let msize := if msize < h.size p then h.size p else msize
      if fits p then .ok (.inr (prev, p))
      else if p = rover then .ok (.inl msize)
      else roverloop h fits rover fuel p msize

/-- The units below the tail bound the fragments of a segment. -/
def below (h : Arena) (m : Nat) : Nat := h.tailptr m - h.base m

/-- A fragment is taken out of its list. -/
def unlink (h : Arena) (m prev p : Nat) : Arena :=
  if h.next prev = h.next p then { h with rover := Function.update h.rover m none }
  else { h with next := Function.update h.next prev (h.next p),
                rover := Function.update h.rover m (some prev) }

/-! ## `malloc` -/

/-- The loop over the quick lists, from the one for `c` units; `k` are left. -/
def quickloop : Nat → Nat → Arena → Except Stop (Option (Arena × Nat))
  | 0, _, _ => .ok none
  | k + 1, c, h =>
    if c < NQUICK IOHDRSZ then
      match h.quick c with
      | none => quickloop k (c + 1) h
      | some p =>
        if h.size p < c then .error .quick
        else
          .ok (some ({ h with quick := Function.update h.quick c (h.next p) }.handout p, p))
    else .ok none

/-- A block from the quick list for `nunits` units or from the ones after it. -/
def quickalloc (h : Arena) (nunits : Nat) : Except Stop (Option (Arena × Nat)) :=
  if nunits ≤ NQUICK IOHDRSZ then
    quickloop IOHDRSZ (if Mult < nunits then Mult else 1) nunits h
  else .ok none

/-- The end of a fragment, or the fragment. -/
def cut (h : Arena) (m prev p nunits : Nat) : Arena × Nat :=
  if nunits < h.size p ∧ Mult ≤ h.size p - nunits then
    let rest := h.size p - nunits
    ({ h with size := Function.update (Function.update h.size p rest) (p + rest) nunits }, p + rest)
  else (h.unlink m prev p, p)

/-- `qmalloc` takes a block from the fragment `p`. -/
def take (h : Arena) (m prev p nunits : Nat) : Arena × Nat :=
  let (h, p) := h.cut m prev p nunits
  ((h.dropmax m (h.size p)).handout p, p)

/-- The loop over the segments with a list of fragments. -/
def roversegs (nunits : Nat) : List Nat → Arena → Except Stop (Arena × Option Nat)
  | [], h => .ok (h, none)
  | m :: ms, h =>
    match h.rover m with
    | none => roversegs nunits ms h
    | some r =>
      if h.maxsz m ≠ noMax ∧ h.maxsz m < nunits then roversegs nunits ms h
      else
        match h.roverloop (fun p => nunits ≤ h.size p) r (h.below m) r 0 with
        | .error e => .error e
        | .ok (.inr (prev, p)) =>
          let (h, p) := h.take m prev p nunits
          .ok (h, some p)
        | .ok (.inl msize) =>
          roversegs nunits ms { h with maxsz := Function.update h.maxsz m msize }

/-- The tails, then the fragments. -/
def search (nunits : Nat) (h : Arena) : Except Stop (Arena × Option Nat) :=
  match h.segs.find? fun m => nunits ≤ h.end_ m - h.tailptr m with
  | some m =>
    let (h, p) := h.tailalloc m nunits
    .ok (h.settag p nunits ATAG, some p)
  | none => roversegs nunits h.segs h

def qmalloc (h : Arena) (nbytes : Nat) (newpg : Nat → Option Nat) :
    Except Stop (Arena × Option Nat) :=
  if nbytes = 0 then .ok (h, none)
  else do
    match ← h.quickalloc IOHDRSZ (NUNITS nbytes) with
    | some (h, p) => .ok (h, some p)
    | none =>
      let (h, p) ← again (search (NUNITS nbytes)) (NUNITS nbytes) newpg 3 h
      .ok (h, some p)

/-- `malloc`, and `smalloc` and `mallocz`; `setmalloctag` refuses nil. -/
def malloc (h : Arena) (size : Nat) (newpg : Nat → Option Nat) : Except Stop (Arena × Nat) := do
  match ← h.qmalloc IOHDRSZ size newpg with
  | (h, some p) => .ok (h, p)
  | (_, none) => .error .tagnil

/-! ## `mallocalign` -/

/-- The walk of a quick list; `pp` is the block before, none for the head. -/
def quickwalk (nunits align : Nat) (h : Arena) :
    Nat → Option Nat → Option Nat → Except Stop (Option (Arena × Nat))
  | _, _, none => .ok none
  | 0, _, some _ => .error .loops
  | fuel + 1, pp, some p =>
    if ALIGNED (p + 1) align then
      let h := match pp with
        | none => { h with quick := Function.update h.quick nunits (h.next p) }
        | some q => { h with next := Function.update h.next q (h.next p) }
      .ok (some (h.handout p, p))
    else quickwalk nunits align h fuel (some p) (h.next p)

/-- The blocks of a quick list are in the segments. -/
def quickfuel (h : Arena) : Nat := (h.segs.map h.below).sum

/-- An aligned block from the quick list for `nunits` units. -/
def quickalign (h : Arena) (nunits align : Nat) : Except Stop (Option (Arena × Nat)) :=
  if nunits ≤ NQUICK IOHDRSZ then
    h.quickwalk nunits align h.quickfuel none (h.quick nunits)
  else .ok none

/-- `naligned`, a `uint`. -/
def naligned (align : Nat) : Nat := uint (HOWMANY align Unitsz)

/-- The loop over the tails, from `Another`. -/
def aligntail (nunits align : Nat) : List Nat → Arena → Except Stop (Option (Arena × Nat))
  | [], _ => .ok none
  | m :: ms, h =>
    if h.end_ m - h.tailptr m < nunits then aligntail nunits align ms h
    else
      let p := ALIGNHDR (h.tailptr m + 1) align
      if p ≠ h.tailptr m + 1 then
        if h.end_ m - h.tailptr m < uint (nunits + naligned align) then
          aligntail nunits align ms h
        else do
          let (h, r) := h.tailalloc m (ptrdiff p (h.tailptr m + 1))
          let (h, p) := h.tailalloc m nunits
          let h ← h.qfreeinternal IOHDRSZ m r false
          .ok (some (h.settag p nunits ATAG, p))
      else
        let (h, p) := h.tailalloc m nunits
        .ok (some (h.settag p nunits ATAG, p))

/-- The runt in front of the alignment is freed. -/
def frontrunt (align : Nat) (h : Arena) (m r : Nat) : Except Stop (Arena × Nat) :=
  if ALIGNED (r + 1) align then .ok (h, r)
  else do
    let p := ALIGNHDR (r + 1) align - 1
    let n := ptrdiff p r
    let h := { h with size := Function.update (Function.update h.size p
                        (uint (h.size r + 2 ^ 32 - n))) r n,
                      next := Function.update h.next r none }
    let h ← h.qfreeinternal IOHDRSZ m r false
    .ok (h, p)

/-- The residue after the aligned block is freed. -/
def rearrunt (nunits : Nat) (h : Arena) (m p : Nat) : Except Stop Arena :=
  if nunits < h.size p ∧ Mult < h.size p - nunits then do
    let r := p + nunits
    let h := { h with size := Function.update h.size r (h.size p - nunits),
                      next := Function.update h.next r none }
    let h ← h.qfreeinternal IOHDRSZ m r false
    .ok { h with size := Function.update h.size p nunits }
  else .ok h

/-- A fragment is taken, and its residues are freed. -/
def aligntake (nunits align : Nat) (h : Arena) (m prev p : Nat) : Except Stop (Arena × Nat) := do
  let (h, p) ← ((h.unlink m prev p).dropmax m (h.size p)).frontrunt IOHDRSZ align m p
  let h ← h.rearrunt IOHDRSZ nunits m p
  .ok (h.handout p, p)

def alignfits (nunits align : Nat) (h : Arena) (p : Nat) : Bool :=
  nunits ≤ h.size p ∧ (ALIGNED (p + 1) align ∨ uint (nunits + naligned align) ≤ h.size p)

def alignrover (nunits align : Nat) : List Nat → Arena → Except Stop (Option (Arena × Nat))
  | [], _ => .ok none
  | m :: ms, h =>
    match h.rover m with
    | none => alignrover nunits align ms h
    | some r =>
      match h.roverloop (h.alignfits nunits align) r (h.below m) r 0 with
      | .error e => .error e
      | .ok (.inl _) => alignrover nunits align ms h
      | .ok (.inr (prev, p)) => do
        let (h, p) ← h.aligntake IOHDRSZ nunits align m prev p
        .ok (some (h, p))

def alignsearch (nunits align : Nat) (h : Arena) : Except Stop (Arena × Option Nat) := do
  match ← aligntail IOHDRSZ nunits align h.segs h with
  | some (h, p) => .ok (h, some p)
  | none =>
    match ← alignrover IOHDRSZ nunits align h.segs h with
    | some (h, p) => .ok (h, some p)
    | none => .ok (h, none)

def qmallocalign (h : Arena) (nbytes align : Nat) (newpg : Nat → Option Nat) :
    Except Stop (Arena × Option Nat) :=
  if nbytes = 0 then .ok (h, none)
  else if align &&& pred align ≠ 0 then .error .align
  else if align ≤ Unitsz then do
    let (h, p) ← h.malloc IOHDRSZ nbytes newpg
    .ok (h, some p)
  else do
    match ← h.quickalign IOHDRSZ (NUNITS nbytes) align with
    | some (h, p) => .ok (h, some p)
    | none =>
      let (h, p) ← again (alignsearch IOHDRSZ (NUNITS nbytes) align)
        (usize (NUNITS nbytes + HOWMANY align Unitsz)) newpg 3 h
      .ok (h, some p)

/-- The last checks of `mallocalign`; the user's pointer is `p+1`. -/
def alignedblock (align : Nat) : Arena × Option Nat → Except Stop (Arena × Option Nat)
  | (_, none) => .error .tagnil
  | (h, some p) => if ALIGNED (p + 1) align then .ok (h, some p) else .error .align

def mallocalign (h : Arena) (nbytes align : Nat) (offset : Int) (span : Nat)
    (newpg : Nat → Option Nat) : Except Stop (Arena × Option Nat) :=
  if span ≠ 0 ∧ align ≤ span then
    if span < nbytes then .ok (h, none)
    else if offset ≠ 0 then .error .align
    else do alignedblock span (← h.qmallocalign IOHDRSZ nbytes span newpg)
  else if offset ≠ 0 ∨ span ≠ 0 then .error .align
  else do alignedblock align (← h.qmallocalign IOHDRSZ nbytes align newpg)

/-! ## `realloc` -/

def realloc (h : Arena) (ap : Option Nat) (size : Nat) (newpg : Nat → Option Nat) :
    Except Stop (Arena × Option Nat) :=
  if size = 0 then do
    let h ← h.free IOHDRSZ ap
    .ok (h, none)
  else
    match ap with
    | none => do
      let (h, p) ← h.malloc IOHDRSZ size newpg
      .ok (h, some p)
    | some ap =>
      let p := ap - 1
      let ounits := h.size p
      if ounits = 0 ∨ h.next p ≠ none then .error .corrupt
      else if h.last (p + ounits - 1) = FTAG then .error .doubleFree
      else if h.last (p + ounits - 1) ≠ ATAG then .error .overflow
      else
        let nunits := NUNITS size
        if nunits ≤ ounits then .ok (h, some p)
        else
          match h.segs.find? fun m => (h.base m ≤ p ∧ p < h.end_ m) ∧
              p + ounits = h.tailptr m ∧ p + nunits ≤ h.end_ m with
          | some m =>
            .ok ({ h with size := Function.update h.size p nunits,
                          tailptr := Function.update h.tailptr m (p + nunits)
                          }.settag p nunits ATAG, some p)
          | none => do
            let (h, v) ← h.malloc IOHDRSZ size newpg
            let h ← h.free IOHDRSZ (some ap)
            .ok (h, some v)

end Arena

/-- The heap before the first call: one segment, and memory with any contents. -/
def mallocinit (next : Nat → Option Nat) (size last : Nat → Nat) (vmunused vmend : Nat) : Arena :=
  Arena.mallocinitseg
    { next := next, size := size, last := last, segs := [0], base := fun _ => 0,
      end_ := fun _ => 0, rover := fun _ => none, tailptr := fun _ => 0, maxsz := fun _ => 0,
      quick := fun _ => none } 0 vmunused (vmend - vmunused)

end NixMark.Heap
