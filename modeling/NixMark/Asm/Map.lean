import Mathlib.Algebra.Order.Ring.Nat

/-!
# The map of physical addresses (`k10/asm.c`)

The entries are the elements of `asmarray`; an `Asm*` is the index of one. The map `asmlist` and the
list `asmfreelist` of unused entries share the link `next`. An address and a size are 64-bit
numbers.

A walk along a list takes at most `nelem` steps, which is enough for a list that ends: `none` is a
walk that does not end.
-/

namespace NixMark.Asm

abbrev Uintmem := BitVec 64

def AsmNONE : Int := 0
def AsmMEMORY : Int := 1

/-- `nelem(asmarray)` -/
def nelem : Nat := 64

/-- The entries and the two lists. -/
structure Map where
  addr : Nat → Uintmem
  size : Nat → Uintmem
  type : Nat → Int
  next : Nat → Option Nat
  asmlist : Option Nat
  asmfreelist : Option Nat
  asmindex : Nat

namespace Map

/-- `asmnew` -/
def asmnew (s : Map) (addr size : Uintmem) (type : Int) : Option Nat × Map :=
  match s.asmfreelist with
  | some asm =>
    (some asm,
      { s with
        asmfreelist := s.next asm
        next := Function.update s.next asm none
        addr := Function.update s.addr asm addr
        size := Function.update s.size asm size
        type := Function.update s.type asm type })
  | none =>
    if nelem ≤ s.asmindex then (none, s)
    else
      (some s.asmindex,
        { s with
          asmindex := s.asmindex + 1
          addr := Function.update s.addr s.asmindex addr
          size := Function.update s.size s.asmindex size
          type := Function.update s.type s.asmindex type })

/-- The loop of `asmfree`: the last entry that is not above `addr`, and the one after it. -/
def walk (s : Map) (addr : Uintmem) : Nat → Option Nat → Option Nat →
    Option (Option Nat × Option Nat)
  | _, pp, none => some (pp, none)
  | 0, _, some _ => none
  | fuel + 1, pp, some np =>
    if s.addr np ≤ addr then walk s addr fuel (some np) (s.next np) else some (pp, some np)

/-- `*ppp = p`: the link of `pp`, or the list if there is no `pp`. -/
def setppp (s : Map) (pp p : Option Nat) : Map :=
  match pp with
  | none => { s with asmlist := p }
  | some pp => { s with next := Function.update s.next pp p }

/-- `np` is put on the free list. -/
def toss (s : Map) (np : Nat) : Map :=
  { s with next := Function.update s.next np s.asmfreelist, asmfreelist := some np }

/-- The range overlaps a neighbour. -/
def overlaps (s : Map) (addr size : Uintmem) (pp np : Option Nat) : Bool :=
  pp.any (fun pp => addr < s.addr pp + s.size pp) || np.any (fun np => s.addr np < addr + size)

/-- `asmfree` after the loop, with the neighbours `pp` and `np`. -/
def put (s : Map) (addr size : Uintmem) (type : Int) (pp np : Option Nat) : Int × Map :=
  if s.overlaps addr size pp np then (-1, s)
  else
    match pp.filter (fun pp => s.type pp == type && s.addr pp + s.size pp == addr),
      np.filter (fun np => s.type np == type && addr + size == s.addr np) with
    | some p, some n =>
      (0, { s with
        size := Function.update s.size p (s.size p + size + s.size n)
        next := Function.update s.next p (s.next n) }.toss n)
    | some p, none => (0, { s with size := Function.update s.size p (s.size p + size) })
    | none, some n =>
      (0, { s with
        addr := Function.update s.addr n (s.addr n - size)
        size := Function.update s.size n (s.size n + size) })
    | none, none =>
      match s.asmnew addr size type with
      | (none, s) => (-1, s)
      | (some p, s) =>
        let s := s.setppp pp (some p)
        (0, { s with next := Function.update s.next p np })

/-- `asmfree` -/
def asmfree (s : Map) (addr size : Uintmem) (type : Int) : Option (Int × Map) :=
  if size = 0 then some (0, s)
  else (s.walk addr nelem none s.asmlist).map fun (pp, np) => s.put addr size type pp np

/-- What the loop of `asmalloc` does at an entry. -/
inductive Fit where
  | skip
  | stop
  | take (a : Uintmem)

/-- `if(align > 0) a = ((a+align-1)/align)*align`; `align` is an `int`. -/
def aligned (a : Uintmem) (align : Int) : Uintmem :=
  if 0 < align then (a + BitVec.ofInt 64 align - 1) / BitVec.ofInt 64 align * BitVec.ofInt 64 align
  else a

/-- The end of the body of the loop, for a range from `a` on. -/
def fitAt (s : Map) (asm : Nat) (a size : Uintmem) : Fit :=
  if s.addr asm + s.size asm - a < size then .skip else .take a

/-- The body of the loop of `asmalloc`. -/
def fit (s : Map) (asm : Nat) (addr size : Uintmem) (type align : Int) : Fit :=
  if s.type asm ≠ type then .skip
  else if addr ≠ 0 then
    if addr < s.addr asm then .stop
    else if s.size asm < addr - s.addr asm then .skip
    else if s.size asm - size < addr - s.addr asm then .stop
    else s.fitAt asm (aligned addr align) size
  else s.fitAt asm (aligned (s.addr asm) align) size

/-- The loop of `asmalloc`: the entry that is taken from, the one before it, and the address. -/
def search (s : Map) (addr size : Uintmem) (type align : Int) : Nat → Option Nat → Option Nat →
    Option (Option (Option Nat × Nat × Uintmem))
  | _, _, none => some none
  | 0, _, some _ => none
  | fuel + 1, pp, some asm =>
    match s.fit asm addr size type align with
    | .skip => search s addr size type align fuel (some asm) (s.next asm)
    | .stop => some none
    | .take a => some (some (pp, asm, a))

/-- The entry `asm` after `pp` is cut down to what lies behind the range from `a` on. -/
def cut (s : Map) (pp : Option Nat) (asm : Nat) (a size : Uintmem) : Map :=
  let s : Map := { s with
    addr := Function.update s.addr asm (a + size)
    size := Function.update s.size asm (s.size asm - (a - s.addr asm + size)) }
  if s.size asm = 0 then
    match pp with
    | some pp => { s with next := Function.update s.next pp (s.next asm) }.toss asm
    | none => s.toss asm
  else s

/-- `asmalloc` -/
def asmalloc (s : Map) (addr size : Uintmem) (type align : Int) : Option (Uintmem × Map) :=
  match s.search addr size type align nelem none s.asmlist with
  | none => none
  | some none => some (0, s)
  | some (some (pp, asm, a)) =>
    let o := s.addr asm
    if o ≠ a then ((s.cut pp asm a size).asmfree o (a - o) type).map fun (_, s) => (a, s)
    else some (a, s.cut pp asm a size)

/-- `asminsert` -/
def asminsert (s : Map) (addr size : Uintmem) (type : Int) : Option Map :=
  if type = AsmNONE then some s
  else
    match s.asmalloc addr size AsmNONE 0 with
    | none => none
    | some (a, s) =>
      if a = 0 then some s
      else
        match s.asmfree addr size type with
        | none => none
        | some (r, s) => if r = 0 then some s else (s.asmfree addr size 0).map (·.2)

end Map

/-- The map and the fields of `Sys` that the calls use. -/
structure Sys where
  map : Map
  pmstart : Uintmem
  pmoccupied : Uintmem
  pmend : Uintmem

def MiB : Uintmem := 1048576

/-- `ROUNDUP` of a `u32int`. -/
def ROUNDUP (x y : BitVec 32) : BitVec 32 := (x + (y - 1)) / y * y

/-- `asmmapinit`: the part of the range that is inserted; memory below `pmstart` is not. -/
def mapinitRange (s : Sys) (addr size : Uintmem) (type : Int) : Option (Uintmem × Uintmem) :=
  if type = AsmMEMORY then
    if addr < 1 * MiB ∨ addr + size < s.pmstart then none
    else if addr < s.pmstart then some (s.pmstart, size - (s.pmstart - addr))
    else some (addr, size)
  else some (addr, size)

/-- `asmmapinit` -/
def asmmapinit (s : Sys) (addr size : Uintmem) (type : Int) : Option Sys :=
  match mapinitRange s addr size type with
  | none => some s
  | some (addr, size) =>
    (s.map.asminsert addr size type).map fun map =>
      if type = AsmMEMORY then
        { map := map
          pmstart := s.pmstart
          pmoccupied := s.pmoccupied + size
          pmend := if s.pmend < addr + size then addr + size else s.pmend }
      else { s with map := map }

/-- `asmmodinit`: the size that is allocated from `pmstart` on. -/
def modinitSize (s : Sys) (start end_ : BitVec 32) : Option Uintmem :=
  let top := (ROUNDUP end_ 4096).zeroExtend 64
  if start.zeroExtend 64 < s.pmstart then none
  else if s.pmstart < top then some (top - s.pmstart) else none

/-- `asmmodinit` -/
def asmmodinit (s : Sys) (start end_ : BitVec 32) : Option Sys :=
  match modinitSize s start end_ with
  | none => some s
  | some size =>
    (s.map.asmalloc s.pmstart size AsmNONE 0).map fun (_, map) =>
      { s with map := map, pmstart := (ROUNDUP end_ 4096).zeroExtend 64 }

/-- A call that changes the map. -/
inductive Op where
  | asmfree (addr size : Uintmem) (type : Int)
  | asmalloc (addr size : Uintmem) (type align : Int)
  | asminsert (addr size : Uintmem) (type : Int)
  | asmmapinit (addr size : Uintmem) (type : Int)
  | asmmodinit (start end_ : BitVec 32)

/-- The call, if it returns. -/
def Op.run (s : Sys) : Op → Option Sys
  | asmfree addr size type => (s.map.asmfree addr size type).map fun (_, map) => { s with map := map }
  | asmalloc addr size type align =>
    (s.map.asmalloc addr size type align).map fun (_, map) => { s with map := map }
  | asminsert addr size type => (s.map.asminsert addr size type).map fun map => { s with map := map }
  | asmmapinit addr size type => Asm.asmmapinit s addr size type
  | asmmodinit start end_ => Asm.asmmodinit s start end_

/-- `asmarray[0] = { 0, ~0, AsmNONE, nil, }` -/
def Map.start : Map where
  addr _ := 0
  size i := if i = 0 then BitVec.allOnes 64 else 0
  type _ := AsmNONE
  next _ := none
  asmlist := some 0
  asmfreelist := none
  asmindex := 1

end NixMark.Asm
