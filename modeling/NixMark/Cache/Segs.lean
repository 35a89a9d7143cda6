import Mathlib.Data.List.Nodup

/-!
# The segments of the mount cache

The functions of `cache.c` that account for the cached segments, cut where they give up their locks,
so that the steps of several processes may come in any order. The hash chains and the lru queue are
lists; channels that are not cacheable are left out, as are the bytes of the pages.

* `Segment`, `Mntcache`, `Sys`: a segment, the cache, and the cache with its users.
* `clookup`, `cclear`, `ccheckvers`, `unhashseg`, `creclaim`, `putseg`: the functions of the source.
* `Work`: what a process has still to do. `exec`: the steps.
-/

namespace NixMark.Cache

/-- The address of a `Segment`. -/
abbrev Addr := Nat

def FHASHSIZE : Nat := 101

/-- The size of the pages of a cached segment. -/
def pgsz : Int := 16384

structure Qid where
  path : Nat
  vers : Nat
  type : Nat
deriving DecidableEq

structure Segment where
  ref : Nat
  used : Bool
  cqid : Qid
  cdev : Nat
  clength : Int
  nbytes : Int
  /-- the addresses of its pages -/
  pages : List Nat
deriving DecidableEq

/-- A `Chan`, while it is open or not. `removed` says that `cremove` has been called for it: nothing
but its close is left. -/
structure Chan where
  isopen : Bool
  qid : Qid
  dev : Nat
  mc : Option Addr
  removed : Bool
deriving DecidableEq

/-- A `Mntcache`, with the segments. -/
structure Mntcache where
  hash : Nat → List Addr
  lru : List Addr
  nseg : Int
  nbytes : Int
  seg : Addr → Segment

def chash (path : Nat) : Nat := path % FHASHSIZE

def Mntcache.set (m : Mntcache) (s : Addr) (x : Segment) : Mntcache :=
  { m with seg := Function.update m.seg s x }

def Mntcache.chain (m : Mntcache) (h : Nat) (l : List Addr) : Mntcache :=
  { m with hash := Function.update m.hash h l }

def Mntcache.incref (m : Mntcache) (s : Addr) : Mntcache :=
  m.set s { m.seg s with ref := (m.seg s).ref + 1 }

def Mntcache.unlinkseg (m : Mntcache) (s : Addr) : Mntcache := { m with lru := m.lru.erase s }

def Mntcache.linkseg (m : Mntcache) (s : Addr) : Mntcache := { m with lru := m.lru ++ [s] }

/-- The entry of the channel's file on its chain. -/
def Mntcache.find (m : Mntcache) (c : Chan) : Option Addr :=
  (m.hash (chash c.qid.path)).find? fun s =>
    c.qid.path = (m.seg s).cqid.path && c.qid.type = (m.seg s).cqid.type && c.dev = (m.seg s).cdev

/-- The entry that `clookup` makes, in the segment that `newseg` returns. -/
def Mntcache.make (m : Mntcache) (c : Chan) (new : Addr) : Mntcache :=
  let m := m.set new { m.seg new with
    ref := 2, used := false, cqid := c.qid, cdev := c.dev, clength := -1, nbytes := 0 }
  let m := m.linkseg new
  let m := m.chain (chash c.qid.path) (new :: m.hash (chash c.qid.path))
  { m with nseg := m.nseg + 1 }

/-- `clookup`: the cache, the channel, and the entry; `mkit` is the segment for a new one. -/
def clookup (m : Mntcache) (c : Chan) (mkit : Option Addr) : Mntcache × Chan × Option Addr :=
  match c.mc with
  | some s => (m, c, some s)
  | none =>
    match m.find c with
    | some s => (((m.unlinkseg s).linkseg s).incref s, { c with mc := some s }, some s)
    | none =>
      match mkit with
      | some new => (m.make c new, { c with mc := some new }, some new)
      | none => (m, c, none)

/-- `cclear`; `clearseg` frees the pages. -/
def cclear (x : Segment) : Segment :=
  { x with pages := [], used := false, clength := -1, nbytes := 0 }

/-- The version of the cached file is not that of the channel. -/
def stale (x : Segment) (c : Chan) : Bool := c.qid.vers ≠ x.cqid.vers

def ccheckvers (x : Segment) (c : Chan) : Segment :=
  if stale x c then
    let x := cclear x
    { x with cqid := { x.cqid with vers := c.qid.vers } }
  else x

/-- `ceof`, once the entry is found. -/
def ceof (x : Segment) (off : Int) : Segment :=
  if off ≥ 0 ∧ (x.clength < 0 ∨ x.clength > off) then { x with clength := off } else x

/-- The page that `mcread` puts into the segment. -/
def addpage (x : Segment) (addr : Nat) : Segment :=
  { x with pages := addr :: x.pages, nbytes := x.nbytes + pgsz }

/-- `unhashseg`: `none` is its panic. -/
def Mntcache.unhashseg (m : Mntcache) (s : Addr) : Option Mntcache :=
  let h := chash (m.seg s).cqid.path
  if s ∈ m.hash h then
    some { m.chain h ((m.hash h).erase s) with
      nseg := m.nseg - 1, nbytes := m.nbytes - (m.seg s).nbytes }
  else none

/-- The loop of `segvictim`. The head of the queue comes round twice, after as many rounds as twice
the length of the queue. -/
def victim : Nat → Mntcache → Mntcache × Option Addr
  | 0, m => (m, none)
  | n + 1, m =>
    match m.lru with
    | [] => (m, none)
    | s :: l =>
      if (m.seg s).used then
        victim n { m.set s { m.seg s with used := false } with lru := l ++ [s] }
      else if (m.seg s).ref = 1 then ({ m with lru := l }, some s)
      else victim n { m with lru := l ++ [s] }

def segvictim (m : Mntcache) : Mntcache × Option Addr := victim (2 * m.lru.length) m

/-- `putseg`: the last reference frees the segment. -/
def Mntcache.putseg (m : Mntcache) (s : Addr) : Mntcache :=
  let x := m.seg s
  if x.ref = 1 then m.set s { x with ref := 0, pages := [], used := false }
  else m.set s { x with ref := x.ref - 1 }

/-- `creclaim`, when nobody else reclaims; `none` is one of its panics. -/
def creclaim (m : Mntcache) : Option Mntcache :=
  match segvictim m with
  | (m, none) => some m
  | (m, some s) =>
    match m.unhashseg s with
    | none => none
    | some m => if (m.seg s).ref = 1 then some (m.putseg s) else none

/-! ## The users -/

/-- What a process that is in one of the functions has still to do. -/
inductive Work (nc : Nat)
  | idle
  /-- `copen`, before `ccheckvers` -/
  | opening (c : Fin nc) (s : Addr)
  /-- `mcread`; `ra` says that it is a read-ahead process -/
  | reading (c : Fin nc) (s : Addr) (ra : Bool)
  /-- `mcread` has put a page into the segment, and not added it to `cache.nbytes` yet -/
  | adding (c : Fin nc) (s : Addr) (ra : Bool)
  /-- `mcread` has failed and cleared the segment; `count` bytes are still in `cache.nbytes` -/
  | failing (c : Fin nc) (s : Addr) (ra : Bool) (count : Int)
  /-- `cwrite` has cleared the segment -/
  | writing (c : Fin nc) (s : Addr) (count : Int)
  /-- `cremove` has cleared the segment -/
  | removing (c : Fin nc) (s : Addr) (count : Int)
deriving DecidableEq

/-- The channel and the segment that the process works with. -/
def Work.on {nc : Nat} : Work nc → Option (Fin nc × Addr)
  | .idle => none
  | .opening c s => some (c, s)
  | .reading c s _ => some (c, s)
  | .adding c s _ => some (c, s)
  | .failing c s _ _ => some (c, s)
  | .writing c s _ => some (c, s)
  | .removing c s _ => some (c, s)

/-- What is still to be added to `cache.nbytes`. -/
def Work.owes {nc : Nat} : Work nc → Int
  | .adding _ _ _ => pgsz
  | .failing _ _ _ count => -count
  | .writing _ _ count => -count
  | .removing _ _ count => -count
  | _ => 0

/-- The reference to the segment that a read-ahead process has from `creadq`. -/
def Work.readahead {nc : Nat} (s : Addr) : Work nc → Nat
  | .reading _ s' ra => if ra ∧ s' = s then 1 else 0
  | .adding _ s' ra => if ra ∧ s' = s then 1 else 0
  | .failing _ s' ra _ => if ra ∧ s' = s then 1 else 0
  | _ => 0

/-- The cache, `nc` channels, `np` processes, and the reads ahead that are queued. -/
structure Sys (nc np : Nat) where
  m : Mntcache
  chan : Fin nc → Chan
  proc : Fin np → Work nc
  frd : List (Fin nc × Addr)

variable {nc np : Nat}

/-- No process works with the channel, and no read ahead is queued for it. -/
def Sys.quiet (s : Sys nc np) (c : Fin nc) : Bool :=
  ((List.finRange np).all fun p => (s.proc p).on.map (·.1) ≠ some c) &&
    s.frd.all fun f => f.1 ≠ c

/-- The channel is open, and not removed. -/
def Sys.ready (s : Sys nc np) (c : Fin nc) : Bool := (s.chan c).isopen && !(s.chan c).removed

def Sys.work (s : Sys nc np) (p : Fin np) (w : Work nc) : Sys nc np :=
  { s with proc := Function.update s.proc p w }

def Sys.putchan (s : Sys nc np) (c : Fin nc) (x : Chan) : Sys nc np :=
  { s with chan := Function.update s.chan c x }

def Sys.putseg (s : Sys nc np) (a : Addr) (x : Segment) : Sys nc np := { s with m := s.m.set a x }

/-- `clookup` for a channel of the system. -/
def Sys.lookup (s : Sys nc np) (c : Fin nc) (mkit : Option Addr) : Sys nc np × Option Addr :=
  match clookup s.m (s.chan c) mkit with
  | (m, x, r) => ({ s.putchan c x with m := m }, r)

/-- The process leaves `mcread`; a read-ahead process drops its segment. -/
def Sys.leave (s : Sys nc np) (p : Fin np) (a : Addr) (ra : Bool) : Sys nc np :=
  let s := s.work p .idle
  if ra then { s with m := s.m.putseg a } else s

inductive Op (nc np : Nat)
  /-- a channel is made for a file -/
  | attach (c : Fin nc) (qid : Qid) (dev : Nat)
  | close (c : Fin nc)
  /-- `copen`; `new` is what `newseg` returns -/
  | copen (p : Fin np) (c : Fin nc) (new : Addr)
  | ccheckvers (p : Fin np)
  /-- `cread` calls `mcread` -/
  | mcread (p : Fin np) (c : Fin nc)
  | creadq (c : Fin nc)
  | creadproc (p : Fin np)
  /-- the loop of `mcread` comes to a page -/
  | page (p : Fin np) (addr : Nat)
  | account (p : Fin np)
  /-- `mcread` returns, with what it has found to be the end of the file -/
  | done (p : Fin np) (eof : Int)
  /-- `mcread` fails -/
  | fail (p : Fin np)
  | cwrite (p : Fin np) (c : Fin nc)
  | cremove (p : Fin np) (c : Fin nc)
  | settle (p : Fin np)
  | creclaim
deriving DecidableEq

/-- The last part of `cremove`, under the lock of the cache. `none` is one of its panics. -/
def remove (m : Mntcache) (a : Addr) : Option Mntcache :=
  -- unused: 1 for lru; 1 for c
  if (m.seg a).ref = 2 then
    match (m.unlinkseg a).unhashseg a with
    | none => none
    | some m => some (m.set a { m.seg a with ref := (m.seg a).ref - 1 })
  else some m

def Mntcache.owed (m : Mntcache) (n : Int) : Mntcache := { m with nbytes := m.nbytes + n }

/-- A step, when it can be made. -/
def exec (s : Sys nc np) : Op nc np → Option (Sys nc np)
  | .attach c qid dev =>
    if (s.chan c).isopen then none else some (s.putchan c ⟨true, qid, dev, none, false⟩)
  | .close c =>
    if (s.chan c).isopen && s.quiet c then
      let s' := s.putchan c { s.chan c with isopen := false, mc := none }
      match (s.chan c).mc with
      | none => some s'
      | some a => some { s' with m := s.m.putseg a }
    else none
  | .copen p c new =>
    if s.proc p = .idle && s.ready c && (s.m.seg new).ref = 0 then
      match s.lookup c (some new) with
      | (s, some a) => some (s.work p (.opening c a))
      | (_, none) => none
    else none
  | .ccheckvers p =>
    match s.proc p with
    | .opening c a => some ((s.putseg a (Cache.ccheckvers (s.m.seg a) (s.chan c))).work p .idle)
    | _ => none
  | .mcread p c =>
    if s.proc p = .idle && s.ready c then
      match s.lookup c none with
      | (s, some a) => some (s.work p (.reading c a false))
      | (_, none) => none
    else none
  | .creadq c =>
    if s.ready c then
      match (s.chan c).mc with
      | some a => some { s with m := s.m.incref a, frd := s.frd ++ [(c, a)] }
      | none => none
    else none
  | .creadproc p =>
    match s.proc p, s.frd with
    | .idle, (c, a) :: l => some ({ s with frd := l }.work p (.reading c a true))
    | _, _ => none
  | .page p addr =>
    match s.proc p with
    | .reading c a ra =>
      if addr ∈ (s.m.seg a).pages then some s
      else some ((s.putseg a (addpage (s.m.seg a) addr)).work p (.adding c a ra))
    | _ => none
  | .account p =>
    match s.proc p with
    | .adding c a ra => some ({ s with m := s.m.owed pgsz }.work p (.reading c a ra))
    | _ => none
  | .done p eof =>
    match s.proc p with
    | .reading _ a ra => some ((s.putseg a (ceof (s.m.seg a) eof)).leave p a ra)
    | _ => none
  | .fail p =>
    match s.proc p with
    | .reading c a ra =>
      some ((s.putseg a (cclear (s.m.seg a))).work p (.failing c a ra (s.m.seg a).nbytes))
    | _ => none
  | .cwrite p c =>
    if s.proc p = .idle && s.ready c then
      match s.lookup c none with
      | (s, some a) =>
        some ((s.putseg a (cclear (s.m.seg a))).work p (.writing c a (s.m.seg a).nbytes))
      | (_, none) => none
    else none
  | .cremove p c =>
    if s.proc p = .idle && s.ready c && s.quiet c then
      match s.lookup c none with
      | (s, some a) =>
        some (((s.putseg a (cclear (s.m.seg a))).putchan c { s.chan c with removed := true }).work p
          (.removing c a (s.m.seg a).nbytes))
      | (s, none) => some (s.putchan c { s.chan c with removed := true })
    else none
  | .settle p =>
    match s.proc p with
    | .failing _ a ra count => some ({ s with m := s.m.owed (-count) }.leave p a ra)
    | .writing _ _ count => some ({ s with m := s.m.owed (-count) }.work p .idle)
    | .removing _ a count => (remove (s.m.owed (-count)) a).map fun m => { s with m := m }.work p .idle
    | _ => none
  | .creclaim => (Cache.creclaim s.m).map fun m => { s with m := m }

/-- The cache at the start. -/
def Sys.init (nc np : Nat) : Sys nc np where
  m := ⟨fun _ => [], [], 0, 0, fun _ => ⟨0, false, ⟨0, 0, 0⟩, 0, -1, 0, []⟩⟩
  chan _ := ⟨false, ⟨0, 0, 0⟩, 0, none, false⟩
  proc _ := .idle
  frd := []

end NixMark.Cache
