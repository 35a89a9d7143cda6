import NixMark.Lib.Laminar

/-!
# The routing forest (`ip/iproute.c`)

IPv4 and IPv6 routes live in two forests of `2 ^ Lroot` trees. A tree node has three children:
ranges before it (`left`), after it (`right`) and inside it (`mid`). The nodes are owned by the
tree, so a tree is a value here and a `Route**` is a place in it: a function that writes through
its `Route**` returns the new subtree.

The queue `f->queue` of detached subtrees is empty before and after each bucket's update (both
run under `routelock`), so it is an argument of the functions that use it and not part of `Fs`. The
free lists of route nodes only recycle memory and are left out.

One model serves the two address families: `rangecompare` uses only the order of addresses, which
is the unsigned order for a v4 `ulong` and the word by word order `lcmp` for a v6 address. The
callers of `v6addroute` never set `Rv4`, the bit by which the code tells the two apart.
-/

namespace NixMark.Iproute

/-- `ulong` of the routing code: `address[IPllen]` is filled by a copy of `IPaddrlen` bytes. -/
abbrev Ulong := BitVec 32

instance : LinearOrder Ulong where
  le_refl := BitVec.le_refl
  le_trans _ _ _ := BitVec.le_trans
  lt_iff_le_not_ge a b := by simp only [BitVec.le_def, BitVec.lt_def]; omega
  le_antisymm _ _ := BitVec.le_antisymm
  le_total a b := by simp only [BitVec.le_def]; omega
  toDecidableLE := inferInstance

/-! ## Addresses -/

abbrev IPv4addrlen : Nat := 4
abbrev IPaddrlen : Nat := 16

/-- `nhgetl`: four bytes in network order. -/
def nhgetl (a₀ a₁ a₂ a₃ : UInt8) : Ulong :=
  a₀.toBitVec ++ a₁.toBitVec ++ a₂.toBitVec ++ a₃.toBitVec

/-- A v4 address as the callers pass it. -/
abbrev V4bytes := Vector UInt8 IPv4addrlen

/-- A v6 address as the callers pass it. -/
abbrev V6bytes := Vector UInt8 IPaddrlen

def v4get (a : V4bytes) : Ulong := nhgetl a[0] a[1] a[2] a[3]

/-- The four words of a v6 address, most significant first. -/
structure V6addr where
  w0 : Ulong
  w1 : Ulong
  w2 : Ulong
  w3 : Ulong
  deriving DecidableEq

namespace V6addr

def words (a : V6addr) : List Ulong := [a.w0, a.w1, a.w2, a.w3]

/-- The address as one number. -/
def bits (a : V6addr) : BitVec 128 := a.w0 ++ a.w1 ++ a.w2 ++ a.w3

/-- A word operation on the words of two addresses. -/
def zip (op : Ulong → Ulong → Ulong) (a b : V6addr) : V6addr :=
  ⟨op a.w0 b.w0, op a.w1 b.w1, op a.w2 b.w2, op a.w3 b.w3⟩

end V6addr

def v6get (a : V6bytes) : V6addr :=
  ⟨nhgetl a[0] a[1] a[2] a[3], nhgetl a[4] a[5] a[6] a[7], nhgetl a[8] a[9] a[10] a[11],
    nhgetl a[12] a[13] a[14] a[15]⟩

/-- `lcmp`: compare two v6 addresses, word by word. -/
def lcmp : List Ulong → List Ulong → Int
  | x :: a, y :: b => if y < x then 1 else if x < y then -1 else lcmp a b
  | _, _ => 0

theorem V6addr.bits_toNat (a : V6addr) : a.bits.toNat =
    ((a.w0.toNat * 2 ^ 32 + a.w1.toNat) * 2 ^ 32 + a.w2.toNat) * 2 ^ 32 + a.w3.toNat := by
  have h1 := a.w1.isLt
  have h2 := a.w2.isLt
  have h3 := a.w3.isLt
  simp only [bits, BitVec.toNat_append]
  rw [← Nat.shiftLeft_add_eq_or_of_lt h3, ← Nat.shiftLeft_add_eq_or_of_lt h2,
    ← Nat.shiftLeft_add_eq_or_of_lt h1]
  simp only [Nat.shiftLeft_eq]

theorem V6addr.bits_inj {a b : V6addr} (h : a.bits.toNat = b.bits.toNat) : a = b := by
  obtain ⟨a0, a1, a2, a3⟩ := a
  obtain ⟨b0, b1, b2, b3⟩ := b
  simp only [V6addr.bits_toNat] at h
  simp only [V6addr.mk.injEq]
  refine ⟨BitVec.eq_of_toNat_eq ?_, BitVec.eq_of_toNat_eq ?_, BitVec.eq_of_toNat_eq ?_,
    BitVec.eq_of_toNat_eq ?_⟩ <;> omega

/-- `lcmp` orders addresses as numbers. -/
theorem lcmp_bits (a b : V6addr) : (lcmp a.words b.words < 0 ↔ a.bits.toNat < b.bits.toNat) ∧
    (lcmp a.words b.words ≤ 0 ↔ a.bits.toNat ≤ b.bits.toNat) := by
  obtain ⟨a0, a1, a2, a3⟩ := a
  obtain ⟨b0, b1, b2, b3⟩ := b
  have := a1.isLt; have := a2.isLt; have := a3.isLt
  have := b1.isLt; have := b2.isLt; have := b3.isLt
  simp only [V6addr.bits_toNat, V6addr.words, lcmp, BitVec.lt_def]
  split_ifs <;> omega

instance : LinearOrder V6addr where
  le a b := lcmp a.words b.words ≤ 0
  lt a b := lcmp a.words b.words < 0
  le_refl a := (lcmp_bits a a).2.mpr le_rfl
  le_trans a b c h h' := (lcmp_bits a c).2.mpr
    (((lcmp_bits a b).2.mp h).trans ((lcmp_bits b c).2.mp h'))
  lt_iff_le_not_ge a b := by
    rw [(lcmp_bits a b).1, (lcmp_bits a b).2, (lcmp_bits b a).2]; omega
  le_antisymm a b h h' := V6addr.bits_inj
    (le_antisymm ((lcmp_bits a b).2.mp h) ((lcmp_bits b a).2.mp h'))
  le_total a b := by
    rw [(lcmp_bits a b).2, (lcmp_bits b a).2]; omega
  toDecidableLE a b := inferInstanceAs (Decidable (lcmp a.words b.words ≤ 0))

theorem V6addr.le_iff {a b : V6addr} : a ≤ b ↔ a.bits.toNat ≤ b.bits.toNat := (lcmp_bits a b).2

theorem V6addr.lt_iff {a b : V6addr} : a < b ↔ a.bits.toNat < b.bits.toNat := (lcmp_bits a b).1

/-! ## Routes and trees -/

/-- Type bits (`ip.h`). -/
def Rv4 : UInt8 := 1
def Rifc : UInt8 := 2

/-- A routing node's own data: the range, and what `RouteTree` holds besides the links. -/
structure Route (α : Type) where
  address : α
  endaddress : α
  /-- `v4.gate` or `v6.gate`. -/
  gate : List UInt8
  type : UInt8
  /-- Must match `ifc->ifcid`. -/
  ifcid : UInt8 := 0
  ifc : Option Nat := none
  tag : Vector UInt8 4
  ref : Int := 1

/-- A tree of routes; `depth` is an `uchar`. -/
inductive RouteTree (α : Type) where
  | nil
  | node (r : Route α) (depth : UInt8) (left mid right : RouteTree α)

namespace RouteTree

variable {α : Type}

/-- The routes of a tree. -/
def routes : RouteTree α → List (Route α)
  | nil => []
  | node r _ l m t => r :: (l.routes ++ m.routes ++ t.routes)

def depthOf : RouteTree α → Nat
  | nil => 0
  | node _ d _ _ _ => d.toNat

/-- The number of nodes. -/
def size : RouteTree α → Nat
  | nil => 0
  | node _ _ l m t => l.size + m.size + t.size + 1

end RouteTree

variable {α : Type} [LinearOrder α]

def Route.isIfc (r : Route α) : Bool := r.type &&& Rifc ≠ 0

inductive RangeOrder where
  | preceeds
  | follows
  | equals
  | contains
  | contained
  deriving DecidableEq

open RangeOrder

/-- `rangecompare`: compare two v4 or v6 ranges. -/
def rangecompare (a b : Route α) : RangeOrder :=
  if a.endaddress < b.address then preceeds
  else if b.endaddress < a.address then follows
  else if a.address ≤ b.address ∧ b.endaddress ≤ a.endaddress then
    if a.address = b.address ∧ a.endaddress = b.endaddress then equals else contains
  else contained

/-- `calcd`: calculate depth. -/
def calcd : RouteTree α → RouteTree α
  | .nil => .nil
  | .node r _ l m t =>
    let d := l.depthOf
    let d := if t.depthOf > d then t.depthOf else d
    let d := if m.depthOf > d then m.depthOf else d
    .node r (UInt8.ofNat (d + 1)) l m t

/-- `balancetree`: rotate the node if `left` and `right` are too out of balance. -/
def balancetree : RouteTree α → RouteTree α
  | .nil => .nil
  | .node p d l m r =>
    if l.depthOf > r.depthOf + 1 then
      match l with
      | .node lp ld ll lm lr => calcd (.node lp ld ll lm (calcd (.node p d lr m r)))
      | .nil => .node p d .nil m r
    else if r.depthOf > l.depthOf + 1 then
      match r with
      | .node rp rd rl rm rr => calcd (.node rp rd (calcd (.node p d l m rl)) rm rr)
      | .nil => .node p d l m .nil
    else calcd (.node p d l m r)

/-- The `Requals` case of `addnode`: supercede the old entry if it isn't a local interface. -/
def supercede (p new : Route α) : Route α :=
  if !p.isIfc then { p with type := new.type, ifcid := 255, gate := new.gate }
  else if new.isIfc then { p with ref := p.ref + 1 }
  else p

/-- `addqueue`: the queue holds detached subtrees, the last one first. -/
def addqueue (q : List (RouteTree α)) : RouteTree α → List (RouteTree α)
  | .nil => q
  | r => r :: q

omit [LinearOrder α] in
theorem mem_addqueue {q : List (RouteTree α)} {p u : RouteTree α} :
    u ∈ addqueue q p → u = p ∨ u ∈ q := by
  cases p <;> simp [addqueue]
  exact .inr

/-- `addnode` at the place `cur`. The new node is given by its route and its `mid` subtree; its
`left` and `right` are nil in all calls. -/
def addnode (cur : RouteTree α) (new : Route α) (mid : RouteTree α) (q : List (RouteTree α)) :
    RouteTree α × List (RouteTree α) :=
  match cur with
  | .nil => (.node new 1 .nil mid .nil, q)
  | .node p d l m r =>
    match rangecompare new p with
    | preceeds => let (l', q') := addnode l new mid q; (balancetree (.node p d l' m r), q')
    | follows => let (r', q') := addnode r new mid q; (balancetree (.node p d l m r'), q')
    | contains => (balancetree (.node new 1 .nil mid .nil), addqueue q (.node p d l m r))
    | equals => (balancetree (.node (supercede p new) d l m r), q)
    | contained => let (m', q') := addnode m new mid q; (balancetree (.node p d l m' r), q')

/-- `walkadd`: walk down the tree `p` adding nodes back in. -/
def walkadd : RouteTree α → RouteTree α → List (RouteTree α) → RouteTree α × List (RouteTree α)
  | .nil, root, q => (root, q)
  | .node p _ l m r, root, q =>
    let (root, q) := addnode root p m q
    let (root, q) := walkadd l root q
    walkadd r root q

/-- The loop `while(p = f->queue)` after an update of the tree `root`; `none` when `fuel` rounds
did not empty the queue. -/
def drain : Nat → RouteTree α → List (RouteTree α) → Option (RouteTree α)
  | _, root, [] => some root
  | 0, _, _ :: _ => none
  | fuel + 1, root, p :: q =>
    let (root, q) := walkadd p root q
    drain fuel root q

/-- The rounds granted to `drain`: one for each queued node. -/
def queued (q : List (RouteTree α)) : Nat := (q.map RouteTree.size).sum

/-- One round of the loop in `v4addroute` and `v6addroute`: the tree of one bucket. -/
def addbucket (new : Route α) (root : RouteTree α) : Option (RouteTree α) :=
  let (root, q) := addnode root new .nil []
  drain (queued q) root q

/-- `looknode`: the subtree whose root has the range of `r`, with the place it stands in (what
storing a subtree through the returned `Route**` makes of the whole tree). -/
def looknode (t : RouteTree α) (r : Route α) : Option (RouteTree α × (RouteTree α → RouteTree α)) :=
  match t with
  | .nil => none
  | .node p d l m rt =>
    match rangecompare r p with
    | contains => none
    | preceeds => (looknode l r).map fun (u, put) => (u, fun x => .node p d (put x) m rt)
    | follows => (looknode rt r).map fun (u, put) => (u, fun x => .node p d l m (put x))
    | contained => (looknode m r).map fun (u, put) => (u, fun x => .node p d l (put x) rt)
    | equals => some (.node p d l m rt, id)

/-- One round of the loop in `v4delroute` and `v6delroute`. -/
def delbucket (rt : Route α) (root : RouteTree α) : Option (RouteTree α) :=
  match looknode root rt with
  | some (.node p d l m r, put) =>
    let p := { p with ref := p.ref - 1 }
    if p.ref = 0 then
      let q := addqueue (addqueue (addqueue [] l) m) r
      drain (queued q) (put .nil) q
    else some (put (.node p d l m r))
  | _ => some root

/-- The loop over the buckets `h .. eh`. -/
def forbuckets (h eh : Nat) (body : RouteTree α → Option (RouteTree α)) (root : Nat → RouteTree α) :
    Option (Nat → RouteTree α) :=
  (List.range' h (eh + 1 - h)).foldlM
    (fun root h => (body (root h)).map (Function.update root h)) root

/-! ## The two forests -/

abbrev Lroot : Nat := 10

/-- `V4H` -/
def V4H (a : Ulong) : Nat := ((a &&& 0x07ffffff#32) >>> (32 - Lroot - 5)).toNat

/-- `V6H` -/
def V6H (a : V6addr) : Nat := ((a.w3 &&& 0x07ffffff#32) >>> (32 - Lroot - 5)).toNat

/-- The part of `Fs` that routing uses: `v4root[1<<Lroot]` and `v6root[1<<Lroot]`. -/
structure Fs where
  v4root : Nat → RouteTree Ulong
  v6root : Nat → RouteTree V6addr

/-- The range that `v4addroute` and `v4delroute` compute from an address and a mask. -/
def v4range (a mask : V4bytes) : Ulong × Ulong :=
  let m := v4get mask
  let sa := v4get a &&& m
  (sa, sa ||| ~~~ m)

/-- The range that `v6addroute` and `v6delroute` compute: `x & y` and `x | ~y` word by word. -/
def v6range (a mask : V6bytes) : V6addr × V6addr :=
  (V6addr.zip (fun x y => x &&& y) (v6get a) (v6get mask),
    V6addr.zip (fun x y => x ||| ~~~ y) (v6get a) (v6get mask))

/-- The node that `v4addroute` allocates for each bucket. -/
def v4new (tag : Vector UInt8 4) (a mask gate : V4bytes) (type : UInt8) : Route Ulong :=
  { address := (v4range a mask).1, endaddress := (v4range a mask).2, gate := gate.toList,
    type := Rv4 ||| type, tag := tag }

/-- The node that `v6addroute` allocates for each bucket. -/
def v6new (tag : Vector UInt8 4) (a mask gate : V6bytes) (type : UInt8) : Route V6addr :=
  { address := (v6range a mask).1, endaddress := (v6range a mask).2, gate := gate.toList,
    type := type, tag := tag }

/-- `v4addroute` -/
def v4addroute (f : Fs) (tag : Vector UInt8 4) (a mask gate : V4bytes) (type : UInt8) :
    Option Fs :=
  let (sa, ea) := v4range a mask
  (forbuckets (V4H sa) (V4H ea) (addbucket (v4new tag a mask gate type)) f.v4root).map
    fun root => { f with v4root := root }

/-- `v6addroute` -/
def v6addroute (f : Fs) (tag : Vector UInt8 4) (a mask gate : V6bytes) (type : UInt8) :
    Option Fs :=
  let (sa, ea) := v6range a mask
  (forbuckets (V6H sa) (V6H ea) (addbucket (v6new tag a mask gate type)) f.v6root).map
    fun root => { f with v6root := root }

/-- The local `Route rt` of `v4delroute` and `v6delroute`: only its range is used. -/
def rangeRoute (sa ea : α) (type : UInt8) : Route α :=
  { address := sa, endaddress := ea, gate := [], type := type, tag := Vector.replicate 4 0 }

/-- `v4delroute` -/
def v4delroute (f : Fs) (a mask : V4bytes) : Option Fs :=
  let (sa, ea) := v4range a mask
  (forbuckets (V4H sa) (V4H ea) (delbucket (rangeRoute sa ea Rv4)) f.v4root).map
    fun root => { f with v4root := root }

/-- `v6delroute` -/
def v6delroute (f : Fs) (a mask : V6bytes) : Option Fs :=
  let (sa, ea) := v6range a mask
  (forbuckets (V6H sa) (V6H ea) (delbucket (rangeRoute sa ea 0)) f.v6root).map
    fun root => { f with v6root := root }

/-- The loop of `v4lookup`; `q` is the last route that contains `la`. -/
def v4walk (la : Ulong) : RouteTree Ulong → Option (Route Ulong) → Option (Route Ulong)
  | .nil, q => q
  | .node p _ l m r, q =>
    if p.address ≤ la then
      if la ≤ p.endaddress then v4walk la m (some p) else v4walk la r q
    else v4walk la l q

/-- The first loop over words in `v6lookup`: `x < y` at the first difference. -/
def wordsBelow : List Ulong → List Ulong → Bool
  | x :: a, y :: b => if x = y then wordsBelow a b else x < y
  | _, _ => false

/-- The second loop over words in `v6lookup`: `x > y` at the first difference. -/
def wordsAbove : List Ulong → List Ulong → Bool
  | x :: a, y :: b => if x = y then wordsAbove a b else y < x
  | _, _ => false

/-- The loop of `v6lookup`. -/
def v6walk (la : V6addr) : RouteTree V6addr → Option (Route V6addr) → Option (Route V6addr)
  | .nil, q => q
  | .node p _ l m r, q =>
    if wordsBelow la.words p.address.words then v6walk la l q
    else if wordsAbove la.words p.endaddress.words then v6walk la r q
    else v6walk la m (some p)

/-- The node that `v4lookup(f, a, nil)` finds, before it looks for the route's interface. -/
def v4find (f : Fs) (a : V4bytes) : Option (Route Ulong) :=
  v4walk (v4get a) (f.v4root (V4H (v4get a))) none

/-- `v4prefix`: the first `IPv4off` bytes of a v4 address in v6 form. -/
def v4prefix : List UInt8 := [0, 0, 0, 0, 0, 0, 0, 0, 0, 0, 0xff, 0xff]

/-- `a` is a v4 address in v6 form: `memcmp(a, v4prefix, IPv4off) == 0`. -/
def isV4 (a : V6bytes) : Bool := a.toList.take 12 == v4prefix

/-- `a+IPv4off`: the v4 address. -/
def v4part (a : V6bytes) : V4bytes := #v[a[12], a[13], a[14], a[15]]

/-- The node of the v6 forest that `v6lookup(f, a, nil)` finds. -/
def v6find (f : Fs) (a : V6bytes) : Option (Route V6addr) :=
  v6walk (v6get a) (f.v6root (V6H (v6get a))) none

/-- What `v6lookup` may return: a node of either forest. -/
inductive Found where
  | v4 (r : Route Ulong)
  | v6 (r : Route V6addr)

/-- The node that `v6lookup(f, a, nil)` finds, before it looks for the route's interface: a v4
address in v6 form is looked up in the v4 forest first. -/
def v6lookupNode (f : Fs) (a : V6bytes) : Option Found :=
  if isV4 a then
    match v4find f (v4part a) with
    | some q => some (.v4 q)
    | none => (v6find f a).map .v6
  else (v6find f a).map .v6

end NixMark.Iproute
