import NixMark.Iproute.Runs
import NixMark.Lib.Lts

/-!
# The route that a conversation remembers (`v4lookup`, `v6lookup`)

A conversation keeps the route of its last lookup and the generation of the routing table at that
time. A `Route*` is named by its bucket and its range, of which a bucket's tree has one node, and
the interface that a node remembers is kept beside the forests, since each bucket has a node of its
own. A node that `freeroute` took is only marked: what its memory then reads as is up to the
environment.

* `Ip.Inv`: a remembered route whose generation is that of its own table is the one that the table
  has for the conversation's destination. Every step keeps it as long as no counter comes round to
  a generation that is still remembered (`cache_inductive`).
* `lookup_cached_iff`: exactly when a lookup that may use the remembered route returns what the
  tables have.
-/

namespace NixMark.Iproute

open Lib
open Function (update_of_ne update_self)

/-! ## Interfaces -/

def Rbcast : UInt8 := 16
def Rmulti : UInt8 := 32

/-- A logical interface: the fields that `findipifc` reads. -/
structure Iplifc where
  mask : List UInt8
  net : List UInt8

/-- An interface: its logical interfaces, and the number that binding and unbinding step. -/
structure Ipifc where
  lifc : List Iplifc := []
  ifcid : UInt8 := 0

/-- `maskip` -/
def maskip (a mask : List UInt8) : List UInt8 := a.zipWith (fun x y => x &&& y) mask

/-- `ipcmp`: bytes are compared in order. -/
def ipcmp : List UInt8 → List UInt8 → Int
  | x :: a, y :: b => if y < x then 1 else if x < y then -1 else ipcmp a b
  | _, _ => 0

/-- The inner loop of `findipifc`, over the logical interfaces of interface `i`; `x` is the best
interface so far and its mask. -/
def bestlifc (remote : List UInt8) (i : Nat) :
    List Iplifc → Option (Nat × List UInt8) → Option (Nat × List UInt8)
  | [], x => x
  | l :: ls, x =>
    if maskip remote l.mask = l.net then
      match x with
      | none => bestlifc remote i ls (some (i, l.mask))
      | some (j, xmask) =>
        if 0 < ipcmp l.mask xmask then bestlifc remote i ls (some (i, l.mask))
        else bestlifc remote i ls (some (j, xmask))
    else bestlifc remote i ls x

/-- The outer loop of `findipifc`, from interface `i` on. -/
def bestifc (remote : List UInt8) : Nat → List Ipifc → Option (Nat × List UInt8) → Option Nat
  | _, [], x => x.map (·.1)
  | i, ifc :: ifcs, x => bestifc remote (i + 1) ifcs (bestlifc remote i ifc.lifc x)

/-- `findipifc`: the interface on the same net as `remote`; for broadcast and multicast, the first
one that has an address. -/
def findipifc (ifcs : List Ipifc) (remote : List UInt8) (type : UInt8) : Option Nat :=
  match bestifc remote 0 ifcs none with
  | some i => some i
  | none =>
    if type &&& (Rbcast ||| Rmulti) ≠ 0 then ifcs.findIdx? (fun ifc => !ifc.lifc.isEmpty)
    else none

/-! ## The state -/

/-- A node of a forest: the bucket and the range. -/
structure Key (α : Type) where
  h : Nat
  lo : α
  hi : α
  deriving DecidableEq

/-- A `Route*` that is not nil. -/
inductive Ptr where
  | v4 (k : Key Ulong)
  | v6 (k : Key V6addr)
  deriving DecidableEq

def Ptr.isV4 : Ptr → Bool
  | v4 _ => true
  | v6 _ => false

/-- A `Route*` that was stored; the node may have been freed since. -/
structure Ref where
  ptr : Ptr
  freed : Bool := false

/-- The interface that a node remembers: its fields `ifc` and `ifcid`. -/
structure Att where
  ifc : Option Nat := none
  ifcid : UInt8 := 0

/-- The fields of a `Conv` that routing uses. -/
structure Conv where
  r : Option Ref := none
  rgen : Ulong := 0

/-- The routing state; `C` are the conversations. `dst` is no field of the code: the address that
a conversation is used with, in v6 form, since its last reset. -/
structure Ip (C : Type) where
  fs : Fs
  v4gen : Ulong
  v6gen : Ulong
  ifcs : List Ipifc
  att : Ptr → Att
  conv : C → Conv
  dst : C → Option V6bytes

variable {α : Type} [LinearOrder α]

/-- `k` is a node of the range of `rt`, in one of the buckets of the range. -/
def Key.spans (H : α → Nat) (rt : Route α) (k : Key α) : Prop :=
  k.lo = rt.address ∧ k.hi = rt.endaddress ∧ H rt.address ≤ k.h ∧ k.h ≤ H rt.endaddress

instance (H : α → Nat) (rt : Route α) (k : Key α) : Decidable (k.spans H rt) :=
  inferInstanceAs (Decidable (_ ∧ _ ∧ _ ∧ _))

/-- What adding `new` makes of the interface of the node `k`: a new node has none, and that of a
superceded route is no longer current. -/
def readd (H : α → Nat) (root : Nat → RouteTree α) (new : Route α) (k : Key α) (o : Att) : Att :=
  if k.spans H new then
    match looknode (root k.h) new with
    | some (.node p _ _ _ _, _) => if p.isIfc then o else { o with ifcid := 255 }
    | _ => {}
  else o

/-- Deleting the range of `rt` frees the node `k`. -/
def frees (H : α → Nat) (root : Nat → RouteTree α) (rt : Route α) (k : Key α) : Bool :=
  if k.spans H rt then
    match looknode (root k.h) rt with
    | some (.node p _ _ _ _, _) => p.ref - 1 = 0
    | _ => false
  else false

/-- The pointers `gone` dangle. -/
def Conv.free (gone : Ptr → Bool) (c : Conv) : Conv :=
  { c with r := c.r.map fun r => { r with freed := r.freed || gone r.ptr } }

variable {C : Type}

/-- The call changes the v4 forest. -/
def RouteOp.isV4 : RouteOp → Bool
  | add4 .. | del4 .. => true
  | add6 .. | del6 .. => false

/-- What the call makes of the interface of the node `p`. -/
def RouteOp.readds (f : Fs) : RouteOp → Ptr → Att → Att
  | add4 tag a mask gate type, .v4 k => readd V4H f.v4root (v4new tag a mask gate type) k
  | add6 tag a mask gate type, .v6 k => readd V6H f.v6root (v6new tag a mask gate type) k
  | _, _ => id

/-- The call frees the node `p`. -/
def RouteOp.frees (f : Fs) : RouteOp → Ptr → Bool
  | del4 a mask, .v4 k =>
    Iproute.frees V4H f.v4root (rangeRoute (v4range a mask).1 (v4range a mask).2 Rv4) k
  | del6 a mask, .v6 k =>
    Iproute.frees V6H f.v6root (rangeRoute (v6range a mask).1 (v6range a mask).2 0) k
  | _, _ => false

/-- `v4addroute`, `v4delroute`, `v6addroute` and `v6delroute`: the generation is stepped when the
trees have been changed. -/
def Ip.route (s : Ip C) (op : RouteOp) : Option (Ip C) :=
  (op.run s.fs).map fun fs =>
    { s with
      fs := fs
      v4gen := if op.isV4 then s.v4gen + 1 else s.v4gen
      v6gen := if op.isV4 then s.v6gen else s.v6gen + 1
      att := fun p => op.readds s.fs p (s.att p)
      conv := fun c => (s.conv c).free (op.frees s.fs) }

/-! ## Lookups -/

/-- What a search of the trees finds: the node, and what `findipifc` is called with for it. -/
structure Hop where
  ptr : Ptr
  gate : List UInt8
  type : UInt8

/-- `hnputl` -/
def hnputl (a : Ulong) : List UInt8 :=
  [.ofNat (a >>> 24).toNat, .ofNat (a >>> 16).toNat, .ofNat (a >>> 8).toNat, .ofNat a.toNat]

/-- The node of the v4 forest for `a`. -/
def Ip.hop4 (s : Ip C) (a : V4bytes) : Option Hop :=
  (v4find s.fs a).map fun q =>
    { ptr := .v4 ⟨V4H (v4get a), q.address, q.endaddress⟩
      gate := v4prefix ++ if q.isIfc then hnputl q.address else q.gate
      type := q.type }

/-- The node of the v6 forest for `a`. -/
def Ip.hop6 (s : Ip C) (a : V6bytes) : Option Hop :=
  (v6find s.fs a).map fun q =>
    { ptr := .v6 ⟨V6H (v6get a), q.address, q.endaddress⟩
      gate := if q.isIfc then q.address.words.flatMap hnputl else q.gate
      type := q.type }

/-- `ifc->ifcid` -/
def Ip.ifcidOf (s : Ip C) (i : Nat) : UInt8 := (s.ifcs[i]?.getD {}).ifcid

/-- The node has an interface, and it was not bound or unbound since. -/
def Ip.current (s : Ip C) (p : Ptr) : Bool :=
  match (s.att p).ifc with
  | none => false
  | some i => (s.att p).ifcid == s.ifcidOf i

/-- The interface of the node that was found is looked for again if need be; there may be none. -/
def Ip.attach (s : Ip C) (q : Hop) : Option (Ip C) :=
  if s.current q.ptr then some s
  else (findipifc s.ifcs q.gate q.type).map fun i =>
    { s with att := Function.update s.att q.ptr ⟨some i, s.ifcidOf i⟩ }

/-- `c` remembers the route `r`. -/
def Ip.cache [DecidableEq C] (s : Ip C) (c : Option C) (r : Option Ref) (gen : Ulong) : Ip C :=
  match c with
  | none => s
  | some c => { s with conv := Function.update s.conv c ⟨r, gen⟩ }

/-- The route that `c` remembers, if it has an interface and is of generation `gen`. `junk` says
whether the memory of a freed node reads as one with an interface. -/
def Ip.hit (s : Ip C) (c : C) (gen : Ulong) (junk : Bool) : Option Ref :=
  (s.conv c).r.filter fun r =>
    (if r.freed then junk else (s.att r.ptr).ifc.isSome) && (s.conv c).rgen == gen

/-- The rest of `v4lookup` and `v6lookup` after the tree has been searched. -/
def Ip.found [DecidableEq C] (s : Ip C) (c : Option C) (gen : Ulong) : Option Hop →
    Option Ref × Ip C
  | none => (none, s.cache c none gen)
  | some q =>
    match s.attach q with
    | none => (none, s)
    | some s => (some ⟨q.ptr, false⟩, s.cache c (some ⟨q.ptr, false⟩) gen)

/-- `v4lookup` -/
def Ip.v4lookup [DecidableEq C] (s : Ip C) (a : V4bytes) (c : Option C) (junk : Bool) :
    Option Ref × Ip C :=
  match c.bind fun c => s.hit c s.v4gen junk with
  | some r => (some r, s)
  | none => s.found c s.v4gen (s.hop4 a)

/-- `v6lookup` after the v4 table had no route. -/
def Ip.v6rest [DecidableEq C] (s : Ip C) (a : V6bytes) (c : Option C) (junk : Bool) :
    Option Ref × Ip C :=
  match c.bind fun c => s.hit c s.v6gen junk with
  | some r => (some r, s)
  | none => s.found c s.v6gen (s.hop6 a)

/-- `v6lookup` -/
def Ip.v6lookup [DecidableEq C] (s : Ip C) (a : V6bytes) (c : Option C) (junk : Bool) :
    Option Ref × Ip C :=
  if isV4 a then
    match s.v4lookup (v4part a) c junk with
    | (some q, s) => (some q, s)
    | (none, s) => s.v6rest a c junk
  else s.v6rest a c junk

/-! ## Steps -/

/-- What happens to the routing state. Binding and unbinding an interface step its number, and
both, like adding and removing an address, go on with changes of the logical interfaces and of the
routes. -/
inductive Ev (C : Type) where
  | route (op : RouteOp)
  /-- A new interface: `ipifccreate`. -/
  | create
  /-- `ifc->ifcid++` -/
  | bind (i : Nat)
  | addlifc (i : Nat) (l : Iplifc)
  | remlifc (i k : Nat)
  /-- `closeconv` and `Fsprotoclone` forget the route. -/
  | reset (c : C)
  /-- `v4lookup` of the v4 address in `a`. -/
  | v4lookup (c : Option C) (a : V6bytes) (junk : Bool)
  | v6lookup (c : Option C) (a : V6bytes) (junk : Bool)

/-- The conversation, if there is one, is used with the destination `a`. -/
def Ip.Uses (s : Ip C) (c : Option C) (a : V6bytes) : Prop :=
  ∀ i, c = some i → s.dst i = none ∨ s.dst i = some a

instance (s : Ip C) (c : Option C) (a : V6bytes) : Decidable (s.Uses c a) :=
  match c with
  | none => isTrue nofun
  | some i =>
    decidable_of_iff (s.dst i = none ∨ s.dst i = some a)
      ⟨fun h _ hj => Option.some.inj hj ▸ h, fun h => h i rfl⟩

/-- The destination that `c` is used with from now on. -/
def Ip.use [DecidableEq C] (s : Ip C) (c : Option C) (a : V6bytes) : Ip C :=
  match c with
  | none => s
  | some c => { s with dst := Function.update s.dst c (some a) }

/-- One step of the routing state. -/
def Ip.next [DecidableEq C] (s : Ip C) : Ev C → Option (Ip C)
  | .route op => s.route op
  | .create => some { s with ifcs := s.ifcs ++ [{}] }
  | .bind i =>
    some { s with ifcs := s.ifcs.modify i fun ifc => { ifc with ifcid := ifc.ifcid + 1 } }
  | .addlifc i l =>
    some { s with ifcs := s.ifcs.modify i fun ifc => { ifc with lifc := ifc.lifc ++ [l] } }
  | .remlifc i k =>
    some { s with ifcs := s.ifcs.modify i fun ifc => { ifc with lifc := ifc.lifc.eraseIdx k } }
  | .reset c =>
    some { s with conv := Function.update s.conv c {}, dst := Function.update s.dst c none }
  | .v4lookup c a junk =>
    if isV4 a = true ∧ s.Uses c a then some ((s.use c a).v4lookup (v4part a) c junk).2 else none
  | .v6lookup c a junk =>
    if s.Uses c a then some ((s.use c a).v6lookup a c junk).2 else none

/-- The runs from a state in which no conversation remembers a route. -/
def routing (C : Type) [DecidableEq C] : Lts (Ip C) (Ev C) where
  init s := ∀ c, (s.conv c).r = none ∧ s.dst c = none
  step s e s' := s.next e = some s'

/-! ## What a conversation remembers -/

/-- The node that the tables have for the destination `a`, in the forest of `p`. -/
def Ip.Finds (s : Ip C) (a : V6bytes) (p : Ptr) : Prop :=
  if p.isV4 then isV4 a = true ∧ (s.hop4 (v4part a)).map (·.ptr) = some p
  else (s.hop6 a).map (·.ptr) = some p

/-- The generation of the forest of `p`. -/
def Ip.gen (s : Ip C) (p : Ptr) : Ulong := if p.isV4 then s.v4gen else s.v6gen

/-- A remembered route of the current generation of its forest is the one for the destination. -/
def Ip.Inv (s : Ip C) : Prop :=
  ∀ c r, (s.conv c).r = some r → ∃ a, s.dst c = some a ∧
    ((s.conv c).rgen = s.gen r.ptr → r.freed = false ∧ s.Finds a r.ptr)

/-- The counter that a change of the tables steps does not come round to a generation that is still
remembered with a route of that table. -/
def Ip.NoWrap (s : Ip C) (e : Ev C) : Prop :=
  ∀ op, e = .route op → ∀ c r, (s.conv c).r = some r → r.ptr.isV4 = op.isV4 →
    (s.conv c).rgen ≠ s.gen r.ptr + 1

variable {s s' : Ip C} {a : V6bytes} {p : Ptr}

theorem Ip.finds_congr (h4 : p.isV4 = true → s'.fs.v4root = s.fs.v4root)
    (h6 : p.isV4 = false → s'.fs.v6root = s.fs.v6root) : s'.Finds a p ↔ s.Finds a p := by
  cases p with
  | v4 k => simp only [Finds, hop4, v4find, h4 rfl, Ptr.isV4, if_true]
  | v6 k => simp only [Finds, hop6, v6find, h6 rfl, Ptr.isV4, Bool.false_eq_true, if_false]

/-- A change of the interfaces or of what the nodes remember of them. -/
theorem Ip.Inv.congr (h : s.Inv) (hf : s'.fs = s.fs) (h4 : s'.v4gen = s.v4gen)
    (h6 : s'.v6gen = s.v6gen) (hc : s'.conv = s.conv) (hd : s'.dst = s.dst) : s'.Inv := by
  intro c r hr
  rw [hc] at hr ⊢
  obtain ⟨a, ha, hg⟩ := h c r hr
  refine ⟨a, by rw [hd, ha], fun hrg => ?_⟩
  obtain ⟨hfr, hfi⟩ := hg (by simpa only [gen, h4, h6] using hrg)
  exact ⟨hfr, (finds_congr (fun _ => by rw [hf]) fun _ => by rw [hf]).mpr hfi⟩

variable {op : RouteOp}

theorem RouteOp.run_other {f f' : Fs} (h : op.run f = some f') :
    (op.isV4 = false → f'.v4root = f.v4root) ∧ (op.isV4 = true → f'.v6root = f.v6root) := by
  cases op with
  | add4 | del4 =>
    obtain ⟨root, -, rfl⟩ := Option.map_eq_some_iff.mp h
    exact ⟨nofun, fun _ => rfl⟩
  | add6 | del6 =>
    obtain ⟨root, -, rfl⟩ := Option.map_eq_some_iff.mp h
    exact ⟨fun _ => rfl, nofun⟩

theorem RouteOp.frees_isV4 {f : Fs} (h : op.frees f p = true) : p.isV4 = op.isV4 := by
  cases op <;> cases p <;> first | rfl | cases h

/-- A change of the tables steps the generation of the forest that it changes, and that generation
is not remembered; the other forest stays as it was. -/
theorem Ip.Inv.route (h : s.Inv) (hw : s.NoWrap (.route op)) (he : s.route op = some s') :
    s'.Inv := by
  obtain ⟨fs, hfs, rfl⟩ := Option.map_eq_some_iff.mp he
  intro c r' hr'
  obtain ⟨r, hr, rfl⟩ := Option.map_eq_some_iff.mp hr'
  obtain ⟨d, hd, hg⟩ := h c r hr
  refine ⟨d, hd, fun hrg => ?_⟩
  by_cases hv : r.ptr.isV4 = op.isV4
  · refine absurd ?_ (hw op rfl c r hr hv)
    cases hop : op.isV4 <;> simpa [gen, hv, hop, Conv.free] using hrg
  · have hnot : op.frees s.fs r.ptr = false := by
      cases hfr : op.frees s.fs r.ptr with
      | true => exact absurd (RouteOp.frees_isV4 hfr) hv
      | false => rfl
    obtain ⟨h4, h6⟩ := RouteOp.run_other hfs
    have hv' : op.isV4 = !r.ptr.isV4 := by
      cases hop : op.isV4 <;> cases hp : r.ptr.isV4 <;> simp_all
    obtain ⟨hfr, hfi⟩ := hg (by cases hp : r.ptr.isV4 <;> simpa [gen, hp, hv', Conv.free] using hrg)
    refine ⟨by simp only [hfr, hnot, Bool.or_false], (finds_congr ?_ ?_).mpr hfi⟩
    · exact fun hp => h4 (by rw [hv', hp]; rfl)
    · exact fun hp => h6 (by rw [hv', hp]; rfl)

section Lookups

variable [DecidableEq C]

variable {c : Option C}

/-- The destination is noted before the lookup. -/
theorem Ip.Inv.use (h : s.Inv) (hu : s.Uses c a) :
    (s.use c a).Inv ∧ ∀ i, c = some i → (s.use c a).dst i = some a := by
  cases c with
  | none => exact ⟨h, nofun⟩
  | some c =>
    refine ⟨fun j r hr => ?_, fun i hi => ?_⟩
    · obtain ⟨d, hd, hg⟩ := h j r hr
      refine ⟨d, ?_, hg⟩
      by_cases hj : j = c
      · subst hj
        rcases hu j rfl with hn | ha
        · rw [hd] at hn
          cases hn
        · rw [hd] at ha
          cases ha
          exact update_self _ _ _
      · exact (update_of_ne hj _ _).trans hd
    · cases hi
      exact update_self _ _ _

variable {g : Ulong}

/-- Remembering no route, or the one that the tables have for the destination. -/
theorem Ip.Inv.cache (h : s.Inv) {o : Option Ptr} (hd : ∀ i, c = some i → s.dst i = some a)
    (ho : ∀ p, o = some p → s.Finds a p) : (s.cache c (o.map (⟨·, false⟩)) g).Inv := by
  cases c with
  | none => exact h
  | some c =>
    intro j r hr
    simp only [Ip.cache] at hr ⊢
    by_cases hj : j = c
    · subst hj
      rw [update_self] at hr
      obtain ⟨p, rfl, rfl⟩ := Option.map_eq_some_iff.mp hr
      exact ⟨a, hd j rfl, fun _ => ⟨rfl, ho p rfl⟩⟩
    · rw [update_of_ne hj] at hr
      obtain ⟨d, hdj, hg⟩ := h j r hr
      refine ⟨d, hdj, fun hrg => hg ?_⟩
      rwa [update_of_ne hj] at hrg

variable {q : Hop}

omit [DecidableEq C] in
theorem Ip.attach_fields (h : s.attach q = some s') :
    s'.fs = s.fs ∧ s'.v4gen = s.v4gen ∧ s'.v6gen = s.v6gen ∧ s'.conv = s.conv ∧ s'.dst = s.dst := by
  unfold Ip.attach at h
  split at h
  · cases h
    exact ⟨rfl, rfl, rfl, rfl, rfl⟩
  · obtain ⟨i, -, rfl⟩ := Option.map_eq_some_iff.mp h
    exact ⟨rfl, rfl, rfl, rfl, rfl⟩

variable {o : Option Hop}

theorem Ip.Inv.found (h : s.Inv) (hd : ∀ i, c = some i → s.dst i = some a)
    (ho : ∀ q, o = some q → s.Finds a q.ptr) : (s.found c g o).2.Inv := by
  cases o with
  | none => exact h.cache (o := none) hd (by simp)
  | some q =>
    simp only [Ip.found]
    cases ha : s.attach q with
    | none => exact h
    | some s' =>
      obtain ⟨hf, h4, h6, hc, hdst⟩ := Ip.attach_fields ha
      refine (h.congr hf h4 h6 hc hdst).cache (o := some q.ptr) (fun i hi => by rw [hdst, hd i hi])
        fun p hp => ?_
      cases hp
      exact (finds_congr (fun _ => by rw [hf]) fun _ => by rw [hf]).mpr (ho q rfl)

omit [DecidableEq C] in
theorem Ip.finds_hop4 (hv : isV4 a = true) (h : s.hop4 (v4part a) = some q) : s.Finds a q.ptr := by
  have hq : q.ptr.isV4 = true := by
    obtain ⟨r, -, rfl⟩ := Option.map_eq_some_iff.mp h
    rfl
  rw [Finds, if_pos hq]
  exact ⟨hv, by rw [h]; rfl⟩

omit [DecidableEq C] in
theorem Ip.finds_hop6 (h : s.hop6 a = some q) : s.Finds a q.ptr := by
  have hq : q.ptr.isV4 = false := by
    obtain ⟨r, -, rfl⟩ := Option.map_eq_some_iff.mp h
    rfl
  rw [Finds, hq, if_neg Bool.false_ne_true, h]
  rfl

theorem Ip.Inv.v4lookup (h : s.Inv) (junk : Bool) (hv : isV4 a = true)
    (hd : ∀ i, c = some i → s.dst i = some a) : (s.v4lookup (v4part a) c junk).2.Inv := by
  unfold Ip.v4lookup
  split
  · exact h
  · exact h.found hd fun q => finds_hop4 hv

theorem Ip.Inv.v6rest (h : s.Inv) (junk : Bool) (hd : ∀ i, c = some i → s.dst i = some a) :
    (s.v6rest a c junk).2.Inv := by
  unfold Ip.v6rest
  split
  · exact h
  · exact h.found hd fun q => finds_hop6

theorem Ip.found_dst (s : Ip C) (c : Option C) (g : Ulong) (o : Option Hop) :
    (s.found c g o).2.dst = s.dst := by
  cases o with
  | none => cases c <;> rfl
  | some q =>
    simp only [Ip.found]
    cases ha : s.attach q with
    | none => rfl
    | some s' =>
      obtain ⟨-, -, -, -, hd⟩ := Ip.attach_fields ha
      cases c <;> exact hd

theorem Ip.v4lookup_dst (s : Ip C) (a : V4bytes) (c : Option C) (junk : Bool) :
    (s.v4lookup a c junk).2.dst = s.dst := by
  unfold Ip.v4lookup
  split
  · rfl
  · exact found_dst _ _ _ _

theorem Ip.Inv.v6lookup (h : s.Inv) (junk : Bool) (hd : ∀ i, c = some i → s.dst i = some a) :
    (s.v6lookup a c junk).2.Inv := by
  unfold Ip.v6lookup
  split
  · next hv =>
    have h4 := h.v4lookup junk hv hd
    have hd4 := s.v4lookup_dst (v4part a) c junk
    split
    · next he =>
      rw [he] at h4
      exact h4
    · next he =>
      rw [he] at h4 hd4
      exact h4.v6rest junk fun i hi => by rw [hd4, hd i hi]
  · exact h.v6rest junk hd

/-- Every step keeps what the conversations remember in force, as long as no counter comes round
to a remembered generation. -/
theorem Ip.Inv.step {e : Ev C} (h : s.Inv) (hw : s.NoWrap e) (he : s.next e = some s') :
    s'.Inv := by
  cases e with
  | route op => exact h.route hw he
  | create | bind | addlifc | remlifc =>
    cases he
    exact h.congr rfl rfl rfl rfl rfl
  | reset c =>
    cases he
    intro j r hr
    simp only at hr
    by_cases hj : j = c
    · subst hj
      rw [update_self] at hr
      cases hr
    · rw [update_of_ne hj] at hr
      obtain ⟨d, hd, hg⟩ := h j r hr
      refine ⟨d, (update_of_ne hj _ _).trans hd, fun hrg => hg ?_⟩
      simp only [update_of_ne hj] at hrg
      exact hrg
  | v4lookup c a junk =>
    obtain ⟨⟨hv, hu⟩, he⟩ := Option.ite_none_right_eq_some.mp he
    cases he
    exact (h.use hu).1.v4lookup junk hv (h.use hu).2
  | v6lookup c a junk =>
    obtain ⟨hu, he⟩ := Option.ite_none_right_eq_some.mp he
    cases he
    exact (h.use hu).1.v6lookup junk (h.use hu).2

theorem cache_inductive : ((routing C).restrict Ip.NoWrap).Inductive Ip.Inv where
  init s hs c r hr := by
    rw [(hs c).1] at hr
    cases hr
  step s e s' h he := h.step he.2 he.1

/-! ## When the remembered route is the right one -/

/-- The node has an interface: the one that it remembers, or one that `findipifc` finds. -/
def Ip.Attached (s : Ip C) (q : Hop) : Prop :=
  s.current q.ptr = true ∨ (findipifc s.ifcs q.gate q.type).isSome = true

/-- If the check of `v4lookup` trusts a route, it is of the v4 forest, and the destination's v4 route
has an interface. -/
def Ip.Sound4 (s : Ip C) (c : C) (a : V6bytes) (junk : Bool) : Prop :=
  ∀ r, s.hit c s.v4gen junk = some r →
    r.ptr.isV4 = true ∧ ∀ q, s.hop4 (v4part a) = some q → s.Attached q

/-- If the check of `v6lookup` trusts a route, it is of the v6 forest, and the destination's v6 route
has an interface. -/
def Ip.SoundRest (s : Ip C) (c : C) (a : V6bytes) (junk : Bool) : Prop :=
  ∀ r, s.hit c s.v6gen junk = some r →
    r.ptr.isV4 = false ∧ ∀ q, s.hop6 a = some q → s.Attached q

/-- What has to be so of the checks that `v6lookup` makes. A v4 destination passes the check of
`v4lookup` first: a route of the v6 forest that it trusts must be the one that the v6 forest has,
with no v4 route before it. The second check is made on an old route when the destination's v4
route has no interface. -/
def Ip.Sound6 (s : Ip C) (c : C) (a : V6bytes) (junk : Bool) : Prop :=
  if isV4 a then
    (∀ r, s.hit c s.v4gen junk = some r →
      if r.ptr.isV4 then ∀ q, s.hop4 (v4part a) = some q → s.Attached q
      else (∀ q, s.hop4 (v4part a) = some q → ¬ s.Attached q) ∧ r.freed = false ∧
        s.Finds a r.ptr ∧ ∀ q, s.hop6 a = some q → s.Attached q) ∧
    (s.hit c s.v4gen junk = none → (∃ q, s.hop4 (v4part a) = some q ∧ ¬ s.Attached q) →
      s.SoundRest c a junk)
  else s.SoundRest c a junk

omit [DecidableEq C] in
theorem Ip.attach_some (h : s.Attached q) : ∃ s', s.attach q = some s' := by
  unfold Ip.attach
  split
  · exact ⟨s, rfl⟩
  · next hc =>
    obtain ⟨i, hi⟩ := Option.isSome_iff_exists.mp (h.resolve_left hc)
    exact ⟨_, by rw [hi]; rfl⟩

omit [DecidableEq C] in
theorem Ip.attach_none (h : ¬ s.Attached q) : s.attach q = none := by
  obtain ⟨hc, hf⟩ := not_or.mp h
  unfold Ip.attach
  rw [if_neg hc, Option.not_isSome_iff_eq_none.mp hf]
  rfl

/-- What a search of the trees returns: the node, if it has an interface. -/
theorem Ip.found_eq_some {r : Ref} :
    (s.found c g o).1 = some r ↔ ∃ q, o = some q ∧ s.Attached q ∧ r = ⟨q.ptr, false⟩ := by
  cases o with
  | none => simp [Ip.found]
  | some q =>
    simp only [Ip.found, Option.some.injEq, exists_eq_left']
    by_cases hq : s.Attached q
    · obtain ⟨s', hs⟩ := attach_some hq
      rw [hs]
      exact ⟨fun h => ⟨hq, (Option.some.inj h).symm⟩, fun h => congrArg some h.2.symm⟩
    · rw [attach_none hq]
      exact ⟨nofun, fun h => absurd h.1 hq⟩

variable {junk : Bool}

section
omit [DecidableEq C]

/-- A trusted route whose generation is that of its own table. -/
theorem Ip.Inv.hit (h : s.Inv) {c : C} (hu : s.Uses (some c) a) {r : Ref}
    (hr : s.hit c g junk = some r) (hg : s.gen r.ptr = g) : r.freed = false ∧ s.Finds a r.ptr := by
  obtain ⟨hr, hb⟩ := Option.filter_eq_some_iff.mp hr
  obtain ⟨d, hd, hf⟩ := h c r hr
  have hda : d = a := by
    rcases hu c rfl with hn | ha
    · rw [hd] at hn
      cases hn
    · rw [hd] at ha
      exact Option.some.inj ha
  subst hda
  exact hf (by rw [hg]; exact eq_of_beq (Bool.and_eq_true_iff.mp hb).2)

theorem Ip.Finds.hop4 (h : s.Finds a p) (hp : p.isV4 = true) :
    ∃ q, s.hop4 (v4part a) = some q ∧ q.ptr = p := by
  rw [Finds, if_pos hp] at h
  exact Option.map_eq_some_iff.mp h.2

theorem Ip.Finds.hop6 (h : s.Finds a p) (hp : p.isV4 = false) :
    ∃ q, s.hop6 a = some q ∧ q.ptr = p := by
  rw [Finds, hp, if_neg Bool.false_ne_true] at h
  exact Option.map_eq_some_iff.mp h

theorem Ip.hop4_isV4 {a : V4bytes} (h : s.hop4 a = some q) : q.ptr.isV4 = true := by
  obtain ⟨r, -, rfl⟩ := Option.map_eq_some_iff.mp h
  rfl

theorem Ip.hop6_isV4 (h : s.hop6 a = some q) : q.ptr.isV4 = false := by
  obtain ⟨r, -, rfl⟩ := Option.map_eq_some_iff.mp h
  rfl

end

theorem Ip.found_none (s : Ip C) (c : Option C) (g g' : Ulong) (o : Option Hop) :
    (s.found c g o).1 = (s.found none g' o).1 := by
  cases o with
  | none => rfl
  | some q =>
    simp only [Ip.found]
    cases s.attach q <;> rfl

theorem Ip.Inv.v4lookup_iff (h : s.Inv) {c : C} (hu : s.Uses (some c) a) :
    (s.v4lookup (v4part a) (some c) junk).1 = (s.v4lookup (v4part a) none junk).1 ↔
      s.Sound4 c a junk := by
  simp only [Ip.v4lookup, Option.bind_some, Option.bind_none, Sound4]
  cases hr : s.hit c s.v4gen junk with
  | none => simp [found_none s (some c) s.v4gen s.v4gen]
  | some r =>
    simp only [Option.some.injEq, forall_eq']
    rw [eq_comm, found_eq_some]
    constructor
    · rintro ⟨q, hq, hat, rfl⟩
      refine ⟨hop4_isV4 hq, fun q' hq' => ?_⟩
      rw [hq] at hq'
      cases hq'
      exact hat
    · rintro ⟨hp, hat⟩
      obtain ⟨hfr, hfi⟩ := h.hit hu hr (by rw [gen, if_pos hp])
      obtain ⟨q, hq, hqp⟩ := hfi.hop4 hp
      refine ⟨q, hq, hat q hq, ?_⟩
      rw [hqp, ← hfr]

theorem Ip.Inv.v6rest_iff (h : s.Inv) {c : C} (hu : s.Uses (some c) a) :
    (s.v6rest a (some c) junk).1 = (s.v6rest a none junk).1 ↔ s.SoundRest c a junk := by
  simp only [Ip.v6rest, Option.bind_some, Option.bind_none, SoundRest]
  cases hr : s.hit c s.v6gen junk with
  | none => simp [found_none s (some c) s.v6gen s.v6gen]
  | some r =>
    simp only [Option.some.injEq, forall_eq']
    rw [eq_comm, found_eq_some]
    constructor
    · rintro ⟨q, hq, hat, rfl⟩
      refine ⟨hop6_isV4 hq, fun q' hq' => ?_⟩
      rw [hq] at hq'
      cases hq'
      exact hat
    · rintro ⟨hp, hat⟩
      obtain ⟨hfr, hfi⟩ := h.hit hu hr (by rw [gen, hp, if_neg Bool.false_ne_true])
      obtain ⟨q, hq, hqp⟩ := hfi.hop6 hp
      refine ⟨q, hq, hat q hq, ?_⟩
      rw [hqp, ← hfr]

/-- A search that returns nothing leaves the state of an uncached lookup as it was. -/
theorem Ip.found_fail (h : ∀ q, o = some q → ¬ s.Attached q) : s.found none g o = (none, s) := by
  cases o with
  | none => rfl
  | some q => rw [Ip.found, attach_none (h q rfl)]

/-- The uncached lookup of a v4 destination whose v4 route has no interface. -/
theorem Ip.v6lookup_fail (hv : isV4 a = true) (h : ∀ q, s.hop4 (v4part a) = some q → ¬ s.Attached q)
    :
    s.v6lookup a none junk = s.v6rest a none junk := by
  simp only [Ip.v6lookup, hv, if_true, Ip.v4lookup, Option.bind_none, found_fail h]

/-- The uncached lookup of a v4 destination whose v4 route has an interface. -/
theorem Ip.v6lookup_v4 (hv : isV4 a = true) (hq : s.hop4 (v4part a) = some q) (h : s.Attached q) :
    (s.v6lookup a none junk).1 = some ⟨q.ptr, false⟩ := by
  obtain ⟨s', hs⟩ := attach_some h
  simp only [Ip.v6lookup, hv, if_true, Ip.v4lookup, Option.bind_none, hq, Ip.found, hs]

/-- A conversation that has just forgotten its route searches the v6 forest. -/
theorem Ip.v6rest_forgot (s : Ip C) (c : C) (a : V6bytes) (g : Ulong) (junk : Bool) :
    ((s.cache (some c) none g).v6rest a (some c) junk).1 = (s.v6rest a none junk).1 := by
  have hh : (s.cache (some c) none g).hit c s.v6gen junk = none := by
    simp [Ip.hit, Ip.cache]
  have hf : ∀ r, ((s.cache (some c) none g).found (some c) s.v6gen (s.hop6 a)).1 = some r ↔
      (s.found none s.v6gen (s.hop6 a)).1 = some r := by
    intro r
    rw [found_eq_some, found_eq_some]
    rfl
  simp only [Ip.v6rest, Option.bind_some, Option.bind_none]
  rw [show (s.cache (some c) none g).v6gen = s.v6gen from rfl, hh]
  exact Option.ext hf

theorem Ip.Inv.v6lookup_iff (h : s.Inv) {c : C} (hu : s.Uses (some c) a) :
    (s.v6lookup a (some c) junk).1 = (s.v6lookup a none junk).1 ↔ s.Sound6 c a junk := by
  cases hv : isV4 a with
  | false =>
    simp only [Ip.v6lookup, Sound6, hv, Bool.false_eq_true, if_false]
    exact h.v6rest_iff hu
  | true =>
    simp only [Sound6, hv, if_true]
    cases hr : s.hit c s.v4gen junk with
    | none =>
      simp only [reduceCtorEq, false_implies, implies_true, true_and, true_implies]
      cases hq : s.hop4 (v4part a) with
      | none =>
        have hc : s.v6lookup a (some c) junk =
            (s.cache (some c) none s.v4gen).v6rest a (some c) junk := by
          simp only [Ip.v6lookup, hv, if_true, Ip.v4lookup, Option.bind_some, hr, hq, Ip.found]
        rw [hc, v6rest_forgot, v6lookup_fail hv (by simp [hq])]
        simp
      | some q =>
        by_cases hat : s.Attached q
        · obtain ⟨s', hs⟩ := attach_some hat
          have hc : (s.v6lookup a (some c) junk).1 = some ⟨q.ptr, false⟩ := by
            simp only [Ip.v6lookup, hv, if_true, Ip.v4lookup, Option.bind_some, hr, hq, Ip.found,
              hs]
          rw [hc, v6lookup_v4 hv hq hat]
          simp [hat]
        · have hc : s.v6lookup a (some c) junk = s.v6rest a (some c) junk := by
            simp only [Ip.v6lookup, hv, if_true, Ip.v4lookup, Option.bind_some, hr, hq, Ip.found,
              attach_none hat]
          rw [hc, v6lookup_fail hv (by simp [hq, hat]), h.v6rest_iff hu]
          simp [hat]
    | some r =>
      simp only [Option.some.injEq, forall_eq', reduceCtorEq, false_implies, and_true]
      have hc : (s.v6lookup a (some c) junk).1 = some r := by
        simp only [Ip.v6lookup, hv, if_true, Ip.v4lookup, Option.bind_some, hr]
      rw [hc]
      by_cases hat : ∃ q, s.hop4 (v4part a) = some q ∧ s.Attached q
      · -- the tables have a v4 route
        obtain ⟨q, hq, hat⟩ := hat
        rw [v6lookup_v4 hv hq hat, Option.some.injEq, hq]
        cases hp : r.ptr.isV4 with
        | true =>
          obtain ⟨hfr, hfi⟩ := h.hit hu hr (by rw [gen, if_pos hp])
          obtain ⟨q', hq', hqp⟩ := hfi.hop4 hp
          rw [hq] at hq'
          cases hq'
          simp [hat, ← hfr, hqp]
        | false =>
          have hne : r ≠ ⟨q.ptr, false⟩ := by
            rintro rfl
            rw [hop4_isV4 hq] at hp
            cases hp
          simp [hne, hat]
      · -- the v6 forest decides
        have hno : ∀ q, s.hop4 (v4part a) = some q → ¬ s.Attached q := fun q hq h' =>
          hat ⟨q, hq, h'⟩
        rw [v6lookup_fail hv hno, eq_comm, Ip.v6rest, Option.bind_none, found_eq_some]
        cases hp : r.ptr.isV4 with
        | true =>
          obtain ⟨hfr, hfi⟩ := h.hit hu hr (by rw [gen, if_pos hp])
          obtain ⟨q', hq', -⟩ := hfi.hop4 hp
          refine iff_of_false ?_ fun h' => hno q' hq' (h' q' hq')
          rintro ⟨q, hq, -, rfl⟩
          rw [hop6_isV4 hq] at hp
          cases hp
        | false =>
          simp only [Bool.false_eq_true, if_false]
          constructor
          · rintro ⟨q, hq, hq', rfl⟩
            refine ⟨hno, rfl, finds_hop6 hq, fun q' hq'' => ?_⟩
            rw [hq] at hq''
            cases hq''
            exact hq'
          · rintro ⟨-, hfr, hfi, hq'⟩
            obtain ⟨q, hq, hqp⟩ := hfi.hop6 hp
            refine ⟨q, hq, hq' q hq, ?_⟩
            rw [hqp, ← hfr]

/-- In every run in which no counter comes round to a remembered generation: a lookup that may use
the remembered route returns what the tables have exactly when the route that it trusts is one of
the table whose generation was checked, and its interface is still there. -/
theorem lookup_cached_iff {s : Ip C} (hs : ((routing C).restrict Ip.NoWrap).Reach s) {c : C}
    {a : V6bytes} (hu : s.Uses (some c) a) (junk : Bool) :
    (isV4 a = true →
      ((s.v4lookup (v4part a) (some c) junk).1 = (s.v4lookup (v4part a) none junk).1 ↔
        s.Sound4 c a junk)) ∧
    ((s.v6lookup a (some c) junk).1 = (s.v6lookup a none junk).1 ↔ s.Sound6 c a junk) := by
  have h := cache_inductive.reach hs
  exact ⟨fun _ => h.v4lookup_iff hu, h.v6lookup_iff hu⟩

end Lookups

/-! ## Runs with a remembered route -/

private def boot : Ip Unit where
  fs := .empty
  v4gen := 0
  v6gen := 0
  ifcs := []
  att _ := {}
  conv _ := {}
  dst _ := none

/-- A v4 address in v6 form. -/
private def mapped (a b c d : UInt8) : V6bytes :=
  #v[0, 0, 0, 0, 0, 0, 0, 0, 0, 0, 0xff, 0xff, a, b, c, d]

/-- Add a v4 route. -/
private def add4 (a mask gate : V6bytes) (type : UInt8) : Ev Unit :=
  .route (.add4 (Vector.replicate 4 0) (v4part a) (v4part mask) (v4part gate) type)

private def elevenNet : V6bytes := mapped 11 0 0 1

/-- `ipifcadd` of `10.0.0.1/24` with its self addresses, seven times the v6 route of one address,
and its v4 route after a lookup: both counters are then 7. -/
private def staleRun : List (Ev Unit) :=
  let all := mapped 255 255 255 255
  let self (a : V6bytes) (type : UInt8) := add4 a all a type
  [.create, .bind 0,
    .addlifc 0 ⟨List.replicate 15 255 ++ [0], v4prefix ++ [10, 0, 0, 0]⟩,
    add4 (mapped 10 0 0 0) (mapped 255 255 255 0) (mapped 10 0 0 0) Rifc,
    self (mapped 10 0 0 1) 8, self (mapped 10 0 0 255) Rbcast, self (mapped 10 0 0 0) Rbcast,
    self (mapped 10 255 255 255) Rbcast, self all Rbcast] ++
  List.replicate 7 (.route (.add6 (Vector.replicate 4 0) elevenNet (Vector.replicate 16 255)
    (mapped 10 0 0 9) 0)) ++
  [.v6lookup (some ()) elevenNet false, add4 elevenNet all (mapped 10 0 0 9) 0]

theorem staleRun_before : ((staleRun.take 16).foldlM Ip.next boot).map (fun s =>
    ((s.conv ()).r.isNone, (s.dst ()).isNone,
      ((s.next (.v6lookup (some ()) elevenNet false)).map fun s =>
        ((s.conv ()).r.isSome, decide (s.Uses (some ()) elevenNet))))) =
    some (true, true, some (true, true)) := by
  decide +kernel

theorem lookup_cached_iff_eleven : ∃ s : Ip Unit, (s.conv ()).r.isSome = true ∧
    ((s.v6lookup elevenNet (some ()) false).1 = (s.v6lookup elevenNet none false).1 ↔
      s.Sound6 () elevenNet false) := by
  obtain ⟨s₀, -, he⟩ := Option.map_eq_some_iff.mp staleRun_before
  obtain ⟨hr, hd, he⟩ : (s₀.conv ()).r.isNone = true ∧ (s₀.dst ()).isNone = true ∧ _ := by
    simpa only [Prod.mk.injEq] using he
  obtain ⟨s, hs, he⟩ := Option.map_eq_some_iff.mp he
  obtain ⟨hc, hu⟩ := Prod.mk.inj he
  have hreach : ((routing Unit).restrict Ip.NoWrap).Reach s :=
    Lts.Reach.step ⟨[], .init fun _ => ⟨Option.isNone_iff_eq_none.mp hr,
      Option.isNone_iff_eq_none.mp hd⟩⟩ ⟨hs, nofun⟩
  exact ⟨s, hc, (lookup_cached_iff hreach (of_decide_eq_true hu) false).2⟩

theorem staleRun_ends : (staleRun.foldlM Ip.next boot).map (fun s =>
    (decide (s.Uses (some ()) elevenNet),
      (s.v6lookup elevenNet (some ()) false).1.map (·.ptr.isV4),
      (s.v6lookup elevenNet none false).1.map (·.ptr.isV4))) =
    some (true, some false, some true) := by
  decide +kernel

/-- A route of the v6 table is trusted because the v4 generation is the same number, and the v4
route that was added since is not seen. -/
theorem cache_stale : ∃ (s : Ip Unit) (a : V6bytes), (routing Unit).Reach s ∧
    s.Uses (some ()) a ∧
    (s.v6lookup a (some ()) false).1 ≠ (s.v6lookup a none false).1 := by
  obtain ⟨s, hs, he⟩ := Option.map_eq_some_iff.mp staleRun_ends
  simp only [Prod.mk.injEq, decide_eq_true_eq] at he
  refine ⟨s, elevenNet, ?_, he.1, fun h => ?_⟩
  · exact Lts.Reach.exec (fun _ _ _ h => h) ⟨[], .init fun _ => ⟨rfl, rfl⟩⟩ hs
  · rw [h, he.2.2] at he
    cases he.2.1

end NixMark.Iproute
