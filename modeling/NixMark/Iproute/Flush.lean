import Mathlib.Data.List.Nodup
import Mathlib.Data.List.Perm.Subperm
import NixMark.Iproute.Cache

/-!
# Flushing and walking the routing table

The loop of `routewrite` for `flush`, and `ipwalkroutes`. `convroute` is taken for the address and
the mask that `delroute` uses. The bit `Rv4` of a node tells how its addresses lie in memory; a node
of the other kind in a forest is none of the model's (`delroute4`, `hash4`).

* `Sound`: what the type and the reference count of a route in force are.
* `flush_spec`: the loop ends, and the forests hold the tables without the flushed routes.
* `ipwalkroutes_eq`: the walk is a walk over a list of routes, which stops when there is no room.
* `flush_exact`: both after every sequence of additions and deletions.
-/

namespace NixMark.Iproute

open Lib RouteTree

/-! ## Flushing -/

/-- `strncmp`; behind its bytes a string has a NUL. -/
def strncmp : Nat → List UInt8 → List UInt8 → Int
  | 0, _, _ => 0
  | n + 1, s, t =>
    let c := s.headD 0
    let d := t.headD 0
    if c ≠ d then if d < c then 1 else -1
    else if c = 0 then 0
    else strncmp n s.tail t.tail

/-- The test of `routeflush`; without a tag the flush is for all of them. -/
def Route.flushed {α : Type} (tag : Option (List UInt8)) (r : Route α) : Bool :=
  !r.isIfc && tag.all fun tag => strncmp 4 tag r.tag.toList = 0

/-- The address and the mask that `convroute` makes of a v4 route. -/
def v4conv (r : Route Ulong) : List UInt8 × List UInt8 :=
  ( v4prefix ++ hnputl r.address,
    List.replicate 12 0xff ++ hnputl (~~~(r.endaddress ^^^ r.address)))

/-- The address and the mask that `convroute` makes of a v6 route. -/
def v6conv (r : Route V6addr) : List UInt8 × List UInt8 :=
  (r.address.words.flatMap hnputl,
    (V6addr.zip (fun e a => ~~~(e ^^^ a)) r.endaddress r.address).words.flatMap hnputl)

/-- The array that starts with the bytes `l`. -/
def array (n : Nat) (l : List UInt8) : Vector UInt8 n := Vector.ofFn fun i => l.getD i 0

/-- `delroute` of a node of the v4 forest. -/
def delroute4 (f : Fs) (r : Route Ulong) : Option Fs :=
  if r.type &&& Rv4 ≠ 0 then
    v4delroute f (array IPv4addrlen ((v4conv r).1.drop 12))
      (array IPv4addrlen ((v4conv r).2.drop 12))
  else none

/-- `delroute` of a node of the v6 forest. -/
def delroute6 (f : Fs) (r : Route V6addr) : Option Fs :=
  if r.type &&& Rv4 ≠ 0 then none
  else v6delroute f (array IPaddrlen (v6conv r).1) (array IPaddrlen (v6conv r).2)

/-- `routeflush`: recurse until one route is deleted. -/
def routeflush {α : Type} (delroute : Fs → Route α → Option Fs) (tag : Option (List UInt8)) :
    RouteTree α → Fs → Option (Fs × Bool)
  | .nil, f => some (f, false)
  | .node r _ left mid right, f =>
    (routeflush delroute tag mid f).bind fun x =>
    if x.2 then some x
    else (routeflush delroute tag left x.1).bind fun x =>
    if x.2 then some x
    else (routeflush delroute tag right x.1).bind fun x =>
    if x.2 then some x
    else if r.flushed tag then (delroute x.1 r).map fun f => (f, true)
    else some (x.1, false)

/-- `for(changed = 1; changed;)`: the rounds for one bucket; `none` when they were not enough. -/
def flushloop (round : Fs → Option (Fs × Bool)) : Nat → Fs → Option Fs
  | 0, _ => none
  | fuel + 1, f => (round f).bind fun x => if x.2 then flushloop round fuel x.1 else some x.1

/-- `nelem(f->v4root)` -/
def nroot : Nat := 1 <<< Lroot

/-- The two loops of `routewrite`, with `fuel` rounds for each bucket. -/
def flush (fuel : Nat) (tag : Option (List UInt8)) (f : Fs) : Option Fs :=
  ((List.range nroot).foldlM (fun f h =>
      flushloop (fun f => routeflush delroute4 tag (f.v4root h) f) fuel f) f).bind fun f =>
    (List.range nroot).foldlM (fun f h =>
      flushloop (fun f => routeflush delroute6 tag (f.v6root h) f) fuel f) f

/-! ## Walking -/

/-- `Routewalk`: `walk`, and whether the buffer has room after what was written. -/
structure Routewalk (σ : Type) where
  room : σ → Bool
  walk : Found → σ → σ

variable {α σ : Type}

/-- The hash that `rr` computes for a node of the v4 forest. -/
def hash4 (r : Route Ulong) : Option Nat :=
  if r.type &&& Rv4 ≠ 0 then some (V4H r.address) else none

/-- The hash that `rr` computes for a node of the v6 forest. -/
def hash6 (r : Route V6addr) : Option Nat :=
  if r.type &&& Rv4 ≠ 0 then none else some (V6H r.address)

/-- `rr`: whether to go on. -/
def rr (hash : Route α → Option Nat) (found : Route α → Found) (rw : Routewalk σ) (h : Nat) :
    RouteTree α → σ → Bool × σ
  | .nil, s => (rw.room s, s)
  | .node r _ left mid right, s =>
    if rw.room s then
      let x := rr hash found rw h left s
      if x.1 then
        let y := rr hash found rw h mid
          (if hash r = some h then rw.walk (found r) x.2 else x.2)
        if y.1 then rr hash found rw h right y.2 else y
      else x
    else (false, s)

/-- One of the loops of `ipwalkroutes`. -/
def walkforest (hash : Route α → Option Nat) (found : Route α → Found) (rw : Routewalk σ)
    (root : Nat → RouteTree α) : List Nat → σ → σ
  | [], s => s
  | h :: hs, s =>
    let x := rr hash found rw h (root h) s
    if x.1 then walkforest hash found rw root hs x.2 else x.2

/-- `ipwalkroutes` -/
def ipwalkroutes (rw : Routewalk σ) (f : Fs) (s : σ) : σ :=
  let s := if rw.room s then walkforest hash4 .v4 rw f.v4root (List.range nroot) s else s
  if rw.room s then walkforest hash6 .v6 rw f.v6root (List.range nroot) s else s

/-! ## What a route in force is -/

/-- The type given to `v6addroute` does not have `Rv4`. -/
def RouteOp.Typed : RouteOp → Prop
  | add6 _ _ _ _ type => type &&& Rv4 = 0
  | add4 .. | del4 .. | del6 .. => True

/-- The bit `Rv4` of a route in the table, and its references: only an interface route has more
than one. -/
structure Sound (kind : UInt8) (T : Table α) : Prop where
  kind : ∀ {a b : α} {r : Route α}, T a b = some r → r.type &&& Rv4 = kind
  one_le : ∀ {a b : α} {r : Route α}, T a b = some r → 1 ≤ r.ref
  once : ∀ {a b : α} {r : Route α}, T a b = some r → r.isIfc = false → r.ref = 1

theorem Sound.empty {kind : UInt8} : Sound kind (Table.empty : Table α) where
  kind h := by simp [Table.empty] at h
  one_le h := by simp [Table.empty] at h
  once h := by simp [Table.empty] at h

theorem supercede_type (p new : Route α) :
    (supercede p new).type = p.type ∨ (supercede p new).type = new.type := by
  unfold supercede
  split_ifs
  · exact .inr rfl
  · exact .inl rfl
  · exact .inl rfl

theorem supercede_ref {p new : Route α} (h : 1 ≤ p.ref) (h' : p.isIfc = false → p.ref = 1) :
    1 ≤ (supercede p new).ref ∧ ((supercede p new).isIfc = false → (supercede p new).ref = 1) := by
  unfold supercede
  cases hp : p.isIfc with
  | false =>
    simp only [Bool.not_false, if_true]
    exact ⟨h, fun _ => h' hp⟩
  | true =>
    simp only [Bool.not_true, Bool.false_eq_true, if_false]
    split_ifs
    · refine ⟨show 1 ≤ p.ref + 1 by omega, fun hf => ?_⟩
      have hf : p.isIfc = false := hf
      rw [hp] at hf
      cases hf
    · refine ⟨h, fun hf => ?_⟩
      rw [hp] at hf
      cases hf

variable [LinearOrder α]

variable {T : Table α}

theorem Sound.set {kind : UInt8} (h : Sound kind T) (lo hi : α) {v : Option (Route α)}
    (hv : ∀ r, v = some r → r.type &&& Rv4 = kind ∧ 1 ≤ r.ref ∧ (r.isIfc = false → r.ref = 1)) :
    Sound kind (T.set lo hi v) := by
  have hall : ∀ a b r, T.set lo hi v a b = some r →
      r.type &&& Rv4 = kind ∧ 1 ≤ r.ref ∧ (r.isIfc = false → r.ref = 1) := by
    intro a b r hr
    unfold Table.set at hr
    split_ifs at hr
    · exact hv r hr
    · exact ⟨h.kind hr, h.one_le hr, h.once hr⟩
  exact ⟨fun hr => (hall _ _ _ hr).1, fun hr => (hall _ _ _ hr).2.1, fun hr => (hall _ _ _ hr).2.2⟩

theorem Sound.add {kind : UInt8} (h : Sound kind T) {new : Route α}
    (hkind : new.type &&& Rv4 = kind) (hone : new.ref = 1) : Sound kind (T.add new) := by
  refine h.set _ _ fun r hr => ?_
  cases ht : T new.address new.endaddress with
  | none =>
    rw [ht] at hr
    cases hr
    exact ⟨hkind, hone.ge, fun _ => hone⟩
  | some old =>
    rw [ht] at hr
    cases hr
    refine ⟨?_, supercede_ref (h.one_le ht) (h.once ht)⟩
    rcases supercede_type old new with e | e
    · rw [e, h.kind ht]
    · rw [e, hkind]

theorem Sound.del {kind : UInt8} (h : Sound kind T) (lo hi : α) : Sound kind (T.del lo hi) := by
  refine h.set _ _ fun r hr => ?_
  cases ht : T lo hi with
  | none =>
    rw [ht] at hr
    cases hr
  | some old =>
    simp only [ht] at hr
    have hone := h.one_le ht
    have hkind : old.type &&& Rv4 = kind := h.kind ht
    split_ifs at hr with hz
    cases hr
    exact ⟨hkind, show 1 ≤ old.ref - 1 by omega, fun hf => absurd (h.once ht hf) (by omega)⟩

theorem or_Rv4 (type : UInt8) : (Rv4 ||| type) &&& Rv4 = Rv4 := by
  apply UInt8.toBitVec_inj.mp
  apply BitVec.eq_of_getLsbD_eq
  intro i hi
  simp only [UInt8.toBitVec_and, UInt8.toBitVec_or, BitVec.getLsbD_and, BitVec.getLsbD_or]
  cases (Rv4.toBitVec.getLsbD i) <;> simp

theorem sound_run {ops : List RouteOp} (htypes : ∀ op ∈ ops, op.Typed) :
    Sound Rv4 (tables ops).v4 ∧ Sound 0 (tables ops).v6 := by
  suffices h : ∀ T : Tables, Sound Rv4 T.v4 → Sound 0 T.v6 → (∀ op ∈ ops, op.Typed) →
      Sound Rv4 (ops.foldl RouteOp.table T).v4 ∧ Sound 0 (ops.foldl RouteOp.table T).v6 from
    h _ .empty .empty htypes
  clear htypes
  induction ops with
  | nil => exact fun T h4 h6 _ => ⟨h4, h6⟩
  | cons op ops ih =>
    intro T h4 h6 htypes
    obtain ⟨hop, hops⟩ := List.forall_mem_cons.mp htypes
    rw [List.foldl_cons]
    cases op with
    | add4 tag a mask gate type => exact ih _ (h4.add (or_Rv4 type) rfl) h6 hops
    | del4 a mask => exact ih _ (h4.del _ _) h6 hops
    | add6 tag a mask gate type => exact ih _ h4 (h6.add hop rfl) hops
    | del6 a mask => exact ih _ h4 (h6.del _ _) hops

/-! ## One round -/

omit [LinearOrder α] in
/-- A round finds nothing to flush, or it deletes one route. -/
theorem routeflush_spec (delroute : Fs → Route α → Option Fs) (tag : Option (List UInt8))
    (t : RouteTree α) (f : Fs) :
    ((∀ r ∈ t.routes, r.flushed tag = false) ∧ routeflush delroute tag t f = some (f, false)) ∨
      ∃ r ∈ t.routes, r.flushed tag = true ∧
        routeflush delroute tag t f = (delroute f r).map fun f => (f, true) := by
  induction t with
  | nil => exact .inl ⟨fun r hr => absurd hr (by simp), rfl⟩
  | node p d l m r ihl ihm ihr =>
    simp only [routeflush]
    rcases ihm with ⟨hm, em⟩ | ⟨x, hx, hf, em⟩
    · rw [em]
      rcases ihl with ⟨hl, el⟩ | ⟨x, hx, hf, el⟩
      · simp only [Option.bind_some, Bool.false_eq_true, if_false, el]
        rcases ihr with ⟨hr, er⟩ | ⟨x, hx, hf, er⟩
        · simp only [Option.bind_some, Bool.false_eq_true, if_false, er]
          cases hp : p.flushed tag with
          | true => exact .inr ⟨p, by simp, hp, by rw [if_pos rfl]⟩
          | false =>
            refine .inl ⟨fun x hx => ?_, by rw [if_neg (by decide)]⟩
            rcases mem_node.mp hx with rfl | hx | hx | hx
            · exact hp
            · exact hl x hx
            · exact hm x hx
            · exact hr x hx
        · refine .inr ⟨x, by simp [hx], hf, ?_⟩
          rw [er]
          cases delroute f x <;> rfl
      · refine .inr ⟨x, by simp [hx], hf, ?_⟩
        simp only [Option.bind_some, Bool.false_eq_true, if_false, el]
        cases delroute f x <;> rfl
    · refine .inr ⟨x, by simp [hx], hf, ?_⟩
      rw [em]
      cases delroute f x <;> rfl

/-! ## The routes of a tree, in the order of the walk -/

/-- The routes in the order in which `rr` comes to them. -/
def RouteTree.inorder : RouteTree α → List (Route α)
  | .nil => []
  | .node r _ left mid right => left.inorder ++ r :: (mid.inorder ++ right.inorder)

variable {t : RouteTree α}

omit [LinearOrder α] in
theorem RouteTree.mem_inorder {x : Route α} : x ∈ t.inorder ↔ x ∈ t.routes := by
  induction t with
  | nil => exact Iff.rfl
  | node r d left mid right ihl ihm ihr =>
    rw [mem_node, RouteTree.inorder, List.mem_append, List.mem_cons, List.mem_append, ihl, ihm, ihr]
    exact or_left_comm

/-- A walk comes to a route of the tree once. -/
theorem Ordered.nodup (ot : Ordered t) : t.inorder.Nodup := by
  induction ot with
  | nil => exact .nil
  | @node p d l m r range left mid right ol om or ihl ihm ihr =>
    have hmr : List.Disjoint m.inorder r.inorder := by
      intro x hx hx'
      have hin := (mid x (mem_inorder.mp hx)).1
      exact absurd ((om.le (mem_inorder.mp hx)).trans hin.2) (right x (mem_inorder.mp hx')).not_ge
    have hp : p ∉ m.inorder ++ r.inorder := by
      intro hx
      rcases List.mem_append.mp hx with hx | hx
      · exact (mid p (mem_inorder.mp hx)).2 (Within.refl _ _)
      · exact absurd range (right p (mem_inorder.mp hx)).not_ge
    have hl : List.Disjoint l.inorder (p :: (m.inorder ++ r.inorder)) := by
      intro x hx hx'
      have hlt := left x (mem_inorder.mp hx)
      have hle := ol.le (mem_inorder.mp hx)
      rcases List.mem_cons.mp hx' with rfl | hx'
      · exact absurd range hlt.not_ge
      rcases List.mem_append.mp hx' with hx' | hx'
      · exact absurd ((mid x (mem_inorder.mp hx')).1.1.trans hle) hlt.not_ge
      · exact absurd (range.trans ((right x (mem_inorder.mp hx')).le.trans hle)) hlt.not_ge
    exact List.nodup_append'.mpr
      ⟨ihl, List.nodup_cons.mpr ⟨hp, List.nodup_append'.mpr ⟨ihm, ihr, hmr⟩⟩, hl⟩

/-! ## The address and the mask of a node -/

private theorem byte_eq (a : Ulong) : (UInt8.ofNat a.toNat).toBitVec = a.setWidth 8 := rfl

theorem nhgetl_hnputl (a : Ulong) :
    nhgetl ((hnputl a).getD 0 0) ((hnputl a).getD 1 0) ((hnputl a).getD 2 0)
      ((hnputl a).getD 3 0) = a := by
  simp only [hnputl, List.getD_cons_zero, List.getD_cons_succ, nhgetl, byte_eq]
  apply BitVec.eq_of_getLsbD_eq
  intro i hi
  simp only [BitVec.getLsbD_append, BitVec.getLsbD_setWidth, BitVec.getLsbD_ushiftRight]
  rcases Nat.lt_or_ge i 8 with h0 | h0
  · simp [h0]
  rcases Nat.lt_or_ge (i - 8) 8 with h1 | h1
  · simp [h0.not_gt, h1, show 8 + (i - 8) = i by omega]
  rcases Nat.lt_or_ge (i - 8 - 8) 8 with h2 | h2
  · simp [h0.not_gt, h1.not_gt, h2, show 16 + (i - 8 - 8) = i by omega]
  · simp [h0.not_gt, h1.not_gt, h2.not_gt, show i - 8 - 8 - 8 < 8 by omega,
      show 24 + (i - 8 - 8 - 8) = i by omega]

theorem array_get {n i : Nat} (l : List UInt8) (hi : i < n) : (array n l)[i] = l.getD i 0 := by
  rw [array, Vector.getElem_ofFn]

theorem v4get_array (l : List UInt8) (a : Ulong) (hl : l.length = 12) :
    v4get (array IPv4addrlen ((l ++ hnputl a).drop 12)) = a := by
  rw [List.drop_left' hl, v4get, array_get, array_get, array_get, array_get]
  exact nhgetl_hnputl a

theorem v6get_array (a : V6addr) : v6get (array IPaddrlen (a.words.flatMap hnputl)) = a := by
  have h0 := nhgetl_hnputl a.w0
  have h1 := nhgetl_hnputl a.w1
  have h2 := nhgetl_hnputl a.w2
  have h3 := nhgetl_hnputl a.w3
  simp only [v6get, array_get]
  exact congr (congr (congr (congrArg V6addr.mk h0) h1) h2) h3

/-- `delroute` computes the range of the node. -/
theorem v4range_conv {r : Route Ulong} (h : V4block r.address r.endaddress) :
    v4range (array IPv4addrlen ((v4conv r).1.drop 12)) (array IPv4addrlen ((v4conv r).2.drop 12)) =
      (r.address, r.endaddress) := by
  obtain ⟨ha, he⟩ := mask_of_ends (IsBlock.and_eq h)
  simp only [v4range, v4conv]
  rw [v4get_array _ _ rfl, v4get_array _ _ rfl, ha, he]

theorem v6range_conv {r : Route V6addr} (h : V6block r.address r.endaddress) :
    v6range (array IPaddrlen (v6conv r).1) (array IPaddrlen (v6conv r).2) =
      (r.address, r.endaddress) := by
  have hand : V6addr.zip (fun x y => x &&& y) r.address r.endaddress = r.address := by
    apply V6addr.bits_inj
    rw [V6addr.bits_and, IsBlock.and_eq h]
  have h0 : r.address.w0 &&& r.endaddress.w0 = r.address.w0 := congrArg V6addr.w0 hand
  have h1 : r.address.w1 &&& r.endaddress.w1 = r.address.w1 := congrArg V6addr.w1 hand
  have h2 : r.address.w2 &&& r.endaddress.w2 = r.address.w2 := congrArg V6addr.w2 hand
  have h3 : r.address.w3 &&& r.endaddress.w3 = r.address.w3 := congrArg V6addr.w3 hand
  simp only [v6range, v6conv, v6get_array, V6addr.zip, mask_of_ends h0, mask_of_ends h1,
    mask_of_ends h2, mask_of_ends h3]

/-! ## The loops -/

/-- What `delroute` does to one of the forests: the route's deletion, and nothing to `other`. -/
def Deletes {β : Type} (P : α → α → Prop) (H : α → Nat) (kind : UInt8)
    (view : Fs → Nat → RouteTree α) (other : Fs → β) (delroute : Fs → Route α → Option Fs) : Prop :=
  ∀ {T : Table α} {f : Fs} {r : Route α}, Rep P H T (view f) → T.Has r → r.type &&& Rv4 = kind →
    ∃ f', delroute f r = some f' ∧ Rep P H (T.del r.address r.endaddress) (view f') ∧
      other f' = other f

theorem delroute4_deletes : Deletes V4block V4H Rv4 Fs.v4root Fs.v6root delroute4 := by
  intro T f r h hr hkind
  have hblock := (h.range hr).1
  obtain ⟨root', e, h'⟩ := h.del v4Family (rangeRoute r.address r.endaddress Rv4) ⟨rfl, rfl⟩ hblock
  refine ⟨{ f with v4root := root' }, ?_, h', rfl⟩
  rw [delroute4, hkind, if_pos (by decide), v4delroute, v4range_conv hblock]
  exact congrArg (Option.map _) e

theorem delroute6_deletes : Deletes V6block V6H 0 Fs.v6root Fs.v4root delroute6 := by
  intro T f r h hr hkind
  have hblock := (h.range hr).1
  obtain ⟨root', e, h'⟩ := h.del v6Family (rangeRoute r.address r.endaddress 0) ⟨rfl, rfl⟩ hblock
  refine ⟨{ f with v6root := root' }, ?_, h', rfl⟩
  rw [delroute6, hkind, if_neg (by decide), v6delroute, v6range_conv hblock]
  exact congrArg (Option.map _) e

/-- `T'` is `T` without some of the routes that are to be flushed. -/
def Thinned (tag : Option (List UInt8)) (T T' : Table α) : Prop :=
  ∀ a b, T' a b = T a b ∨ (T' a b = none ∧ ∃ r, T a b = some r ∧ r.flushed tag = true)

variable {T' : Table α}

omit [LinearOrder α] in
theorem Thinned.trans {tag : Option (List UInt8)} {T'' : Table α} (h : Thinned tag T T')
    (h' : Thinned tag T' T'') : Thinned tag T T'' := by
  intro a b
  rcases h' a b with e' | ⟨e', r, hr, hf⟩
  · rw [e']
    exact h a b
  · rcases h a b with e | ⟨e, -⟩
    · exact .inr ⟨e', r, e ▸ hr, hf⟩
    · rw [e] at hr
      cases hr

variable {r : Route α}

omit [LinearOrder α] in
theorem Thinned.of_some {tag : Option (List UInt8)} (h : Thinned tag T T') {a b : α}
    (hr : T' a b = some r) : T a b = some r := by
  rcases h a b with e | ⟨e, -⟩
  · exact e ▸ hr
  · rw [e] at hr
    cases hr

omit [LinearOrder α] in
theorem Thinned.sound {tag : Option (List UInt8)} {kind : UInt8} (h : Thinned tag T T')
    (hs : Sound kind T) : Sound kind T' where
  kind hr := hs.kind (h.of_some hr)
  one_le hr := hs.one_le (h.of_some hr)
  once hr := hs.once (h.of_some hr)

/-- Deleting a route that is to be flushed takes its only reference. -/
theorem Thinned.del {tag : Option (List UInt8)} {kind : UInt8} (hs : Sound kind T) (hr : T.Has r)
    (hf : r.flushed tag = true) :
    Thinned tag T (T.del r.address r.endaddress) ∧
      T.del r.address r.endaddress r.address r.endaddress = none := by
  have hifc : r.isIfc = false := by
    unfold Route.flushed at hf
    cases hi : r.isIfc with
    | false => rfl
    | true => simp [hi] at hf
  have hgone : T.del r.address r.endaddress r.address r.endaddress = none := by
    unfold Table.del
    rw [Table.set_self, show T r.address r.endaddress = some r from hr]
    simp [hs.once hr hifc]
  refine ⟨fun a b => ?_, hgone⟩
  by_cases he : a = r.address ∧ b = r.endaddress
  · obtain ⟨rfl, rfl⟩ := he
    exact .inr ⟨hgone, r, hr, hf⟩
  · exact .inl (T.set_ne _ he)

omit [LinearOrder α] in
/-- A route that is not to be flushed stays. -/
theorem Thinned.keeps {tag : Option (List UInt8)} (h : Thinned tag T T') {a b : α}
    (hr : T a b = some r) (hf : r.flushed tag = false) : T' a b = some r := by
  rcases h a b with e | ⟨-, x, hx, hx'⟩
  · rw [e, hr]
  · rw [hr] at hx
    cases hx
    rw [hf] at hx'
    cases hx'

section Loops

variable {β : Type} {P : α → α → Prop} {H : α → Nat} {kind : UInt8}
  {view : Fs → Nat → RouteTree α} {other : Fs → β} {delroute : Fs → Route α → Option Fs}
  (tag : Option (List UInt8))

variable {f : Fs}

/-- The result of a round for the bucket `h`: nothing to flush, or one route less in the bucket. -/
theorem round_spec (D : Deletes P H kind view other delroute) (h : Nat) (hrep : Rep P H T (view f))
    (hs : Sound kind T) :
    (routeflush delroute tag (view f h) f = some (f, false) ∧
      ∀ r ∈ (view f h).routes, r.flushed tag = false) ∨
    ∃ f' T', routeflush delroute tag (view f h) f = some (f', true) ∧ Rep P H T' (view f') ∧
      Thinned tag T T' ∧ other f' = other f ∧
      (view f' h).inorder.length < (view f h).inorder.length := by
  rcases routeflush_spec delroute tag (view f h) f with
    ⟨hnone, e⟩ | ⟨r, hr, hf, e⟩
  · exact .inl ⟨e, hnone⟩
  obtain ⟨hhas, hlo, hhi⟩ := (hrep.mem h r).mp hr
  obtain ⟨f', e', hrep', hother⟩ := D hrep hhas (hs.kind hhas)
  obtain ⟨hthin, hgone⟩ := Thinned.del hs hhas hf
  refine .inr ⟨f', _, by rw [e, e']; rfl, hrep', hthin, hother, ?_⟩
  -- the routes that are left were there, and the deleted one is not among them
  have hnot : r ∉ (view f' h).inorder := by
    intro hx
    have hhas' : T.del r.address r.endaddress r.address r.endaddress = some r :=
      ((hrep'.mem h r).mp (mem_inorder.mp hx)).1
    rw [hgone] at hhas'
    cases hhas'
  have hsub : r :: (view f' h).inorder ⊆ (view f h).inorder := by
    refine List.cons_subset.mpr ⟨mem_inorder.mpr hr, fun x hx => ?_⟩
    obtain ⟨hx, hb⟩ := (hrep'.mem h x).mp (mem_inorder.mp hx)
    exact mem_inorder.mpr ((hrep.mem h x).mpr ⟨hthin.of_some hx, hb⟩)
  exact (List.subperm_of_subset
    (List.nodup_cons.mpr ⟨hnot, (hrep'.ordered h).nodup⟩) hsub).length_le

/-- The rounds for the bucket `h` come to an end, by the number of its routes. -/
theorem flushloop_spec (D : Deletes P H kind view other delroute) (h : Nat)
    (hrep : Rep P H T (view f)) (hs : Sound kind T) :
    ∃ n f' T', (∀ k, n ≤ k →
        flushloop (fun f => routeflush delroute tag (view f h) f) k f = some f') ∧
      Rep P H T' (view f') ∧ Thinned tag T T' ∧ other f' = other f ∧
      ∀ r ∈ (view f' h).routes, r.flushed tag = false := by
  induction hlen : (view f h).inorder.length using Nat.strong_induction_on generalizing T f with
  | _ m ih =>
    rcases round_spec tag D h hrep hs with
      ⟨e, hnone⟩ | ⟨f₁, T₁, e, hrep₁, hthin₁, hother₁, hlt⟩
    · refine ⟨1, f, T, fun k hk => ?_, hrep, fun a b => .inl rfl, rfl, hnone⟩
      obtain ⟨k, rfl⟩ := Nat.exists_eq_add_of_le' hk
      rw [flushloop, e]
      rfl
    · obtain ⟨n, f', T', hk', hrep', hthin, hother, hnone⟩ :=
        ih _ (hlen ▸ hlt) hrep₁ (hthin₁.sound hs) rfl
      refine ⟨n + 1, f', T', fun k hk => ?_, hrep', hthin₁.trans hthin, hother.trans hother₁, hnone⟩
      obtain ⟨k, rfl⟩ := Nat.exists_eq_add_of_le' hk
      rw [← Nat.add_assoc, flushloop, e]
      exact hk' (k + n) (by omega)

/-- The buckets `hs` one after the other: none of them has a route to flush afterwards. -/
theorem buckets_spec (D : Deletes P H kind view other delroute) (hs : List Nat)
    (hrep : Rep P H T (view f)) (hsound : Sound kind T) :
    ∃ n f' T', (∀ k, n ≤ k → hs.foldlM (fun f h =>
        flushloop (fun f => routeflush delroute tag (view f h) f) k f) f = some f') ∧
      Rep P H T' (view f') ∧ Thinned tag T T' ∧ other f' = other f ∧
      ∀ h ∈ hs, ∀ r ∈ (view f' h).routes, r.flushed tag = false := by
  induction hs generalizing T f with
  | nil => exact ⟨0, f, T, fun k _ => rfl, hrep, fun a b => .inl rfl, rfl, by simp⟩
  | cons h hs ih =>
    obtain ⟨n₁, f₁, T₁, hk₁, hrep₁, hthin₁, hother₁, hnone₁⟩ :=
      flushloop_spec tag D h hrep hsound
    obtain ⟨n₂, f₂, T₂, hk₂, hrep₂, hthin₂, hother₂, hnone₂⟩ := ih hrep₁ (hthin₁.sound hsound)
    refine ⟨max n₁ n₂, f₂, T₂, fun k hk => ?_, hrep₂, hthin₁.trans hthin₂,
      hother₂.trans hother₁, fun h' hh' r hr => ?_⟩
    · rw [List.foldlM_cons, hk₁ k (le_trans (le_max_left _ _) hk)]
      exact hk₂ k (le_trans (le_max_right _ _) hk)
    · rcases List.mem_cons.mp hh' with rfl | hh'
      · -- later rounds only take routes away
        obtain ⟨hx, hb⟩ := (hrep₂.mem _ r).mp hr
        exact hnone₁ r ((hrep₁.mem _ r).mpr ⟨hthin₂.of_some hx, hb⟩)
      · exact hnone₂ h' hh' r hr

end Loops

/-- The table without the flushed routes. -/
def Table.flush (tag : Option (List UInt8)) (T : Table α) : Table α :=
  fun a b => (T a b).filter fun r => !r.flushed tag

variable {root : Nat → RouteTree α}

theorem Thinned.flush {P : α → α → Prop} {H : α → Nat} {tag : Option (List UInt8)} (F : Family P H)
    (hH : ∀ a, H a < nroot) (h : Thinned tag T T') (hrep : Rep P H T' root)
    (hnone : ∀ h ∈ List.range nroot, ∀ r ∈ (root h).routes, r.flushed tag = false) :
    T' = T.flush tag := by
  funext a b
  cases hr : T a b with
  | none =>
    rcases h a b with e | ⟨e, -⟩
    · rw [e, Table.flush, hr]
      rfl
    · rw [e, Table.flush, hr]
      rfl
  | some r =>
    rw [Table.flush, hr]
    cases hf : r.flushed tag with
    | false =>
      rw [h.keeps hr hf, Option.filter_some, hf]
      rfl
    | true =>
      rw [Option.filter_some, hf]
      rcases h a b with e | ⟨e, -⟩
      · -- the route would be in the bucket of its first address
        obtain ⟨hblock, rfl, rfl⟩ := hrep.range (e.trans hr)
        have hin : r ∈ (root (H r.address)).routes := (hrep.mem _ r).mpr
          ⟨e.trans hr, le_rfl, (F.hash hblock (F.le hblock) le_rfl).1⟩
        have hno := hnone _ (List.mem_range.mpr (hH _)) r hin
        rw [hf] at hno
        cases hno
      · exact e

theorem V4H_lt (a : Ulong) : V4H a < nroot := by
  rw [V4H_eq, field, Nat.div_lt_iff_lt_mul (by decide)]
  exact Nat.mod_lt _ (by decide)

theorem V6H_lt (a : V6addr) : V6H a < nroot := V4H_lt a.w3

/-- The tables without the flushed routes. -/
def Tables.flush (tag : Option (List UInt8)) (T : Tables) : Tables :=
  ⟨T.v4.flush tag, T.v6.flush tag⟩

/-- The loops of `routewrite` end, and the forests hold the tables without the flushed routes. -/
theorem flush_spec {T : Tables} {f : Fs} (h : Forest T f) (h4 : Sound Rv4 T.v4)
    (h6 : Sound 0 T.v6) (tag : Option (List UInt8)) :
    ∃ n f', (∀ k, n ≤ k → flush k tag f = some f') ∧ Forest (T.flush tag) f' := by
  obtain ⟨n₁, f₁, T₁, hk₁, hrep₁, hthin₁, hother₁, hnone₁⟩ :=
    buckets_spec tag delroute4_deletes (List.range nroot) h.v4 h4
  obtain ⟨n₂, f₂, T₂, hk₂, hrep₂, hthin₂, hother₂, hnone₂⟩ :=
    buckets_spec tag delroute6_deletes (List.range nroot)
      (T := T.v6) (f := f₁) (by rw [hother₁]; exact h.v6) h6
  refine ⟨max n₁ n₂, f₂, fun k hk => ?_, ?_, ?_⟩
  · unfold Iproute.flush
    rw [hk₁ k (le_trans (le_max_left _ _) hk), Option.bind_some]
    exact hk₂ k (le_trans (le_max_right _ _) hk)
  · have he : T₁ = (T.flush tag).v4 := hthin₁.flush v4Family V4H_lt hrep₁ hnone₁
    rw [hother₂, ← he]
    exact hrep₁
  · have he : T₂ = (T.flush tag).v6 := hthin₂.flush v6Family V6H_lt hrep₂ hnone₂
    rw [← he]
    exact hrep₂

/-! ## The walk -/

omit [LinearOrder α]

/-- The walk over a list of routes: it stops when there is no room. -/
def through (rw : Routewalk σ) : List Found → σ → σ
  | [], s => s
  | r :: L, s => if rw.room s then through rw L (rw.walk r s) else s

theorem through_cons (rw : Routewalk σ) (r : Found) (L : List Found) (s : σ) :
    through rw (r :: L) s = if rw.room s then through rw L (rw.walk r s) else s := rfl

theorem through_full {rw : Routewalk σ} {s : σ} (h : rw.room s = false) (L : List Found) :
    through rw L s = s := by
  cases L with
  | nil => rfl
  | cons r L => rw [through_cons, h, if_neg (by decide)]

theorem through_append (rw : Routewalk σ) (L L' : List Found) (s : σ) :
    through rw (L ++ L') s = through rw L' (through rw L s) := by
  induction L generalizing s with
  | nil => rfl
  | cons r L ih =>
    simp only [List.cons_append, through_cons]
    cases h : rw.room s with
    | true => exact ih _
    | false => exact (through_full h L').symm

/-- With room after each of the routes, the walk is for all of them. -/
theorem through_room {rw : Routewalk σ} {L : List Found} {s : σ}
    (h : ∀ k, rw.room ((L.take k).foldl (fun s r => rw.walk r s) s) = true) :
    through rw L s = L.foldl (fun s r => rw.walk r s) s := by
  induction L generalizing s with
  | nil => rfl
  | cons r L ih =>
    have hroom : rw.room s = true := h 0
    rw [through_cons, if_pos hroom, List.foldl_cons]
    exact ih fun k => h (k + 1)

/-- The routes of the tree in the bucket `h` that the walk is for. -/
def visits (hash : Route α → Option Nat) (found : Route α → Found) (h : Nat) (t : RouteTree α) :
    List Found :=
  (t.inorder.filter fun r => hash r = some h).map found

theorem rr_spec (hash : Route α → Option Nat) (found : Route α → Found) (rw : Routewalk σ) (h : Nat)
    (t : RouteTree α) (s : σ) :
    rr hash found rw h t s = (rw.room (through rw (visits hash found h t) s),
      through rw (visits hash found h t) s) := by
  induction t generalizing s with
  | nil => rfl
  | node r d left mid right ihl ihm ihr =>
    cases hroom : rw.room s with
    | false =>
      rw [through_full hroom, hroom, rr, hroom]
      rfl
    | true =>
      have happend : visits hash found h (.node r d left mid right) =
          visits hash found h left ++ ((if hash r = some h then [found r] else []) ++
            (visits hash found h mid ++ visits hash found h right)) := by
        simp only [visits, inorder, List.filter_append, List.map_append, List.filter_cons]
        split <;> simp_all
      rw [happend, through_append, rr, hroom, if_pos rfl, ihl]
      generalize through rw (visits hash found h left) s = s₁
      cases hroom₁ : rw.room s₁ with
      | false =>
        rw [through_full hroom₁, hroom₁]
        rfl
      | true =>
        have hself : through rw (if hash r = some h then [found r] else []) s₁ =
            if hash r = some h then rw.walk (found r) s₁ else s₁ := by
          split
          · rw [through_cons, if_pos hroom₁]
            rfl
          · rfl
        rw [through_append, through_append, hself]
        simp only [if_true, ihm]
        generalize through rw (visits hash found h mid)
          (if hash r = some h then rw.walk (found r) s₁ else s₁) = s₂
        cases hroom₂ : rw.room s₂ with
        | false =>
          rw [through_full hroom₂, hroom₂]
          rfl
        | true => exact ihr s₂

theorem walkforest_spec (hash : Route α → Option Nat) (found : Route α → Found) (rw : Routewalk σ)
    (root : Nat → RouteTree α) (hs : List Nat) (s : σ) :
    walkforest hash found rw root hs s =
      through rw (hs.flatMap fun h => visits hash found h (root h)) s := by
  induction hs generalizing s with
  | nil => rfl
  | cons h hs ih =>
    rw [walkforest, rr_spec, List.flatMap_cons, through_append]
    generalize through rw (visits hash found h (root h)) s = s₁
    cases hroom : rw.room s₁ with
    | false => exact (through_full hroom _).symm
    | true => exact ih s₁

/-- The routes that `ipwalkroutes` visits, in their order. -/
def visited (f : Fs) : List Found :=
  ((List.range nroot).flatMap fun h => visits hash4 .v4 h (f.v4root h)) ++
    (List.range nroot).flatMap fun h => visits hash6 .v6 h (f.v6root h)

theorem ipwalkroutes_eq (rw : Routewalk σ) (f : Fs) (s : σ) :
    ipwalkroutes rw f s = through rw (visited f) s := by
  have hif : ∀ (L : List Found) (s : σ), (if rw.room s then through rw L s else s) =
      through rw L s := by
    intro L s
    cases h : rw.room s with
    | false => exact (through_full h L).symm
    | true => rfl
  simp only [ipwalkroutes, visited, through_append, walkforest_spec, hif]

section Visits

variable {hash : Route α → Option Nat} {found : Route α → Found}

theorem mem_visits {h : Nat} {x : Found} :
    x ∈ visits hash found h t ↔ ∃ r ∈ t.routes, hash r = some h ∧ found r = x := by
  simp only [visits, List.mem_map, List.mem_filter, mem_inorder, decide_eq_true_eq, and_assoc]

/-- Each route is visited in the bucket of its first address only. -/
theorem visits_nodup [LinearOrder α] (hinj : Function.Injective found) (ho : ∀ h, Ordered (root h))
    {hs : List Nat} (hn : hs.Nodup) : (hs.flatMap fun h => visits hash found h (root h)).Nodup := by
  refine List.nodup_flatMap.mpr ⟨fun h _ => ((ho h).nodup.filter _).map hinj, ?_⟩
  refine hn.imp fun {a b} hab x hx hx' => ?_
  obtain ⟨r, -, hr, rfl⟩ := mem_visits.mp hx
  obtain ⟨r', -, hr', he⟩ := mem_visits.mp hx'
  rw [hinj he, hr] at hr'
  exact hab (Option.some.inj hr')

/-- The walk is for the routes of the table. -/
theorem mem_visits_iff [LinearOrder α] {P : α → α → Prop} {H : α → Nat}
    (hinj : Function.Injective found) (F : Family P H) (hH : ∀ a, H a < nroot) (h : Rep P H T root)
    (hhash : ∀ r, T.Has r → hash r = some (H r.address)) (r : Route α) :
    found r ∈ ((List.range nroot).flatMap fun h => visits hash found h (root h)) ↔ T.Has r := by
  rw [List.mem_flatMap]
  constructor
  · rintro ⟨b, -, hx⟩
    obtain ⟨r', hr', -, he⟩ := mem_visits.mp hx
    rw [← hinj he]
    exact ((h.mem b r').mp hr').1
  · intro hhas
    have hblock := (h.range hhas).1
    exact ⟨H r.address, List.mem_range.mpr (hH _), mem_visits.mpr ⟨r, (h.mem _ r).mpr
      ⟨hhas, le_rfl, (F.hash hblock (F.le hblock) le_rfl).1⟩, hhash r hhas, rfl⟩⟩

end Visits

theorem v4_injective : Function.Injective Found.v4 := fun _ _ h => Found.v4.inj h

theorem v6_injective : Function.Injective Found.v6 := fun _ _ h => Found.v6.inj h

/-- `L` has each route of the tables once, and no others. -/
structure Once (T : Tables) (L : List Found) : Prop where
  nodup : L.Nodup
  v4 : ∀ r, .v4 r ∈ L ↔ T.v4.Has r
  v6 : ∀ r, .v6 r ∈ L ↔ T.v6.Has r

/-- The walk is for each route of the tables once, although it is in many buckets. -/
theorem visited_once {T : Tables} {f : Fs} (h : Forest T f) (h4 : Sound Rv4 T.v4)
    (h6 : Sound 0 T.v6) : Once T (visited f) := by
  have hash4_eq : ∀ r, T.v4.Has r → hash4 r = some (V4H r.address) := by
    intro r hr
    rw [hash4, h4.kind hr, if_pos (by decide)]
  have hash6_eq : ∀ r, T.v6.Has r → hash6 r = some (V6H r.address) := by
    intro r hr
    rw [hash6, h6.kind hr, if_neg (by decide)]
  have hv4 : ∀ x ∈ (List.range nroot).flatMap fun h => visits hash4 .v4 h (f.v4root h),
      ∃ r, x = .v4 r := by
    intro x hx
    obtain ⟨b, -, hx⟩ := List.mem_flatMap.mp hx
    obtain ⟨r, -, -, rfl⟩ := mem_visits.mp hx
    exact ⟨r, rfl⟩
  have hv6 : ∀ x ∈ (List.range nroot).flatMap fun h => visits hash6 .v6 h (f.v6root h),
      ∃ r, x = .v6 r := by
    intro x hx
    obtain ⟨b, -, hx⟩ := List.mem_flatMap.mp hx
    obtain ⟨r, -, -, rfl⟩ := mem_visits.mp hx
    exact ⟨r, rfl⟩
  refine ⟨?_, fun r => ?_, fun r => ?_⟩
  · refine List.nodup_append'.mpr ⟨visits_nodup v4_injective h.v4.ordered List.nodup_range,
      visits_nodup v6_injective h.v6.ordered List.nodup_range, fun x hx hx' => ?_⟩
    obtain ⟨r, rfl⟩ := hv4 x hx
    obtain ⟨r', he⟩ := hv6 _ hx'
    cases he
  · rw [visited, List.mem_append, mem_visits_iff v4_injective v4Family V4H_lt h.v4 hash4_eq]
    refine or_iff_left fun hx => ?_
    obtain ⟨r', he⟩ := hv6 _ hx
    cases he
  · rw [visited, List.mem_append, mem_visits_iff v6_injective v6Family V6H_lt h.v6 hash6_eq]
    refine or_iff_right fun hx => ?_
    obtain ⟨r', he⟩ := hv4 _ hx
    cases he

theorem Sound.flush {kind : UInt8} (h : Sound kind T) (tag : Option (List UInt8)) :
    Sound kind (T.flush tag) := by
  have hsome : ∀ {a b : α} {r : Route α}, T.flush tag a b = some r → T a b = some r :=
    fun hr => (Option.filter_eq_some_iff.mp hr).1
  exact ⟨fun hr => h.kind (hsome hr), fun hr => h.one_le (hsome hr), fun hr => h.once (hsome hr)⟩

theorem flushed_eq_false {tag : Option (List UInt8)} : r.flushed tag = false ↔
    r.isIfc = true ∨ ∃ t, tag = some t ∧ strncmp 4 t r.tag.toList ≠ 0 := by
  unfold Route.flushed
  cases r.isIfc with
  | true => simp
  | false =>
    cases tag with
    | none => simp
    | some t => simp

theorem Table.has_flush {tag : Option (List UInt8)} :
    (T.flush tag).Has r ↔ T.Has r ∧
      (r.isIfc = true ∨ ∃ t, tag = some t ∧ strncmp 4 t r.tag.toList ≠ 0) := by
  rw [← flushed_eq_false]
  unfold Table.Has Table.flush
  rw [Option.filter_eq_some_iff, Bool.not_eq_true']

/-- A route is in some bucket if and only if it is in the table. -/
theorem Rep.exists_mem [LinearOrder α] {P : α → α → Prop} {H : α → Nat} (F : Family P H)
    (h : Rep P H T root) : (∃ b, r ∈ (root b).routes) ↔ T.Has r := by
  refine ⟨fun ⟨b, hr⟩ => ((h.mem b r).mp hr).1, fun hr => ?_⟩
  have hblock := (h.range hr).1
  exact ⟨H r.address, (h.mem _ r).mpr ⟨hr, le_rfl, (F.hash hblock (F.le hblock) le_rfl).1⟩⟩

/-- After every sequence of additions and deletions of contiguous prefixes, and for every tag or
none: enough rounds end the flush, the forests hold the routes that are of an interface or have
another tag, and with room in the buffer a walk visits each of these once. -/
theorem flush_exact (ops : List RouteOp) (hops : ∀ op ∈ ops, op.Contiguous)
    (htypes : ∀ op ∈ ops, op.Typed) (tag : Option (List UInt8)) :
    ∃ f f' n, runRoutes ops = some f ∧ (∀ k, n ≤ k → flush k tag f = some f') ∧
      Forest ((tables ops).flush tag) f' ∧
      (∀ r, (∃ h, r ∈ (f'.v4root h).routes) ↔ (tables ops).v4.Has r ∧
        (r.isIfc = true ∨ ∃ t, tag = some t ∧ strncmp 4 t r.tag.toList ≠ 0)) ∧
      (∀ r, (∃ h, r ∈ (f'.v6root h).routes) ↔ (tables ops).v6.Has r ∧
        (r.isIfc = true ∨ ∃ t, tag = some t ∧ strncmp 4 t r.tag.toList ≠ 0)) ∧
      ∃ L : List Found, L.Nodup ∧ (∀ r, .v4 r ∈ L ↔ ∃ h, r ∈ (f'.v4root h).routes) ∧
        (∀ r, .v6 r ∈ L ↔ ∃ h, r ∈ (f'.v6root h).routes) ∧
        ∀ (σ : Type) (rw : Routewalk σ) (s : σ),
          (∀ k, rw.room ((L.take k).foldl (fun s r => rw.walk r s) s) = true) →
          ipwalkroutes rw f' s = L.foldl (fun s r => rw.walk r s) s := by
  obtain ⟨f, hrun, hforest⟩ := forest_run hops
  obtain ⟨h4, h6⟩ := sound_run htypes
  obtain ⟨n, f', hflush, hforest'⟩ := flush_spec hforest h4 h6 tag
  have honce : Once ((tables ops).flush tag) (visited f') :=
    visited_once hforest' (h4.flush tag) (h6.flush tag)
  have hmem4 := fun r => hforest'.v4.exists_mem v4Family (r := r)
  have hmem6 := fun r => hforest'.v6.exists_mem v6Family (r := r)
  refine ⟨f, f', n, hrun, hflush, hforest', fun r => ?_, fun r => ?_, visited f', honce.nodup,
    fun r => ?_, fun r => ?_, fun σ rw s hroom => ?_⟩
  · rw [hmem4]
    exact Table.has_flush
  · rw [hmem6]
    exact Table.has_flush
  · rw [hmem4]
    exact honce.v4 r
  · rw [hmem6]
    exact honce.v6 r
  · rw [ipwalkroutes_eq]
    exact through_room hroom

/-- An interface route, and two routes with tags: `flush` of one tag. -/
private def tagged : List RouteOp :=
  [.add4 (array 4 [105, 102, 99]) (array 4 [10, 1]) (array 4 [255, 255]) (array 4 [10, 0, 0, 1]) Rifc,
   .add4 (array 4 [114, 105, 112]) (array 4 [10]) (array 4 [255]) (array 4 [10, 0, 0, 2]) 0,
   .add4 (array 4 [98, 103, 112]) (array 4 []) (array 4 []) (array 4 [10, 0, 0, 3]) 0]

theorem flush_exact_tagged : ∃ f f' n, runRoutes tagged = some f ∧
    (∀ k, n ≤ k → flush k (some [114, 105, 112]) f = some f') ∧
      Forest ((tables tagged).flush (some [114, 105, 112])) f' := by
  obtain ⟨f, f', n, hrun, hflush, hforest, -⟩ := flush_exact tagged (by
    simp only [tagged, List.mem_cons, List.not_mem_nil, or_false, forall_eq_or_imp, forall_eq]
    exact ⟨⟨16, by decide, by decide⟩, ⟨8, by decide, by decide⟩, ⟨0, by decide, by decide⟩⟩) (by
    simp only [tagged, List.mem_cons, List.not_mem_nil, or_false, forall_eq_or_imp, forall_eq]
    exact ⟨trivial, trivial, trivial⟩) (some [114, 105, 112])
  exact ⟨f, f', n, hrun, hflush, hforest⟩

end NixMark.Iproute
